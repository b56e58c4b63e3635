import Mathlib.Data.List.Nodup
import EbpfJit.Layout

/-!
# Acceptance

Which programs the compiler accepts, and what it makes of them.

* `exists_compiled`: what the blocks of a compiled program contain (`Compiled`);
* `wellTerminated_iff`: its blocks are well terminated if the last one ends with a
  branch (`LastOk`), and `closed`: they only branch to each other;
* `Accepts.inputOk`: what is required of accepted programs (`InputOk`).
-/

namespace EbpfJit

open Ir Ir.Builder

variable {x : CompilerXDP} {extFuncNames lddwHelpers : List String} {patch : Bool}

/-! ## Closing the blocks -/

/-- The code of a block with exactly one terminator, at its end. -/
def Ended {ι σ : Type} (code : List (Instr ι σ)) : Prop :=
  ∃ body t, code = body ++ [t] ∧ t.isTerminator = true ∧ ∀ i ∈ body, i.isTerminator = false

theorem terminator_of_noTerminator {ι σ : Type} {code : List (Instr ι σ)}
    (h : NoTerminator code) : terminator code = none := by
  rw [terminator, Option.filter_eq_none_iff]
  intro i hi
  rw [h i (List.mem_of_getLast? hi)]
  simp

theorem terminator_of_ended {ι σ : Type} {code : List (Instr ι σ)} (h : Ended code) :
    (terminator code).isSome = true := by
  obtain ⟨body, t, rfl, ht, _⟩ := h
  simp [terminator, ht]

/-- The verifier that only rejects blocks that are not well terminated. -/
def Verifier.shape : Verifier where
  verifyModule _ F := !F.blocks.all fun l =>
    match (F.code l).reverse with
    | [] => false
    | t :: body => t.isTerminator && body.all fun i => !i.isTerminator
  wellTerminated := by
    intro S F h l hl
    rw [Bool.not_eq_false', List.all_eq_true] at h
    have hl' := h l hl
    cases hr : (F.code l).reverse with
    | nil => simp [hr] at hl'
    | cons t body =>
      rw [hr, Bool.and_eq_true, List.all_eq_true] at hl'
      refine ⟨body.reverse, t, ?_, hl'.1, fun i hi => ?_⟩
      · rw [← List.reverse_reverse (F.code l), hr, List.reverse_cons]
      · simpa using hl'.2 i (List.mem_reverse.1 hi)
  not_broken := by
    intro S F h _ _
    rw [Bool.not_eq_false', List.all_eq_true]
    intro l hl
    obtain ⟨body, t, hcode, ht, hbody⟩ := h l hl
    rw [hcode, List.reverse_append]
    simpa [ht] using hbody

/-- The block after `l`. -/
def nextIn : List Lbl → Lbl → Option Lbl
  | a :: b :: rest, l => if a = l then some b else nextIn (b :: rest) l
  | _, _ => none

theorem nextIn_of_notMem {ls : List Lbl} {l : Lbl} (h : l ∉ ls) : nextIn ls l = none := by
  induction ls with
  | nil => rfl
  | cons a ls ih =>
    cases ls with
    | nil => rfl
    | cons b ls =>
      rw [List.mem_cons, not_or] at h
      rw [nextIn, if_neg (Ne.symm h.1), ih h.2]

/-- Closing the blocks makes every one without a terminator go on to the next. -/
theorem closeBlocks_apply {ls : List Lbl} (h : ls.Nodup) (code : Lbl → List (Instr Lbl Slot))
    (l : Lbl) :
    closeBlocks ls code l =
      match nextIn ls l with
      | none => code l
      | some next => if (terminator (code l)).isNone then code l ++ [.br next] else code l := by
  induction ls generalizing code with
  | nil => rfl
  | cons a ls ih =>
    cases ls with
    | nil => rfl
    | cons b ls =>
      rw [List.nodup_cons] at h
      rw [closeBlocks, ih h.2, nextIn]
      by_cases hal : a = l
      · subst hal
        rw [nextIn_of_notMem h.1, if_pos rfl]
        by_cases ht : (terminator (code a)).isNone = true <;> simp [ht]
      · rw [if_neg hal]
        by_cases ht : (terminator (code a)).isNone = true <;> simp [ht, Ne.symm hal]

/-- The block after the one of the instruction `b`. -/
def nextBegin (insns : List EbpfInst) (b : ℕ) : Option ℕ :=
  (beginList insns).find? fun t => b < t

theorem nextBegin_eq_some {insns : List EbpfInst} {b t : ℕ} (h : nextBegin insns b = some t) :
    Begins insns t ∧ b < t ∧ ∀ u, b < u → u < t → ¬Begins insns u := by
  rw [nextBegin, beginList, List.find?_filter, List.find?_range_eq_some] at h
  obtain ⟨ht, hlt, hmin⟩ := h
  simp only [decide_eq_true_eq] at ht
  refine ⟨ht.1, ht.2, fun u hbu hut hu => ?_⟩
  have := hmin u hut
  simp [hu, hbu] at this

theorem nextBegin_eq_none {insns : List EbpfInst} {b t : ℕ} (h : nextBegin insns b = none)
    (ht : Begins insns t) : t ≤ b := by
  rw [nextBegin, List.find?_eq_none] at h
  simpa using h t (mem_beginList.2 ht)

theorem nodup_allBlocks (insns : List EbpfInst) :
    (Lbl.setupBlock :: (beginList insns).map .inst).Nodup := by
  refine List.nodup_cons.2 ⟨by simp, List.Nodup.map (fun a b h => by cases h; rfl) ?_⟩
  exact List.Nodup.filter _ List.nodup_range

theorem nextIn_map_inst {l : List ℕ} (hl : l.Pairwise (· < ·)) {b : ℕ} (hb : b ∈ l) :
    nextIn (l.map .inst) (.inst b) = (l.find? fun t => b < t).map .inst := by
  induction l with
  | nil => cases hb
  | cons a l ih =>
    rw [List.pairwise_cons] at hl
    rcases List.mem_cons.1 hb with rfl | hb'
    · cases l with
      | nil => simp [nextIn]
      | cons c l => simp [nextIn, hl.1 c (List.mem_cons_self)]
    · have hab := hl.1 b hb'
      have hf : (a :: l).find? (fun t => decide (b < t)) = l.find? fun t => b < t := by
        rw [List.find?_cons_of_neg (by simpa using hab.le)]
      cases l with
      | nil => cases hb'
      | cons c l =>
        rw [hf, ← ih hl.2 hb']
        simp [nextIn, hab.ne]

/-- The order of the blocks. -/
theorem nextIn_inst {insns : List EbpfInst} {b : ℕ} (hb : Begins insns b) :
    nextIn (.setupBlock :: (beginList insns).map .inst) (.inst b) =
      (nextBegin insns b).map .inst := by
  have hsorted : (beginList insns).Pairwise (· < ·) :=
    List.Pairwise.filter _ List.pairwise_lt_range
  have hmem := mem_beginList.2 hb
  rw [nextBegin, ← nextIn_map_inst hsorted hmem]
  cases hl : beginList insns with
  | nil => rw [hl] at hmem; cases hmem
  | cons a l => simp [nextIn]

theorem nextIn_setupBlock {insns : List EbpfInst} (h : insns ≠ []) :
    nextIn (.setupBlock :: (beginList insns).map .inst) .setupBlock = some (.inst 0) := by
  obtain ⟨l, hl⟩ : ∃ l, beginList insns = 0 :: l := by
    rw [beginList]
    cases insns with
    | nil => exact absurd rfl h
    | cons i insns =>
      rw [List.length_cons, List.range_succ_eq_map, List.filter_cons_of_pos]
      · exact ⟨_, rfl⟩
      · simpa using begins_zero h
  simp [hl, nextIn]

/-! ## Instructions that leave their block -/

/-- The code of the instruction ends with a branch. -/
def Leaves (inst : EbpfInst) : Prop :=
  ∃ c, switchCase inst.code = some c ∧ (branches 0 inst c).isSome = true

/-- Whether it does so does not depend on where the instruction is. -/
theorem isSome_branches (pc pc' : ℕ) (inst : EbpfInst) (c : SwitchCase) :
    (branches pc inst c).isSome = (branches pc' inst c).isSome := by
  cases c with
  | call => simp only [branches]; split <;> rfl
  | _ => rfl

/-- The cases of the jump classes. -/
def SwitchCase.isJump : SwitchCase → Bool
  | .ja | .call | .exit | .jcond _ | .jset => true
  | _ => false

theorem SwitchCase.isJump_of_branches {pc : ℕ} {inst : EbpfInst} {c : SwitchCase}
    (h : (branches pc inst c).isSome = true) : c.isJump = true := by
  cases c <;> first | rfl | cases h

theorem isJmp_of_switchCase {inst : EbpfInst} {c : SwitchCase} (h : switchCase inst.code = some c)
    (hc : c.isJump = true) : isJmp inst = true := by
  have hcls := of_switchCase (P := fun c n => !c.isJump || Nat.beq n 5 || Nat.beq n 6)
    (by decide +kernel) h
  rw [hc, Bool.not_true, Bool.false_or, Bool.or_eq_true] at hcls
  rw [isJmp, Bool.or_eq_true, beq_iff_eq, beq_iff_eq]
  exact hcls.imp (fun h => BitVec.eq_of_toNat_eq (Nat.eq_of_beq_eq_true h))
    fun h => BitVec.eq_of_toNat_eq (Nat.eq_of_beq_eq_true h)

/-- An instruction that leaves its block is in one of the jump classes. -/
theorem isJmp_of_leaves {inst : EbpfInst} (h : Leaves inst) : isJmp inst = true :=
  let ⟨_, hc, hb⟩ := h
  isJmp_of_switchCase hc (SwitchCase.isJump_of_branches hb)

theorem not_leaves_of_lddw {inst : EbpfInst} (h : inst.code = EBPF_OP_LDDW) : ¬Leaves inst := by
  rintro ⟨c, hc, hb⟩
  rw [h, switchCase_lddw] at hc
  cases hc
  cases hb

/-- The code of an instruction ends with its only terminator, or has none. -/
theorem CodeShape.ended {pc : ℕ} {inst : EbpfInst} {code : List (Instr Lbl Slot)}
    (h : CodeShape pc inst code) (hl : Leaves inst) : Ended code := by
  obtain ⟨c, hc, hb⟩ := hl
  obtain ⟨c', body, t, hc', hcode, hbody, ht⟩ := h.of_not_quiet fun hq =>
    not_leaves_of_lddw hq.1 ⟨c, hc, hb⟩
  rw [hc] at hc'
  cases hc'
  rw [isSome_branches 0 pc] at hb
  obtain ⟨succs, hs⟩ := Option.isSome_iff_exists.1 hb
  rw [hs] at ht
  exact ⟨body, t, hcode, ht.1, hbody⟩

theorem CodeShape.noTerminator {pc : ℕ} {inst : EbpfInst} {code : List (Instr Lbl Slot)}
    (h : CodeShape pc inst code) (hl : ¬Leaves inst) : NoTerminator code := by
  by_cases hq : Quiet inst
  · rw [h.nil_of_quiet hq]
    exact noTerminator_nil
  · obtain ⟨c, body, t, hc, rfl, hbody, ht⟩ := h.of_not_quiet hq
    have hb : branches pc inst c = none := by
      rw [← Option.not_isSome_iff_eq_none]
      exact fun hb => hl ⟨c, hc, by rwa [isSome_branches 0 pc]⟩
    rw [hb] at ht
    exact hbody.append fun i hi => by rwa [List.mem_singleton.1 hi]

/-! ## The blocks that are not for instructions -/

/-- The contents of the blocks before the emission loop. -/
structure FixedBlocks (p : Program) (base : Lbl → List (Instr Lbl Slot)) : Prop where
  setup : ∃ n, emitSetupBlock 0 = .ok ((), n, base .setupBlock)
  exit : ∃ n n', emitExitBlock n = .ok ((), n', base .exitBlock)
  localRet : ∃ n n', emitLocalRetBlock (p.localFuncRetBlks.map (·.2)) n =
    .ok ((), n', base .localRetBlock)
  inst : ∀ i, base (.inst i) = []

theorem straight_emitSetupBlock : Straight emitSetupBlock := by
  refine Straight.bind (Straight.forM fun _ => straight_emitVoid rfl) fun _ =>
    Straight.bind (straight_emit fun _ => rfl) fun _ =>
    Straight.bind (straight_emit fun _ => rfl) fun _ =>
    (straight_emitVoid rfl).bind fun _ => (straight_emitVoid rfl).bind fun _ =>
    (straight_emitVoid rfl).bind fun _ => (straight_emitVoid rfl).bind fun _ =>
    (straight_emitVoid rfl).bind fun _ => straight_emitVoid rfl

theorem endsWith_emitExitBlock : EndsWith (IsLast (some [])) emitExitBlock :=
  Straight.bind_endsWith (straight_emit fun _ => rfl) fun _ => endsWith_emitVoid ⟨rfl, rfl⟩

theorem endsWith_emitLocalRetBlock (dests : List Lbl) :
    EndsWith (IsLast (some dests)) (emitLocalRetBlock dests) := by
  refine Straight.bind_endsWith (straight_emit fun _ => rfl) fun _ =>
    (straight_emitCallStackItem _ _).bind_endsWith fun _ =>
    Straight.bind_endsWith (straight_emit fun _ => rfl) fun _ =>
    (Straight.forM fun _ => ?_).bind_endsWith fun _ =>
    (straight_createBinOp _ _ _).bind_endsWith fun _ =>
    (straight_emitVoid rfl).bind_endsWith fun _ =>
    Straight.bind_endsWith (straight_emit fun _ => rfl) fun _ =>
    (straight_createBinOp _ _ _).bind_endsWith fun _ =>
    (straight_emitVoid rfl).bind_endsWith fun _ => endsWith_emitVoid ⟨rfl, rfl⟩
  exact (straight_emitCallStackItem _ _).bind fun _ =>
    Straight.bind (straight_emit fun _ => rfl) fun _ => straight_emitVoid rfl

theorem emitFixedBlocks_ok (p : Program) : ∃ s, emitFixedBlocks p = .ok s ∧
    FixedBlocks p s.code ∧ s.currBB = .inst 0 ∧ s.log = [] := by
  obtain ⟨_, n₁, setup, h₁, _⟩ := straight_emitSetupBlock 0
  obtain ⟨_, n₂, b₂, t₂, h₂, _⟩ := endsWith_emitExitBlock n₁
  obtain ⟨_, n₃, b₃, t₃, h₃, _⟩ :=
    endsWith_emitLocalRetBlock (p.localFuncRetBlks.map (·.2)) n₂
  have he : ∃ s, emitFixedBlocks p = .ok s ∧ s.code .setupBlock = setup ∧
      s.code .exitBlock = b₂ ++ [t₂] ∧ s.code .localRetBlock = b₃ ++ [t₃] ∧
      (∀ i, s.code (.inst i) = []) ∧ s.currBB = .inst 0 ∧ s.log = [] := by
    rw [emitFixedBlocks, h₁]
    simp only [bind, Except.bind, h₂, h₃]
    exact ⟨_, rfl, rfl, rfl, rfl, fun i => rfl, rfl, rfl⟩
  obtain ⟨s, hs, e₁, e₂, e₃, hi, hblk, hlog⟩ := he
  exact ⟨s, hs, ⟨⟨n₁, e₁ ▸ h₁⟩, ⟨n₁, n₂, e₂ ▸ h₂⟩, ⟨n₂, n₃, e₃ ▸ h₃⟩, hi⟩, hblk, hlog⟩

namespace FixedBlocks

variable {p : Program} {base : Lbl → List (Instr Lbl Slot)}

theorem noTerminator_setup (h : FixedBlocks p base) : NoTerminator (base .setupBlock) := by
  obtain ⟨n, he⟩ := h.setup
  obtain ⟨_, _, code, he', hc⟩ := straight_emitSetupBlock 0
  rw [he] at he'
  cases he'
  exact hc

theorem exit_eq (h : FixedBlocks p base) : ∃ body t, base .exitBlock = body ++ [t] ∧
    NoTerminator body ∧ IsLast (some []) t := by
  obtain ⟨n, n', he⟩ := h.exit
  obtain ⟨_, _, body, t, he', hc⟩ := endsWith_emitExitBlock n
  rw [he] at he'
  exact ⟨body, t, (Prod.mk.inj (Prod.mk.inj (Except.ok.inj he')).2).2, hc⟩

theorem localRet_eq (h : FixedBlocks p base) : ∃ body t, base .localRetBlock = body ++ [t] ∧
    NoTerminator body ∧ IsLast (some (p.localFuncRetBlks.map (·.2))) t := by
  obtain ⟨n, n', he⟩ := h.localRet
  obtain ⟨_, _, body, t, he', hc⟩ := endsWith_emitLocalRetBlock (p.localFuncRetBlks.map (·.2)) n
  rw [he] at he'
  exact ⟨body, t, (Prod.mk.inj (Prod.mk.inj (Except.ok.inj he')).2).2, hc⟩

end FixedBlocks

/-! ## Compiled programs -/

/-- What the compiler makes of a program: all of its instructions, laid out over
    the blocks that `base` is the start of. -/
structure Compiled (x : CompilerXDP) (extFuncNames lddwHelpers : List String) (patch : Bool)
    (base : Lbl → List (Instr Lbl Slot)) (M : Module) : Prop where
  nonempty : x.insts ≠ []
  length_lt : x.insts.length < 65536
  prog_eq : M.prog = prepared x extFuncNames lddwHelpers
  fixed : FixedBlocks (prepared x extFuncNames lddwHelpers) base
  log : IsLog x extFuncNames lddwHelpers patch base M.log
  full : pcAfter x.insts M.log = x.insts.length
  blocks_eq : M.fn.blocks =
    (.setupBlock :: (beginList x.insts).map .inst) ++ [.exitBlock, .localRetBlock]
  code_eq : M.fn.code =
    closeBlocks (.setupBlock :: (beginList x.insts).map .inst) (contents base M.log)

theorem loopInv_zero {s : EmitState} (hb : s.currBB = .inst 0) (hl : s.log = []) :
    LoopInv x extFuncNames lddwHelpers patch s.code 0 s where
  log := hl ▸ .nil
  pc_eq := by rw [hl]; rfl
  block := by rw [hb, hl]; rfl
  code := by funext l; simp [hl, contents]

/-- A successful compilation gives a compiled program. -/
theorem exists_compiled {fuel : ℕ} {M : Module}
    (h : emitModule x extFuncNames lddwHelpers patch fuel = some (.ok M)) :
    ∃ base, Compiled x extFuncNames lddwHelpers patch base M := by
  rw [emitModule] at h
  have hne : x.insts ≠ [] := by
    rintro hnil
    rw [hnil] at h
    cases h
  rw [if_neg (by simpa using hne)] at h
  -- With that much fuel, the first two passes do end, if they do at all.
  have hn : x.insts.length < 65536 := by
    by_contra hge
    rw [prepare_eq_none (Nat.not_lt.1 hge)] at h
    cases h
  cases hp : prepare x extFuncNames lddwHelpers fuel with
  | none => rw [hp] at h; cases h
  | some r =>
    have hr : r = .ok (prepared x extFuncNames lddwHelpers) := by
      have := prepare_mono hp (Nat.le_max_left fuel (x.insts.length + 1))
      rw [prepare_eq hn (by omega)] at this
      exact (Option.some.inj this).symm
    subst hr
    obtain ⟨s, hs, hfixed, hblk, hlog⟩ :=
      emitFixedBlocks_ok (prepared x extFuncNames lddwHelpers)
    simp only [hp, emitInsns, hs] at h
    cases hrun : CountedLoop.run 16 (prepared x extFuncNames lddwHelpers).insns.length
        (emitBody x (prepared x extFuncNames lddwHelpers) patch) fuel 0 s with
    | none => rw [hrun] at h; cases h
    | some r =>
      cases r with
      | error e => rw [hrun] at h; cases h
      | ok s' =>
        rw [hrun] at h
        -- What is compiled is what the loop leaves, by its invariant.
        have hs' := loopInv_of_run hn (loopInv_zero hblk hlog) hrun
        have hM := (Except.ok.inj (Option.some.inj h)).symm
        subst hM
        exact ⟨s.code, hne, hn, rfl, hfixed, hs'.log, hs'.pc_eq.symm, rfl, by rw [hs'.code]; rfl⟩

/-- Legal instructions are compiled. -/
theorem emitModule_ok (hne : x.insts ≠ []) (hn : x.insts.length < 65536)
    (hlegal : ∀ t < x.insts.length, ¬IsSlot x.insts t →
      LegalAt x extFuncNames lddwHelpers patch t) {fuel : ℕ} (hfuel : x.insts.length < fuel) :
    ∃ M, emitModule x extFuncNames lddwHelpers patch fuel = some (.ok M) := by
  obtain ⟨s, hs, _, hblk, hlog⟩ := emitFixedBlocks_ok (prepared x extFuncNames lddwHelpers)
  obtain ⟨s', hrun⟩ := run_emitBody_ok hn (loopInv_zero hblk hlog) hlegal hfuel
  rw [emitModule, if_neg (by simpa using hne), prepare_eq hn hfuel]
  simp only [emitInsns, hs]
  rw [show (prepared x extFuncNames lddwHelpers).insns.length = x.insts.length from rfl, hrun]
  exact ⟨_, rfl⟩

/-! ## Well-terminated blocks -/

/-- The last block of the program ends with a branch: it is not the empty block of
    a slot, and the last instruction leaves it. -/
def LastOk (insns : List EbpfInst) : Prop :=
  (∀ t, Begins insns t → IsSlot insns t → ∃ t', t < t' ∧ Begins insns t') ∧
    ¬IsSlot insns (insns.length - 1) ∧ Leaves (insnAt insns (insns.length - 1))

/-- If no block of a slot is the last one, another block comes after each of them. -/
theorem exists_not_isSlot {insns : List EbpfInst}
    (h : ∀ t, Begins insns t → IsSlot insns t → ∃ t', t < t' ∧ Begins insns t') {t : ℕ}
    (ht : Begins insns t) : ∃ u, t ≤ u ∧ Begins insns u ∧ ¬IsSlot insns u := by
  induction hk : insns.length - t using Nat.strongRecOn generalizing t with
  | ind k ih =>
    by_cases hs : IsSlot insns t
    · obtain ⟨t', hlt, ht'⟩ := h t ht hs
      have := ht.1
      obtain ⟨u, hle, hu⟩ := ih (insns.length - t') (by omega) ht' rfl
      exact ⟨u, by omega, hu⟩
    · exact ⟨t, le_refl t, ht, hs⟩

section

variable {base : Lbl → List (Instr Lbl Slot)} {log : List Visit} {v : Visit}

/-- After an instruction that leaves its block, the next one begins another. -/
theorem begins_of_leaves {insns : List EbpfInst} {pc : ℕ} (hl : Leaves (insnAt insns pc))
    (h : nextPc pc (insnAt insns pc) < insns.length) :
    Begins insns (nextPc pc (insnAt insns pc)) := by
  have hcode : ¬(insnAt insns pc).code = EBPF_OP_LDDW := fun hc => not_leaves_of_lddw hc hl
  rw [nextPc, if_neg hcode] at h ⊢
  exact begins_after_jmp h (isJmp_of_leaves hl)

/-- Every block has at most one terminator, at its end: there is one in the
    current block if the last instruction has left it. -/
theorem IsLog.ended_or_noTerminator (h : IsLog x extFuncNames lddwHelpers patch base log)
    (hbase : ∀ i, base (.inst i) = []) :
    (∀ i, Ended (contents base log (.inst i)) ∨ NoTerminator (contents base log (.inst i))) ∧
      ∀ v ∈ log.getLast?,
        (Leaves (insnAt x.insts v.pc) → Ended (contents base log v.block)) ∧
        (¬Leaves (insnAt x.insts v.pc) → NoTerminator (contents base log v.block)) := by
  induction h with
  | nil =>
    exact ⟨fun i => .inr (by simp [contents, hbase, noTerminator_nil]), fun v hv => by cases hv⟩
  | @concat log u hl hu ih =>
    have hlog := IsLog.concat hl hu
    have hmem : u ∈ log ++ [u] := List.mem_append_right _ (List.mem_singleton_self u)
    have hcontents : contents base (log ++ [u]) u.block = contents base log u.block ++ u.code := by
      have e : contents base (log ++ [u]) u.block = contents base log u.block ++ (u.code ++
          (([] : List Visit).filter fun w => decide (w.block = u.block)).flatMap (·.code)) :=
        contents_split u
      simpa using e
    -- What is in the block before falls through to the visit.
    have hbefore : NoTerminator (contents base log u.block) := by
      by_cases hbeg : Begins x.insts u.pc
      · have hstart := hlog.start_of_begins hmem hbase hbeg
        rw [hu.start_eq, List.length_eq_zero_iff] at hstart
        rw [hstart]
        exact noTerminator_nil
      · rw [hu.block_eq, if_neg hbeg]
        rcases List.eq_nil_or_concat log with rfl | ⟨log', l, rfl⟩
        · simp [contents, hbase, noTerminator_nil]
        · rw [List.concat_eq_append] at hl hu ih ⊢
          rw [blockAfter_concat]
          refine (ih.2 l (by simp)).2 fun hleave => hbeg ?_
          have hpc : u.pc = nextPc l.pc (insnAt x.insts l.pc) := by
            rw [hu.pc_eq, pcAfter_concat]
          rw [hpc]
          exact begins_of_leaves hleave (hpc ▸ hu.pc_lt)
    have hlast : (Leaves (insnAt x.insts u.pc) → Ended (contents base (log ++ [u]) u.block)) ∧
        (¬Leaves (insnAt x.insts u.pc) →
          NoTerminator (contents base (log ++ [u]) u.block)) := by
      rw [hcontents]
      refine ⟨fun hleave => ?_, fun hleave => hbefore.append (hu.shape.noTerminator hleave)⟩
      obtain ⟨body, t, hcode, ht, hbody⟩ := hu.shape.ended hleave
      exact ⟨contents base log u.block ++ body, t, by rw [hcode, List.append_assoc], ht,
        hbefore.append hbody⟩
    refine ⟨fun i => ?_, fun v hv => ?_⟩
    · by_cases hblk : u.block = .inst i
      · rw [← hblk]
        by_cases hleave : Leaves (insnAt x.insts u.pc)
        · exact .inl (hlast.1 hleave)
        · exact .inr (hlast.2 hleave)
      · have : contents base (log ++ [u]) (.inst i) = contents base log (.inst i) := by
          rw [contents_append]
          simp [hblk]
        rw [this]
        exact ih.1 i
    · rw [List.getLast?_concat, Option.mem_some_iff] at hv
      subst hv
      exact hlast

end

namespace Compiled

variable {base : Lbl → List (Instr Lbl Slot)} {M : Module}

/-- The code of the block of the instruction `b`. -/
theorem code_inst (h : Compiled x extFuncNames lddwHelpers patch base M) {b : ℕ}
    (hb : Begins x.insts b) :
    M.fn.code (.inst b) =
      match nextBegin x.insts b with
      | none => contents base M.log (.inst b)
      | some t =>
        if (terminator (contents base M.log (.inst b))).isNone then
          contents base M.log (.inst b) ++ [.br (.inst t)]
        else contents base M.log (.inst b) := by
  rw [h.code_eq, closeBlocks_apply (nodup_allBlocks _), nextIn_inst hb]
  cases nextBegin x.insts b <;> rfl

theorem code_setupBlock (h : Compiled x extFuncNames lddwHelpers patch base M) :
    M.fn.code .setupBlock = base .setupBlock ++ [.br (.inst 0)] := by
  have hc : contents base M.log .setupBlock = base .setupBlock := by
    have : M.log.filter (fun v => decide (v.block = .setupBlock)) = [] := by
      refine List.filter_eq_nil_iff.2 ?_
      intro v hv
      obtain ⟨b, _, hb, _⟩ := h.log.block_spec hv
      simp [hb]
    simp [contents, this]
  rw [h.code_eq, closeBlocks_apply (nodup_allBlocks _), nextIn_setupBlock h.nonempty, hc,
    terminator_of_noTerminator h.fixed.noTerminator_setup]
  rfl

/-- The blocks that are not closed are as they were at first. -/
theorem code_other (h : Compiled x extFuncNames lddwHelpers patch base M) {l : Lbl}
    (hs : l ≠ .setupBlock) (hi : ∀ i, l ≠ .inst i) : M.fn.code l = base l := by
  have hc : contents base M.log l = base l := by
    have : M.log.filter (fun v => decide (v.block = l)) = [] := by
      refine List.filter_eq_nil_iff.2 ?_
      intro v hv
      obtain ⟨b, _, hb, _⟩ := h.log.block_spec hv
      simpa [hb] using (hi b.pc).symm
    simp [contents, this]
  have hnot : l ∉ Lbl.setupBlock :: (beginList x.insts).map .inst := by
    simp only [List.mem_cons, List.mem_map, not_or, not_exists, not_and]
    exact ⟨hs, fun i _ => (hi i).symm⟩
  rw [h.code_eq, closeBlocks_apply (nodup_allBlocks _), nextIn_of_notMem hnot, hc]

/-- A block of a slot has no instructions. -/
theorem contents_of_isSlot (h : Compiled x extFuncNames lddwHelpers patch base M) {t : ℕ}
    (ht : IsSlot x.insts t) : contents base M.log (.inst t) = [] := by
  have : M.log.filter (fun v => decide (v.block = .inst t)) = [] := by
    refine List.filter_eq_nil_iff.2 ?_
    intro v hv
    obtain ⟨b, hb, hbv, _⟩ := h.log.block_spec hv
    have hbt : b.pc ≠ t := fun heq => h.log.not_isSlot hb (heq ▸ ht)
    simpa [hbv] using hbt
  rw [contents, this, h.fixed.inst]
  rfl

theorem exists_visit (h : Compiled x extFuncNames lddwHelpers patch base M) {t : ℕ}
    (ht : t < x.insts.length) (hs : ¬IsSlot x.insts t) : ∃ v ∈ M.log, v.pc = t :=
  h.log.exists_visit (h.full ▸ ht) hs

/-- The last visit of the compilation. -/
theorem exists_last (h : Compiled x extFuncNames lddwHelpers patch base M) :
    ∃ v ∈ M.log.getLast?, v ∈ M.log ∧ nextPc v.pc (insnAt x.insts v.pc) = x.insts.length := by
  rcases List.eq_nil_or_concat M.log with hnil | ⟨log, v, hlog⟩
  · have := h.full
    rw [hnil, pcAfter_nil] at this
    exact absurd (List.length_eq_zero_iff.1 this.symm) h.nonempty
  · rw [List.concat_eq_append] at hlog
    refine ⟨v, by rw [hlog]; simp, by rw [hlog]; simp, ?_⟩
    rw [← h.full, hlog, pcAfter_concat]

/-- The last block is the one of the last visit, unless it is the one of a slot. -/
theorem block_of_nextBegin_eq_none (h : Compiled x extFuncNames lddwHelpers patch base M)
    {b : ℕ} {v : Visit} (hb : Begins x.insts b) (hs : ¬IsSlot x.insts b)
    (hnone : nextBegin x.insts b = none) (hv : v ∈ M.log)
    (hlast : nextPc v.pc (insnAt x.insts v.pc) = x.insts.length) : v.block = .inst b := by
  obtain ⟨u, hu, rfl⟩ := h.exists_visit hb.1 hs
  obtain ⟨b', _, _, hbeg, _, hall⟩ := h.log.block_spec hv
  rw [← h.log.block_of_begins hu hb]
  refine (hall u hu (nextBegin_eq_none hnone hbeg) ?_).symm
  by_contra hlt
  -- There is no visit after the last one.
  have := h.log.nextPc_le_pc hu (Nat.not_le.1 hlt)
  have := h.log.pc_lt hu
  omega

theorem ended_of_nextBegin (h : Compiled x extFuncNames lddwHelpers patch base M) {b t : ℕ}
    (hb : Begins x.insts b) (ht : nextBegin x.insts b = some t) :
    Ended (M.fn.code (.inst b)) := by
  rw [h.code_inst hb, ht]
  rcases (h.log.ended_or_noTerminator h.fixed.inst).1 b with he | he
  · simp only [Option.isNone_iff_eq_none]
    rw [if_neg]
    · exact he
    · exact fun hn => by simpa [hn] using terminator_of_ended he
  · rw [terminator_of_noTerminator he]
    exact ⟨_, _, rfl, rfl, he⟩

/-- The blocks of a compiled program are well terminated if the last one is. -/
theorem wellTerminated_iff (h : Compiled x extFuncNames lddwHelpers patch base M) :
    M.fn.WellTerminated ↔ LastOk x.insts := by
  obtain ⟨v, hv, hmem, hlast⟩ := h.exists_last
  have hvlt := h.log.pc_lt hmem
  have hshape := (h.log.ended_or_noTerminator h.fixed.inst).2 v hv
  constructor
  · intro hwt
    have hended {b : ℕ} (hb : Begins x.insts b) (hnone : nextBegin x.insts b = none) :
        Ended (contents base M.log (.inst b)) := by
      have hl : Lbl.inst b ∈ M.fn.blocks := by
        rw [h.blocks_eq]
        simp [mem_beginList.2 hb]
      obtain ⟨body, t, hcode, ht, hbody⟩ := hwt _ hl
      rw [h.code_inst hb, hnone] at hcode
      exact ⟨body, t, hcode, ht, hbody⟩
    have hslot : ∀ t, Begins x.insts t → IsSlot x.insts t →
        ∃ t', t < t' ∧ Begins x.insts t' := by
      intro t ht hs
      cases hnext : nextBegin x.insts t with
      | none =>
        obtain ⟨body, i, hcode, _⟩ := hended ht hnext
        rw [h.contents_of_isSlot hs] at hcode
        simp at hcode
      | some t' => exact ⟨t', (nextBegin_eq_some hnext).2.1, (nextBegin_eq_some hnext).1⟩
    -- The last block is the one of the last visit.
    have hv_ended : Ended (contents base M.log v.block) := by
      obtain ⟨b, hb, hbv, hbeg, hle, hall⟩ := h.log.block_spec hmem
      rw [hbv]
      refine hended hbeg ?_
      cases hnext : nextBegin x.insts b.pc with
      | none => rfl
      | some t =>
        -- A later block, unless it is the one of a slot, would be the one of a later visit.
        exfalso
        obtain ⟨ht, hbt, _⟩ := nextBegin_eq_some hnext
        obtain ⟨t', htt', ht', hs⟩ := exists_not_isSlot hslot ht
        obtain ⟨u, hu, rfl⟩ := h.exists_visit ht'.1 hs
        have huv : u.pc ≤ v.pc := by
          by_contra hlt
          have := h.log.nextPc_le_pc hu (Nat.not_le.1 hlt)
          have := h.log.pc_lt hu
          omega
        have e := hall u hu (by omega) huv
        rw [h.log.block_of_begins hu ht', hbv, Lbl.inst.injEq] at e
        omega
    have hleave : Leaves (insnAt x.insts v.pc) := by
      by_contra hno
      obtain ⟨body, t, hcode, ht, _⟩ := hv_ended
      have := hshape.2 hno t (by rw [hcode]; simp)
      rw [ht] at this
      cases this
    have hcode : ¬(insnAt x.insts v.pc).code = EBPF_OP_LDDW := fun hc =>
      not_leaves_of_lddw hc hleave
    rw [nextPc, if_neg hcode] at hlast
    have hpc : x.insts.length - 1 = v.pc := by omega
    exact ⟨hslot, hpc ▸ h.log.not_isSlot hmem, hpc ▸ hleave⟩
  · rintro ⟨hslot, hns, hleave⟩ l hl
    rw [h.blocks_eq] at hl
    simp only [List.mem_append, List.mem_cons, List.mem_map, List.not_mem_nil, or_false] at hl
    rcases hl with (rfl | ⟨b, hb, rfl⟩) | rfl | rfl
    · rw [h.code_setupBlock]
      exact ⟨_, _, rfl, rfl, h.fixed.noTerminator_setup⟩
    · rw [mem_beginList] at hb
      cases hnext : nextBegin x.insts b with
      | some t => exact h.ended_of_nextBegin hb hnext
      | none =>
        have hs : ¬IsSlot x.insts b := fun hs => by
          obtain ⟨t', hlt, ht'⟩ := hslot b hb hs
          have := nextBegin_eq_none hnext ht'
          omega
        have hvb := h.block_of_nextBegin_eq_none hb hs hnext hmem hlast
        obtain ⟨u, hu, hupc⟩ := h.exists_visit (t := x.insts.length - 1) (by omega) hns
        have huv : u = v := by
          refine h.log.eq_of_pc_eq hu hmem ?_
          by_contra hne
          have := h.log.nextPc_le_pc hu (v := v) (by omega)
          have := lt_nextPc v.pc (insnAt x.insts v.pc)
          omega
        subst huv
        rw [h.code_inst hb, hnext]
        rw [← hupc] at hleave
        exact hvb ▸ hshape.1 hleave
    · rw [h.code_other (by simp) (by simp)]
      obtain ⟨body, t, hcode, hbody, ht⟩ := h.fixed.exit_eq
      exact ⟨body, t, hcode, ht.1, hbody⟩
    · rw [h.code_other (by simp) (by simp)]
      obtain ⟨body, t, hcode, hbody, ht⟩ := h.fixed.localRet_eq
      exact ⟨body, t, hcode, ht.1, hbody⟩

/-- The blocks that the code of a legal instruction branches to. -/
theorem mem_branches {pc : ℕ} {inst : EbpfInst} {c : SwitchCase} {succs : List Lbl} {l : Lbl}
    (hl : CaseLegal x extFuncNames lddwHelpers patch pc inst c)
    (hb : branches pc inst c = some succs) (hmem : l ∈ succs) :
    (∃ t, Begins x.insts t ∧ l = .inst t) ∨ l = .exitBlock ∨ l = .localRetBlock := by
  cases c with
  | ja =>
    cases hb
    exact .inl ⟨_, hl, List.mem_singleton.1 hmem⟩
  | jcond p =>
    cases hb
    rcases List.mem_pair.1 hmem with rfl | rfl
    · exact .inl ⟨_, hl.1, rfl⟩
    · exact .inl ⟨_, hl.2, rfl⟩
  | jset =>
    cases hb
    rcases List.mem_pair.1 hmem with rfl | rfl
    · exact .inl ⟨_, hl.1, rfl⟩
    · exact .inl ⟨_, hl.2, rfl⟩
  | exit =>
    cases hb
    exact .inr (List.mem_pair.1 hmem)
  | call =>
    rw [CaseLegal] at hl
    rw [branches] at hb
    by_cases hs : inst.src_reg = 1
    · rw [if_pos hs] at hl hb
      cases hb
      exact .inl ⟨_, hl.2, List.mem_singleton.1 hmem⟩
    · rw [if_neg hs] at hb
      split at hb
      · cases hb
        exact .inr (.inl (List.mem_singleton.1 hmem))
      · cases hb
  | _ => cases hb

theorem successors_of_isTerminator {ι σ : Type} {i : Instr ι σ} (h : i.isTerminator = false) :
    i.successors = [] := by
  cases i <;> first | rfl | cases h

theorem successors_of_mem {ι σ : Type} {body : List (Instr ι σ)} {t i : Instr ι σ} {l : ι}
    (hbody : NoTerminator body) (hi : i ∈ body ++ [t]) (hl : l ∈ i.successors) :
    l ∈ t.successors := by
  rcases List.mem_append.1 hi with hi | hi
  · rw [successors_of_isTerminator (hbody i hi)] at hl
    cases hl
  · rwa [← List.mem_singleton.1 hi]

theorem inst_mem_blocks (h : Compiled x extFuncNames lddwHelpers patch base M) {t : ℕ}
    (ht : Begins x.insts t) : Lbl.inst t ∈ M.fn.blocks := by
  rw [h.blocks_eq]
  simp [mem_beginList.2 ht]

/-- The blocks that local functions may return to are blocks of the program. -/
theorem localRet_subset (h : Compiled x extFuncNames lddwHelpers patch base M) :
    (prepared x extFuncNames lddwHelpers).localFuncRetBlks.map (·.2) ⊆ M.fn.blocks := by
  intro l hl
  simp only [prepared, blocksOf, List.map_map, List.mem_map, List.mem_filter] at hl
  obtain ⟨t, ⟨ht, _⟩, rfl⟩ := hl
  exact h.inst_mem_blocks (mem_beginList.1 ht)

/-- The code of a visit branches to blocks of the program. -/
theorem successors_of_visit (h : Compiled x extFuncNames lddwHelpers patch base M) {v : Visit}
    (hv : v ∈ M.log) {i : Instr Lbl Slot} (hi : i ∈ v.code) {l : Lbl} (hl : l ∈ i.successors) :
    l ∈ M.fn.blocks := by
  have hshape := h.log.shape hv
  by_cases hq : Quiet (insnAt x.insts v.pc)
  · rw [hshape.nil_of_quiet hq] at hi
    cases hi
  · obtain ⟨c, body, t, hc, hcode, hbody, ht⟩ := hshape.of_not_quiet hq
    obtain ⟨_, _, c', hc', hlegal⟩ := h.log.legal hv
    rw [hc] at hc'
    cases hc'
    rw [hcode] at hi
    have hlt := successors_of_mem hbody hi hl
    cases hb : branches v.pc (insnAt x.insts v.pc) c with
    | none =>
      rw [hb] at ht
      rw [successors_of_isTerminator ht] at hlt
      cases hlt
    | some succs =>
      rw [hb] at ht
      rw [ht.2] at hlt
      rcases mem_branches hlegal hb hlt with ⟨t, ht, rfl⟩ | rfl | rfl
      · exact h.inst_mem_blocks ht
      · simp [h.blocks_eq]
      · simp [h.blocks_eq]

theorem successors_of_contents (h : Compiled x extFuncNames lddwHelpers patch base M) {b : ℕ}
    {i : Instr Lbl Slot} (hi : i ∈ contents base M.log (.inst b)) {l : Lbl}
    (hl : l ∈ i.successors) : l ∈ M.fn.blocks := by
  rw [contents, h.fixed.inst, List.nil_append, List.mem_flatMap] at hi
  obtain ⟨v, hv, hi⟩ := hi
  exact h.successors_of_visit (List.mem_filter.1 hv).1 hi hl

/-- The blocks of a compiled program only branch to each other. -/
theorem closed (h : Compiled x extFuncNames lddwHelpers patch base M) : M.fn.Closed := by
  intro l hl i hi l' hl'
  have h0 := h.inst_mem_blocks (begins_zero h.nonempty)
  rw [h.blocks_eq] at hl
  simp only [List.mem_append, List.mem_cons, List.mem_map, List.not_mem_nil, or_false] at hl
  rcases hl with (rfl | ⟨b, hb, rfl⟩) | rfl | rfl
  · rw [h.code_setupBlock] at hi
    have hlt := successors_of_mem h.fixed.noTerminator_setup hi hl'
    rwa [List.mem_singleton.1 hlt]
  · rw [mem_beginList] at hb
    rw [h.code_inst hb] at hi
    -- The code is the one of the instructions, and perhaps a branch to the next block.
    cases hnext : nextBegin x.insts b with
    | none =>
      rw [hnext] at hi
      exact h.successors_of_contents hi hl'
    | some t =>
      rw [hnext] at hi
      simp only at hi
      split at hi
      · rcases List.mem_append.1 hi with hi | hi
        · exact h.successors_of_contents hi hl'
        · rw [List.mem_singleton.1 hi] at hl'
          rw [List.mem_singleton.1 hl']
          exact h.inst_mem_blocks (nextBegin_eq_some hnext).1
      · exact h.successors_of_contents hi hl'
  · rw [h.code_other (by simp) (by simp)] at hi
    obtain ⟨body, t, hcode, hbody, ht⟩ := h.fixed.exit_eq
    rw [hcode] at hi
    have hlt := successors_of_mem hbody hi hl'
    rw [ht.2] at hlt
    cases hlt
  · rw [h.code_other (by simp) (by simp)] at hi
    obtain ⟨body, t, hcode, hbody, ht⟩ := h.fixed.localRet_eq
    rw [hcode] at hi
    have hlt := successors_of_mem hbody hi hl'
    rw [ht.2] at hlt
    exact h.localRet_subset hlt

end Compiled

/-! ## Acceptance -/

/-- What the compiler requires of its input. -/
structure InputOk (x : CompilerXDP) (extFuncNames lddwHelpers : List String) (patch : Bool) :
    Prop where
  nonempty : x.insts ≠ []
  length_lt : x.insts.length < 65536
  legal : ∀ t < x.insts.length, ¬IsSlot x.insts t → LegalAt x extFuncNames lddwHelpers patch t
  last : LastOk x.insts

/-- The compiler accepts the program, compiling it to `M`. -/
def Accepts (V : Verifier) (x : CompilerXDP) (extFuncNames lddwHelpers : List String)
    (patch : Bool) (M : Module) : Prop :=
  ∃ fuel, generateModule V x extFuncNames lddwHelpers patch fuel = some (.ok M)

theorem Compiled.inputOk {base : Lbl → List (Instr Lbl Slot)} {M : Module}
    (h : Compiled x extFuncNames lddwHelpers patch base M) (hwt : M.fn.WellTerminated) :
    InputOk x extFuncNames lddwHelpers patch where
  nonempty := h.nonempty
  length_lt := h.length_lt
  legal := fun _ ht hs =>
    let ⟨_, hv, hpc⟩ := h.exists_visit ht hs
    hpc ▸ h.log.legal hv
  last := h.wellTerminated_iff.1 hwt

section

variable {V : Verifier} {M : Module}

/-- A program is accepted if it is emitted and the verifier lets it through. -/
theorem generateModule_eq_ok {fuel : ℕ} :
    generateModule V x extFuncNames lddwHelpers patch fuel = some (.ok M) ↔
      emitModule x extFuncNames lddwHelpers patch fuel = some (.ok M) ∧
        V.verifyModule M.prog.sig M.fn = false := by
  rw [generateModule]
  split
  · next M' hM =>
    rw [hM]
    cases hv : V.verifyModule M'.prog.sig M'.fn
    · simp only [Bool.false_eq_true, if_false]
      exact ⟨fun h => ⟨h, by cases h; exact hv⟩, fun h => h.1⟩
    · simp only [if_true]
      constructor
      · rintro ⟨⟩
      · rintro ⟨⟨⟩, h⟩
        rw [hv] at h
        cases h
  · next hno => exact ⟨fun h => absurd h (hno M), fun h => absurd h.1 (hno M)⟩

/-- A program is accepted if running the compiler on it says so. -/
theorem exists_accepts (V : Verifier) (x : CompilerXDP) (extFuncNames lddwHelpers : List String)
    (patch : Bool) (fuel : ℕ) (p : Module → Bool)
    (h : (match generateModule V x extFuncNames lddwHelpers patch fuel with
      | some (.ok M) => p M
      | _ => false) = true) :
    ∃ M, Accepts V x extFuncNames lddwHelpers patch M ∧ p M = true := by
  split at h
  · next M hM => exact ⟨M, ⟨fuel, hM⟩, h⟩
  · cases h

theorem Accepts.exists_emitModule (h : Accepts V x extFuncNames lddwHelpers patch M) :
    ∃ fuel, emitModule x extFuncNames lddwHelpers patch fuel = some (.ok M) :=
  let ⟨fuel, h⟩ := h
  ⟨fuel, (generateModule_eq_ok.1 h).1⟩

/-- What the verifier lets through is compiled, and well terminated. -/
theorem Accepts.exists_compiled (h : Accepts V x extFuncNames lddwHelpers patch M) :
    ∃ base, Compiled x extFuncNames lddwHelpers patch base M ∧ M.fn.WellTerminated := by
  obtain ⟨fuel, h⟩ := h
  obtain ⟨hM, hv⟩ := generateModule_eq_ok.1 h
  obtain ⟨base, hc⟩ := EbpfJit.exists_compiled hM
  exact ⟨base, hc, V.wellTerminated hv⟩

theorem Accepts.inputOk (h : Accepts V x extFuncNames lddwHelpers patch M) :
    InputOk x extFuncNames lddwHelpers patch :=
  let ⟨_, hc, hwt⟩ := h.exists_compiled
  hc.inputOk hwt

end

end EbpfJit
