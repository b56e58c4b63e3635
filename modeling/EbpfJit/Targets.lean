import EbpfJit.Failures

/-!
# The targets of branches

A branch at `pc` goes to `pc + 1 + off`, a local call to `pc + 1 + imm` (`target`).
The compiler computes this with 16 bits, and looks for a block that begins there.

* `exact_iff`: the block found is the one of the target exactly if the target is an
  instruction that is not the second slot of an `lddw`;
* `exactTargets_iff`: the programs that are either compiled with such blocks only, or
  rejected with an error;
* `rejectsSlotBranches_iff`: branches into a slot are not what a program is rejected for.
-/

namespace EbpfJit

open Ir

/-- The instruction that a jump or a local call goes to, when it is taken. -/
def target (pc : ℕ) (inst : EbpfInst) : Option ℤ :=
  match switchCase inst.code with
  | some .ja | some (.jcond _) | some .jset => some (pc + 1 + inst.off.toInt)
  | some .call => if inst.src_reg = 1 then some (pc + 1 + inst.imm.toInt) else none
  | _ => none

/-- The block that the code of the instruction `pc` branches to, when taken. -/
def Module.takenBlock (M : Module) (pc : ℕ) : Option Lbl :=
  (M.log.find? fun v => v.pc = pc).bind fun v =>
    (terminator v.code).bind fun i => i.successors.head?

/-- The first instruction of a block. -/
def Module.firstPc (M : Module) (l : Lbl) : Option ℕ :=
  (M.log.find? fun v => v.block = l).map (·.pc)

/-- The branch at `pc` goes to the block whose first instruction is `t`. -/
def Exact (M : Module) (pc : ℕ) (t : ℤ) : Prop :=
  ∃ l first, M.takenBlock pc = some l ∧ M.firstPc l = some first ∧ (first : ℤ) = t

variable {V : Verifier} {x : CompilerXDP} {extFuncNames lddwHelpers : List String} {patch : Bool}
  {base : Lbl → List (Instr Lbl Slot)} {M : Module}

/-! ## Blocks and their first instructions -/

/-- A block begins with its instruction, but for the ones of slots, which are empty. -/
theorem Compiled.firstPc_inst (h : Compiled x extFuncNames lddwHelpers patch base M) {t : ℕ}
    (ht : Begins x.insts t) :
    M.firstPc (.inst t) = if IsSlot x.insts t then none else some t := by
  by_cases hs : IsSlot x.insts t
  · -- The block of a slot is empty: a visit that begins one is not of a slot.
    have hnone : M.log.find? (fun v => decide (v.block = .inst t)) = none := by
      refine List.find?_eq_none.2 fun v hv => ?_
      obtain ⟨b, hb, hbv, _⟩ := h.log.block_spec hv
      have hbt : b.pc ≠ t := fun heq => h.log.not_isSlot hb (heq ▸ hs)
      simpa [hbv] using hbt
    rw [Module.firstPc, hnone, if_pos hs]
    rfl
  · obtain ⟨v, hv, rfl⟩ := h.exists_visit ht.1 hs
    obtain ⟨pre, post, hlog⟩ := List.append_of_mem hv
    -- The visits before it are in earlier blocks.
    have hpre : pre.find? (fun w => decide (w.block = .inst v.pc)) = none := by
      refine List.find?_eq_none.2 fun w hw => ?_
      obtain ⟨hl, he⟩ := (hlog ▸ h.log).split
      have hlt := hl.pc_lt_pcAfter hw
      rw [← he.pc_eq] at hlt
      rw [decide_eq_true_iff]
      intro hblk
      have := h.log.le_of_block_eq (hlog ▸ List.mem_append_left _ hw) hblk
      omega
    rw [Module.firstPc, hlog, List.find?_append, hpre, Option.none_or,
      List.find?_cons_of_pos (by simpa using h.log.block_of_begins hv ht), if_neg hs]
    rfl

/-- The visit of an instruction. -/
theorem Compiled.find?_pc (h : Compiled x extFuncNames lddwHelpers patch base M) {v : Visit}
    (hv : v ∈ M.log) : M.log.find? (fun w => decide (w.pc = v.pc)) = some v := by
  cases hf : M.log.find? (fun w => decide (w.pc = v.pc)) with
  | none =>
    have := List.find?_eq_none.1 hf v hv
    simp at this
  | some w =>
    have hw : w.pc = v.pc := by simpa using List.find?_some hf
    rw [h.log.eq_of_pc_eq (List.mem_of_find?_eq_some hf) hv hw]

/-! ## Exact targets -/

/-- A branch goes to the block at its target, modulo `65536`. -/
theorem takenBlock_of_target (h : Compiled x extFuncNames lddwHelpers patch base M) {pc : ℕ}
    {t : ℤ} (hv : ∃ v ∈ M.log, v.pc = pc) (ht : target pc (insnAt x.insts pc) = some t) :
    M.takenBlock pc = some (.inst (toUInt16 t)) ∧ Begins x.insts (toUInt16 t) := by
  obtain ⟨v, hv, rfl⟩ := hv
  obtain ⟨_, _, c, hc, hl⟩ := h.log.legal hv
  have hq : ¬Quiet (insnAt x.insts v.pc) := by
    rintro ⟨hcode, -⟩
    rw [target, hcode, switchCase_lddw] at ht
    cases ht
  obtain ⟨c', body, i, hc', hcode, hbody, hi⟩ := (h.log.shape hv).of_not_quiet hq
  rw [hc] at hc'
  cases hc'
  -- The first successor, whatever the branch, is the taken one.
  suffices hb : ∃ succs, branches v.pc (insnAt x.insts v.pc) c =
      some (.inst (toUInt16 t) :: succs) ∧ Begins x.insts (toUInt16 t) by
    obtain ⟨succs, hb, hbeg⟩ := hb
    rw [hb] at hi
    refine ⟨?_, hbeg⟩
    rw [Module.takenBlock, h.find?_pc hv, Option.bind_some, hcode]
    obtain ⟨hterm, hsuccs⟩ := hi
    simp [terminator, Option.filter, hterm, hsuccs]
  rw [target, hc] at ht
  cases c with
  | ja => cases ht; exact ⟨[], rfl, hl⟩
  | jcond p => cases ht; exact ⟨_, rfl, hl.1⟩
  | jset => cases ht; exact ⟨_, rfl, hl.1⟩
  | call =>
    simp only at ht
    split at ht
    · next hsrc =>
      cases ht
      rw [CaseLegal, if_pos hsrc] at hl
      rw [branches, if_pos hsrc]
      exact ⟨[], rfl, hl.2⟩
    · cases ht
  | _ => cases ht

/-- A slot is not a branch. -/
theorem not_isSlot_of_target (h : InputOk x extFuncNames lddwHelpers patch) {pc : ℕ} {t : ℤ}
    (hpc : pc < x.insts.length) (ht : target pc (insnAt x.insts pc) = some t) :
    ¬IsSlot x.insts pc := by
  intro hs
  have hz : IsLddwSlot (insnAt x.insts pc) := by
    refine isLddwSlot_of_isSlot (fun pc hpc hns hcode => ?_) hpc hs
    obtain ⟨_, _, c, hc, hl⟩ := h.legal pc hpc hns
    rw [hcode, switchCase_lddw] at hc
    cases hc
    exact hl.2.1
  rw [target, hz.1, show switchCase 0 = none by decide] at ht
  cases ht

/-- The branches of an accepted program that go to the block of their target are
    the ones whose target is an instruction, and not the second slot of an `lddw`. -/
theorem exact_iff (V : Verifier) (x : CompilerXDP) (extFuncNames lddwHelpers : List String)
    (patch : Bool) (M : Module) (h : Accepts V x extFuncNames lddwHelpers patch M) (pc : ℕ)
    (hpc : pc < x.insts.length) (t : ℤ) (ht : target pc (insnAt x.insts pc) = some t) :
    Exact M pc t ↔ IsTarget x.insts t := by
  obtain ⟨base, hc, -⟩ := h.exists_compiled
  have hv := hc.exists_visit hpc (not_isSlot_of_target h.inputOk hpc ht)
  obtain ⟨htaken, hbeg⟩ := takenBlock_of_target hc hv ht
  have hfirst := hc.firstPc_inst hbeg
  constructor
  · rintro ⟨l, first, hl, hf, rfl⟩
    rw [htaken] at hl
    cases hl
    rw [hfirst] at hf
    split at hf
    · cases hf
    · next hs =>
      rw [Option.some.inj hf] at hs hbeg
      exact ⟨Int.natCast_nonneg first, Int.ofNat_lt.2 hbeg.1, hs⟩
  · rintro ⟨h₀, h₁, hs⟩
    have hn := hc.length_lt
    rw [toUInt16_of_lt h₀ (by omega)] at htaken hfirst
    rw [if_neg hs] at hfirst
    exact ⟨_, _, htaken, hfirst, Int.toNat_of_nonneg h₀⟩

/-- Every branch of an accepted program goes to its target, which is in the program. Any
    other program is rejected with an error. -/
structure ExactTargets (V : Verifier) (x : CompilerXDP) (extFuncNames lddwHelpers : List String)
    (patch : Bool) : Prop where
  exact : ∀ M, Accepts V x extFuncNames lddwHelpers patch M → ∀ pc < x.insts.length,
    ∀ t, target pc (insnAt x.insts pc) = some t → Exact M pc t ∧ 0 ≤ t ∧ t < x.insts.length
  rejects : (¬∃ M, Accepts V x extFuncNames lddwHelpers patch M) →
    Rejects V x extFuncNames lddwHelpers patch

/-- The targets are exact if the compilation ends, the assertion does not fail, and, where no
    other requirement is broken, the targets are instructions but no slots. -/
theorem exactTargets_iff (V : Verifier) (x : CompilerXDP)
    (extFuncNames lddwHelpers : List String) (patch : Bool) :
    ExactTargets V x extFuncNames lddwHelpers patch ↔
      x.insts.length < 65536 ∧ ¬Asserts x extFuncNames lddwHelpers patch ∧
        (InputOk x extFuncNames lddwHelpers patch → ∀ pc < x.insts.length, ∀ t,
          target pc (insnAt x.insts pc) = some t → IsTarget x.insts t) := by
  constructor
  · rintro ⟨hexact, hrej⟩
    by_cases hok : InputOk x extFuncNames lddwHelpers patch
    · obtain ⟨M, hM⟩ := (accepts_iff (V := V)).2 hok
      refine ⟨hok.length_lt, hM.not_asserts, fun _ pc hpc t ht => ?_⟩
      exact (exact_iff V x _ _ _ M hM pc hpc t ht).1 (hexact M hM pc hpc t ht).1
    · obtain ⟨hn, -, hasserts⟩ := rejects_iff.1 (hrej fun h => hok (accepts_iff.1 h))
      exact ⟨hn, hasserts, fun h => absurd h hok⟩
  · rintro ⟨hn, hasserts, htargets⟩
    refine ⟨fun M hM pc hpc t ht => ?_, fun hno => ?_⟩
    · have htarget := htargets hM.inputOk pc hpc t ht
      exact ⟨(exact_iff V x _ _ _ M hM pc hpc t ht).2 htarget, htarget.1, htarget.2.1⟩
    · exact rejects_iff.2 ⟨hn, fun hok => hno (accepts_iff.2 hok), hasserts⟩

/-- A jump over a call, both of them to the exit. -/
def jumpOverCall : List EbpfInst :=
  [⟨EBPF_OP_JEQ_IMM, 1, 0, 1, 0⟩, ⟨EBPF_OP_CALL, 0, 1, 0, 0⟩, ⟨EBPF_OP_EXIT, 0, 0, 0, 0⟩]

/-- The program is accepted, and both go there. -/
theorem exactTargets_jumpOverCall :
    ExactTargets Verifier.shape { insts := jumpOverCall } [] [] false ∧
      ∃ M, Accepts Verifier.shape { insts := jumpOverCall } [] [] false M := by
  obtain ⟨M, hM, -⟩ := exists_accepts Verifier.shape { insts := jumpOverCall } [] [] false 4
    (fun _ => true) (by decide +kernel)
  have htargets : ∀ pc < jumpOverCall.length, ∀ t ∈ target pc (insnAt jumpOverCall pc),
      IsTarget jumpOverCall t := by
    decide +kernel
  refine ⟨(exactTargets_iff _ _ _ _ _).2 ⟨?_, hM.not_asserts, fun _ => htargets⟩, M, hM⟩
  show jumpOverCall.length < 65536
  decide

/-- A call whose target is `65536`, i.e., `0` in 16 bits. -/
def wrappingCall : List EbpfInst :=
  [⟨EBPF_OP_JA, 0, 0, 0, 0⟩, ⟨EBPF_OP_CALL, 0, 1, 0, 65534⟩, ⟨EBPF_OP_EXIT, 0, 0, 0, 0⟩]

/-- The call goes to the start of the program. -/
theorem not_exactTargets_wrappingCall :
    ¬ExactTargets Verifier.shape { insts := wrappingCall } [] [] false ∧
      ∃ M, Accepts Verifier.shape { insts := wrappingCall } [] [] false M ∧
        target 1 (insnAt wrappingCall 1) = some 65536 ∧
        M.takenBlock 1 = some (.inst 0) ∧ M.firstPc (.inst 0) = some 0 := by
  obtain ⟨M, hM, hp⟩ := exists_accepts Verifier.shape { insts := wrappingCall } [] [] false 4
    (fun M => decide (M.takenBlock 1 = some (.inst 0)) && decide (M.firstPc (.inst 0) = some 0))
    (by decide +kernel)
  rw [Bool.and_eq_true, decide_eq_true_iff, decide_eq_true_iff] at hp
  have ht : target 1 (insnAt wrappingCall 1) = some 65536 := by decide
  refine ⟨fun h => ?_, M, hM, ht, hp.1, hp.2⟩
  exact absurd (h.exact M hM 1 (by decide) 65536 ht).2.2 (by decide)

/-! ## Branches into a slot -/

/-- A branch of the program goes to the second slot of an `lddw`. -/
def BranchesIntoSlot (insns : List EbpfInst) : Prop :=
  ∃ pc < insns.length, ∃ s < insns.length,
    target pc (insnAt insns pc) = some (s : ℤ) ∧ IsSlot insns s

instance (insns : List EbpfInst) : Decidable (BranchesIntoSlot insns) :=
  inferInstanceAs (Decidable (∃ pc < insns.length, ∃ s < insns.length, _ ∧ _))

/-- No accepted program branches into a slot: one that does is rejected. -/
structure RejectsSlotBranches (V : Verifier) (x : CompilerXDP)
    (extFuncNames lddwHelpers : List String) (patch : Bool) : Prop where
  not_of_accepts : ∀ M, Accepts V x extFuncNames lddwHelpers patch M →
    ¬BranchesIntoSlot x.insts
  rejects : BranchesIntoSlot x.insts → Rejects V x extFuncNames lddwHelpers patch

/-- A branch into a slot is only rejected together with something else, and not if the
    assertion fails before. -/
theorem rejectsSlotBranches_iff (V : Verifier) (x : CompilerXDP)
    (extFuncNames lddwHelpers : List String) (patch : Bool) :
    RejectsSlotBranches V x extFuncNames lddwHelpers patch ↔
      ¬BranchesIntoSlot x.insts ∨
        x.insts.length < 65536 ∧ ¬InputOk x extFuncNames lddwHelpers patch ∧
          ¬Asserts x extFuncNames lddwHelpers patch := by
  constructor
  · intro h
    by_cases hb : BranchesIntoSlot x.insts
    · exact .inr (rejects_iff.1 (h.rejects hb))
    · exact .inl hb
  · rintro (hb | hfail)
    · exact ⟨fun _ _ => hb, fun h => absurd h hb⟩
    · exact ⟨fun M hM => absurd hM.inputOk hfail.2.1, fun _ => rejects_iff.2 hfail⟩

/-- A jump into the second slot of an `lddw`, in a program with an unknown instruction. -/
def unknownAfterSlotJump : List EbpfInst :=
  [⟨EBPF_OP_JA, 0, 0, 1, 0⟩, ⟨EBPF_OP_LDDW, 0, 0, 0, 0⟩, ⟨0, 0, 0, 0, 0⟩,
    ⟨0xff, 0, 0, 0, 0⟩, ⟨EBPF_OP_EXIT, 0, 0, 0, 0⟩]

theorem rejectsSlotBranches_unknownAfterSlotJump :
    RejectsSlotBranches Verifier.shape { insts := unknownAfterSlotJump } [] [] false ∧
      BranchesIntoSlot unknownAfterSlotJump := by
  refine ⟨(rejectsSlotBranches_iff _ _ _ _ _).2 (.inr ⟨?_, fun hok => ?_, ?_⟩), by decide⟩
  · show unknownAfterSlotJump.length < 65536
    decide
  · obtain ⟨-, -, c, hc, -⟩ := hok.legal 3 (by decide) (by decide)
    exact absurd hc (by decide +revert)
  · refine not_asserts_of_forall (?_ : ∀ pc < unknownAfterSlotJump.length, _ = false)
    decide +kernel

/-- A jump into the second slot of an `lddw`. -/
def slotJump : List EbpfInst :=
  [⟨EBPF_OP_JA, 0, 0, 1, 0⟩, ⟨EBPF_OP_LDDW, 0, 0, 0, 0⟩, ⟨0, 0, 0, 0, 0⟩,
    ⟨EBPF_OP_MOV64_IMM, 0, 0, 0, 7⟩, ⟨EBPF_OP_JA, 0, 0, 0, 0⟩, ⟨EBPF_OP_EXIT, 0, 0, 0, 0⟩]

/-- The jump is accepted, and the block it goes to only branches to the exit: the
    instruction after the `lddw` is not in it. -/
theorem not_rejectsSlotBranches_slotJump :
    ¬RejectsSlotBranches Verifier.shape { insts := slotJump } [] [] false ∧
      ∃ M, Accepts Verifier.shape { insts := slotJump } [] [] false M ∧
        M.takenBlock 0 = some (.inst 2) ∧
        (M.fn.code (.inst 2)).map Instr.successors = [[.inst 5]] := by
  obtain ⟨M, hM, hp⟩ := exists_accepts Verifier.shape { insts := slotJump } [] [] false 7
    (fun M => decide (M.takenBlock 0 = some (.inst 2)) &&
      decide ((M.fn.code (.inst 2)).map Instr.successors = [[.inst 5]])) (by decide +kernel)
  rw [Bool.and_eq_true, decide_eq_true_iff, decide_eq_true_iff] at hp
  exact ⟨fun h => h.not_of_accepts M hM (by decide), M, hM, hp.1, hp.2⟩

end EbpfJit
