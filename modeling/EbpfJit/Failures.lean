import EbpfJit.Calls
import EbpfJit.Ssa
import EbpfJit.Termination

/-!
# How compilations fail

A compilation that does not give a module ends with an error (`Rejects`), or with a failed
assertion, or it does not end at all. Which of them is told by the program: one of `65536`
instructions or more is never compiled, and the assertion fails at a local call that the
emission comes to, after legal instructions only, and that has no block to return to
(`Asserts`).

* `reaches_iff`: the instructions that the emission comes to;
* `asserts_iff`, `rejects_iff`: the programs for which the assertion fails, and the ones that
  are rejected with an error.
-/

namespace EbpfJit

open Ir Ir.Builder CountedLoop

/-- The compilation ends with an error. -/
def Rejects (V : Verifier) (x : CompilerXDP) (extFuncNames lddwHelpers : List String)
    (patch : Bool) : Prop :=
  ∃ fuel msg, generateModule V x extFuncNames lddwHelpers patch fuel = some (.error (.error msg))

/-- The emission loop comes to the instruction `pc` of the program `p`. -/
def Reaches (x : CompilerXDP) (extFuncNames lddwHelpers : List String) (patch : Bool)
    (p : Program) (pc : ℕ) : Prop :=
  ∃ fuel fuel' s, prepare x extFuncNames lddwHelpers fuel = some (.ok p) ∧
    emitFixedBlocks p = .ok s ∧ pc ∈ visited 16 p.insns.length (emitBody x p patch) fuel' 0 s

/-- The instructions before `pc` are accepted, and `pc` is not a slot. -/
structure LegalUpTo (x : CompilerXDP) (extFuncNames lddwHelpers : List String) (patch : Bool)
    (pc : ℕ) : Prop where
  lt : pc < x.insts.length
  not_slot : ¬IsSlot x.insts pc
  legal : ∀ t < pc, ¬IsSlot x.insts t → LegalAt x extFuncNames lddwHelpers patch t

/-- A local call that is emitted, and has no block to return to: it is the first instruction or
    the last one, or has the other opcode of calls. -/
def UnregisteredCall (insns : List EbpfInst) (pc : ℕ) : Prop :=
  isLocalCall (insnAt insns pc) = true ∧ (insnAt insns pc).dst_reg ≤ 10 ∧
    ((insnAt insns pc).code ≠ EBPF_OP_CALL ∨ pc = 0 ∨ insns.length ≤ pc + 1)

/-- The emission comes to such a call. -/
def Asserts (x : CompilerXDP) (extFuncNames lddwHelpers : List String) (patch : Bool) : Prop :=
  ∃ pc, LegalUpTo x extFuncNames lddwHelpers patch pc ∧ UnregisteredCall x.insts pc

variable {V : Verifier} {x : CompilerXDP} {extFuncNames lddwHelpers : List String} {patch : Bool}
  {p : Program} {pc : ℕ} {inst : EbpfInst}

/-! ## Where the emission comes to -/

/-- The emission comes to the instructions it should: the ones after legal ones. -/
theorem reaches_iff : Reaches x extFuncNames lddwHelpers patch p pc ↔
    x.insts.length < 65536 ∧ p = prepared x extFuncNames lddwHelpers ∧
      LegalUpTo x extFuncNames lddwHelpers patch pc := by
  constructor
  · rintro ⟨fuel, fuel', s, hp, hs, hv⟩
    obtain ⟨hn, heq⟩ := eq_prepared hp
    cases heq
    obtain ⟨s₀, hs₀, -, hblk, hlog⟩ := emitFixedBlocks_ok (prepared x extFuncNames lddwHelpers)
    rw [hs] at hs₀
    cases hs₀
    -- The invariant of the loop says which instructions it has visited.
    obtain ⟨s', hs'⟩ := visited_induction (P := LoopInv x extFuncNames lddwHelpers patch s.code)
      (fun _ _ _ _ hpc hs hb => hs.step hn hpc hb) (loopInv_zero hblk hlog) hv
    refine ⟨hn, rfl, lt_of_mem_visited hv, ?_, ?_⟩
    · rw [hs'.pc_eq]
      exact hs'.log.not_isSlot_pcAfter
    · intro t ht hslot
      obtain ⟨v, hv, rfl⟩ := hs'.log.exists_visit (hs'.pc_eq ▸ ht) hslot
      exact hs'.log.legal hv
  · rintro ⟨hn, rfl, hpc, hslot, hlegal⟩
    obtain ⟨s, hs, -, hblk, hlog⟩ := emitFixedBlocks_ok (prepared x extFuncNames lddwHelpers)
    refine ⟨x.insts.length + 1, pc + 1, s, prepare_eq hn (Nat.lt_succ_self _), hs, ?_⟩
    refine mem_visited (P := LoopInv x extFuncNames lddwHelpers patch s.code) hpc
      (show pc < 2 ^ 16 by omega) ?_ (loopInv_zero hblk hlog) (Nat.zero_le _) (by omega)
    intro t s ht hinv
    have hl := hlegal t ht (hinv.pc_eq ▸ hinv.log.not_isSlot_pcAfter)
    obtain ⟨s', hb, hs'⟩ := emitBody_ok (by omega) hinv hl
    have hlt := lt_nextPc t (insnAt x.insts t)
    -- The next instruction is not after `pc`, which is not the slot of an `lddw` at `t`.
    have hle : nextPc t (insnAt x.insts t) ≤ pc := by
      unfold nextPc
      split
      · next hcode =>
        by_contra hgt
        refine hslot ⟨by omega, ?_⟩
        rwa [show pc - 1 = t by omega]
      · exact ht
    refine ⟨_, s', hb, by omega, by omega, ?_⟩
    rwa [Nat.sub_add_cancel (by omega)]

/-- It always comes to the first instruction. -/
theorem legalUpTo_zero (h : 0 < x.insts.length) :
    LegalUpTo x extFuncNames lddwHelpers patch 0 where
  lt := h
  not_slot hslot := absurd hslot.1 (Nat.lt_irrefl 0)
  legal t ht := absurd ht (Nat.not_lt_zero t)

theorem reaches_zero (h : 0 < x.insts.length) (hn : x.insts.length < 65536) :
    Reaches x extFuncNames lddwHelpers patch (prepared x extFuncNames lddwHelpers) 0 :=
  reaches_iff.2 ⟨hn, rfl, legalUpTo_zero h⟩

/-! ## The assertion -/

theorem loadBlock_ne_assertion (pc blkId : ℕ) (instBlocks : List (ℕ × Lbl)) :
    loadBlock pc blkId instBlocks ≠ .error .assertion := by
  rw [loadBlock]
  split
  · rintro ⟨⟩
  · rintro ⟨⟩

/-- The block after the local call at `pc` is registered. -/
abbrev Registered (insns : List EbpfInst) (pc : ℕ) : Prop :=
  Begins insns (toUInt16 (pc + 1)) ∧ ReturnsTo insns (toUInt16 (pc + 1))

theorem never_emitLocalCall (h : Registered x.insts pc) :
    Never .assertion (emitLocalCall (prepared x extFuncNames lddwHelpers) pc inst) := by
  simp only [emitLocalCall, lookup_localFuncRetBlks, if_pos h]
  refine (straight_emit fun _ => rfl).never.bind fun _ =>
    (straight_createBinOp _ _ _).never.bind fun _ => (straight_emitVoid rfl).never.bind fun _ =>
    (straight_pure _).never.bind fun _ => (straight_emitCallStackItem _ _).never.bind fun _ =>
    (straight_emitVoid rfl).never.bind fun _ => (Straight.forM fun _ => ?_).never.bind fun _ =>
    (straight_emit fun _ => rfl).never.bind fun _ =>
    (straight_createBinOp _ _ _).never.bind fun _ => (straight_emitVoid rfl).never.bind fun _ =>
    Never.bind (never_ofExcept (loadBlock_ne_assertion _ _ _)) fun _ =>
    (endsWith_emitVoid (P := fun _ => True) trivial).never
  exact Straight.bind (straight_emit fun _ => rfl) fun _ =>
    (straight_emitCallStackItem _ _).bind fun _ => straight_emitVoid rfl

theorem failsWith_emitLocalCall (h : ¬Registered x.insts pc) :
    FailsWith .assertion (emitLocalCall (prepared x extFuncNames lddwHelpers) pc inst) := by
  simp only [emitLocalCall, lookup_localFuncRetBlks, if_neg h]
  exact (straight_emit fun _ => rfl).bind_failsWith fun _ =>
    (straight_createBinOp _ _ _).bind_failsWith fun _ =>
    (straight_emitVoid rfl).bind_failsWith fun _ => (failsWith_fail _).bind

theorem never_emitLddwMapVal {nextInst : EbpfInst} {mapPtr : BitVec 64} {missing : String} :
    Never .assertion (emitLddwMapVal x p patch inst nextInst mapPtr missing) := by
  refine never_ite (fun _ => ?_) fun _ => never_ite (fun _ => ?_) fun _ => never_fail (by simp)
  · split
    · exact (straight_emitVoid rfl).never
    · exact never_fail (by decide)
  · exact (straight_emit fun _ => rfl).never.bind fun _ =>
      (straight_createBinOp _ _ _).never.bind fun _ => (straight_emitVoid rfl).never

theorem never_emitLddw : Never .assertion (emitLddw x p patch pc inst) := by
  refine never_ite (fun _ => never_fail (by simp)) fun _ =>
    never_ite (fun _ => never_fail (by simp)) fun _ =>
    never_ite (fun _ => never_fail (by simp)) fun _ =>
    never_ite (fun _ => (straight_emitVoid rfl).never) fun _ =>
    never_ite (fun _ => (straight_emitVoid rfl).never) fun _ =>
    never_ite (fun _ => never_emitLddwMapVal) fun _ => never_ite (fun _ => ?_) fun _ =>
    never_ite (fun _ => ?_) fun _ => never_ite (fun _ => (straight_emitVoid rfl).never) fun _ =>
    never_ite (fun _ => never_emitLddwMapVal) fun _ => (straight_pure ()).never
  all_goals
    split
    · exact (straight_emitVoid rfl).never
    · exact never_fail (by decide)

theorem localJmpDstAndNextBlk_ne_assertion (instBlocks : List (ℕ × Lbl)) :
    localJmpDstAndNextBlk pc inst instBlocks ≠ .error .assertion := by
  intro h
  rw [localJmpDstAndNextBlk] at h
  cases hd : loadJmpDstBlock pc inst instBlocks with
  | error e =>
    rw [hd] at h
    cases h
    exact loadBlock_ne_assertion _ _ _ hd
  | ok dst =>
    rw [hd] at h
    cases hn : loadJmpNextBlock pc instBlocks with
    | error e =>
      simp only [bind, Except.bind, hn] at h
      cases h
      exact loadBlock_ne_assertion _ _ _ hn
    | ok next =>
      simp only [bind, Except.bind, hn] at h
      cases h

/-- Only the code of local calls asserts anything. -/
theorem never_emitCase {c : SwitchCase} (hc : switchCase inst.code = some c)
    (h : ¬(c = .call ∧ inst.src_reg = 1)) :
    Never .assertion (emitCase x (prepared x extFuncNames lddwHelpers) patch pc inst c) := by
  by_cases hl : CaseLegal x extFuncNames lddwHelpers patch pc inst c ∧ ¬Quiet inst
  · exact (endsWith_emitCase hc hl.1 hl.2).never
  cases c with
  | endian =>
    refine (straight_emitLoadALUDest true).never.bind fun _ => Never.bind ?_ fun _ =>
      (endsWith_emitStoreALUResult _).never
    by_cases hc : inst.code &&& 0x08 = 0x08 → inst.imm = 16 ∨ inst.imm = 32 ∨ inst.imm = 64
    · exact (straight_emitALUEndianConversion _ hc).never
    · rw [Classical.not_imp] at hc
      have himm : inst.imm ≠ 16 ∧ inst.imm ≠ 32 ∧ inst.imm ≠ 64 := by tauto
      unfold emitALUEndianConversion
      rw [if_pos hc.1, if_pos himm]
      exact never_fail (by simp)
  | lddw => exact never_emitLddw
  | ja =>
    exact Never.bind (never_ofExcept (loadBlock_ne_assertion _ _ _)) fun _ =>
      (endsWith_emitVoid (P := fun _ => True) trivial).never
  | call =>
    have hs : inst.src_reg ≠ 1 := fun hs => h ⟨rfl, hs⟩
    rw [emitCase, if_neg hs]
    by_cases hm : extFuncSym inst.imm ∈ (prepared x extFuncNames lddwHelpers).extFunc
    · exact (endsWith_emitExtFuncCall hm).never
    · simp only [emitExtFuncCall, if_neg hm]
      exact never_fail (by simp)
  | jcond p =>
    exact Never.bind (never_ofExcept (localJmpDstAndNextBlk_ne_assertion _)) fun _ =>
      straight_emitJmpLoadSrcAndDstAndZero.never.bind fun _ =>
      (straight_emit fun _ => rfl).never.bind fun _ =>
      (endsWith_emitVoid (P := fun _ => True) trivial).never
  | jset =>
    exact Never.bind (never_ofExcept (localJmpDstAndNextBlk_ne_assertion _)) fun _ =>
      straight_emitJmpLoadSrcAndDstAndZero.never.bind fun _ =>
      (straight_createBinOp _ _ _).never.bind fun _ =>
      (straight_emit fun _ => rfl).never.bind fun _ =>
      (endsWith_emitVoid (P := fun _ => True) trivial).never
  | atomic =>
    exact never_ite (fun _ => (endsWith_emitAtomicBinOp _ _ _).never) fun _ =>
      never_ite (fun _ => (endsWith_emitAtomicBinOp _ _ _).never) fun _ =>
      never_ite (fun _ => (endsWith_emitAtomicBinOp _ _ _).never) fun _ =>
      never_ite (fun _ => (endsWith_emitAtomicBinOp _ _ _).never) fun _ =>
      never_ite (fun _ => (endsWith_emitAtomicBinOp _ _ _).never) fun _ =>
      never_ite (fun _ => endsWith_emitCmpXchg.never) fun _ => never_fail (by simp)
  | _ =>
    refine absurd ⟨trivial, fun hq => ?_⟩ hl
    rw [hq.1, switchCase_lddw] at hc
    cases hc

theorem never_emitInst (h : ¬(switchCase inst.code = some .call ∧ inst.src_reg = 1)) :
    Never .assertion (emitInst x (prepared x extFuncNames lddwHelpers) patch pc inst) := by
  cases hc : switchCase inst.code with
  | none =>
    rw [emitInst, hc]
    exact never_fail (by simp)
  | some c =>
    have hcase : Never .assertion
        (emitCase x (prepared x extFuncNames lddwHelpers) patch pc inst c) :=
      never_emitCase hc fun h' => h ⟨h'.1 ▸ hc, h'.2⟩
    cases c <;> rw [emitInst, hc] <;> exact hcase.bind fun _ => (straight_pure _).never

/-- The emission of an instruction fails with the assertion at the local calls that are
    not turned away because of their registers, and whose block is not registered. -/
theorem emitBody_eq_assertion_iff (s : EmitState) (hpc : pc < x.insts.length) :
    emitBody x (prepared x extFuncNames lddwHelpers) patch pc s = .error .assertion ↔
      isLocalCall (insnAt x.insts pc) = true ∧ (insnAt x.insts pc).dst_reg ≤ 10 ∧
        ¬Registered x.insts pc := by
  generalize hinst : insnAt x.insts pc = inst
  rw [emitBody_eq s hpc, hinst, isLocalCall, decide_eq_true_iff]
  by_cases hregs : 10 < inst.dst_reg ∨ 10 < inst.src_reg
  · rw [if_pos hregs]
    refine iff_of_false (by simp) ?_
    rintro ⟨⟨-, hs⟩, hd, -⟩
    rw [hs] at hregs
    exact hregs.elim (BitVec.not_lt.2 hd) (by decide)
  rw [if_neg hregs]
  rw [not_or, BitVec.not_lt, BitVec.not_lt] at hregs
  by_cases hcall : switchCase inst.code = some .call ∧ inst.src_reg = 1
  · have hemit : emitInst x (prepared x extFuncNames lddwHelpers) patch pc inst = (do
        emitLocalCall (prepared x extFuncNames lddwHelpers) pc inst
        pure pc) := by
      rw [emitInst, hcall.1]
      simp only [emitCase, if_pos hcall.2]
    rw [hemit]
    -- The emission of a call looks up the block first.
    by_cases hr : Registered x.insts pc
    · refine iff_of_false ?_ fun h => h.2.2 hr
      have hcall : Never .assertion (emitLocalCall (prepared x extFuncNames lddwHelpers) pc inst) :=
        never_emitLocalCall hr
      have hnever := hcall.bind (f := fun _ => pure pc) (fun _ => (straight_pure pc).never) s.next
      split
      · next e he =>
        rintro ⟨⟩
        exact hnever he
      · rintro ⟨⟩
    · rw [(failsWith_emitLocalCall hr).bind s.next]
      exact iff_of_true rfl ⟨hcall, hregs.1, hr⟩
  · refine iff_of_false ?_ fun h => hcall h.1
    split
    · next e he =>
      rintro ⟨⟩
      exact never_emitInst hcall s.next he
    · rintro ⟨⟩

/-! ## Compilation -/

/-- The compilation fails as the emission of an instruction it comes to does. -/
theorem generateModule_of_reaches {e : Failure} {fuel : ℕ} {r : Except Failure Module}
    (hr : Reaches x extFuncNames lddwHelpers patch p pc)
    (he : ∀ s, emitBody x p patch pc s = .error e)
    (h : generateModule V x extFuncNames lddwHelpers patch fuel = some r) : r = .error e := by
  obtain ⟨fuel₀, fuel', s, hp, hs, hv⟩ := hr
  obtain ⟨hn, heq⟩ := eq_prepared hp
  cases heq
  have hne : x.insts.isEmpty = false := by
    have hlt := lt_of_mem_visited hv
    rw [List.isEmpty_eq_false_iff]
    exact List.length_pos_iff.1 (Nat.zero_lt_of_lt hlt)
  have hrun := run_error_of_mem_visited he hv
  rw [generateModule, emitModule, hne, if_neg Bool.false_ne_true] at h
  -- With another fuel, the outcome is the same, if there is one.
  cases hp' : prepare x extFuncNames lddwHelpers fuel with
  | none => rw [hp'] at h; cases h
  | some q =>
    obtain ⟨-, rfl⟩ := eq_prepared hp'
    rw [hp'] at h
    simp only [emitInsns, hs] at h
    cases hrun' : run 16 (prepared x extFuncNames lddwHelpers).insns.length
        (emitBody x (prepared x extFuncNames lddwHelpers) patch) fuel 0 s with
    | none => rw [hrun'] at h; cases h
    | some r' =>
      rw [hrun', run_unique hrun' hrun] at h
      exact (Option.some.inj h).symm

/-- The compilation only fails with the assertion where the emission does. -/
theorem reaches_of_assertion {fuel : ℕ}
    (h : generateModule V x extFuncNames lddwHelpers patch fuel = some (.error .assertion)) :
    ∃ pc s, Reaches x extFuncNames lddwHelpers patch (prepared x extFuncNames lddwHelpers) pc ∧
      emitBody x (prepared x extFuncNames lddwHelpers) patch pc s = .error .assertion := by
  -- The verifier, which comes after the emission, fails with other errors.
  have hM : emitModule x extFuncNames lddwHelpers patch fuel = some (.error .assertion) := by
    rw [generateModule] at h
    split at h
    · split at h <;> cases h
    · exact h
  rw [emitModule] at hM
  split at hM
  · cases hM
  cases hp : prepare x extFuncNames lddwHelpers fuel with
  | none => rw [hp] at hM; cases hM
  | some q =>
    obtain ⟨-, rfl⟩ := eq_prepared hp
    obtain ⟨s, hs, -⟩ := emitFixedBlocks_ok (prepared x extFuncNames lddwHelpers)
    rw [hp] at hM
    simp only [emitInsns, hs] at hM
    cases hrun : run 16 (prepared x extFuncNames lddwHelpers).insns.length
        (emitBody x (prepared x extFuncNames lddwHelpers) patch) fuel 0 s with
    | none => rw [hrun] at hM; cases hM
    | some r =>
      rw [hrun] at hM
      cases r with
      | ok s' => cases hM
      | error e =>
        cases hM
        -- The run of the loop fails where the body does.
        obtain ⟨pc, hv, s', hbody⟩ := exists_visited_of_run_error hrun
        exact ⟨pc, s', ⟨fuel, fuel, s, hp, hs, hv⟩, hbody⟩

/-- A block is registered for the calls that are rightly placed, and that have one. -/
theorem registered_iff (hn : x.insts.length < 65536)
    (hcall : isLocalCall (insnAt x.insts pc) = true)
    (hpc : pc + 1 < x.insts.length) :
    Registered x.insts pc ↔ (insnAt x.insts pc).code = EBPF_OP_CALL ∧ 0 < pc := by
  rw [isLocalCall, decide_eq_true_iff] at hcall
  rw [Registered, toUInt16_succ (by omega), ReturnsTo, Nat.add_sub_cancel]
  constructor
  · rintro ⟨-, hlt, hcode, -⟩
    exact ⟨hcode, by omega⟩
  · rintro ⟨hcode, hlt⟩
    exact ⟨begins_after_jmp hpc (isJmp_of_switchCase hcall.1 rfl), by omega, hcode, hcall.2⟩

theorem not_registered_iff (hup : LegalUpTo x extFuncNames lddwHelpers patch pc)
    (hn : x.insts.length < 65536) (hcall : isLocalCall (insnAt x.insts pc) = true) :
    ¬Registered x.insts pc ↔
      (insnAt x.insts pc).code ≠ EBPF_OP_CALL ∨ pc = 0 ∨ x.insts.length ≤ pc + 1 := by
  by_cases hpc : pc + 1 < x.insts.length
  · rw [registered_iff hn hcall hpc, not_and_or, Nat.pos_iff_ne_zero, not_not]
    exact or_congr_right (or_iff_left (Nat.not_le.2 hpc)).symm
  · refine iff_of_true (fun hreg => hpc ?_) (.inr (.inr (Nat.not_lt.1 hpc)))
    have hlt := hreg.1.1
    rwa [toUInt16_succ (by have := hup.lt; omega)] at hlt

/-- A call is unregistered exactly if its emission fails with the assertion. -/
theorem emitBody_eq_assertion_iff_unregistered (s : EmitState)
    (hup : LegalUpTo x extFuncNames lddwHelpers patch pc) (hn : x.insts.length < 65536) :
    emitBody x (prepared x extFuncNames lddwHelpers) patch pc s = .error .assertion ↔
      UnregisteredCall x.insts pc := by
  rw [emitBody_eq_assertion_iff s hup.lt, UnregisteredCall]
  exact and_congr_right fun hcall => and_congr_right fun _ => not_registered_iff hup hn hcall

/-- The assertion does not fail for programs without local calls. -/
theorem not_asserts_of_forall
    (h : ∀ pc < x.insts.length, isLocalCall (insnAt x.insts pc) = false) :
    ¬Asserts x extFuncNames lddwHelpers patch := by
  rintro ⟨pc, hup, hcall, -⟩
  exact Bool.false_ne_true ((h pc hup.lt).symm.trans hcall)

/-! ## Failures -/

/-- A compilation that comes to an instruction whose emission fails does fail like it. -/
theorem exists_generateModule_of_reaches {e : Failure}
    (hr : Reaches x extFuncNames lddwHelpers patch p pc)
    (he : ∀ s, emitBody x p patch pc s = .error e) :
    ∃ fuel, generateModule V x extFuncNames lddwHelpers patch fuel = some (.error e) := by
  obtain ⟨hn, -, -⟩ := reaches_iff.1 hr
  obtain ⟨fuel, r, hgen⟩ := generateModule_isSome V x extFuncNames lddwHelpers patch hn
  exact ⟨fuel, generateModule_of_reaches hr he hgen ▸ hgen⟩

theorem Rejects.of_reaches {msg : String} (hr : Reaches x extFuncNames lddwHelpers patch p pc)
    (he : ∀ s, emitBody x p patch pc s = .error (.error msg)) :
    Rejects V x extFuncNames lddwHelpers patch := by
  obtain ⟨fuel, hgen⟩ := exists_generateModule_of_reaches (V := V) hr he
  exact ⟨fuel, msg, hgen⟩

/-- The programs for which the assertion fails. -/
theorem asserts_iff :
    (∃ fuel, generateModule V x extFuncNames lddwHelpers patch fuel = some (.error .assertion)) ↔
      x.insts.length < 65536 ∧ Asserts x extFuncNames lddwHelpers patch := by
  constructor
  · rintro ⟨fuel, hgen⟩
    obtain ⟨pc, s, hr, hbody⟩ := reaches_of_assertion hgen
    obtain ⟨hn, -, hup⟩ := reaches_iff.1 hr
    exact ⟨hn, pc, hup, (emitBody_eq_assertion_iff_unregistered s hup hn).1 hbody⟩
  · rintro ⟨hn, pc, hup, hcall⟩
    exact exists_generateModule_of_reaches (reaches_iff.2 ⟨hn, rfl, hup⟩) fun s =>
      (emitBody_eq_assertion_iff_unregistered s hup hn).2 hcall

theorem Accepts.not_asserts {M : Module} (h : Accepts V x extFuncNames lddwHelpers patch M) :
    ¬Asserts x extFuncNames lddwHelpers patch := by
  intro hasserts
  have hn : x.insts.length < 65536 := h.inputOk.length_lt
  obtain ⟨fuel, hM⟩ := h
  obtain ⟨fuel', hassert⟩ := (asserts_iff (V := V)).2 ⟨hn, hasserts⟩
  cases generateModule_unique hM hassert

/-- The programs that are rejected with an error: the ones that the compilation of ends, that
    break a requirement, and for which the assertion does not fail. -/
theorem rejects_iff : Rejects V x extFuncNames lddwHelpers patch ↔
    x.insts.length < 65536 ∧ ¬InputOk x extFuncNames lddwHelpers patch ∧
      ¬Asserts x extFuncNames lddwHelpers patch := by
  constructor
  · rintro ⟨fuel, msg, hgen⟩
    have hn : x.insts.length < 65536 := by
      by_contra hn
      rw [generateModule_eq_none (Nat.not_lt.1 hn)] at hgen
      cases hgen
    refine ⟨hn, fun hok => ?_, fun hasserts => ?_⟩
    · obtain ⟨M, fuel', hM⟩ := (accepts_iff (V := V)).2 hok
      cases generateModule_unique hgen hM
    · obtain ⟨fuel', hassert⟩ := (asserts_iff (V := V)).2 ⟨hn, hasserts⟩
      cases generateModule_unique hgen hassert
  · rintro ⟨hn, hok, hasserts⟩
    obtain ⟨fuel, r, hgen⟩ := generateModule_isSome V x extFuncNames lddwHelpers patch hn
    cases r with
    | ok M => exact absurd (Accepts.inputOk ⟨fuel, hgen⟩) hok
    | error e =>
      cases e with
      | error msg => exact ⟨fuel, msg, hgen⟩
      | assertion => exact absurd (asserts_iff.1 ⟨fuel, hgen⟩).2 hasserts

end EbpfJit
