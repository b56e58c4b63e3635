import EbpfJit.CmpXchg
import EbpfJit.Division
import EbpfJit.Endian
import EbpfJit.FramePointer
import EbpfJit.Interpreter

/-!
# Correctness of the compiler

The compiled code of programs with any instructions does what the interpreter does,
as long as the interpreter stays away from what the compiler gets wrong: zero divisors,
little-endian conversions that clear something, atomic operations that do not fit, local
calls that need a frame of another size than `STACK_SIZE`, and too many active calls
(`FaithfulAt`). The size of the frames is a parameter of the interpreter: with frames of
`EBPF_STACK_SIZE` bytes, which programs may use, no local call is right.

* `Covered`: the programs in question;
* `agrees_exec_iff`: the machine of the compiled code does what the interpreter does
  exactly in these states;
* `implements_iff`: so do the runs.
-/

namespace EbpfJit

open Ir Transition

/-! ## Programs -/

/-- The instruction at `pc` has a meaning that its code is made for: it is no tail call,
    and no branch out of the program or to the second slot of an `lddw`. -/
def CoveredInsn (insns : List EbpfInst) (pc : ℕ) (inst : EbpfInst) : Interp.Insn → Prop
  | .plain (.alu _ _) => inst.off = 0
  | .plain .lddw => inst.src_reg = 0
  | .plain .ja | .plain (.jmp _ _) => IsTarget insns (pc + 1 + inst.off.toInt)
  | .plain .call => inst.src_reg = 0 ∧ inst.imm ≠ 12 ∧ inst.off = 0
  | .plain .exit => False
  | .byteOrder _ => inst.imm ∈ endianSizes
  | .localCall => IsTarget insns (pc + 1 + inst.imm.toInt)
  | _ => True

instance (insns : List EbpfInst) (pc : ℕ) (inst : EbpfInst) :
    (insn : Interp.Insn) → Decidable (CoveredInsn insns pc inst insn)
  | .plain (.alu _ _) | .plain .lddw => inferInstanceAs (Decidable (_ = _))
  | .plain .ja | .plain (.jmp _ _) | .localCall => inferInstanceAs (Decidable (IsTarget _ _))
  | .plain .call => inferInstanceAs (Decidable (_ ∧ _ ∧ _))
  | .plain .exit => inferInstanceAs (Decidable False)
  | .byteOrder _ => inferInstanceAs (Decidable (_ ∈ _))
  | .plain (.ldx _) | .plain (.st _) | .plain (.stx _) | .atomic _ | .exit =>
    inferInstanceAs (Decidable True)

/-- All instructions are covered, and none writes the frame pointer. -/
def Covered (insns : List EbpfInst) : Prop :=
  ∀ pc < insns.length, ¬IsSlot insns pc → writes (insnAt insns pc) 10 = false ∧
    ∃ insn ∈ Interp.decode (insnAt insns pc), CoveredInsn insns pc (insnAt insns pc) insn

instance : DecidablePred Covered := fun insns =>
  inferInstanceAs (Decidable (∀ pc < insns.length, ¬IsSlot insns pc → _))

/-- The code of the instruction is right for these registers and this memory, in a
    function with `depth` callers, if a function has `stackSize` bytes for its frame. -/
def Faithful (stackSize : ℕ) (inst : EbpfInst) (c : Core) (depth : ℕ) : Interp.Insn → Prop
  | .plain (.alu w op) => op = .div ∨ op = .mod → Isa.operand inst c w ≠ 0
  | .byteOrder toBig => toBig = false → (c.reg inst.dst_reg).toNat < 2 ^ inst.imm.toNat
  | .atomic _ => inst.imm ≠ EBPF_CMPXCHG → RmwFits inst c
  | .localCall =>
    BitVec.ofNat 64 stackSize = BitVec.ofNat 64 STACK_SIZE ∧ depth < CALL_STACK_SIZE
  | _ => True

instance (inst : EbpfInst) (c : Core) : Decidable (RmwFits inst c) :=
  decidable_of_iff ((c.addr inst inst.dst_reg).toNat % 32 = 0 ∧
    (Fetches inst → inst.imm ≠ EBPF_XCHG → atomicWidth inst = 32 → c.reg inst.src_reg >>> 32 = 0) ∧
    (inst.imm = EBPF_XCHG → c.reg inst.src_reg = (c.cell inst).setWidth 64))
    ⟨fun h => ⟨h.1, h.2.1, h.2.2⟩, fun h => ⟨h.aligned, h.upper, h.exchange⟩⟩

instance (stackSize : ℕ) (inst : EbpfInst) (c : Core) (depth : ℕ) :
    (insn : Interp.Insn) → Decidable (Faithful stackSize inst c depth insn)
  | .plain (.alu _ _) | .byteOrder _ | .atomic _ => inferInstanceAs (Decidable (_ → _))
  | .localCall => inferInstanceAs (Decidable (_ ∧ _))
  | .plain (.ldx _) | .plain (.st _) | .plain (.stx _) | .plain .lddw | .plain .ja
  | .plain (.jmp _ _) | .plain .call | .plain .exit | .exit => inferInstanceAs (Decidable True)

/-- The code of the next instruction is right. -/
def FaithfulAt (stackSize : ℕ) (insns : List EbpfInst) (s : Interp.State) : Prop :=
  ∀ insn ∈ Interp.decode (insnAt insns s.pc),
    Faithful stackSize (insnAt insns s.pc) s.core s.frames.length insn

instance (stackSize : ℕ) (insns : List EbpfInst) : DecidablePred (FaithfulAt stackSize insns) :=
  fun s => inferInstanceAs (Decidable (∀ insn ∈ Interp.decode (insnAt insns s.pc), _))

/-! ## Decoding -/

/-- The case of the switch for an instruction. -/
def caseOfInsn : Interp.Insn → SwitchCase
  | .plain op => caseOf op
  | .byteOrder _ => .endian
  | .atomic _ => .atomic
  | .localCall => .call
  | .exit => .exit

/-- What an instruction was decoded from. -/
def DecodesTo (inst : EbpfInst) : Interp.Insn → Prop
  | .plain op => Isa.decode inst.code = some op ∧ op ≠ .exit ∧ (op = .call → inst.src_reg ≠ 1)
  | .byteOrder false => inst.code = EBPF_OP_LE
  | .byteOrder true => inst.code = EBPF_OP_BE
  | .atomic w => (inst.code = EBPF_ATOMIC_OPCODE_32 ∨ inst.code = EBPF_ATOMIC_OPCODE_64) ∧
      w = atomicWidth inst
  | .localCall => Isa.decode inst.code = some .call ∧ inst.src_reg = 1
  | .exit => Isa.decode inst.code = some .exit

theorem decodesTo {inst : EbpfInst} {insn : Interp.Insn} (h : Interp.decode inst = some insn) :
    DecodesTo inst insn := by
  rw [Interp.decode] at h
  cases hop : Isa.decode inst.code with
  | some op =>
    simp only [hop, Option.some.injEq] at h
    subst h
    cases op with
    | call =>
      rw [Interp.Insn.ofOp]
      split
      · next hs => exact ⟨hop, hs⟩
      · next hs => exact ⟨hop, by simp, fun _ => hs⟩
    | exit => exact hop
    | _ => exact ⟨hop, by simp, by simp⟩
  | none =>
    simp only [hop] at h
    split at h
    · next hc =>
      cases h
      exact hc
    split at h
    · next hc =>
      cases h
      exact hc
    split at h
    · next hc =>
      cases h
      exact ⟨.inl hc, by rw [atomicWidth, hc]; rfl⟩
    split at h
    · next hc =>
      cases h
      exact ⟨.inr hc, by rw [atomicWidth, hc]; rfl⟩
    · cases h

/-- The switch decodes instructions as the interpreter does. -/
theorem switchCase_of_decodesTo {inst : EbpfInst} {insn : Interp.Insn} {sc : SwitchCase}
    (h : DecodesTo inst insn) (hsc : switchCase inst.code = some sc) : sc = caseOfInsn insn := by
  cases insn with
  | plain op => exact (switchCase_of_decode h.1 hsc).1
  | byteOrder toBig =>
    have he : switchCase inst.code = some .endian := by
      cases toBig
      · exact switchCase_endian (.inl h)
      · exact switchCase_endian (.inr h)
    exact Option.some.inj (hsc.symm.trans he)
  | atomic w => exact Option.some.inj (hsc.symm.trans (switchCase_atomic.2 h.1))
  | localCall => exact (switchCase_of_decode h.1 hsc).1
  | exit => exact (switchCase_of_decode h hsc).1

/-! ## Lock-step -/

/-- The state of the machine. -/
def Interp.State.toVm (s : Interp.State) : Vm.State := ⟨s.pc, s.core, s.frames⟩

/-- The result of the machine is the one of the interpreter, which is not stuck. -/
abbrev StepsAgree : Res Interp.State Isa.Halt → Res Vm.State Vm.Halt → Prop :=
  Res.Rel (fun s t => s.toVm = t) SameExit

theorem stepsAgree_cont {s : Interp.State} {t : Vm.State} :
    StepsAgree (.cont s) (.cont t) ↔ s.toVm = t := by
  constructor
  · rintro (h | _)
    exact h
  · exact fun h => .cont h

/-- The machine has undefined behaviour, or other registers or another memory than the
    interpreter. -/
def Diverges : Res Interp.State Isa.Halt → Res Vm.State Vm.Halt → Prop
  | _, .done .undefined => True
  | .cont s, .cont t => t.core ≠ s.core
  | _, _ => False

theorem Vm.next_of_some {F : Funcs} {x : CompilerXDP} {patch : Bool} {s : Vm.State}
    {inst : EbpfInst} {sc : SwitchCase} {c : Core}
    (h : s.core.effect inst F x patch (insnAt x.insts (s.pc + 1)) sc = some c) :
    Vm.next F x patch inst sc s = .cont ⟨nextPc s.pc inst, c, s.frames⟩ := by
  rw [Vm.next, h]

theorem Vm.next_of_none {F : Funcs} {x : CompilerXDP} {patch : Bool} {s : Vm.State}
    {inst : EbpfInst} {sc : SwitchCase}
    (h : s.core.effect inst F x patch (insnAt x.insts (s.pc + 1)) sc = none) :
    Vm.next F x patch inst sc s = .done .undefined := by
  rw [Vm.next, h]

/-- The result, with other frames. -/
def Vm.withFrames (fs : List Frame) : Res Vm.State Vm.Halt → Res Vm.State Vm.Halt
  | .cont t => .cont ⟨t.pc, t.core, fs⟩
  | .done r => .done r

section

variable {x : CompilerXDP} {extFuncNames lddwHelpers : List String} {patch : Bool} {F : Funcs}
  {stackSize : ℕ} {inst : EbpfInst} {s : Interp.State} {insn : Interp.Insn} {c : Core}
  {sc : SwitchCase}

/-- An instruction that goes on to the next one agrees if it has the right effect. -/
theorem stepsAgree_next_iff (hb : branches s.pc inst sc = none)
    (hpc : nextPc s.pc inst = s.pc + 1) :
    StepsAgree (.cont ⟨s.pc + 1, c, s.frames⟩) (Vm.exec F x patch inst s.toVm sc) ↔
      s.core.effect inst F x patch (insnAt x.insts (s.pc + 1)) sc = some c := by
  have hexec : Vm.exec F x patch inst s.toVm sc = Vm.next F x patch inst sc s.toVm :=
    Vm.exec_of_branches hb
  rw [hexec]
  cases heff : s.core.effect inst F x patch (insnAt x.insts (s.pc + 1)) sc with
  | some c' =>
    rw [Vm.next_of_some (s := s.toVm) heff, stepsAgree_cont]
    simp only [Interp.State.toVm, Vm.State.mk.injEq, hpc, Option.some.injEq, true_and, and_true]
    exact eq_comm
  | none =>
    rw [Vm.next_of_none (s := s.toVm) heff]
    refine iff_of_false ?_ (by simp)
    rintro ⟨⟩

/-- Otherwise the results differ in more than where they go on. -/
theorem diverges_next (hb : branches s.pc inst sc = none) (hpc : nextPc s.pc inst = s.pc + 1)
    (h : ¬StepsAgree (.cont ⟨s.pc + 1, c, s.frames⟩) (Vm.exec F x patch inst s.toVm sc)) :
    Diverges (.cont ⟨s.pc + 1, c, s.frames⟩) (Vm.exec F x patch inst s.toVm sc) := by
  rw [stepsAgree_next_iff hb hpc] at h
  have hexec : Vm.exec F x patch inst s.toVm sc = Vm.next F x patch inst sc s.toVm :=
    Vm.exec_of_branches hb
  rw [hexec]
  cases heff : s.core.effect inst F x patch (insnAt x.insts (s.pc + 1)) sc with
  | some c' =>
    rw [Vm.next_of_some (s := s.toVm) heff]
    exact fun hc => h (heff.trans (congrArg some hc))
  | none =>
    rw [Vm.next_of_none (s := s.toVm) heff]
    trivial

/-- Plain instructions do not depend on the frames. -/
theorem exec_frames {pc : ℕ} {core : Core} (fs : List Frame) (hexit : sc ≠ .exit)
    (hcall : sc = .call → inst.src_reg ≠ 1) :
    Vm.exec F x patch inst ⟨pc, core, fs⟩ sc =
      Vm.withFrames fs (Vm.exec F x patch inst ⟨pc, core, []⟩ sc) := by
  cases hb : branches pc inst sc with
  | none =>
    rw [Vm.exec_of_branches hb, Vm.exec_of_branches hb, Vm.next, Vm.next]
    cases core.effect inst F x patch (insnAt x.insts (pc + 1)) sc <;> rfl
  | some succs =>
    cases sc with
    | exit => exact absurd rfl hexit
    | call =>
      have himm : inst.imm = 12 := by
        by_contra himm
        rw [branches, if_neg (hcall rfl), if_neg himm] at hb
        cases hb
      simp only [Vm.exec, if_neg (hcall rfl), if_pos himm]
      rfl
    | ja | jcond | jset => rfl
    | _ => cases hb

theorem caseOf_eq_exit {op : Isa.Op} (h : caseOf op = .exit) : op = .exit := by
  cases op with
  | exit => rfl
  | alu w d => cases d <;> cases h
  | jmp w d => cases d <;> cases h
  | _ => cases h

theorem caseOf_eq_call {op : Isa.Op} (h : caseOf op = .call) : op = .call := by
  cases op with
  | call => rfl
  | alu w d => cases d <;> cases h
  | jmp w d => cases d <;> cases h
  | _ => cases h

/-- The interpreter of the plain instructions agrees with the machine, whose frames they
    leave alone. -/
theorem stepsAgree_of_supported {op : Isa.Op} (hlen : x.insts.length < 65536)
    (hop : Isa.decode inst.code = some op) (hexit : op ≠ .exit)
    (hcall : op = .call → inst.src_reg ≠ 1) (hfits : Fits inst.code op)
    (hsup : SupportedOp x.insts s.pc inst op)
    (hl : CaseLegal x extFuncNames lddwHelpers patch s.pc inst (caseOf op)) :
    StepsAgree (Interp.exec stackSize (helpers F) x.insts inst s (.plain op))
      (Vm.exec F x patch inst s.toVm (caseOf op)) := by
  have hagrees := agrees_exec (F := F) (s := ⟨s.pc, s.core⟩) hlen hop hfits hsup hl
  rw [Interp.State.toVm, exec_frames s.frames (fun h => hexit (caseOf_eq_exit h))
    (fun h => hcall (caseOf_eq_call h)), Interp.exec]
  cases hisa : Isa.exec (helpers F) x.insts inst ⟨s.pc, s.core⟩ op with
  | cont t =>
    obtain ⟨u, hu, rfl⟩ := (hisa ▸ hagrees).of_cont
    have hu' : Vm.exec F x patch inst ⟨s.pc, s.core, []⟩ (caseOf op) = .cont t.toVm := hu
    rw [hu']
    exact .cont rfl
  | done r =>
    obtain ⟨u, hu, hr⟩ := (hisa ▸ hagrees).of_done
    have hu' : Vm.exec F x patch inst ⟨s.pc, s.core, []⟩ (caseOf op) = .done u := hu
    rw [hu']
    exact .done hr

/-- A plain instruction agrees, but for a division by zero. -/
theorem stepsAgree_plain_iff {op : Isa.Op} (hlen : x.insts.length < 65536)
    (hop : Isa.decode inst.code = some op) (hexit : op ≠ .exit)
    (hcall : op = .call → inst.src_reg ≠ 1) (hfits : Fits inst.code op)
    (hcov : CoveredInsn x.insts s.pc inst (.plain op))
    (hl : CaseLegal x extFuncNames lddwHelpers patch s.pc inst (caseOf op)) :
    StepsAgree (Interp.exec stackSize (helpers F) x.insts inst s (.plain op))
        (Vm.exec F x patch inst s.toVm (caseOf op)) ↔
      Faithful stackSize inst s.core s.frames.length (.plain op) := by
  by_cases hdiv : ∃ w d, op = .alu w d ∧ (d = .div ∨ d = .mod)
  · obtain ⟨w, d, rfl, hd⟩ := hdiv
    have hoff : inst.off = 0 := hcov
    have hpc : nextPc s.pc inst = s.pc + 1 :=
      if_neg fun hcode => by cases (code_eq_lddw_iff hop).1 hcode
    have hb : branches s.pc inst (caseOf (.alu w d)) = none := by
      rcases hd with rfl | rfl <;> rfl
    simp only [Interp.exec, Isa.exec, if_pos hoff]
    rw [stepsAgree_next_iff hb hpc, effect_division s.core hfits hd, Faithful]
    split
    · next hz => exact iff_of_false (by simp) fun h => h hd hz
    · next hz => exact iff_of_true rfl fun _ => hz
  · have hsup : SupportedOp x.insts s.pc inst op := by
      cases op with
      | alu w d =>
        exact ⟨fun h => hdiv ⟨w, d, rfl, .inl h⟩, fun h => hdiv ⟨w, d, rfl, .inr h⟩, hcov⟩
      | exit => exact absurd rfl hexit
      | _ => exact hcov
    refine iff_of_true (stepsAgree_of_supported hlen hop hexit hcall hfits hsup hl) ?_
    cases op with
    | alu w d => exact fun h => absurd ⟨w, d, rfl, h⟩ hdiv
    | _ => trivial

/-! ### The other instructions -/

theorem nextPc_of_byteOrder {toBig : Bool} (pc : ℕ) (hdec : DecodesTo inst (.byteOrder toBig)) :
    nextPc pc inst = pc + 1 := by
  refine if_neg fun hcode => ?_
  cases toBig
  · exact absurd (hcode.symm.trans hdec) (by decide)
  · exact absurd (hcode.symm.trans hdec) (by decide)

theorem nextPc_of_atomic (pc : ℕ)
    (hcode : inst.code = EBPF_ATOMIC_OPCODE_32 ∨ inst.code = EBPF_ATOMIC_OPCODE_64) :
    nextPc pc inst = pc + 1 := by
  refine if_neg fun hlddw => ?_
  rcases hcode with h | h
  · exact absurd (hlddw.symm.trans h) (by decide)
  · exact absurd (hlddw.symm.trans h) (by decide)

/-- A conversion agrees if there is nothing that the code fails to clear. -/
theorem stepsAgree_byteOrder_iff {toBig : Bool} (hdec : DecodesTo inst (.byteOrder toBig))
    (himm : inst.imm ∈ endianSizes) :
    StepsAgree (Interp.exec stackSize (helpers F) x.insts inst s (.byteOrder toBig))
        (Vm.exec F x patch inst s.toVm .endian) ↔
      Faithful stackSize inst s.core s.frames.length (.byteOrder toBig) := by
  rw [Interp.exec, if_pos (mem_endianSizes.1 himm),
    stepsAgree_next_iff rfl (nextPc_of_byteOrder s.pc hdec), Core.effect,
    Option.some.injEq, Core.setReg_inj, Faithful]
  cases toBig with
  | false =>
    rw [endian_of_le hdec, Interp.reorder, if_neg Bool.false_ne_true, eq_ofNat_mod_iff]
    simp
  | true =>
    rw [endian_eq_merge hdec (eight_mul_of_mem himm).2.1, Interp.reorder, if_pos rfl]
    simp

/-- The operation of the atomic instructions that modify their cell. -/
theorem modifies_eq {w : ℕ} {imm : BitVec 32} (himm : imm ∈ atomicImms) (hne : imm ≠ EBPF_CMPXCHG) :
    ∃ op, rmwOf imm = some op ∧ Interp.modifies w imm = some fun old src => op.eval old src := by
  simp only [atomicImms, List.mem_cons, List.not_mem_nil, or_false, hne] at himm
  rcases himm with rfl | rfl | rfl | rfl | rfl | rfl | rfl | rfl | rfl
  all_goals exact ⟨_, rfl, rfl⟩

/-- What the interpreter makes of an atomic instruction. -/
theorem atomic_interp (himm : inst.imm ∈ atomicImms) (hne : inst.imm ≠ EBPF_CMPXCHG) :
    ∃ op, rmwOf inst.imm = some op ∧
      Interp.atomic inst (atomicWidth inst) c = some (c.readModifyWrite inst op) := by
  obtain ⟨op, hop, hmod⟩ := modifies_eq (w := atomicWidth inst) himm hne
  refine ⟨op, hop, ?_⟩
  rw [Interp.atomic, if_neg (show ¬inst.imm = 0xf1 from hne), hmod]
  rfl

/-- What the interpreter makes of a compare-and-exchange, which is what the code does
    if nobody else writes to the cell. -/
theorem cmpXchg_interp (himm : inst.imm = EBPF_CMPXCHG) :
    Interp.atomic inst (atomicWidth inst) c = some (c.cmpXchg inst) := by
  rw [Interp.atomic, if_pos (show inst.imm = 0xf1 from himm)]
  rfl

/-- An atomic operation agrees if it fits. -/
theorem stepsAgree_atomic_iff {w : ℕ} (hdec : DecodesTo inst (.atomic w))
    (himm : inst.imm ∈ atomicImms) :
    StepsAgree (Interp.exec stackSize (helpers F) x.insts inst s (.atomic w))
        (Vm.exec F x patch inst s.toVm .atomic) ↔
      Faithful stackSize inst s.core s.frames.length (.atomic w) := by
  obtain ⟨hcode, rfl⟩ := hdec
  have hpc := nextPc_of_atomic s.pc hcode
  by_cases hx : inst.imm = EBPF_CMPXCHG
  · rw [Interp.exec, cmpXchg_interp hx]
    exact iff_of_true ((stepsAgree_next_iff rfl hpc).2 (atomic_cmpXchg hx)) fun h => absurd hx h
  · obtain ⟨op, hop, hint⟩ := atomic_interp (c := s.core) himm hx
    rw [Interp.exec, hint]
    rw [stepsAgree_next_iff rfl hpc, Core.effect, atomic_eq hop, atomicRmw_eq_iff, Faithful]
    exact ⟨fun h _ => h, fun h => h hx⟩

/-- The frame pointer of a local function is the one in the code. -/
theorem enter_eq_iff : c.setReg 10 (c.reg 10 - BitVec.ofNat 64 stackSize) = c.enter ↔
    BitVec.ofNat 64 stackSize = BitVec.ofNat 64 STACK_SIZE := by
  rw [Core.enter, Core.setReg_inj, BitVec.sub_right_inj]

/-- A call of a local function agrees if its frame is of the right size, and there is a place
    for it. -/
theorem stepsAgree_localCall_iff (hlen : x.insts.length < 65536) (hsrc : inst.src_reg = 1)
    (ht : IsTarget x.insts (s.pc + 1 + inst.imm.toInt)) (hb : Begins x.insts (callDst s.pc inst)) :
    StepsAgree (Interp.exec stackSize (helpers F) x.insts inst s .localCall)
        (Vm.exec F x patch inst s.toVm .call) ↔
      Faithful stackSize inst s.core s.frames.length .localCall := by
  obtain ⟨h₀, h₁, hs⟩ := ht
  have hdst : callDst s.pc inst = (s.pc + 1 + inst.imm.toInt).toNat :=
    toUInt16_of_lt h₀ (by omega)
  have hland : land x.insts (callDst s.pc inst) = (s.pc + 1 + inst.imm.toInt).toNat := by
    rw [hdst] at hb ⊢
    exact land_of_not_isSlot hb hs
  rw [Interp.exec, Interp.enter, if_pos h₀, Vm.exec, if_pos hsrc, Vm.enter, Faithful]
  change StepsAgree _ (if s.frames.length < CALL_STACK_SIZE then .cont ⟨land x.insts
    (callDst s.pc inst), s.core.enter, ⟨s.pc + 1, s.core.regs⟩ :: s.frames⟩
    else .done .undefined) ↔ _
  rw [hland]
  split
  · next hlt =>
    rw [stepsAgree_cont, and_iff_left hlt, Interp.State.toVm, Vm.State.mk.injEq,
      ← enter_eq_iff (c := s.core)]
    simp
  · next hlt =>
    refine iff_of_false ?_ fun h => hlt h.2
    rintro ⟨⟩

/-- A return agrees if the frame pointer is below the one of the caller. -/
theorem stepsAgree_exit {base : BitVec 64}
    (hst : Vm.Stacked base (s.core.regs 10) s.frames) :
    StepsAgree (Interp.exec stackSize (helpers F) x.insts inst s .exit)
      (Vm.exec F x patch inst s.toVm .exit) := by
  obtain ⟨pc, core, frames⟩ := s
  cases frames with
  | nil => exact .done rfl
  | cons f fs =>
    refine .cont ?_
    have hten : core.regs 10 = f.regs 10 - BitVec.ofNat 64 STACK_SIZE := hst.1
    have hcore : (⟨fun i => if 6 ≤ i ∧ i ≤ 10 then f.regs i else core.regs i, core.mem⟩ : Core) =
        core.leave f := by
      refine Core.ext (funext fun i => ?_) rfl
      by_cases h₉ : 6 ≤ i ∧ i ≤ 9
      · simp [Core.leave, h₉, show i ≤ 10 by omega]
      by_cases h₁₀ : i = 10
      · subst h₁₀
        rw [Core.regs_leave_ten, hten, BitVec.sub_add_cancel]
        rfl
      · simp [Core.leave, h₉, h₁₀, show ¬(6 ≤ i ∧ i ≤ 10) by omega]
    rw [Interp.State.toVm, hcore]
    rfl

/-- The instruction that both execute. -/
structure Executes (stackSize : ℕ) (x : CompilerXDP) (extFuncNames lddwHelpers : List String)
    (patch : Bool) (F : Funcs) (s : Interp.State) (insn : Interp.Insn) : Prop where
  decodesTo : DecodesTo (insnAt x.insts s.pc) insn
  switchCase : switchCase (insnAt x.insts s.pc).code = some (caseOfInsn insn)
  covered : CoveredInsn x.insts s.pc (insnAt x.insts s.pc) insn
  legal : CaseLegal x extFuncNames lddwHelpers patch s.pc (insnAt x.insts s.pc) (caseOfInsn insn)
  faithfulAt : FaithfulAt stackSize x.insts s ↔
    Faithful stackSize (insnAt x.insts s.pc) s.core s.frames.length insn
  interp : Interp.step stackSize (helpers F) x.insts s =
    Interp.exec stackSize (helpers F) x.insts (insnAt x.insts s.pc) s insn
  vm : Vm.step F x patch s.toVm =
    Vm.exec F x patch (insnAt x.insts s.pc) s.toVm (caseOfInsn insn)

theorem exists_executes (stackSize : ℕ) (F : Funcs) (hok : InputOk x extFuncNames lddwHelpers patch)
    (hcov : Covered x.insts) (ht : IsInst x.insts s.toVm) :
    ∃ insn, Executes stackSize x extFuncNames lddwHelpers patch F s insn := by
  obtain ⟨hpc, hs⟩ : s.pc < x.insts.length ∧ ¬IsSlot x.insts s.pc := ht
  obtain ⟨-, insn, hdec, hcov⟩ := hcov s.pc hpc hs
  obtain ⟨-, -, sc, hsc, hl⟩ := hok.legal s.pc hpc hs
  have hd := decodesTo hdec
  obtain rfl := switchCase_of_decodesTo hd hsc
  refine ⟨insn, hd, hsc, hcov, hl, ?_, ?_, Vm.step_eq hsc⟩
  · rw [FaithfulAt, Option.mem_def.1 hdec]
    simp
  · rw [Option.mem_def, insnAt, List.getD_eq_getElem?_getD, List.getElem?_eq_getElem hpc,
      Option.getD_some] at hdec
    simp [Interp.step, hpc, hdec]

/-- The machine does what the interpreter does exactly if the code of the instruction is
    right in the state. -/
theorem stepsAgree_iff {base : BitVec 64} (hok : InputOk x extFuncNames lddwHelpers patch)
    (hcov : Covered x.insts) (ht : IsInst x.insts s.toVm)
    (hst : Vm.Stacked base (s.core.regs 10) s.frames) :
    StepsAgree (Interp.step stackSize (helpers F) x.insts s) (Vm.step F x patch s.toVm) ↔
      FaithfulAt stackSize x.insts s := by
  obtain ⟨insn, hx⟩ := exists_executes stackSize F hok hcov ht
  obtain ⟨hd, hsc, hcov, hl, hat, hint, hvm⟩ := hx
  rw [hvm, hint, hat]
  cases insn with
  | plain op =>
    obtain ⟨hop, hexit, hcall⟩ := hd
    have hcase := (switchCase_of_decode hop hsc).2
    exact stepsAgree_plain_iff hok.length_lt hop hexit hcall hcase hcov hl
  | byteOrder toBig => exact stepsAgree_byteOrder_iff hd hcov
  | atomic w => exact stepsAgree_atomic_iff hd hl
  | localCall =>
    rw [caseOfInsn, CaseLegal, if_pos hd.2] at hl
    exact stepsAgree_localCall_iff hok.length_lt hd.2 hcov hl.2
  | exit => exact iff_of_true (stepsAgree_exit hst) trivial

/-- Otherwise it diverges. -/
theorem diverges_of_not_faithfulAt {base : BitVec 64}
    (hok : InputOk x extFuncNames lddwHelpers patch) (hcov : Covered x.insts)
    (ht : IsInst x.insts s.toVm) (hst : Vm.Stacked base (s.core.regs 10) s.frames)
    (hf : ¬FaithfulAt stackSize x.insts s) :
    Diverges (Interp.step stackSize (helpers F) x.insts s) (Vm.step F x patch s.toVm) := by
  have hne := (stepsAgree_iff (F := F) hok hcov ht hst).not.2 hf
  obtain ⟨insn, hx⟩ := exists_executes stackSize F hok hcov ht
  obtain ⟨hd, hsc, hcov, hl, hat, hint, hvm⟩ := hx
  rw [hat] at hf
  rw [hvm, hint] at hne ⊢
  cases insn with
  | plain op =>
    cases op with
    | alu w d =>
      obtain ⟨hop, -, -⟩ := hd
      have hoff : (insnAt x.insts s.pc).off = 0 := hcov
      have hpc : nextPc s.pc (insnAt x.insts s.pc) = s.pc + 1 :=
        if_neg fun hcode => by cases (code_eq_lddw_iff hop).1 hcode
      have hb : branches s.pc (insnAt x.insts s.pc) (caseOf (.alu w d)) = none := by
        cases d <;> rfl
      simp only [Interp.exec, Isa.exec, if_pos hoff] at hne ⊢
      exact diverges_next hb hpc hne
    | _ => exact absurd trivial hf
  | byteOrder toBig =>
    have hpc := nextPc_of_byteOrder s.pc hd
    rw [Interp.exec, if_pos (mem_endianSizes.1 hcov)] at hne ⊢
    exact diverges_next rfl hpc hne
  | atomic w =>
    obtain ⟨hcode, rfl⟩ := hd
    have hpc := nextPc_of_atomic s.pc hcode
    rw [Faithful, Classical.not_imp] at hf
    obtain ⟨op, -, hatomic⟩ := atomic_interp (c := s.core) hl hf.1
    rw [Interp.exec, hatomic] at hne ⊢
    exact diverges_next rfl hpc hne
  | localCall =>
    have h₀ : 0 ≤ s.pc + 1 + (insnAt x.insts s.pc).imm.toInt := hcov.1
    rw [Interp.exec, Interp.enter, if_pos h₀, caseOfInsn, Vm.exec, if_pos hd.2, Vm.enter]
    change Diverges _ (if s.frames.length < CALL_STACK_SIZE then .cont ⟨_, s.core.enter, _⟩
      else .done .undefined)
    split
    · next hlt =>
      -- The frame is of another size, and so the frame pointer is not the one of the code.
      exact fun henter => hf ⟨enter_eq_iff.1 henter.symm, hlt⟩
    · trivial
  | exit => exact absurd trivial hf

theorem not_quiet_of_covered (hcov : Covered x.insts) (ht : IsInst x.insts s.toVm) :
    ¬Quiet (insnAt x.insts s.pc) := by
  rintro ⟨hcode, hsrc⟩
  obtain ⟨-, insn, hdec, hcov⟩ := hcov s.pc ht.1 ht.2
  have hlddw : Isa.decode EBPF_OP_LDDW = some .lddw := rfl
  rw [Option.mem_def, Interp.decode, hcode, hlddw, Option.some.injEq] at hdec
  subst hdec
  have hzero : (insnAt x.insts s.pc).src_reg = 0 := hcov
  rw [hzero] at hsrc
  exact absurd hsrc (by decide)

end

/-! ## Runs -/

/-- The configuration is at the instruction of the state, with its registers, its memory
    and its number of active calls. -/
structure AtInterp (M : Module) (s : Interp.State) (c : Config Lbl Slot) : Prop where
  pc : M.pcAt c = some s.pc
  core : coreOf c.m = s.core
  calls : (c.m.slot .callItemCnt 0).toNat = 5 * s.frames.length

/-- The interpreter, with frames of `stackSize` bytes. -/
abbrev interp (stackSize : ℕ) (F : Funcs) (insns : List EbpfInst) :
    Interp.State → Res Interp.State Isa.Halt :=
  Interp.step stackSize (helpers F) insns

/-- The run of the compiled code is the one of the interpreter. -/
structure Implements (stackSize : ℕ) (insns : List EbpfInst) (M : Module) (W : World Lbl)
    (e : Env Slot) (m : Machine Slot) : Prop where
  /-- Every instruction boundary is a state of the interpreter, and the boundaries
      before it are the states before that. -/
  boundary : ∀ k c, iter (step M.fn W) k (entry e m) = .cont c → M.boundary c = true →
    ∃ n s, iter (interp stackSize W.func insns) n (Interp.start (startCore W m)) = .cont s ∧
      AtInterp M s c ∧
      List.Forall₂ (AtInterp M)
        (trace (interp stackSize W.func insns) (fun _ => true) n (Interp.start (startCore W m)))
        (M.executed W k (entry e m))
  /-- The compiled code gets to every state of the interpreter, through the ones before. -/
  state : ∀ n s, iter (interp stackSize W.func insns) n (Interp.start (startCore W m)) = .cont s →
    ∃ k c, iter (step M.fn W) k (entry e m) = .cont c ∧ M.boundary c = true ∧ AtInterp M s c ∧
      List.Forall₂ (AtInterp M)
        (trace (interp stackSize W.func insns) (fun _ => true) n (Interp.start (startCore W m)))
        (M.executed W k (entry e m))
  /-- The interpreter is never stuck; when it exits, the compiled code returns `r0`. -/
  exits : ∀ n r, iter (interp stackSize W.func insns) n (Interp.start (startCore W m)) = .done r →
    ∃ c k m', r = .exited c ∧ iter (step M.fn W) k (entry e m) = .done (.ret (c.reg 0) m') ∧
      coreOf m' = c
  /-- The compiled code has no undefined behaviour; when it returns, the interpreter
      exits. -/
  returns : ∀ k r, iter (step M.fn W) k (entry e m) = .done r →
    ∃ n c m', iter (interp stackSize W.func insns) n (Interp.start (startCore W m)) =
        .done (.exited c) ∧
      r = .ret (c.reg 0) m' ∧ coreOf m' = c

section

variable {x : CompilerXDP} {extFuncNames lddwHelpers : List String} {patch : Bool} {M : Module}
  {W : World Lbl} {V : Verifier} (h : Accepts V x extFuncNames lddwHelpers patch M)
  (hW : W.Separates M.fn.blocks) (hcov : Covered x.insts) {e : Env Slot} {m : Machine Slot}
  {stackSize n : ℕ}
include h hW

/-- The machine gets through its states as the compiled code gets through its boundaries. -/
theorem Accepts.forward_trace {t : Vm.State}
    (hn : iter (Vm.step W.func x patch) n (Vm.start (startCore W m)) = .cont t) :
    ∃ k c, iter (step M.fn W) k (entry e m) = .cont c ∧ Matches M x.insts W t c ∧
      List.Forall₂ (Matches M x.insts W)
        (trace (Vm.step W.func x patch) (fun t => !isQuiet x.insts t) n
          (Vm.start (startCore W m)))
        (M.executed W k (entry e m)) := by
  obtain ⟨S, k₀, c₀, hrel, -, hmark, hquiet, hrun₀, hm, hun⟩ := h.run hW e m
  obtain ⟨k, c, hrun, hs, htr⟩ := S.forward_trace (hrel ▸ hm) hn
  refine ⟨k₀ + k, c, by rw [iter_add hrun₀, hrun], hrel ▸ hs, ?_⟩
  rw [Module.executed, trace_add hrun₀, trace_eq_nil hun, List.nil_append]
  rwa [hrel, hmark, hquiet] at htr

include hcov

/-- In its runs the frame pointer goes up and down with the calls. -/
theorem Accepts.stacked {t : Vm.State}
    (hn : iter (Vm.step W.func x patch) n (Vm.start (startCore W m)) = .cont t) :
    Vm.Stacked (stackEnd W) (t.core.regs 10) t.frames := by
  have hend : (startCore W m).regs 10 = stackEnd W := rfl
  rw [← hend]
  refine Vm.stacked hn fun u hu => ?_
  obtain ⟨-, j, -, hj⟩ := mem_trace hu
  obtain ⟨hpc, hs⟩ := h.isInst hW hj
  exact (hcov u.pc hpc hs).1

/-- The step lemma, for the states that the machine gets to. -/
theorem Accepts.stepsAgree_iff {s : Interp.State}
    (hn : iter (Vm.step W.func x patch) n (Vm.start (startCore W m)) = .cont s.toVm) :
    StepsAgree (interp stackSize W.func x.insts s) (Vm.step W.func x patch s.toVm) ↔
      FaithfulAt stackSize x.insts s :=
  EbpfJit.stepsAgree_iff h.inputOk hcov (h.isInst hW hn) (h.stacked hW hcov hn)

/-- The runs agree as long as the states before are ones that the code is right in. -/
theorem Accepts.runsAgree (hf : ∀ j < n, ∀ s,
      iter (interp stackSize W.func x.insts) j (Interp.start (startCore W m)) = .cont s →
        FaithfulAt stackSize x.insts s) :
    StepsAgree (iter (interp stackSize W.func x.insts) n (Interp.start (startCore W m)))
      (iter (Vm.step W.func x patch) n (Vm.start (startCore W m))) := by
  refine iter_rel_of_left (Q := FaithfulAt stackSize x.insts) (P := fun t => ∃ j,
    iter (Vm.step W.func x patch) j (Vm.start (startCore W m)) = .cont t) ?_ rfl
    (fun j t hj => ⟨j, hj⟩) hf
  rintro s t hs ⟨j, hj⟩ rfl
  exact (h.stepsAgree_iff hW hcov hj).2 hs

/-- They go through the same states. -/
theorem Accepts.trace_toVm (hf : ∀ j < n, ∀ s,
      iter (interp stackSize W.func x.insts) j (Interp.start (startCore W m)) = .cont s →
        FaithfulAt stackSize x.insts s) :
    trace (Vm.step W.func x patch) (fun t => !isQuiet x.insts t) n (Vm.start (startCore W m)) =
      (trace (interp stackSize W.func x.insts) (fun _ => true) n (Interp.start (startCore W m))).map
        Interp.State.toVm := by
  have htr : List.Forall₂ (fun s t => s.toVm = t)
      (trace (interp stackSize W.func x.insts) (fun _ => true) n (Interp.start (startCore W m)))
      (trace (Vm.step W.func x patch) (fun t => !isQuiet x.insts t) n
        (Vm.start (startCore W m))) :=
    trace_rel_of_left (D := SameExit) (Q := FaithfulAt stackSize x.insts)
    (P := fun t => ∃ j, iter (Vm.step W.func x patch) j (Vm.start (startCore W m)) = .cont t)
    (by
      rintro s t hs ⟨j, hj⟩ rfl
      exact (h.stepsAgree_iff hW hcov hj).2 hs)
    (by
      rintro s t ⟨j, hj⟩ rfl
      have hq : ¬Quiet (insnAt x.insts s.toVm.pc) := not_quiet_of_covered hcov (h.isInst hW hj)
      rw [isQuiet, decide_eq_false hq]
      rfl)
    rfl (fun j t hj => ⟨j, hj⟩) hf
  rw [← List.forall₂_eq_eq_eq, List.forall₂_map_right_iff]
  exact htr.flip.imp fun _ _ hst => hst.symm

/-- The configuration at a state is at its instruction, since none is without code. -/
theorem Accepts.atInterp {s : Interp.State} {c : Config Lbl Slot} {j : ℕ}
    (hj : iter (Vm.step W.func x patch) j (Vm.start (startCore W m)) = .cont s.toVm)
    (hm : Matches M x.insts W s.toVm c) : AtInterp M s c := by
  obtain ⟨base, hc, -⟩ := h.exists_compiled
  have hq : ¬Quiet (insnAt x.insts s.toVm.pc) := not_quiet_of_covered hcov (h.isInst hW hj)
  exact ⟨hc.pcAt_of_matches hm hq, hm.represents.core, toNat_count hm.represents⟩

/-- The boundaries of a run are at the states of the interpreter. -/
theorem Accepts.executed_atInterp {k : ℕ} (hf : ∀ j < n, ∀ s,
      iter (interp stackSize W.func x.insts) j (Interp.start (startCore W m)) = .cont s →
        FaithfulAt stackSize x.insts s)
    (htr : List.Forall₂ (Matches M x.insts W)
      (trace (Vm.step W.func x patch) (fun t => !isQuiet x.insts t) n (Vm.start (startCore W m)))
      (M.executed W k (entry e m))) :
    List.Forall₂ (AtInterp M)
      (trace (interp stackSize W.func x.insts) (fun _ => true) n (Interp.start (startCore W m)))
      (M.executed W k (entry e m)) := by
  have heq := h.trace_toVm hW hcov hf
  rw [heq, List.forall₂_map_left_iff] at htr
  have hreach : ∀ s ∈ trace (interp stackSize W.func x.insts) (fun _ => true) n
      (Interp.start (startCore W m)),
      ∃ j, iter (Vm.step W.func x patch) j (Vm.start (startCore W m)) = .cont s.toVm := by
    intro s hs
    have hmem := List.mem_map_of_mem (f := Interp.State.toVm) hs
    rw [← heq] at hmem
    obtain ⟨-, j, -, hj⟩ := mem_trace hmem
    exact ⟨j, hj⟩
  exact ((List.forall₂_and_left _ _).2 ⟨hreach, htr⟩).imp
    fun s d ⟨⟨j, hj⟩, hm⟩ => h.atInterp hW hcov hj hm

/-- If the interpreter only gets to states that the code is right in, the compiled code
    implements it. -/
theorem Accepts.implements_of_faithfulAt (hf : ∀ j s,
      iter (interp stackSize W.func x.insts) j (Interp.start (startCore W m)) = .cont s →
        FaithfulAt stackSize x.insts s) : Implements stackSize x.insts M W e m where
  boundary k c hrun hc := by
    obtain ⟨n, t, hn, hm, -, htr⟩ := h.backward hW hrun hc
    have hagree := h.runsAgree hW hcov (n := n) fun j _ => hf j
    obtain ⟨s, hs, rfl⟩ := (hn ▸ hagree).to_cont
    exact ⟨n, s, hs, h.atInterp hW hcov hn hm,
      h.executed_atInterp hW hcov (fun j _ => hf j) htr⟩
  state n s hs := by
    have hagree := h.runsAgree hW hcov (n := n) fun j _ => hf j
    obtain ⟨t, ht, rfl⟩ := (hs ▸ hagree).of_cont
    obtain ⟨k, c, hrun, hm, htr⟩ := h.forward_trace hW (e := e) ht
    exact ⟨k, c, hrun, hm.boundary, h.atInterp hW hcov ht hm,
      h.executed_atInterp hW hcov (fun j _ => hf j) htr⟩
  exits n r hr := by
    have hagree := h.runsAgree hW hcov (n := n) fun j _ => hf j
    obtain ⟨r', hr', hexit⟩ := (hr ▸ hagree).of_done
    obtain ⟨k, r'', hrun, hhalt⟩ := h.forward_done hW (e := e) hr'
    obtain ⟨c, m', hc, rfl, hm'⟩ := hexit.ret hhalt
    exact ⟨c, k, m', hc, hrun, hm'⟩
  returns k r hrun := by
    obtain ⟨n, r', hn, hhalt⟩ := h.backward_done hW hrun
    have hagree := h.runsAgree hW hcov (n := n) fun j _ => hf j
    obtain ⟨r'', hr'', hexit⟩ := (hn ▸ hagree).to_done
    obtain ⟨c, m', rfl, hret, hm'⟩ := hexit.ret hhalt
    exact ⟨n, c, m', hr'', hret, hm'⟩

/-- The machine does not diverge from the interpreter if the compiled code implements it. -/
theorem Accepts.not_diverges (himpl : Implements stackSize x.insts M W e m) (hf : ∀ j < n, ∀ s,
      iter (interp stackSize W.func x.insts) j (Interp.start (startCore W m)) = .cont s →
        FaithfulAt stackSize x.insts s) {s : Interp.State}
    (hs : iter (interp stackSize W.func x.insts) n (Interp.start (startCore W m)) = .cont s)
    (hn : iter (Vm.step W.func x patch) n (Vm.start (startCore W m)) = .cont s.toVm) :
    ¬Diverges (interp stackSize W.func x.insts s) (Vm.step W.func x patch s.toVm) := by
  have hvm := iter_succ_right hn
  have hint := iter_succ_right hs
  cases ht : Vm.step W.func x patch s.toVm with
  | done r =>
    cases r with
    | exited c => cases interp stackSize W.func x.insts s <;> exact id
    | undefined =>
      -- The compiled code has undefined behaviour, and does not return.
      obtain ⟨k, r', hrun, hhalt⟩ := h.forward_done hW (e := e) (hvm.trans ht)
      obtain ⟨-, c, m', -, rfl, -⟩ := himpl.returns k r' hrun
      cases hhalt
  | cont t' =>
    cases hs' : interp stackSize W.func x.insts s with
    | done r => exact id
    | cont s' =>
      intro hne
      -- The boundary at the next state is the one of the next state of the interpreter.
      obtain ⟨k, c, hrun, hm, htr⟩ := h.forward_trace hW (e := e) (hvm.trans ht)
      obtain ⟨n', s'', hs'', hat, htr'⟩ := himpl.boundary k c hrun hm.boundary
      have hq : ¬Quiet (insnAt x.insts s.toVm.pc) := not_quiet_of_covered hcov (h.isInst hW hn)
      have hlen : (trace (Vm.step W.func x patch) (fun t => !isQuiet x.insts t) (n + 1)
          (Vm.start (startCore W m))).length = n + 1 := by
        rw [trace_succ_right hn, h.trace_toVm hW hcov hf, isQuiet, decide_eq_false hq,
          List.length_append, List.length_map, length_trace hs]
        rfl
      have heq : n' = n + 1 := by
        rw [← length_trace hs'', htr'.length_eq, ← htr.length_eq, hlen]
      rw [heq, hint, hs'] at hs''
      cases hs''
      exact hne (hm.represents.core.symm.trans hat.core)

/-- The compiled code implements the interpreter exactly if the interpreter only gets to
    states that the code is right in. -/
theorem implements_iff : Implements stackSize x.insts M W e m ↔
    ∀ n s, iter (interp stackSize W.func x.insts) n (Interp.start (startCore W m)) = .cont s →
      FaithfulAt stackSize x.insts s := by
  refine ⟨fun himpl n => ?_, h.implements_of_faithfulAt hW hcov⟩
  induction n using Nat.strongRecOn with
  | ind n ih =>
    intro s hs
    have hagree := h.runsAgree hW hcov ih
    obtain ⟨t, hn, rfl⟩ := (hs ▸ hagree).of_cont
    by_contra hf
    exact h.not_diverges hW hcov himpl ih hs hn (diverges_of_not_faithfulAt h.inputOk hcov
      (h.isInst hW hn) (h.stacked hW hcov hn) hf)

end

/-- A local function that divides 42 by 6, with the quotient in the other byte order. -/
def quotientProgram : List EbpfInst :=
  [⟨EBPF_OP_MOV64_IMM, 6, 0, 0, 42⟩, ⟨EBPF_OP_CALL, 0, 1, 0, 1⟩, ⟨EBPF_OP_EXIT, 0, 0, 0, 0⟩,
    ⟨EBPF_OP_MOV64_REG, 0, 6, 0, 0⟩, ⟨EBPF_OP_MOV64_IMM, 6, 0, 0, 6⟩,
    ⟨EBPF_OP_DIV64_REG, 0, 6, 0, 0⟩, ⟨EBPF_OP_BE, 0, 0, 0, 16⟩, ⟨EBPF_OP_EXIT, 0, 0, 0, 0⟩]

/-- That the compiled code returns it can be seen from the program alone, with the frames that
    the compiler has. It does not implement the interpreter with larger ones. -/
theorem implements_quotientProgram :
    ∃ M, Accepts Verifier.shape { insts := quotientProgram } [] [] false M ∧
      Implements STACK_SIZE quotientProgram M World.numbered Env.zero Machine.zero ∧
      ¬Implements EBPF_STACK_SIZE quotientProgram M World.numbered Env.zero Machine.zero ∧
      ∃ k m, iter (step M.fn World.numbered) k (entry Env.zero Machine.zero) =
        .done (.ret 0x0700 m) := by
  obtain ⟨M, hM, hW⟩ := exists_accepts Verifier.shape { insts := quotientProgram } [] [] false 9
    (fun M => decide (World.numbered.Separates M.fn.blocks)) (by decide +kernel)
  have hsep : World.numbered.Separates M.fn.blocks := of_decide_eq_true hW
  have hcov : Covered quotientProgram := by decide +kernel
  have hret : Interp.Returned (iter (interp STACK_SIZE World.numbered.func quotientProgram) 8
      (Interp.start (startCore World.numbered Machine.zero))) 0x0700 := by decide +kernel
  have hall : ∀ s ∈ trace (interp STACK_SIZE World.numbered.func quotientProgram)
      (fun _ => true) 8 (Interp.start (startCore World.numbered Machine.zero)),
      FaithfulAt STACK_SIZE quotientProgram s := by
    decide +kernel
  have hcall : ¬∀ s ∈ trace (interp EBPF_STACK_SIZE World.numbered.func quotientProgram)
      (fun _ => true) 2 (Interp.start (startCore World.numbered Machine.zero)),
      FaithfulAt EBPF_STACK_SIZE quotientProgram s := by
    decide +kernel
  obtain ⟨c, hc, hv⟩ := hret
  have himpl : Implements STACK_SIZE quotientProgram M World.numbered Env.zero Machine.zero :=
    (implements_iff hM hsep hcov).2 fun n s hs => hall s (mem_trace_of_done hc hs)
  refine ⟨M, hM, himpl, fun h => hcall fun s hs => ?_, ?_⟩
  · obtain ⟨-, j, -, hj⟩ := mem_trace hs
    exact (implements_iff hM hsep hcov).1 h j s hj
  · obtain ⟨_, k, m, ⟨⟩, hrun, -⟩ := himpl.exits _ _ hc
    exact ⟨k, m, hv ▸ hrun⟩

end EbpfJit
