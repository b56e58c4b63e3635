import EbpfJit.Correctness
import EbpfJit.Forward
import EbpfJit.WellFormed

/-!
# Safe programs

Whether the code of an instruction is right depends on registers and memory for a few
instructions only. A safe program does without them: it divides by constants, and converts
to big endian; of the atomic operations, there is only compare-and-exchange. There are no local
calls, or the frames have the size that the compiler gives them, and the calls all fit on the
call stack, since none goes back. All of this can be seen in the text of the program.

* `Safe`: the programs in question;
* `runsSafely`: the compiler is right about them, for all inputs; if they do not go back, they
  return what the interpreter returns.
-/

namespace EbpfJit

open Ir Transition

/-- The code of the instruction is right whatever the registers and the memory are. -/
def SafeInsn (inst : EbpfInst) : Interp.Insn → Prop
  | .plain (.alu _ op) => op = .div ∨ op = .mod → inst.code &&& 0x08 = 0 ∧ inst.imm ≠ 0
  | .byteOrder toBig => toBig = true ∨ inst.imm = 64
  | .atomic _ => inst.imm = EBPF_CMPXCHG
  | _ => True

instance (inst : EbpfInst) : (insn : Interp.Insn) → Decidable (SafeInsn inst insn)
  | .plain (.alu _ _) => inferInstanceAs (Decidable (_ → _))
  | .byteOrder _ => inferInstanceAs (Decidable (_ ∨ _))
  | .atomic _ => inferInstanceAs (Decidable (_ = _))
  | .plain (.ldx _) | .plain (.st _) | .plain (.stx _) | .plain .lddw | .plain .ja
  | .plain (.jmp _ _) | .plain .call | .plain .exit | .localCall | .exit =>
    inferInstanceAs (Decidable True)

/-- A safe program, with frames of `stackSize` bytes. -/
structure Safe (stackSize : ℕ) (insns : List EbpfInst) : Prop where
  covered : Covered insns
  insn : ∀ pc < insns.length, ¬IsSlot insns pc →
    ∀ insn ∈ Interp.decode (insnAt insns pc), SafeInsn (insnAt insns pc) insn
  calls : callsBefore insns insns.length = 0 ∨
    BitVec.ofNat 64 stackSize = BitVec.ofNat 64 STACK_SIZE ∧ Forward insns ∧
      callsBefore insns insns.length ≤ CALL_STACK_SIZE

instance (stackSize : ℕ) : DecidablePred (Safe stackSize) := fun insns =>
  decidable_of_iff (Covered insns ∧
      (∀ pc < insns.length, ¬IsSlot insns pc →
        ∀ insn ∈ Interp.decode (insnAt insns pc), SafeInsn (insnAt insns pc) insn) ∧
      (callsBefore insns insns.length = 0 ∨
        BitVec.ofNat 64 stackSize = BitVec.ofNat 64 STACK_SIZE ∧ Forward insns ∧
          callsBefore insns insns.length ≤ CALL_STACK_SIZE))
    ⟨fun ⟨h₁, h₂, h₃⟩ => ⟨h₁, h₂, h₃⟩, fun h => ⟨h.covered, h.insn, h.calls⟩⟩

/-! ## Instructions -/

/-- An immediate that is not zero is not zero at the width of an operation. -/
theorem signExtend_ne_zero {imm : BitVec 32} {w : ℕ} (hw : 32 ≤ w) (h : imm ≠ 0) :
    imm.signExtend w ≠ 0 := by
  intro heq
  have hint := congrArg BitVec.toInt heq
  rw [BitVec.toInt_signExtend_of_le hw] at hint
  exact h (BitVec.eq_of_toInt_eq (hint.trans (by simp)))

theorem faithful_of_safeInsn {stackSize : ℕ} {inst : EbpfInst} {insn : Interp.Insn}
    {sc : SwitchCase} (hdec : DecodesTo inst insn) (hsc : switchCase inst.code = some sc)
    (h : SafeInsn inst insn) (c : Core) {depth : ℕ} (hcall : insn = .localCall →
      BitVec.ofNat 64 stackSize = BitVec.ofNat 64 STACK_SIZE ∧ depth < CALL_STACK_SIZE) :
    Faithful stackSize inst c depth insn := by
  cases insn with
  | plain op =>
    cases op with
    | alu w op =>
      intro hdiv
      obtain ⟨himm, hne⟩ := h hdiv
      have hw : w = aluWidth (inst.code &&& 0x07 == EBPF_CLS_ALU64) :=
        (switchCase_of_decode hdec.1 hsc).2
      rw [Isa.operand, if_pos himm]
      refine signExtend_ne_zero ?_ hne
      rw [hw]
      cases inst.code &&& 0x07 == EBPF_CLS_ALU64 with
      | false => exact le_refl 32
      | true => decide
    | _ => trivial
  | byteOrder toBig =>
    intro hbig
    rcases h with h | h
    · rw [hbig] at h
      cases h
    · rw [h]
      exact (c.reg inst.dst_reg).isLt
  | atomic w => exact fun hne => absurd h hne
  | localCall => exact hcall rfl
  | exit => trivial

/-! ## Runs -/

/-- The runs of a safe program. -/
structure RunsSafely (stackSize : ℕ) (insns : List EbpfInst) (M : Module) (W : World Lbl)
    (e : Env Slot) (m : Machine Slot) : Prop where
  implements : Implements stackSize insns M W e m
  returns : Forward insns → ∃ n c k m',
    iter (interp stackSize W.func insns) n (Interp.start (startCore W m)) = .done (.exited c) ∧
      iter (step M.fn W) k (entry e m) = .done (.ret (c.reg 0) m') ∧ coreOf m' = c

section

variable {V : Verifier} {x : CompilerXDP} {extFuncNames lddwHelpers : List String} {patch : Bool}
  {M : Module} {W : World Lbl} {m : Machine Slot} {stackSize n : ℕ}
  (h : Accepts V x extFuncNames lddwHelpers patch M) (hW : W.Separates M.fn.blocks)
  (hs : Safe stackSize x.insts)
include h hW hs

/-- A call of a local function that the machine gets to fits on the call stack: it has fewer
    callers than there are local calls. -/
theorem Accepts.call_fits {s : Vm.State}
    (hn : iter (Vm.step W.func x patch) n (Vm.start (startCore W m)) = .cont s)
    (hcall : isLocalCall (insnAt x.insts s.pc) = true) :
    BitVec.ofNat 64 stackSize = BitVec.ofNat 64 STACK_SIZE ∧
      s.frames.length < CALL_STACK_SIZE := by
  have hpc : s.pc < x.insts.length := (h.isInst hW hn).1
  have hsucc := callsBefore_succ x.insts s.pc
  rw [if_pos hcall] at hsucc
  have hmono : callsBefore x.insts (s.pc + 1) ≤ callsBefore x.insts x.insts.length :=
    callsBefore_mono x.insts hpc
  rcases hs.calls with hzero | ⟨hsize, hf, hle⟩
  · omega
  · have hnested := (h.nested hW hf hn).length_le
    exact ⟨hsize, by omega⟩

/-- The interpreter only gets to states that the code is right in. -/
theorem Accepts.faithfulAt_of_safe {s : Interp.State}
    (hn : iter (interp stackSize W.func x.insts) n (Interp.start (startCore W m)) = .cont s) :
    FaithfulAt stackSize x.insts s := by
  induction n using Nat.strongRecOn generalizing s with
  | ind n ih =>
    have hagree := h.runsAgree hW hs.covered (n := n) fun j hj t ht => ih j hj ht
    obtain ⟨t, ht, rfl⟩ := (hn ▸ hagree).of_cont
    obtain ⟨hpc, hslot⟩ : s.pc < x.insts.length ∧ ¬IsSlot x.insts s.pc := h.isInst hW ht
    obtain ⟨-, -, sc, hsc, -⟩ := h.inputOk.legal s.pc hpc hslot
    intro insn hdec
    refine faithful_of_safeInsn (decodesTo hdec) hsc (hs.insn s.pc hpc hslot insn hdec) s.core ?_
    rintro rfl
    have hd : DecodesTo (insnAt x.insts s.pc) .localCall := decodesTo hdec
    rw [switchCase_of_decodesTo hd hsc] at hsc
    exact h.call_fits hW hs ht (decide_eq_true ⟨hsc, hd.2⟩)

/-- The compiled code implements the interpreter, whatever the input; so it ends with the same
    result if the program does not go back. -/
theorem Accepts.runs_of_safe (e : Env Slot) : RunsSafely stackSize x.insts M W e m := by
  have himpl : Implements stackSize x.insts M W e m :=
    h.implements_of_faithfulAt hW hs.covered fun n s hn => h.faithfulAt_of_safe hW hs hn
  refine ⟨himpl, fun hf => ?_⟩
  obtain ⟨k, r, hrun⟩ := (runsForward h hW hf (e := e) (m := m)).ends
  obtain ⟨n, c, m', hn, rfl, hm'⟩ := himpl.returns k r hrun
  exact ⟨n, c, k, m', hn, hrun, hm'⟩

end

/-- A program with a branch on its argument and a call, that divides by a constant. -/
def averageProgram : List EbpfInst :=
  [⟨EBPF_OP_MOV64_REG, 0, 1, 0, 0⟩, ⟨EBPF_OP_JGT_REG, 1, 2, 1, 0⟩,
    ⟨EBPF_OP_CALL, 0, 1, 0, 1⟩, ⟨EBPF_OP_EXIT, 0, 0, 0, 0⟩,
    ⟨EBPF_OP_ADD64_REG, 0, 2, 0, 0⟩, ⟨EBPF_OP_DIV64_IMM, 0, 0, 0, 2⟩, ⟨EBPF_OP_EXIT, 0, 0, 0, 0⟩]

end EbpfJit
