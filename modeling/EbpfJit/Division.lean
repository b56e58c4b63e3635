import EbpfJit.Emitted

/-!
# Divisions

The code of a division divides first, and selects the result for a zero divisor
afterwards: the selection comes too late, since a division by zero is undefined
whatever becomes of its result. So is the code of a modulo.

* `divides_iff`: the code of a division or modulo has a meaning, then the right one,
  exactly if the divisor is not zero.
-/

namespace EbpfJit

open Ir

/-- From the machine `m`, the code does not divide by zero, and leaves the unsigned
    quotient or remainder of `w` bits in the destination register: zero, or the
    destination itself, if the divisor is zero. -/
def Divides (op : Isa.AluOp) (w : ℕ) (inst : EbpfInst) (code : List (Instr Lbl Slot))
    (W : World Lbl) (e : Env Slot) (m : Machine Slot) : Prop :=
  runCode W code e m = some (.fall, withCore m ((coreOf m).setReg inst.dst_reg
    ((op.eval (((coreOf m).reg inst.dst_reg).setWidth w)
      (Isa.operand inst (coreOf m) w)).setWidth 64)))

variable {x : CompilerXDP} {extFuncNames lddwHelpers : List String} {patch : Bool} {pc w : ℕ}
  {inst : EbpfInst} {code : List (Instr Lbl Slot)} {op : Isa.AluOp}

/-- The effect of a division: there is none if the divisor is zero. -/
theorem effect_division {F : Funcs} {nextInst : EbpfInst} (c : Core)
    (hw : w = aluWidth (isAlu64 inst)) (hdiv : op = .div ∨ op = .mod) :
    c.effect inst F x patch nextInst (caseOf (.alu w op)) =
      if Isa.operand inst c w = 0 then none
      else some (c.setReg inst.dst_reg ((op.eval ((c.reg inst.dst_reg).setWidth w)
        (Isa.operand inst c w)).setWidth 64)) := by
  subst hw
  by_cases hz : Isa.operand inst c (aluWidth (isAlu64 inst)) = 0
  · rw [if_pos hz]
    rcases hdiv with rfl | rfl
    · rw [caseOf, Core.effect, Core.alu, aluSrc_eq, if_pos hz]
      rfl
    · rw [caseOf, Core.effect, Core.alu, aluSrc_eq, if_pos hz]
      rfl
  · rw [if_neg hz]
    rcases hdiv with rfl | rfl
    · rw [caseOf, Core.effect, Core.alu, aluSrc_eq, if_neg hz, Isa.AluOp.eval, if_neg hz]
      rfl
    · rw [caseOf, Core.effect, Core.alu, aluSrc_eq, if_neg hz, Isa.AluOp.eval, if_neg hz]
      rfl

/-- The code of a division or modulo divides exactly if the divisor is not zero; it is
    undefined otherwise. -/
theorem divides_iff (h : IsCodeOf x extFuncNames lddwHelpers patch pc inst code)
    (hop : Isa.decode inst.code = some (.alu w op)) (hdiv : op = .div ∨ op = .mod)
    {W : World Lbl} {e : Env Slot} {m : Machine Slot} (hm : Allocated m) :
    Divides op w inst code W e m ↔ Isa.operand inst (coreOf m) w ≠ 0 := by
  obtain ⟨sc, hsc⟩ := h.exists_switchCase
  obtain ⟨rfl, hw⟩ := switchCase_of_decode hop hsc
  have hb : branches pc inst (caseOf (.alu w op)) = none := by
    rcases hdiv with rfl | rfl <;> rfl
  rw [Divides, h.runCode hsc hb hm, effect_division _ hw hdiv]
  split
  · next hz =>
    refine iff_of_false ?_ fun hne => hne hz
    rintro ⟨⟩
  · next hz => exact iff_of_true rfl hz

/-- A division by seven. -/
theorem divides_seven :
    IsCodeOf { insts := [⟨EBPF_OP_DIV64_IMM, 1, 0, 0, 7⟩] } [] [] false 0
        ⟨EBPF_OP_DIV64_IMM, 1, 0, 0, 7⟩ (codeOf ⟨EBPF_OP_DIV64_IMM, 1, 0, 0, 7⟩) ∧
      (Divides .div 64 ⟨EBPF_OP_DIV64_IMM, 1, 0, 0, 7⟩ (codeOf ⟨EBPF_OP_DIV64_IMM, 1, 0, 0, 7⟩)
          World.numbered Env.zero Machine.allocated ↔
        Isa.operand ⟨EBPF_OP_DIV64_IMM, 1, 0, 0, 7⟩ (coreOf Machine.allocated) 64 ≠ 0) := by
  have h := isCodeOf_codeOf ⟨EBPF_OP_DIV64_IMM, 1, 0, 0, 7⟩ (by decide) (by decide) rfl
  exact ⟨h, divides_iff h (by decide) (.inl rfl) allocated_allocated⟩

/-- A modulo by zero: the code divides by zero. -/
theorem not_divides_zero :
    IsCodeOf { insts := [⟨EBPF_OP_MOD_IMM, 1, 0, 0, 0⟩] } [] [] false 0
        ⟨EBPF_OP_MOD_IMM, 1, 0, 0, 0⟩ (codeOf ⟨EBPF_OP_MOD_IMM, 1, 0, 0, 0⟩) ∧
      runCode World.numbered (codeOf ⟨EBPF_OP_MOD_IMM, 1, 0, 0, 0⟩) Env.zero
        Machine.allocated = none ∧
      ¬Divides .mod 32 ⟨EBPF_OP_MOD_IMM, 1, 0, 0, 0⟩ (codeOf ⟨EBPF_OP_MOD_IMM, 1, 0, 0, 0⟩)
        World.numbered Env.zero Machine.allocated := by
  have h := isCodeOf_codeOf ⟨EBPF_OP_MOD_IMM, 1, 0, 0, 0⟩ (by decide) (by decide) rfl
  have hrun : runCode World.numbered (codeOf ⟨EBPF_OP_MOD_IMM, 1, 0, 0, 0⟩) Env.zero
      Machine.allocated = none :=
    h.runCode (show _ = some SwitchCase.mod by decide) rfl allocated_allocated
  exact ⟨h, hrun, fun hd => by
    rw [Divides, hrun] at hd
    cases hd⟩

end EbpfJit
