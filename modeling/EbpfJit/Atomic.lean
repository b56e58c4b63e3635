import EbpfJit.Emitted

/-!
# Atomic operations

An atomic read-modify-write replaces a cell of the memory and, if it fetches, leaves
the old value in the source register. Its code promises that the cell is aligned to
32 bytes, stores the old value at its own width, which is the low half of the
register for a 32-bit cell, and does not store it at all for an exchange.

* `rmw_iff`: when the code does what the operation should.
-/

namespace EbpfJit

open Ir

/-- The operation that `imm` encodes. -/
def rmwOf (imm : BitVec 32) : Option RmwOp :=
  if imm = EBPF_ATOMIC_ADD ∨ imm = EBPF_ATOMIC_ADD ||| EBPF_FETCH then some .add
  else if imm = EBPF_ATOMIC_AND ∨ imm = EBPF_ATOMIC_AND ||| EBPF_FETCH then some .and
  else if imm = EBPF_ATOMIC_OR ∨ imm = EBPF_ATOMIC_OR ||| EBPF_FETCH then some .or
  else if imm = EBPF_ATOMIC_XOR ∨ imm = EBPF_ATOMIC_XOR ||| EBPF_FETCH then some .xor
  else if imm = EBPF_XCHG then some .xchg
  else none

/-- The operation fetches, as an exchange does. -/
def Fetches (inst : EbpfInst) : Prop := inst.imm &&& EBPF_FETCH = EBPF_FETCH

instance : DecidablePred Fetches := fun _ => inferInstanceAs (Decidable (_ = _))

/-- The width of the cell. -/
def atomicWidth (inst : EbpfInst) : ℕ := if inst.code = EBPF_ATOMIC_OPCODE_64 then 64 else 32

namespace Core

variable (inst : EbpfInst) (c : Core)

/-- The value of the cell. -/
def cell : BitVec (atomicWidth inst) :=
  ByteMemory.load c.mem (c.addr inst inst.dst_reg) (atomicWidth inst)

/-- What the operation should do: replace the cell, and leave its old value, extended
    with zeros, in the source register if it fetches. -/
def readModifyWrite (op : RmwOp) : Core :=
  let c' := c.setMem (ByteMemory.store c.mem (c.addr inst inst.dst_reg)
    (op.eval (c.cell inst) ((c.reg inst.src_reg).setWidth (atomicWidth inst))))
  if Fetches inst then c'.setReg inst.src_reg ((c.cell inst).setWidth 64) else c'

end Core

/-- From the machine `m`, the code does what the operation should, and nothing else. -/
def ReadsModifiesWrites (op : RmwOp) (inst : EbpfInst) (code : List (Instr Lbl Slot))
    (W : World Lbl) (e : Env Slot) (m : Machine Slot) : Prop :=
  runCode W code e m = some (.fall, withCore m ((coreOf m).readModifyWrite inst op))

/-- When the code does what it should: the address is a multiple of 32, the upper half
    of the source register of a fetching 32-bit operation is clear, and an exchange
    has the value of the cell as its source. -/
structure RmwFits (inst : EbpfInst) (c : Core) : Prop where
  aligned : (c.addr inst inst.dst_reg).toNat % 32 = 0
  upper : Fetches inst → inst.imm ≠ EBPF_XCHG → atomicWidth inst = 32 →
    c.reg inst.src_reg >>> 32 = 0
  exchange : inst.imm = EBPF_XCHG → c.reg inst.src_reg = (c.cell inst).setWidth 64

theorem atomicWidth_eq (inst : EbpfInst) : atomicWidth inst = 64 ∨ atomicWidth inst = 32 := by
  rw [atomicWidth]
  split
  · exact .inl rfl
  · exact .inr rfl

/-! ## Registers -/

/-- Replacing the low part of a register extends the value with zeros, unless it is the
    low half and the upper half is not clear. -/
theorem setLow_eq_iff {w : ℕ} (hw : w = 64 ∨ w = 32) (v : BitVec 64) (old : BitVec w) :
    setLow v old = old.setWidth 64 ↔ (w = 32 → v >>> 32 = 0) := by
  rcases hw with rfl | rfl
  · simp
  rw [setLow]
  constructor
  · intro h _
    ext i hi
    have hbit := congrArg (fun b : BitVec 64 => b.getLsbD (32 + i)) h
    simp at hbit ⊢
    rcases Nat.lt_or_ge (32 + i) 64 with hlt | hge
    · exact hbit hlt
    · exact BitVec.getLsbD_of_ge v _ hge
  · intro h
    rw [h rfl]
    simp

/-! ## The code -/

variable {x : CompilerXDP} {extFuncNames lddwHelpers : List String} {patch : Bool} {pc : ℕ}
  {inst : EbpfInst} {code : List (Instr Lbl Slot)} {op : RmwOp} {c : Core}

theorem switchCase_atomic : switchCase inst.code = some .atomic ↔
    inst.code = EBPF_ATOMIC_OPCODE_32 ∨ inst.code = EBPF_ATOMIC_OPCODE_64 := by
  refine ⟨code_of_atomic, ?_⟩
  rintro (h | h)
  · rw [h]
    decide
  · rw [h]
    decide

/-- The emitter only fetches if the operation does, and is no exchange. -/
theorem atomic_eq (hop : rmwOf inst.imm = some op) :
    c.atomic inst = c.atomicRmw inst op (atomicWidth inst)
      (decide (Fetches inst ∧ inst.imm ≠ EBPF_XCHG)) := by
  have hw : (if (inst.code == EBPF_ATOMIC_OPCODE_64) = true then 64 else 32) =
      atomicWidth inst := by
    simp [atomicWidth]
  -- The operations other than the exchange.
  have hplain (op : RmwOp) {a : BitVec 32} (himm : inst.imm = a ∨ inst.imm = a ||| EBPF_FETCH)
      (ha : a ≠ EBPF_XCHG ∧ a ||| EBPF_FETCH ≠ EBPF_XCHG) :
      c.atomicBinOp inst op (inst.code == EBPF_ATOMIC_OPCODE_64)
        (inst.imm &&& EBPF_FETCH == EBPF_FETCH) =
      c.atomicRmw inst op (atomicWidth inst)
        (decide (Fetches inst ∧ inst.imm ≠ EBPF_XCHG)) := by
    have hne : inst.imm ≠ EBPF_XCHG := by
      rcases himm with h | h
      · exact h ▸ ha.1
      · exact h ▸ ha.2
    have hfetch : (inst.imm &&& EBPF_FETCH == EBPF_FETCH) =
        decide (Fetches inst ∧ inst.imm ≠ EBPF_XCHG) := by
      simp [Fetches, hne, Bool.beq_eq_decide_eq]
    rw [Core.atomicBinOp, hw, hfetch]
  rw [rmwOf] at hop
  rw [Core.atomic]
  by_cases hadd : inst.imm = EBPF_ATOMIC_ADD ∨ inst.imm = EBPF_ATOMIC_ADD ||| EBPF_FETCH
  · rw [if_pos hadd] at hop ⊢
    cases hop
    exact hplain .add hadd (by decide)
  rw [if_neg hadd] at hop ⊢
  by_cases hand : inst.imm = EBPF_ATOMIC_AND ∨ inst.imm = EBPF_ATOMIC_AND ||| EBPF_FETCH
  · rw [if_pos hand] at hop ⊢
    cases hop
    exact hplain .and hand (by decide)
  rw [if_neg hand] at hop ⊢
  by_cases hor : inst.imm = EBPF_ATOMIC_OR ∨ inst.imm = EBPF_ATOMIC_OR ||| EBPF_FETCH
  · rw [if_pos hor] at hop ⊢
    cases hop
    exact hplain .or hor (by decide)
  rw [if_neg hor] at hop ⊢
  by_cases hxor : inst.imm = EBPF_ATOMIC_XOR ∨ inst.imm = EBPF_ATOMIC_XOR ||| EBPF_FETCH
  · rw [if_pos hxor] at hop ⊢
    cases hop
    exact hplain .xor hxor (by decide)
  rw [if_neg hxor] at hop ⊢
  by_cases hxchg : inst.imm = EBPF_XCHG
  · rw [if_pos hxchg] at hop ⊢
    cases hop
    rw [Core.atomicBinOp, hw, decide_eq_false fun hf => hf.2 hxchg]
  · rw [if_neg hxchg] at hop
    cases hop

/-- The old value that the code leaves in the source register is the one it should
    leave. -/
theorem atomicRmw_eq_iff :
    c.atomicRmw inst op (atomicWidth inst) (decide (Fetches inst ∧ inst.imm ≠ EBPF_XCHG)) =
      some (c.readModifyWrite inst op) ↔ RmwFits inst c := by
  have hw := atomicWidth_eq inst
  rw [Core.atomicRmw, Core.readModifyWrite]
  by_cases ha : (c.addr inst inst.dst_reg).toNat % 32 = 0
  swap
  · rw [if_neg ha]
    refine iff_of_false ?_ fun hfits => ha hfits.aligned
    rintro ⟨⟩
  rw [if_pos ha, Option.some.injEq]
  by_cases hx : inst.imm = EBPF_XCHG
  · -- An exchange leaves the source register alone.
    have hf : Fetches inst := by
      rw [Fetches, hx]
      decide
    rw [decide_eq_false fun hf' : Fetches inst ∧ inst.imm ≠ EBPF_XCHG => hf'.2 hx, if_pos hf,
      if_neg Bool.false_ne_true]
    refine Core.eq_setReg_iff.trans ⟨fun h => ⟨ha, fun _ hne => absurd hx hne, fun _ => h⟩, ?_⟩
    intro hfits
    exact hfits.exchange hx
  by_cases hf : Fetches inst
  · rw [decide_eq_true ⟨hf, hx⟩, if_pos hf, if_pos rfl]
    refine Core.setReg_inj.trans ((setLow_eq_iff hw _ _).trans ?_)
    exact ⟨fun h => ⟨ha, fun _ _ => h, fun hx' => absurd hx' hx⟩, fun hfits => hfits.upper hf hx⟩
  · rw [decide_eq_false fun hf' : Fetches inst ∧ inst.imm ≠ EBPF_XCHG => hf hf'.1, if_neg hf,
      if_neg Bool.false_ne_true]
    exact iff_of_true rfl ⟨ha, fun hf' => absurd hf' hf, fun hx' => absurd hx' hx⟩

/-- The code does what the effect of the instruction is. -/
theorem IsCodeOf.readsModifiesWrites_iff
    (h : IsCodeOf x extFuncNames lddwHelpers patch pc inst code)
    (hcode : inst.code = EBPF_ATOMIC_OPCODE_32 ∨ inst.code = EBPF_ATOMIC_OPCODE_64)
    {W : World Lbl} {e : Env Slot} {m : Machine Slot} (hm : Allocated m) :
    ReadsModifiesWrites op inst code W e m ↔
      (coreOf m).atomic inst = some ((coreOf m).readModifyWrite inst op) := by
  rw [ReadsModifiesWrites, h.runCode (switchCase_atomic.2 hcode) rfl hm, Core.effect]
  cases (coreOf m).atomic inst with
  | none => simp
  | some c => simp [withCore_inj]

/-- The code of a read-modify-write does what it should exactly if the operands fit. -/
theorem rmw_iff (h : IsCodeOf x extFuncNames lddwHelpers patch pc inst code)
    (hcode : inst.code = EBPF_ATOMIC_OPCODE_32 ∨ inst.code = EBPF_ATOMIC_OPCODE_64)
    (hop : rmwOf inst.imm = some op) {W : World Lbl} {e : Env Slot} {m : Machine Slot}
    (hm : Allocated m) :
    ReadsModifiesWrites op inst code W e m ↔ RmwFits inst (coreOf m) := by
  rw [h.readsModifiesWrites_iff hcode hm, atomic_eq hop, atomicRmw_eq_iff]

/-- An addition that fetches into `r2`. -/
def fetchAdd : EbpfInst := ⟨EBPF_ATOMIC_OPCODE_32, 1, 2, 0, EBPF_ATOMIC_ADD ||| EBPF_FETCH⟩

theorem rmw_fetchAdd :
    IsCodeOf { insts := [fetchAdd] } [] [] false 0 fetchAdd (codeOf fetchAdd) ∧
      (ReadsModifiesWrites .add fetchAdd (codeOf fetchAdd) World.numbered Env.zero
          Machine.allocated ↔
        RmwFits fetchAdd (coreOf Machine.allocated)) := by
  have h := isCodeOf_codeOf fetchAdd (by decide) (by decide) rfl
  exact ⟨h, rmw_iff h (by decide) (by decide) allocated_allocated⟩

/-- An exchange of `r2` with the cell at the address in `r1`. -/
def exchange : EbpfInst := ⟨EBPF_ATOMIC_OPCODE_64, 1, 2, 0, EBPF_XCHG⟩

/-- The registers are zero but for `r2`, and so is the memory. -/
def exchangeCore : Core := (coreOf Machine.allocated).setReg 2 1

/-- The exchange runs and leaves the 1 in `r2`, which should be the 0 of the cell. -/
theorem not_rmw_exchange :
    IsCodeOf { insts := [exchange] } [] [] false 0 exchange (codeOf exchange) ∧
      (exchangeCore.cell exchange).setWidth 64 = 0 ∧
      (runCode World.numbered (codeOf exchange) Env.zero
        (withCore Machine.allocated exchangeCore)).map (fun r => (coreOf r.2).reg 2) = some 1 ∧
      ¬ReadsModifiesWrites .xchg exchange (codeOf exchange) World.numbered Env.zero
        (withCore Machine.allocated exchangeCore) := by
  have h := isCodeOf_codeOf exchange (by decide) (by decide) rfl
  have hm := allocated_allocated.withCore exchangeCore
  have hcell : (exchangeCore.cell exchange).setWidth 64 = 0 := by decide +kernel
  refine ⟨h, hcell, ?_, ?_⟩
  · have hsc : switchCase exchange.code = some .atomic := by decide
    rw [h.runCode hsc rfl hm, Option.map_map, Core.effect, atomic_eq rfl, Core.atomicRmw, if_pos]
    · rw [Option.map_some, Function.comp_apply, coreOf_withCore]
      decide
    · decide
  · rw [h.readsModifiesWrites_iff (by decide) hm, atomic_eq rfl, atomicRmw_eq_iff,
      coreOf_withCore]
    intro hfits
    have hreg := hfits.exchange rfl
    rw [hcell] at hreg
    exact absurd hreg (by decide)

end EbpfJit
