import EbpfJit.CodeGen

/-!
# What eBPF code works on

The compiled code keeps the registers of eBPF in stack slots, next to its own
ones, the call stack and its number of items. The registers and the memory are
the `Core` of its machine, which is all that eBPF code works on.

* `coreOf`, `withCore`: the core of a machine, and the machine with another core;
* `load_reg`, `store_reg`, `store_flat`: accesses to registers and memory are
  accesses to the core.
-/

namespace EbpfJit

open Ir

/-- The registers of eBPF, and the memory. -/
@[ext]
structure Core where
  regs : ℕ → BitVec 64
  mem : ByteMemory.Mem 64

namespace Core

/-- The value of the register `r`. -/
def reg (c : Core) (r : BitVec 4) : BitVec 64 := c.regs r.toNat

/-- The core with the register `r` holding `v`. -/
def setReg (c : Core) (r : BitVec 4) (v : BitVec 64) : Core :=
  { c with regs := Function.update c.regs r.toNat v }

/-- The core with another memory. -/
def setMem (c : Core) (mem : ByteMemory.Mem 64) : Core := { c with mem := mem }

variable (c : Core) (r : BitVec 4) (v : BitVec 64) (mem : ByteMemory.Mem 64)

@[simp] theorem setReg_mem : (c.setReg r v).mem = c.mem := rfl

@[simp] theorem setMem_mem : (c.setMem mem).mem = mem := rfl

@[simp] theorem reg_setReg_self : (c.setReg r v).reg r = v := by
  simp [reg, setReg]

theorem regs_setReg_of_ne {i : ℕ} (h : i ≠ r.toNat) : (c.setReg r v).regs i = c.regs i := by
  simp [setReg, h]

@[simp] theorem setReg_setReg (v' : BitVec 64) : (c.setReg r v).setReg r v' = c.setReg r v' := by
  simp [setReg]

variable {c r v} {v' : BitVec 64}

theorem setReg_inj : c.setReg r v = c.setReg r v' ↔ v = v' := by
  refine ⟨fun h => ?_, fun h => h ▸ rfl⟩
  have h' := congrArg (reg · r) h
  simpa using h'

/-- Setting a register changes nothing if it has the value already. -/
theorem eq_setReg_iff : c = c.setReg r v ↔ c.reg r = v := by
  constructor
  · intro h
    rw [h, reg_setReg_self]
  · rintro rfl
    cases c with
    | mk regs mem => simp [setReg, reg]

end Core

/-- The core of a machine. -/
def coreOf (m : Machine Slot) : Core where
  regs i := m.slot (.reg i) 0
  mem := m.mem

/-- The machine with another core. -/
def withCore (m : Machine Slot) (c : Core) : Machine Slot where
  slot
    | .reg i, 0 => c.regs i
    | s, k => m.slot s k
  size := m.size
  mem := c.mem

/-- The slots of `bpf_main` are allocated. -/
structure Allocated (m : Machine Slot) : Prop where
  reg : ∀ i ≤ 10, m.size (.reg i) = 1
  callStack : m.size .callStack = 320
  callItemCnt : m.size .callItemCnt = 1

section

variable {m : Machine Slot} {c : Core} {r : BitVec 4} {w : ℕ}

@[simp] theorem coreOf_withCore (m : Machine Slot) (c : Core) : coreOf (withCore m c) = c := rfl

@[simp] theorem withCore_coreOf (m : Machine Slot) : withCore m (coreOf m) = m := by
  cases m with
  | mk slot size mem =>
    simp only [withCore, coreOf, Machine.mk.injEq, and_true]
    funext s k
    split <;> rfl

@[simp] theorem withCore_withCore (m : Machine Slot) (c c' : Core) :
    withCore (withCore m c) c' = withCore m c' := by
  simp only [withCore, Machine.mk.injEq, and_true]
  funext s k
  rcases s with i | _ | _ <;> rcases k with _ | k <;> rfl

theorem withCore_inj {c' : Core} : withCore m c = withCore m c' ↔ c = c' := by
  refine ⟨fun h => ?_, fun h => h ▸ rfl⟩
  have h' := congrArg coreOf h
  rwa [coreOf_withCore, coreOf_withCore] at h'

@[simp] theorem withCore_slot_callStack (m : Machine Slot) (c : Core) :
    (withCore m c).slot .callStack = m.slot .callStack := rfl

@[simp] theorem withCore_slot_callItemCnt (m : Machine Slot) (c : Core) :
    (withCore m c).slot .callItemCnt = m.slot .callItemCnt := rfl

@[simp] theorem withCore_mem (m : Machine Slot) (c : Core) : (withCore m c).mem = c.mem := rfl

@[simp] theorem setMem_withCore (m : Machine Slot) (c : Core) (mem : ByteMemory.Mem 64) :
    { withCore m c with mem := mem } = withCore m (c.setMem mem) := rfl

theorem Allocated.withCore (h : Allocated m) (c : Core) : Allocated (withCore m c) :=
  ⟨h.reg, h.callStack, h.callItemCnt⟩

theorem Allocated.size_reg (h : Allocated m) (hr : r ≤ 10) : 0 < m.size (.reg r.toNat) := by
  have hr' : r.toNat ≤ 10 := hr
  rw [h.reg _ hr']
  exact Nat.one_pos

/-! ## Accesses -/

theorem load_reg (h : Allocated m) (hr : r ≤ 10) (w : ℕ) :
    (withCore m c).load (.slot (.reg r.toNat) 0) (.int w) = some ((c.reg r).setWidth w) :=
  if_pos (h.size_reg hr)

theorem load_reg_ptr (h : Allocated m) (hr : r ≤ 10) :
    (withCore m c).load (.slot (.reg r.toNat) 0) .ptr = some (.flat (c.reg r)) :=
  if_pos (h.size_reg hr)

/-- A narrow value only replaces the low part of a register. -/
theorem store_reg (h : Allocated m) (hr : r ≤ 10) (v : BitVec w) :
    (withCore m c).store (.slot (.reg r.toNat) 0) (t := .int w) v =
      some (withCore m (c.setReg r (setLow (c.reg r) v))) := by
  refine (if_pos (h.size_reg hr)).trans (congrArg some ?_)
  simp only [Machine.set, withCore, Machine.mk.injEq]
  refine ⟨?_, trivial, rfl⟩
  funext s k
  by_cases hs : s = .reg r.toNat
  · subst hs
    cases k with
    | zero => simp [Core.setReg, Core.reg]
    | succ k => simp
  · rw [Function.update_of_ne hs]
    split
    · next i =>
      have hi : i ≠ r.toNat := fun hi => hs (hi ▸ rfl)
      exact (c.regs_setReg_of_ne r _ hi).symm
    · rfl

theorem load_flat (a : BitVec 64) (w : ℕ) :
    (withCore m c).load (.flat a) (.int w) = some (ByteMemory.load c.mem a w) := rfl

theorem store_flat (a : BitVec 64) (v : BitVec w) :
    (withCore m c).store (.flat a) (t := .int w) v =
      some (withCore m (c.setMem (ByteMemory.store c.mem a v))) := rfl

end

end EbpfJit
