import EbpfJit.Core

/-!
# The instruction set

The meaning of eBPF instructions, independent of how they are compiled: an
interpreter that goes through the program one index after the other. It decodes an
opcode from its fields: the class in the low three bits, the operand form in the
next one or the size and the mode, and the operation in the rest.

* `Isa.decode`: what an opcode stands for;
* `Isa.step`: one instruction. What the instruction set does not define, and the
  instructions that are not modelled, are `stuck`.
-/

namespace EbpfJit

open Transition

namespace Isa

/-- The arithmetic operations, by code. -/
inductive AluOp
  | add | sub | mul | div | or | and | lsh | rsh | neg | mod | xor | mov | arsh
  deriving DecidableEq

/-- The conditions of jumps, by code. -/
inductive Cond
  | eq | gt | ge | set | ne | sgt | sge | lt | le | slt | sle
  deriving DecidableEq

/-- What an opcode stands for, with the width of the operands. -/
inductive Op
  | alu (w : ℕ) (op : AluOp)
  | ldx (w : ℕ)
  | st (w : ℕ)
  | stx (w : ℕ)
  | lddw
  | ja
  | jmp (w : ℕ) (c : Cond)
  | call
  | exit
  deriving DecidableEq

/-! ## Decoding -/

def AluOp.ofCode : ℕ → Option AluOp
  | 0 => some .add
  | 1 => some .sub
  | 2 => some .mul
  | 3 => some .div
  | 4 => some .or
  | 5 => some .and
  | 6 => some .lsh
  | 7 => some .rsh
  | 8 => some .neg
  | 9 => some .mod
  | 10 => some .xor
  | 11 => some .mov
  | 12 => some .arsh
  | _ => none

def Cond.ofCode : ℕ → Option Cond
  | 1 => some .eq
  | 2 => some .gt
  | 3 => some .ge
  | 4 => some .set
  | 5 => some .ne
  | 6 => some .sgt
  | 7 => some .sge
  | 10 => some .lt
  | 11 => some .le
  | 12 => some .slt
  | 13 => some .sle
  | _ => none

/-- The width of the access of a load or store. -/
def accessWidth (code : BitVec 8) : ℕ :=
  match (code >>> 3 &&& 3).toNat with
  | 0 => 32
  | 1 => 16
  | 2 => 8
  | _ => 64

/-- What the opcode stands for. -/
def decode (code : BitVec 8) : Option Op :=
  let op := (code >>> 4).toNat
  match (code &&& 7).toNat with
  | 0 => if code = 0x18 then some .lddw else none
  | 1 => if code >>> 5 = 3 then some (.ldx (accessWidth code)) else none
  | 2 => if code >>> 5 = 3 then some (.st (accessWidth code)) else none
  | 3 => if code >>> 5 = 3 then some (.stx (accessWidth code)) else none
  | 4 => (AluOp.ofCode op).map (.alu 32)
  | 5 =>
    if code = 0x05 then some .ja
    else if code = 0x85 then some .call
    else if code = 0x95 then some .exit
    else (Cond.ofCode op).map (.jmp 64)
  | 6 => (Cond.ofCode op).map (.jmp 32)
  | _ => (AluOp.ofCode op).map (.alu 64)

/-! ## Meaning -/

/-- A shift count only counts modulo the width, which is a power of two. -/
def shiftCount {w : ℕ} (b : BitVec w) : ℕ := (b &&& BitVec.ofNat w (w - 1)).toNat

def AluOp.eval {w : ℕ} (a b : BitVec w) : AluOp → BitVec w
  | .add => a + b
  | .sub => a - b
  | .mul => a * b
  | .div => if b = 0 then 0 else a / b
  | .or => a ||| b
  | .and => a &&& b
  | .lsh => a <<< shiftCount b
  | .rsh => a >>> shiftCount b
  | .neg => -a
  | .mod => if b = 0 then a else a % b
  | .xor => a ^^^ b
  | .mov => b
  | .arsh => a.sshiftRight (shiftCount b)

def Cond.eval {w : ℕ} (a b : BitVec w) : Cond → Bool
  | .eq => a == b
  | .gt => b.ult a
  | .ge => b.ule a
  | .set => a &&& b != 0
  | .ne => a != b
  | .sgt => b.slt a
  | .sge => b.sle a
  | .lt => a.ult b
  | .le => a.ule b
  | .slt => a.slt b
  | .sle => a.sle b

/-- The index of the next instruction, the registers and the memory. -/
structure State where
  pc : ℕ
  core : Core

/-- How a run ends: it exits, or there is nothing to do. -/
inductive Halt
  | exited (c : Core)
  | stuck

/-- The helper functions, by number: what they return, and make of the memory. -/
abbrev Helpers := BitVec 32 → List (BitVec 64) → ByteMemory.Mem 64 → BitVec 64 × ByteMemory.Mem 64

/-- The source operand of `w` bits: the sign-extended immediate, or the low part of
    a register. -/
def operand (inst : EbpfInst) (c : Core) (w : ℕ) : BitVec w :=
  if inst.code &&& 0x08 = 0 then inst.imm.signExtend w else (c.reg inst.src_reg).setWidth w

/-- The address that is `off` bytes after the one in a register. -/
def address (inst : EbpfInst) (c : Core) (r : BitVec 4) : BitVec 64 :=
  c.reg r + inst.off.signExtend 64

/-- A jump by `off` instructions from the next one. -/
def jump (inst : EbpfInst) (s : State) : Res State Halt :=
  if 0 ≤ s.pc + 1 + inst.off.toInt then
    .cont { s with pc := (s.pc + 1 + inst.off.toInt).toNat }
  else .done .stuck

/-- One instruction, given what its opcode stands for. -/
def exec (helper : Helpers) (insns : List EbpfInst) (inst : EbpfInst) (s : State) :
    Op → Res State Halt
  | .alu w op =>
    if inst.off = 0 then
      let result := op.eval ((s.core.reg inst.dst_reg).setWidth w) (operand inst s.core w)
      .cont ⟨s.pc + 1, s.core.setReg inst.dst_reg (result.setWidth 64)⟩
    else .done .stuck
  | .ldx w =>
    let v := ByteMemory.load s.core.mem (address inst s.core inst.src_reg) w
    .cont ⟨s.pc + 1, s.core.setReg inst.dst_reg (v.setWidth 64)⟩
  | .st w =>
    .cont ⟨s.pc + 1, s.core.setMem (ByteMemory.store s.core.mem
      (address inst s.core inst.dst_reg) ((inst.imm.signExtend 64).setWidth w))⟩
  | .stx w =>
    .cont ⟨s.pc + 1, s.core.setMem (ByteMemory.store s.core.mem
      (address inst s.core inst.dst_reg) ((s.core.reg inst.src_reg).setWidth w))⟩
  | .lddw =>
    match insns[s.pc + 1]? with
    | some next =>
      if inst.src_reg = 0 then
        .cont ⟨s.pc + 2, s.core.setReg inst.dst_reg
          (next.imm.setWidth 64 <<< 32 ||| inst.imm.setWidth 64)⟩
      else .done .stuck
    | none => .done .stuck
  | .ja => jump inst s
  | .jmp w c =>
    if c.eval ((s.core.reg inst.dst_reg).setWidth w) (operand inst s.core w) then jump inst s
    else .cont { s with pc := s.pc + 1 }
  | .call =>
    if inst.src_reg = 0 then
      let r := helper inst.imm
        [s.core.reg 1, s.core.reg 2, s.core.reg 3, s.core.reg 4, s.core.reg 5] s.core.mem
      .cont ⟨s.pc + 1, (s.core.setMem r.2).setReg 0 r.1⟩
    else .done .stuck
  | .exit => .done (.exited s.core)

/-- One instruction. -/
def step (helper : Helpers) (insns : List EbpfInst) (s : State) : Res State Halt :=
  match insns[s.pc]? with
  | some inst =>
    match decode inst.code with
    | some op => exec helper insns inst s op
    | none => .done .stuck
  | none => .done .stuck

end Isa

end EbpfJit
