import EbpfJit.Isa
import EbpfJit.CallStack
import EbpfJit.Lib.Bytes

/-!
# The interpreter

The meaning of all instructions that the compiler has code for: besides the ones of
`Isa.step`, the byte-order conversions, the atomic operations and the calls of local
functions. As there, an instruction is decoded from its fields, and nothing is said
about how it is compiled. The machine is a little-endian one.

A local function has a frame of its own, `stackSize` bytes below the one of its caller;
the registers `r6` to `r10` are the ones of the caller again when it returns.

* `Interp.decode`: what an instruction stands for;
* `Interp.step`: one instruction.
-/

namespace EbpfJit

open Transition

namespace Interp

/-- What an instruction stands for. -/
inductive Insn
  | plain (op : Isa.Op)
  | byteOrder (toBig : Bool)
  | atomic (w : ℕ)
  | localCall
  | exit
  deriving DecidableEq

/-- The instruction of an operation: a call is one of a local function if its source
    register says so. -/
def Insn.ofOp (inst : EbpfInst) : Isa.Op → Insn
  | .call => if inst.src_reg = 1 then .localCall else .plain .call
  | .exit => .exit
  | op => .plain op

/-- What the instruction stands for. -/
def decode (inst : EbpfInst) : Option Insn :=
  match Isa.decode inst.code with
  | some op => some (.ofOp inst op)
  | none =>
    if inst.code = 0xd4 then some (.byteOrder false)
    else if inst.code = 0xdc then some (.byteOrder true)
    else if inst.code = 0xc3 then some (.atomic 32)
    else if inst.code = 0xdb then some (.atomic 64)
    else none

/-! ## Meaning -/

/-- The low `size` bits of a value in another byte order, without the other bits. -/
def reorder (toBig : Bool) (size : ℕ) (v : BitVec 64) : BitVec 64 :=
  if toBig then Bytes.merge 0 ((List.range (size / 8)).map (Bytes.byteAt v))
  else BitVec.ofNat 64 (v.toNat % 2 ^ size)

/-- The operation of an atomic instruction that modifies its cell, by its immediate. -/
def modifies (w : ℕ) (imm : BitVec 32) : Option (BitVec w → BitVec w → BitVec w) :=
  match imm.toNat with
  | 0x00 | 0x01 => some fun old src => old + src
  | 0x40 | 0x41 => some fun old src => old ||| src
  | 0x50 | 0x51 => some fun old src => old &&& src
  | 0xa0 | 0xa1 => some fun old src => old ^^^ src
  | 0xe1 => some fun _ src => src
  | _ => none

/-- An atomic operation on a cell of `w` bits: the old value is extended with zeros, in
    `r0` for a compare-and-exchange, else in the source register if it is fetched. -/
def atomic (inst : EbpfInst) (w : ℕ) (c : Core) : Option Core :=
  let a := Isa.address inst c inst.dst_reg
  let old := ByteMemory.load c.mem a w
  let src := (c.reg inst.src_reg).setWidth w
  if inst.imm = 0xf1 then
    let c' := if old = (c.reg 0).setWidth w then c.setMem (ByteMemory.store c.mem a src) else c
    some (c'.setReg 0 (old.setWidth 64))
  else
    (modifies w inst.imm).map fun f =>
      let c' := c.setMem (ByteMemory.store c.mem a (f old src))
      if inst.imm &&& 1 = 1 then c'.setReg inst.src_reg (old.setWidth 64) else c'

/-- The index of the next instruction, the registers and the memory, and the callers
    of the function, the last one first. -/
structure State where
  pc : ℕ
  core : Core
  frames : List Frame

/-- The call of a local function. -/
def enter (stackSize : ℕ) (inst : EbpfInst) (s : State) : Res State Isa.Halt :=
  if 0 ≤ s.pc + 1 + inst.imm.toInt then
    .cont ⟨(s.pc + 1 + inst.imm.toInt).toNat,
      s.core.setReg 10 (s.core.reg 10 - BitVec.ofNat 64 stackSize),
      ⟨s.pc + 1, s.core.regs⟩ :: s.frames⟩
  else .done .stuck

/-- The return to the caller, or from the program. -/
def leave (s : State) : Res State Isa.Halt :=
  match s.frames with
  | [] => .done (.exited s.core)
  | f :: fs =>
    .cont ⟨f.ret, ⟨fun i => if 6 ≤ i ∧ i ≤ 10 then f.regs i else s.core.regs i, s.core.mem⟩, fs⟩

/-- One instruction, given what it stands for. -/
def exec (stackSize : ℕ) (helper : Isa.Helpers) (insns : List EbpfInst) (inst : EbpfInst)
    (s : State) : Insn → Res State Isa.Halt
  | .plain op =>
    match Isa.exec helper insns inst ⟨s.pc, s.core⟩ op with
    | .cont t => .cont ⟨t.pc, t.core, s.frames⟩
    | .done r => .done r
  | .byteOrder toBig =>
    if inst.imm = 16 ∨ inst.imm = 32 ∨ inst.imm = 64 then
      .cont ⟨s.pc + 1, s.core.setReg inst.dst_reg
        (reorder toBig inst.imm.toNat (s.core.reg inst.dst_reg)), s.frames⟩
    else .done .stuck
  | .atomic w =>
    match atomic inst w s.core with
    | some c => .cont ⟨s.pc + 1, c, s.frames⟩
    | none => .done .stuck
  | .localCall => enter stackSize inst s
  | .exit => leave s

/-- One instruction. -/
def step (stackSize : ℕ) (helper : Isa.Helpers) (insns : List EbpfInst) (s : State) :
    Res State Isa.Halt :=
  match insns[s.pc]? with
  | some inst =>
    match decode inst with
    | some insn => exec stackSize helper insns inst s insn
    | none => .done .stuck
  | none => .done .stuck

/-- The state at the first instruction. -/
def start (c : Core) : State := ⟨0, c, []⟩

/-- The run has exited with the result `v` in `r0`. -/
def Returned (r : Res State Isa.Halt) (v : BitVec 64) : Prop :=
  ∃ c, r = .done (.exited c) ∧ c.reg 0 = v

instance (v : BitVec 64) : (r : Res State Isa.Halt) → Decidable (Returned r v)
  | .done (.exited c) => decidable_of_iff (c.reg 0 = v)
      ⟨fun h => ⟨c, rfl, h⟩, fun ⟨_, hc, h⟩ => by cases hc; exact h⟩
  | .done .stuck => .isFalse fun ⟨_, hc, _⟩ => by cases hc
  | .cont _ => .isFalse fun ⟨_, hc, _⟩ => by cases hc

end Interp

end EbpfJit
