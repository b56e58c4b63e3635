import EbpfJit.Inst
import EbpfJit.Lib.IrBuilder

/-!
# Code generation

The emitters of `code_gen.cpp`, as computations of the IR builder: what each of
them appends at the insertion point for one eBPF instruction.

The slots are the allocas of `bpf_main` that only it reaches: the eBPF registers
`r0` to `r10`, the call stack and the number of items on it. The blocks are the
ones `generateModule` creates. In the order of evaluation of the arguments of a
call, which C++ leaves open, the emitters go from left to right.
-/

namespace EbpfJit

open Ir Ir.Builder

/-- The basic blocks of `bpf_main`; `inst i` is the block `bb_inst_i`. -/
inductive Lbl
  | setupBlock
  | inst (i : ℕ)
  | exitBlock
  | localRetBlock
  deriving DecidableEq

/-- The stack slots of `bpf_main`. -/
inductive Slot
  | reg (i : ℕ)
  | callStack
  | callItemCnt
  deriving DecidableEq

/-- How a compilation fails: with an error, or on an assertion. -/
inductive Failure
  | error (msg : String)
  | assertion
  deriving DecidableEq

/-- The computations of the IR builder, at an insertion point in `bpf_main`. -/
abbrev Emit := Builder Lbl Slot Failure

abbrev Value := Operand Lbl Slot

/-- `regs[r]`, the address of the slot of the register `r`. -/
abbrev regs (r : BitVec 4) : Value .ptr := .slot (.reg r.toNat)

/-- The name of the external function with the index `idx`. -/
def extFuncSym (idx : BitVec 32) : String :=
  "_bpf_helper_ext_" ++ String.ofList ((Nat.toDigits 10 idx.toNat).leftpad 4 '0')

/-! ## ALU -/

/-- The width of the values of an ALU operation. -/
def aluWidth : Bool → ℕ
  | true => 64
  | false => 32

/-- The source operand of an ALU operation. -/
def emitLoadALUSource (inst : EbpfInst) : (is64 : Bool) → Emit (Value (.int (aluWidth is64)))
  | true =>
    if inst.code &&& 0x08 = EBPF_SRC_IMM then pure (getInt64 (inst.imm.signExtend 64))
    else createLoad (.int 64) (regs inst.src_reg)
  | false =>
    if inst.code &&& 0x08 = EBPF_SRC_IMM then pure (getInt32 inst.imm)
    else do
      -- Registers are 64 bits wide, so their values are truncated.
      let v ← createLoad (.int 64) (regs inst.src_reg)
      createTrunc 32 v

/-- The destination operand of an ALU operation. -/
def emitLoadALUDest (inst : EbpfInst) (dstAlways64 : Bool) :
    Emit (Value (.int (aluWidth (dstAlways64 || isAlu64 inst)))) :=
  createLoad (.int (aluWidth (dstAlways64 || isAlu64 inst))) (regs inst.dst_reg)

/-- Store the result of an ALU operation; a 32-bit one clears the upper half. -/
def emitStoreALUResult {w : ℕ} (inst : EbpfInst) (result : Value (.int w)) : Emit Unit :=
  if isAlu64 inst then createStore result (regs inst.dst_reg)
  else do
    let v ← createZExt 64 result
    createStore v (regs inst.dst_reg)

/-- The bytes of `dst_val` at the given bit offsets. -/
def emitSplitBytes (dst_val : Value (.int 64)) : List ℕ → Emit (List (Value (.int 64)))
  | [] => pure []
  | i :: is => do
    let shifted ← createBinOp .lshr dst_val (getInt64 (BitVec.ofNat 64 i))
    let byte ← createBinOp .and shifted (getInt64 0xff)
    let bytes ← emitSplitBytes dst_val is
    pure (byte :: bytes)

/-- Merge bytes together, after `last`. -/
def emitMergeBytes (last : Value (.int 64)) : List (Value (.int 64)) → Emit (Value (.int 64))
  | [] => pure last
  | val :: bytes => do
    let shifted ← createBinOp .shl last (getInt64 8)
    let merged ← createBinOp .or shifted val
    emitMergeBytes merged bytes

/-- The byte-order conversions: to big endian by splitting the value into bytes
    and merging them in the reversed order, to little endian by doing nothing. -/
def emitALUEndianConversion (inst : EbpfInst) (dst_val : Value (.int 64)) :
    Emit (Value (.int 64)) :=
  if inst.code &&& 0x08 = 0x08 then
    if inst.imm ≠ 16 ∧ inst.imm ≠ 32 ∧ inst.imm ≠ 64 then
      fail (.error ("Unexpected endian size: " ++ toString inst.imm.toInt))
    else do
      let bytes ← emitSplitBytes dst_val ((List.range (inst.imm.toNat / 8)).map (8 * ·))
      match bytes with
      | [] => fail .assertion
      | val :: bytes => emitMergeBytes val bytes
  else pure dst_val

/-- An ALU operation on the destination and the source. -/
def emitALUWithDstAndSrc (inst : EbpfInst)
    (func : {w : ℕ} → Value (.int w) → Value (.int w) → Emit (Value (.int w))) : Emit Unit := do
  let dst_val ← emitLoadALUDest inst false
  let src_val ← emitLoadALUSource inst (isAlu64 inst)
  let result ← func dst_val src_val
  emitStoreALUResult inst result

/-! ## Stores and loads -/

/-- The value an `ST` or `STX` instruction stores. -/
def emitStoreLoadingSrc (inst : EbpfInst) : Emit (Value (.int 64)) :=
  if inst.code &&& 0x07 = EBPF_CLS_STX then createLoad (.int 64) (regs inst.src_reg)
  else pure (getInt64 (inst.imm.signExtend 64))

/-- Store `result` at `[dst + off]`. -/
def emitStoreWritingResult {w : ℕ} (inst : EbpfInst) (result : Value (.int w)) : Emit Unit := do
  let base ← createLoad .ptr (regs inst.dst_reg)
  let addr ← createGEP 1 base (getInt64 (inst.off.signExtend 64))
  createStore result addr

/-- An `ST` or `STX` instruction of `w` bits. -/
def emitStore (inst : EbpfInst) (w : ℕ) : Emit Unit := do
  let src ← emitStoreLoadingSrc inst
  let result ← createTrunc w src
  emitStoreWritingResult inst result

/-- The address `[src + off]`. -/
def emitLDXLoadingAddr (inst : EbpfInst) : Emit (Value .ptr) := do
  let base ← createLoad .ptr (regs inst.src_reg)
  createGEP 1 base (getInt64 (inst.off.signExtend 64))

/-- Extend the loaded value to 64 bits, and store it into the register. -/
def emitLDXStoringResult {w : ℕ} (inst : EbpfInst) (result : Value (.int w)) : Emit Unit := do
  let v ← createZExt 64 result
  createStore v (regs inst.dst_reg)

/-- An `LDX` instruction of `w` bits. -/
def emitLoadX (inst : EbpfInst) (w : ℕ) : Emit Unit := do
  let addr ← emitLDXLoadingAddr inst
  let result ← createLoad (.int w) addr
  emitLDXStoringResult inst result

/-! ## Jumps -/

/-- The width of the values a conditional jump compares. -/
abbrev jmpWidth (inst : EbpfInst) : ℕ := if inst.code &&& 0x07 = 0x06 then 32 else 64

/-- The source, the destination and the zero of a conditional jump. -/
def emitJmpLoadSrcAndDstAndZero (inst : EbpfInst) :
    Emit (Value (.int (jmpWidth inst)) × Value (.int (jmpWidth inst)) ×
      Value (.int (jmpWidth inst))) := do
  let src ← if inst.code &&& 0x8 = 0x8 then createLoad (.int (jmpWidth inst)) (regs inst.src_reg)
    else pure (.const (inst.imm.signExtend (jmpWidth inst)))
  let dst ← createLoad (.int (jmpWidth inst)) (regs inst.dst_reg)
  pure (src, dst, .const 0)

/-- The result of a signed computation, converted to `uint16_t`. -/
def toUInt16 (x : ℤ) : ℕ := (x % 65536).toNat

/-- The block with the id `blkId`, which the instruction at `pc` goes to. -/
def loadBlock (pc blkId : ℕ) (instBlocks : List (ℕ × Lbl)) : Except Failure Lbl :=
  match instBlocks.lookup blkId with
  | some blk => .ok blk
  | none => .error (.error ("Instruction at pc=" ++ toString pc ++
      " is going to jump to an illegal position " ++ toString blkId))

/-- The block the jump at `pc` goes to. -/
def loadJmpDstBlock (pc : ℕ) (inst : EbpfInst) (instBlocks : List (ℕ × Lbl)) :
    Except Failure Lbl :=
  loadBlock pc (toUInt16 (pc + 1 + inst.off.toInt)) instBlocks

/-- The block the local call at `pc` goes to. -/
def loadCallDstBlock (pc : ℕ) (inst : EbpfInst) (instBlocks : List (ℕ × Lbl)) :
    Except Failure Lbl :=
  loadBlock pc (toUInt16 (pc + 1 + inst.imm.toInt)) instBlocks

/-- The block after the instruction at `pc`. -/
def loadJmpNextBlock (pc : ℕ) (instBlocks : List (ℕ × Lbl)) : Except Failure Lbl :=
  loadBlock pc (toUInt16 (pc + 1)) instBlocks

/-- The two blocks a conditional jump at `pc` may go to. -/
def localJmpDstAndNextBlk (pc : ℕ) (inst : EbpfInst) (instBlocks : List (ℕ × Lbl)) :
    Except Failure (Lbl × Lbl) := do
  let dst ← loadJmpDstBlock pc inst instBlocks
  let next ← loadJmpNextBlock pc instBlocks
  pure (dst, next)

/-- A conditional jump, on a comparison of the destination and the source. -/
def emitCondJmpWithDstAndSrc (pc : ℕ) (inst : EbpfInst) (instBlocks : List (ℕ × Lbl))
    (func : {w : ℕ} → Value (.int w) → Value (.int w) → Emit (Value (.int 1))) : Emit Unit := do
  let (dstBlk, nextBlk) ← ofExcept (localJmpDstAndNextBlk pc inst instBlocks)
  let (src, dst, _) ← emitJmpLoadSrcAndDstAndZero inst
  let cond ← func dst src
  createCondBr cond dstBlk nextBlk

/-! ## External functions and atomic operations -/

/-- A call of an external function with `r1` to `r5`. A tail call (`12`) then
    exits. -/
def emitExtFuncCall (inst : EbpfInst) (extFunc : List String) (exitBlk : Lbl) : Emit Unit :=
  let funcNameToCall := extFuncSym inst.imm
  if funcNameToCall ∈ extFunc then do
    let r1 ← createLoad (.int 64) (regs 1)
    let r2 ← createLoad (.int 64) (regs 2)
    let r3 ← createLoad (.int 64) (regs 3)
    let r4 ← createLoad (.int 64) (regs 4)
    let r5 ← createLoad (.int 64) (regs 5)
    let callInst ← createCall funcNameToCall [r1, r2, r3, r4, r5]
    createStore callInst (regs 0)
    if inst.imm = 12 then createBr exitBlk else pure ()
  else fail (.error ("Ext func not found: " ++ funcNameToCall))

/-- An atomic read-modify-write at `[dst + off]`, promised to be aligned to 32
    bytes, with the source register; a fetching one stores the old value there. -/
def emitAtomicBinOp (op : RmwOp) (inst : EbpfInst) (is64 is_fetch : Bool) : Emit Unit := do
  let base ← createLoad .ptr (regs inst.dst_reg)
  let addr ← createGEP 1 base (getInt64 (inst.off.signExtend 64))
  let v ← createLoad (.int 64) (regs inst.src_reg)
  if is64 then
    let oldValue ← createAtomicRMW op addr v 32
    if is_fetch then createStore oldValue (regs inst.src_reg) else pure ()
  else
    let v ← createTrunc 32 v
    let oldValue ← createAtomicRMW op addr v 32
    if is_fetch then createStore oldValue (regs inst.src_reg) else pure ()

end EbpfJit
