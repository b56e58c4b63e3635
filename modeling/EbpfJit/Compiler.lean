import EbpfJit.CodeGen
import EbpfJit.Lib.CountedLoop
import EbpfJit.Lib.IrSsa

/-!
# The compiler

`CompilerXDP::generateModule`, which compiles a list of eBPF instructions into
the function `bpf_main`:

* `splitBlocks` marks the instructions that begin a block;
* `createBlocks` creates the blocks, and registers the ones a local call may
  return to;
* `emitBody` emits the code of one instruction, at the end of the current block;
* `closeBlocks` makes every block without a terminator go on to the next one.

The first three are loops with counters of 32 and 16 bits, so that the whole may
not terminate, and takes fuel. Writes of `splitBlocks` out of the bounds of its
vector have no effect.
-/

namespace EbpfJit

open Ir Ir.Builder

/-- The size of a stack frame, in words of 8 bytes. -/
def STACK_SIZE : ℕ := (EBPF_STACK_SIZE + 7) / 8

def CALL_STACK_SIZE : ℕ := 64

def MAX_LOCAL_FUNC_DEPTH : ℕ := 32

def LDDW_HELPER_MAP_VAL : String := "__lddw_helper_map_val"

/-- The compiler: its `lddw` helpers, if any, and the loaded code. -/
structure CompilerXDP where
  map_by_fd : Option (BitVec 32 → BitVec 64) := none
  map_by_idx : Option (BitVec 32 → BitVec 64) := none
  map_val : Option (BitVec 64 → BitVec 64) := none
  var_addr : Option (BitVec 32 → BitVec 64) := none
  code_addr : Option (BitVec 32 → BitVec 64) := none
  insts : List EbpfInst

/-- The state of a compilation. The functions are known by their names. -/
structure Program where
  insns : List EbpfInst
  blockBegin : List Bool
  allBlocks : List Lbl
  instBlocks : List (ℕ × Lbl)
  localFuncRetBlks : List (ℕ × Lbl)
  lddwHelper : List String
  extFunc : List String

/-- The instruction at `pc`. -/
def Program.insn (p : Program) (pc : ℕ) : EbpfInst := p.insns.getD pc default

/-! ## Blocks -/

/-- The indices of `blockBegin` that `split_blocks` writes at the instruction
    `i`: `i` itself after a jump, and the target of a jump. -/
def splitWrites (insns : List EbpfInst) (i : ℕ) : List ℕ :=
  let curr := insns.getD i default
  (if 0 < i ∧ isJmp (insns.getD (i - 1) default) then [i] else []) ++
    if isJmp curr then [((i + curr.off.toInt + 1) % 2 ^ 32).toNat] else []

/-- Mark the instructions that begin a block: the first one, and the ones after
    a jump or at its target. -/
def splitBlocks (insns : List EbpfInst) (fuel : ℕ) : Option (Except Failure (List Bool)) :=
  CountedLoop.run 32 insns.length
    (fun i begins => .ok (i, (splitWrites insns i).foldl (fun b j => b.set j true) begins))
    fuel 0 ((List.replicate insns.length false).set 0 true)

/-- Create the block beginning at the instruction `i`, if there is one. After a
    local call, a local function may return to it. -/
def createBlock (i : ℕ) (p : Program) : Program :=
  if p.blockBegin.getD i false then
    { p with
      instBlocks := p.instBlocks ++ [(i, .inst i)]
      allBlocks := p.allBlocks ++ [.inst i]
      localFuncRetBlks :=
        if 1 < i ∧ (p.insn (i - 1)).code = EBPF_OP_CALL ∧ (p.insn (i - 1)).src_reg = 1 then
          p.localFuncRetBlks ++ [(i, .inst i)]
        else p.localFuncRetBlks }
  else p

/-- Create the blocks of the instructions. -/
def createBlocks (p : Program) (fuel : ℕ) : Option (Except Failure Program) :=
  CountedLoop.run 16 p.insns.length (fun i p => .ok (i, createBlock i p)) fuel 0 p

/-! ## The blocks that are not for instructions -/

/-- The entry block: the registers, the stack, whose end is in `r10`, the
    arguments in `r1` and `r2`, and the empty call stack. -/
def emitSetupBlock : Emit Unit := do
  (List.range 11).forM fun i => createAlloca (.reg i) 1
  let stackBegin ← createAllocaMem (STACK_SIZE * MAX_LOCAL_FUNC_DEPTH + 10)
  let stackEnd ← createGEP 8 stackBegin
    (getInt32 (BitVec.ofNat 32 (STACK_SIZE * MAX_LOCAL_FUNC_DEPTH)))
  createStore stackEnd (regs 10)
  createStore (.argPtr 0) (regs 1)
  createStore (.argInt 1) (regs 2)
  createAlloca .callStack (CALL_STACK_SIZE * 5)
  createAlloca .callItemCnt 1
  createStore (getInt64 0) (.slot .callItemCnt)

/-- The block that exits, returning `r0`. -/
def emitExitBlock : Emit Unit := do
  let r0 ← createLoad (.int 64) (regs 0)
  createRet r0

/-- The address of the item `i` below `pos` on the call stack. -/
def emitCallStackItem (pos : Value (.int 64)) (i : ℕ) : Emit (Value .ptr) := do
  let idx ← createBinOp .sub pos (getInt64 (BitVec.ofNat 64 i))
  createGEP 8 (.slot .callStack) idx

/-- The block that returns from a local function. The topmost item is the return
    address, followed by `r6`, `r7`, `r8`, `r9`. -/
def emitLocalRetBlock (dests : List Lbl) : Emit Unit := do
  let count ← createLoad (.int 64) (.slot .callItemCnt)
  let addr ← emitCallStackItem count 1
  let targetAddr ← createLoad .ptr addr
  [6, 7, 8, 9].forM fun i => do
    let item ← emitCallStackItem count (i - 4)
    let v ← createLoad (.int 64) item
    createStore v (.slot (.reg i))
  let count' ← createBinOp .sub count (getInt64 5)
  createStore count' (.slot .callItemCnt)
  -- Restore the data stack: r10 += stack_size.
  let r10 ← createLoad (.int 64) (regs 10)
  let r10' ← createBinOp .add r10 (getInt64 (BitVec.ofNat 64 STACK_SIZE))
  createStore r10' (regs 10)
  createIndirectBr targetAddr dests

/-! ## Instructions -/

/-- The cases of the switch over the opcodes. -/
inductive SwitchCase
  | add | sub | mul | div | or | and | lsh | rsh | neg | mod | xor | mov | arsh
  | endian
  | store (w : ℕ)
  | loadX (w : ℕ)
  | lddw
  | ja
  | call
  | exit
  | jcond (p : Pred)
  | jset
  | atomic
  deriving DecidableEq

/-- The case labels of the switch. -/
def switchCases : List (List (BitVec 8) × SwitchCase) :=
  [([EBPF_OP_ADD64_IMM, EBPF_OP_ADD_IMM, EBPF_OP_ADD64_REG, EBPF_OP_ADD_REG], .add),
    ([EBPF_OP_SUB64_IMM, EBPF_OP_SUB_IMM, EBPF_OP_SUB64_REG, EBPF_OP_SUB_REG], .sub),
    ([EBPF_OP_MUL64_IMM, EBPF_OP_MUL_IMM, EBPF_OP_MUL64_REG, EBPF_OP_MUL_REG], .mul),
    ([EBPF_OP_DIV64_IMM, EBPF_OP_DIV_IMM, EBPF_OP_DIV64_REG, EBPF_OP_DIV_REG], .div),
    ([EBPF_OP_OR64_IMM, EBPF_OP_OR_IMM, EBPF_OP_OR64_REG, EBPF_OP_OR_REG], .or),
    ([EBPF_OP_AND64_IMM, EBPF_OP_AND_IMM, EBPF_OP_AND64_REG, EBPF_OP_AND_REG], .and),
    ([EBPF_OP_LSH64_IMM, EBPF_OP_LSH_IMM, EBPF_OP_LSH64_REG, EBPF_OP_LSH_REG], .lsh),
    ([EBPF_OP_RSH64_IMM, EBPF_OP_RSH_IMM, EBPF_OP_RSH64_REG, EBPF_OP_RSH_REG], .rsh),
    ([EBPF_OP_NEG, EBPF_OP_NEG64], .neg),
    ([EBPF_OP_MOD64_IMM, EBPF_OP_MOD_IMM, EBPF_OP_MOD64_REG, EBPF_OP_MOD_REG], .mod),
    ([EBPF_OP_XOR64_IMM, EBPF_OP_XOR_IMM, EBPF_OP_XOR64_REG, EBPF_OP_XOR_REG], .xor),
    ([EBPF_OP_MOV64_IMM, EBPF_OP_MOV_IMM, EBPF_OP_MOV64_REG, EBPF_OP_MOV_REG], .mov),
    ([EBPF_OP_ARSH64_IMM, EBPF_OP_ARSH_IMM, EBPF_OP_ARSH64_REG, EBPF_OP_ARSH_REG], .arsh),
    ([EBPF_OP_LE, EBPF_OP_BE], .endian),
    ([EBPF_OP_STB, EBPF_OP_STXB], .store 8),
    ([EBPF_OP_STH, EBPF_OP_STXH], .store 16),
    ([EBPF_OP_STW, EBPF_OP_STXW], .store 32),
    ([EBPF_OP_STDW, EBPF_OP_STXDW], .store 64),
    ([EBPF_OP_LDXB], .loadX 8),
    ([EBPF_OP_LDXH], .loadX 16),
    ([EBPF_OP_LDXW], .loadX 32),
    ([EBPF_OP_LDXDW], .loadX 64),
    ([EBPF_OP_LDDW], .lddw),
    ([EBPF_OP_JA], .ja),
    ([EBPF_OP_CALL, EBPF_OP_CALL ||| 0x8], .call),
    ([EBPF_OP_EXIT], .exit),
    ([EBPF_OP_JEQ32_IMM, EBPF_OP_JEQ_IMM, EBPF_OP_JEQ32_REG, EBPF_OP_JEQ_REG], .jcond .eq),
    ([EBPF_OP_JGT32_IMM, EBPF_OP_JGT_IMM, EBPF_OP_JGT32_REG, EBPF_OP_JGT_REG], .jcond .ugt),
    ([EBPF_OP_JGE32_IMM, EBPF_OP_JGE_IMM, EBPF_OP_JGE32_REG, EBPF_OP_JGE_REG], .jcond .uge),
    ([EBPF_OP_JSET32_IMM, EBPF_OP_JSET_IMM, EBPF_OP_JSET32_REG, EBPF_OP_JSET_REG], .jset),
    ([EBPF_OP_JNE32_IMM, EBPF_OP_JNE_IMM, EBPF_OP_JNE32_REG, EBPF_OP_JNE_REG], .jcond .ne),
    ([EBPF_OP_JSGT32_IMM, EBPF_OP_JSGT_IMM, EBPF_OP_JSGT32_REG, EBPF_OP_JSGT_REG], .jcond .sgt),
    ([EBPF_OP_JSGE32_IMM, EBPF_OP_JSGE_IMM, EBPF_OP_JSGE32_REG, EBPF_OP_JSGE_REG], .jcond .sge),
    ([EBPF_OP_JLT32_IMM, EBPF_OP_JLT_IMM, EBPF_OP_JLT32_REG, EBPF_OP_JLT_REG], .jcond .ult),
    ([EBPF_OP_JLE32_IMM, EBPF_OP_JLE_IMM, EBPF_OP_JLE32_REG, EBPF_OP_JLE_REG], .jcond .ule),
    ([EBPF_OP_JSLT32_IMM, EBPF_OP_JSLT_IMM, EBPF_OP_JSLT32_REG, EBPF_OP_JSLT_REG], .jcond .slt),
    ([EBPF_OP_JSLE32_IMM, EBPF_OP_JSLE_IMM, EBPF_OP_JSLE32_REG, EBPF_OP_JSLE_REG], .jcond .sle),
    ([EBPF_ATOMIC_OPCODE_32, EBPF_ATOMIC_OPCODE_64], .atomic)]

/-- The case of an opcode, unless it is unsupported. -/
def switchCase (code : BitVec 8) : Option SwitchCase :=
  (switchCases.find? fun c => c.1.contains code).map (·.2)

/-- The shift count of a shift, modulo the width of the operands. -/
def emitShiftCount {w : ℕ} (inst : EbpfInst) (src_val : Value (.int w)) : Emit (Value (.int w)) :=
  createBinOp .urem src_val (.const (if isAlu64 inst then 64 else 32))

/-- A division: the destination is zero if trying to divide by zero. -/
def emitDiv {w : ℕ} (dst_val src_val : Value (.int w)) : Emit (Value (.int w)) := do
  let isZero ← createICmp .eq src_val (.const 0)
  let quotient ← createBinOp .udiv dst_val src_val
  createSelect isZero (.const 0) quotient

/-- A modulo: the destination is untouched if the source is zero. -/
def emitMod {w : ℕ} (dst_val src_val : Value (.int w)) : Emit (Value (.int w)) := do
  let isZero ← createICmp .eq src_val (.const 0)
  let remainder ← createBinOp .urem dst_val src_val
  createSelect isZero dst_val remainder

/-- A compare-and-exchange with `r0`, which gets the value loaded before. -/
def emitCmpXchg (inst : EbpfInst) : Emit Unit := do
  let w := if inst.code = EBPF_ATOMIC_OPCODE_64 then 64 else 32
  let base ← createLoad .ptr (regs inst.dst_reg)
  let vPtr ← createGEP 1 base (getInt64 (inst.off.signExtend 64))
  let beforeVal ← createLoad (.int w) vPtr
  let r0 ← createLoad (.int w) (regs 0)
  let src ← createLoad (.int w) (regs inst.src_reg)
  createAtomicCmpXchg vPtr r0 src
  let v ← createZExt 64 beforeVal
  createStore v (regs 0)

/-- The atomic operations, by `imm`. An exchange does not fetch. -/
def emitAtomic (inst : EbpfInst) : Emit Unit :=
  let is64 := inst.code == EBPF_ATOMIC_OPCODE_64
  let is_fetch := inst.imm &&& EBPF_FETCH == EBPF_FETCH
  if inst.imm = EBPF_ATOMIC_ADD ∨ inst.imm = EBPF_ATOMIC_ADD ||| EBPF_FETCH then
    emitAtomicBinOp .add inst is64 is_fetch
  else if inst.imm = EBPF_ATOMIC_AND ∨ inst.imm = EBPF_ATOMIC_AND ||| EBPF_FETCH then
    emitAtomicBinOp .and inst is64 is_fetch
  else if inst.imm = EBPF_ATOMIC_OR ∨ inst.imm = EBPF_ATOMIC_OR ||| EBPF_FETCH then
    emitAtomicBinOp .or inst is64 is_fetch
  else if inst.imm = EBPF_ATOMIC_XOR ∨ inst.imm = EBPF_ATOMIC_XOR ||| EBPF_FETCH then
    emitAtomicBinOp .xor inst is64 is_fetch
  else if inst.imm = EBPF_XCHG then emitAtomicBinOp .xchg inst is64 false
  else if inst.imm = EBPF_CMPXCHG then emitCmpXchg inst
  else fail (.error ("Unsupported atomic operation: " ++ toString inst.imm.toInt))

/-- Store into the destination of an `lddw` the value of a map found at `mapPtr`,
    evaluated when compiling or when running. -/
def emitLddwMapVal (x : CompilerXDP) (p : Program) (patch : Bool) (inst nextInst : EbpfInst)
    (mapPtr : BitVec 64) (missing : String) : Emit Unit :=
  if patch then
    match x.map_val with
    | some map_val =>
      createStore (getInt64 (map_val mapPtr + nextInst.imm.signExtend 64)) (regs inst.dst_reg)
    | none => fail (.error "map_val is not provided, unable to compile")
  else if LDDW_HELPER_MAP_VAL ∈ p.lddwHelper then do
    let retMapVal ← createCall LDDW_HELPER_MAP_VAL [getInt64 mapPtr]
    let finalRet ← createBinOp .add retMapVal (getInt64 (nextInst.imm.signExtend 64))
    createStore finalRet (regs inst.dst_reg)
  else fail (.error missing)

/-- The `lddw` of a value, or of one of the helpers `1` to `6`. -/
def emitLddwHelper (x : CompilerXDP) (p : Program) (patch : Bool) (inst nextInst : EbpfInst) :
    Emit Unit :=
  let val := inst.imm.setWidth 64 ||| nextInst.imm.setWidth 64 <<< 32
  -- Without the map helpers, the default is the input value.
  let mapByFd := match x.map_by_fd with
    | some map_by_fd => map_by_fd inst.imm
    | none => inst.imm.signExtend 64
  let mapByIdx := match x.map_by_idx with
    | some map_by_idx => map_by_idx inst.imm
    | none => inst.imm.signExtend 64
  if inst.src_reg = 0 then createStore (getInt64 val) (regs inst.dst_reg)
  else if inst.src_reg = 1 then createStore (getInt64 mapByFd) (regs inst.dst_reg)
  else if inst.src_reg = 2 then
    emitLddwMapVal x p patch inst nextInst mapByFd
      "Using lddw helper 2, which requires map_val to be defined."
  else if inst.src_reg = 3 then
    match x.var_addr with
    | some var_addr => createStore (getInt64 (var_addr inst.imm)) (regs inst.dst_reg)
    | none => fail (.error "var_addr is not provided, unable to compile")
  else if inst.src_reg = 4 then
    match x.code_addr with
    | some code_addr => createStore (getInt64 (code_addr inst.imm)) (regs inst.dst_reg)
    | none => fail (.error "code_addr is not provided, unable to compile")
  else if inst.src_reg = 5 then createStore (getInt64 mapByIdx) (regs inst.dst_reg)
  else if inst.src_reg = 6 then
    emitLddwMapVal x p patch inst nextInst mapByIdx "Using lddw helper 6, which requires map_val"
  else pure ()

/-- An `lddw`, which takes two instructions. -/
def emitLddw (x : CompilerXDP) (p : Program) (patch : Bool) (pc : ℕ) (inst : EbpfInst) :
    Emit Unit :=
  let size := inst.code &&& 0x18
  let mode := inst.code &&& 0xe0
  let nextInst := p.insn (pc + 1)
  if size ≠ 0x18 ∨ mode ≠ 0x00 then
    fail (.error ("Unsupported size (" ++ toString size.toNat ++ ") or mode (" ++
      toString mode.toNat ++ ") for non-standard load operations"))
  else if p.insns.length ≤ pc + 1 then
    fail (.error ("Loaded LDDW at pc=" ++ toString pc ++
      " which requires an extra pseudo instruction, but it's the last instruction"))
  else if nextInst.code ≠ 0 ∨ nextInst.dst_reg ≠ 0 ∨ nextInst.src_reg ≠ 0 ∨ nextInst.off ≠ 0 then
    fail (.error ("Loaded LDDW at pc=" ++ toString pc ++
      " which requires an extra pseudo instruction, but the next instruction is not a legal one"))
  else emitLddwHelper x p patch inst nextInst

/-- A local call: push the return address and `r6` to `r9` onto the call stack,
    move the data stack, and go to the function. -/
def emitLocalCall (p : Program) (pc : ℕ) (inst : EbpfInst) : Emit Unit := do
  let count ← createLoad (.int 64) (.slot .callItemCnt)
  let nextPos ← createBinOp .add count (getInt64 5)
  createStore nextPos (.slot .callItemCnt)
  let retBlk ← match p.localFuncRetBlks.lookup (toUInt16 (pc + 1)) with
    | some blk => pure blk
    | none => fail .assertion
  let addr ← emitCallStackItem nextPos 1
  createStore (.blockAddress retBlk) addr
  [6, 7, 8, 9].forM fun i => do
    let v ← createLoad (.int 64) (.slot (.reg i))
    let item ← emitCallStackItem nextPos (i - 4)
    createStore v item
  -- Move the data stack: r10 -= stackSize.
  let r10 ← createLoad (.int 64) (regs 10)
  let r10' ← createBinOp .sub r10 (getInt64 (BitVec.ofNat 64 STACK_SIZE))
  createStore r10' (regs 10)
  let dstBlk ← ofExcept (loadCallDstBlock pc inst p.instBlocks)
  createBr dstBlk

/-- The code of a case of the switch. -/
def emitCase (x : CompilerXDP) (p : Program) (patch : Bool) (pc : ℕ) (inst : EbpfInst) :
    SwitchCase → Emit Unit
  | .add => emitALUWithDstAndSrc inst (createBinOp .add)
  | .sub => emitALUWithDstAndSrc inst (createBinOp .sub)
  | .mul => emitALUWithDstAndSrc inst (createBinOp .mul)
  | .div => emitALUWithDstAndSrc inst emitDiv
  | .or => emitALUWithDstAndSrc inst (createBinOp .or)
  | .and => emitALUWithDstAndSrc inst (createBinOp .and)
  | .lsh => emitALUWithDstAndSrc inst fun dst_val src_val => do
    let count ← emitShiftCount inst src_val
    createBinOp .shl dst_val count
  | .rsh => emitALUWithDstAndSrc inst fun dst_val src_val => do
    let count ← emitShiftCount inst src_val
    createBinOp .lshr dst_val count
  | .neg => do
    let dst_val ← emitLoadALUDest inst false
    let result ← createNeg dst_val
    emitStoreALUResult inst result
  | .mod => emitALUWithDstAndSrc inst emitMod
  | .xor => emitALUWithDstAndSrc inst (createBinOp .xor)
  | .mov => do
    let src_val ← emitLoadALUSource inst (isAlu64 inst)
    emitStoreALUResult inst src_val
  | .arsh => emitALUWithDstAndSrc inst fun dst_val src_val => do
    let count ← emitShiftCount inst src_val
    createBinOp .ashr dst_val count
  | .endian => do
    let dst_val ← emitLoadALUDest inst true
    let result ← emitALUEndianConversion inst dst_val
    emitStoreALUResult inst result
  | .store w => emitStore inst w
  | .loadX w => emitLoadX inst w
  | .lddw => emitLddw x p patch pc inst
  | .ja => do
    let dst ← ofExcept (loadJmpDstBlock pc inst p.instBlocks)
    createBr dst
  | .call =>
    if inst.src_reg = 1 then emitLocalCall p pc inst
    else emitExtFuncCall inst p.extFunc .exitBlock
  | .exit => do
    let count ← createLoad (.int 64) (.slot .callItemCnt)
    let isZero ← createICmp .eq count (getInt64 0)
    createCondBr isZero .exitBlock .localRetBlock
  | .jcond pred => emitCondJmpWithDstAndSrc pc inst p.instBlocks (createICmp pred)
  | .jset => do
    let (dstBlk, nextBlk) ← ofExcept (localJmpDstAndNextBlk pc inst p.instBlocks)
    let (src, dst, zero) ← emitJmpLoadSrcAndDstAndZero inst
    let bits ← createBinOp .and dst src
    let cond ← createICmp .ne bits zero
    createCondBr cond dstBlk nextBlk
  | .atomic => emitAtomic inst

/-- The code of an instruction, giving back `pc`, which an `lddw` advances. -/
def emitInst (x : CompilerXDP) (p : Program) (patch : Bool) (pc : ℕ) (inst : EbpfInst) :
    Emit ℕ :=
  match switchCase inst.code with
  | some .lddw => do
    emitLddw x p patch pc inst
    pure (pc + 1)
  | some c => do
    emitCase x p patch pc inst c
    pure pc
  | none => fail (.error ("Unsupported or illegal opcode: " ++ toString inst.code.toNat))

/-! ## Emission -/

/-- Where the code of an instruction is: in a block, from an offset on. This is
    not in the source; it says what an instruction boundary is. -/
structure Visit where
  pc : ℕ
  block : Lbl
  start : ℕ
  code : List (Instr Lbl Slot)

/-- The state of the emission: the contents of the blocks, the current block,
    the next free name, and the instructions emitted so far. -/
structure EmitState where
  code : Lbl → List (Instr Lbl Slot)
  currBB : Lbl
  next : ℕ
  log : List Visit

/-- Emit the instruction at `pc`, at the end of the current block, or of its own
    block if it begins one. -/
def emitBody (x : CompilerXDP) (p : Program) (patch : Bool) (pc : ℕ) (s : EmitState) :
    Except Failure (ℕ × EmitState) := do
  let inst := p.insn pc
  let currBB ←
    if p.blockBegin.getD pc false then
      match p.instBlocks.lookup pc with
      | some blk => .ok blk
      | none => .error (.error ("pc=" ++ toString pc ++
          " was marked block begin, but no BasicBlock* found"))
    else .ok s.currBB
  if 10 < inst.dst_reg ∨ 10 < inst.src_reg then
    .error (.error ("Illegal src reg/dst reg at pc " ++ toString pc))
  else do
    let (pc', next, code) ← emitInst x p patch pc inst s.next
    .ok (pc', {
      code := Function.update s.code currBB (s.code currBB ++ code)
      currBB := currBB
      next := next
      log := s.log ++ [⟨pc, currBB, (s.code currBB).length, code⟩] })

/-- Make every block but the last one go on to the next one, unless it has a
    terminator. -/
def closeBlocks : List Lbl → (Lbl → List (Instr Lbl Slot)) → Lbl → List (Instr Lbl Slot)
  | currBlk :: nextBlk :: rest, code =>
    closeBlocks (nextBlk :: rest)
      (if (terminator (code currBlk)).isNone then
        Function.update code currBlk (code currBlk ++ [.br nextBlk])
      else code)
  | _, code => code

/-- A compiled program: the function `bpf_main`, and where its instructions are. -/
structure Module where
  prog : Program
  fn : Fn Lbl Slot
  log : List Visit

/-- The program with its blocks split and created. -/
def prepare (x : CompilerXDP) (extFuncNames lddwHelpers : List String) (fuel : ℕ) :
    Option (Except Failure Program) :=
  match splitBlocks x.insts fuel with
  | none => none
  | some (.error e) => some (.error e)
  | some (.ok blockBegin) =>
    createBlocks ⟨x.insts, blockBegin, [.setupBlock], [], [], lddwHelpers, extFuncNames⟩ fuel

/-- The blocks that are not for instructions, emitted before the other ones. -/
def emitFixedBlocks (p : Program) : Except Failure EmitState := do
  let ((), n, setup) ← emitSetupBlock 0
  let ((), n, exit) ← emitExitBlock n
  let ((), n, localRet) ← emitLocalRetBlock (p.localFuncRetBlks.map (·.2)) n
  .ok {
    code := fun
      | .setupBlock => setup
      | .inst _ => []
      | .exitBlock => exit
      | .localRetBlock => localRet
    currBB := .inst 0
    next := n
    log := [] }

/-- The emission loop. -/
def emitInsns (x : CompilerXDP) (p : Program) (patch : Bool) (fuel : ℕ) :
    Option (Except Failure EmitState) :=
  match emitFixedBlocks p with
  | .error e => some (.error e)
  | .ok s => CountedLoop.run 16 p.insns.length (emitBody x p patch) fuel 0 s

/-- `generateModule` up to the verification of the module. -/
def emitModule (x : CompilerXDP) (extFuncNames lddwHelpers : List String) (patch : Bool)
    (fuel : ℕ) : Option (Except Failure Module) :=
  if x.insts.isEmpty then some (.error (.error "No instructions provided"))
  else
    match prepare x extFuncNames lddwHelpers fuel with
    | none => none
    | some (.error e) => some (.error e)
    | some (.ok p) =>
      match emitInsns x p patch fuel with
      | none => none
      | some (.error e) => some (.error e)
      | some (.ok s) => some (.ok {
          prog := p
          fn := {
            blocks := p.allBlocks ++ [.exitBlock, .localRetBlock]
            code := closeBlocks p.allBlocks s.code }
          log := s.log })

/-- The declaration of `bpf_main`, and the ones of the functions it may call. -/
def Program.sig (p : Program) : Sig where
  args := [.ptr, .int 64]
  funcs := p.extFunc.map (·, 5) ++ (p.lddwHelper.filter (· = LDDW_HELPER_MAP_VAL)).map (·, 1)

/-- The verifier of LLVM, as far as it matters here: it rejects a function with a block that
    does not end with its only terminator, and lets a function through that has no such block,
    only branches to its own blocks, and is in SSA form. -/
structure Verifier where
  /-- The function, declared like this, is broken. -/
  verifyModule : Sig → Fn Lbl Slot → Bool
  wellTerminated : ∀ {S F}, verifyModule S F = false → F.WellTerminated
  not_broken : ∀ {S F}, F.WellTerminated → F.Closed → F.Ssa .setupBlock S →
    verifyModule S F = false

/-- Compile the loaded code. -/
def generateModule (V : Verifier) (x : CompilerXDP) (extFuncNames lddwHelpers : List String)
    (patch_map_val_at_compile_time : Bool) (fuel : ℕ) : Option (Except Failure Module) :=
  match emitModule x extFuncNames lddwHelpers patch_map_val_at_compile_time fuel with
  | some (.ok M) =>
    if V.verifyModule M.prog.sig M.fn then some (.error (.error "Invalid module generated"))
    else some (.ok M)
  | r => r

end EbpfJit
