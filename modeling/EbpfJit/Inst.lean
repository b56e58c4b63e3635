import Mathlib.Algebra.Group.Int.Defs
import Mathlib.Algebra.Group.Nat.Defs
import Mathlib.Data.Nat.Notation

/-!
# eBPF instructions

The encoding of eBPF instructions and the opcodes of `ebpf_inst.h`: the class of
an instruction is in the low three bits of its opcode, the operand form in the
next one, and the operation in the rest.
-/

namespace EbpfJit

/-- `EBPF_STACK_SIZE`, the size in bytes of the stack frame of a function. -/
def EBPF_STACK_SIZE : ℕ := 512

/-- An eBPF instruction; `off` and `imm` are signed. -/
structure EbpfInst where
  code : BitVec 8
  dst_reg : BitVec 4
  src_reg : BitVec 4
  off : BitVec 16
  imm : BitVec 32
  deriving DecidableEq, Inhabited

/-- The membership of an `imm` in a list is decided by comparing. -/
instance lawfulBEq_imm : LawfulBEq (BitVec 32) := inferInstance

/-! ## Opcodes -/

def EBPF_CLS_LD : BitVec 8 := 0x00
def EBPF_CLS_LDX : BitVec 8 := 0x01
def EBPF_CLS_ST : BitVec 8 := 0x02
def EBPF_CLS_STX : BitVec 8 := 0x03
def EBPF_CLS_ALU : BitVec 8 := 0x04
def EBPF_CLS_JMP : BitVec 8 := 0x05
def EBPF_CLS_JMP32 : BitVec 8 := 0x06
def EBPF_CLS_ALU64 : BitVec 8 := 0x07

def EBPF_SRC_IMM : BitVec 8 := 0x00
def EBPF_SRC_REG : BitVec 8 := 0x08

def EBPF_SIZE_DW : BitVec 8 := 0x18
def EBPF_SIZE_W : BitVec 8 := 0x00
def EBPF_SIZE_H : BitVec 8 := 0x08
def EBPF_SIZE_B : BitVec 8 := 0x10

def EBPF_MODE_IMM : BitVec 8 := 0x00
def EBPF_MODE_MEM : BitVec 8 := 0x60

def EBPF_OP_ADD_IMM : BitVec 8 := EBPF_CLS_ALU ||| EBPF_SRC_IMM ||| 0x00
def EBPF_OP_ADD_REG : BitVec 8 := EBPF_CLS_ALU ||| EBPF_SRC_REG ||| 0x00
def EBPF_OP_SUB_IMM : BitVec 8 := EBPF_CLS_ALU ||| EBPF_SRC_IMM ||| 0x10
def EBPF_OP_SUB_REG : BitVec 8 := EBPF_CLS_ALU ||| EBPF_SRC_REG ||| 0x10
def EBPF_OP_MUL_IMM : BitVec 8 := EBPF_CLS_ALU ||| EBPF_SRC_IMM ||| 0x20
def EBPF_OP_MUL_REG : BitVec 8 := EBPF_CLS_ALU ||| EBPF_SRC_REG ||| 0x20
def EBPF_OP_DIV_IMM : BitVec 8 := EBPF_CLS_ALU ||| EBPF_SRC_IMM ||| 0x30
def EBPF_OP_DIV_REG : BitVec 8 := EBPF_CLS_ALU ||| EBPF_SRC_REG ||| 0x30
def EBPF_OP_OR_IMM : BitVec 8 := EBPF_CLS_ALU ||| EBPF_SRC_IMM ||| 0x40
def EBPF_OP_OR_REG : BitVec 8 := EBPF_CLS_ALU ||| EBPF_SRC_REG ||| 0x40
def EBPF_OP_AND_IMM : BitVec 8 := EBPF_CLS_ALU ||| EBPF_SRC_IMM ||| 0x50
def EBPF_OP_AND_REG : BitVec 8 := EBPF_CLS_ALU ||| EBPF_SRC_REG ||| 0x50
def EBPF_OP_LSH_IMM : BitVec 8 := EBPF_CLS_ALU ||| EBPF_SRC_IMM ||| 0x60
def EBPF_OP_LSH_REG : BitVec 8 := EBPF_CLS_ALU ||| EBPF_SRC_REG ||| 0x60
def EBPF_OP_RSH_IMM : BitVec 8 := EBPF_CLS_ALU ||| EBPF_SRC_IMM ||| 0x70
def EBPF_OP_RSH_REG : BitVec 8 := EBPF_CLS_ALU ||| EBPF_SRC_REG ||| 0x70
def EBPF_OP_NEG : BitVec 8 := EBPF_CLS_ALU ||| 0x80
def EBPF_OP_MOD_IMM : BitVec 8 := EBPF_CLS_ALU ||| EBPF_SRC_IMM ||| 0x90
def EBPF_OP_MOD_REG : BitVec 8 := EBPF_CLS_ALU ||| EBPF_SRC_REG ||| 0x90
def EBPF_OP_XOR_IMM : BitVec 8 := EBPF_CLS_ALU ||| EBPF_SRC_IMM ||| 0xa0
def EBPF_OP_XOR_REG : BitVec 8 := EBPF_CLS_ALU ||| EBPF_SRC_REG ||| 0xa0
def EBPF_OP_MOV_IMM : BitVec 8 := EBPF_CLS_ALU ||| EBPF_SRC_IMM ||| 0xb0
def EBPF_OP_MOV_REG : BitVec 8 := EBPF_CLS_ALU ||| EBPF_SRC_REG ||| 0xb0
def EBPF_OP_ARSH_IMM : BitVec 8 := EBPF_CLS_ALU ||| EBPF_SRC_IMM ||| 0xc0
def EBPF_OP_ARSH_REG : BitVec 8 := EBPF_CLS_ALU ||| EBPF_SRC_REG ||| 0xc0
def EBPF_OP_LE : BitVec 8 := EBPF_CLS_ALU ||| EBPF_SRC_IMM ||| 0xd0
def EBPF_OP_BE : BitVec 8 := EBPF_CLS_ALU ||| EBPF_SRC_REG ||| 0xd0

def EBPF_OP_ADD64_IMM : BitVec 8 := EBPF_CLS_ALU64 ||| EBPF_SRC_IMM ||| 0x00
def EBPF_OP_ADD64_REG : BitVec 8 := EBPF_CLS_ALU64 ||| EBPF_SRC_REG ||| 0x00
def EBPF_OP_SUB64_IMM : BitVec 8 := EBPF_CLS_ALU64 ||| EBPF_SRC_IMM ||| 0x10
def EBPF_OP_SUB64_REG : BitVec 8 := EBPF_CLS_ALU64 ||| EBPF_SRC_REG ||| 0x10
def EBPF_OP_MUL64_IMM : BitVec 8 := EBPF_CLS_ALU64 ||| EBPF_SRC_IMM ||| 0x20
def EBPF_OP_MUL64_REG : BitVec 8 := EBPF_CLS_ALU64 ||| EBPF_SRC_REG ||| 0x20
def EBPF_OP_DIV64_IMM : BitVec 8 := EBPF_CLS_ALU64 ||| EBPF_SRC_IMM ||| 0x30
def EBPF_OP_DIV64_REG : BitVec 8 := EBPF_CLS_ALU64 ||| EBPF_SRC_REG ||| 0x30
def EBPF_OP_OR64_IMM : BitVec 8 := EBPF_CLS_ALU64 ||| EBPF_SRC_IMM ||| 0x40
def EBPF_OP_OR64_REG : BitVec 8 := EBPF_CLS_ALU64 ||| EBPF_SRC_REG ||| 0x40
def EBPF_OP_AND64_IMM : BitVec 8 := EBPF_CLS_ALU64 ||| EBPF_SRC_IMM ||| 0x50
def EBPF_OP_AND64_REG : BitVec 8 := EBPF_CLS_ALU64 ||| EBPF_SRC_REG ||| 0x50
def EBPF_OP_LSH64_IMM : BitVec 8 := EBPF_CLS_ALU64 ||| EBPF_SRC_IMM ||| 0x60
def EBPF_OP_LSH64_REG : BitVec 8 := EBPF_CLS_ALU64 ||| EBPF_SRC_REG ||| 0x60
def EBPF_OP_RSH64_IMM : BitVec 8 := EBPF_CLS_ALU64 ||| EBPF_SRC_IMM ||| 0x70
def EBPF_OP_RSH64_REG : BitVec 8 := EBPF_CLS_ALU64 ||| EBPF_SRC_REG ||| 0x70
def EBPF_OP_NEG64 : BitVec 8 := EBPF_CLS_ALU64 ||| 0x80
def EBPF_OP_MOD64_IMM : BitVec 8 := EBPF_CLS_ALU64 ||| EBPF_SRC_IMM ||| 0x90
def EBPF_OP_MOD64_REG : BitVec 8 := EBPF_CLS_ALU64 ||| EBPF_SRC_REG ||| 0x90
def EBPF_OP_XOR64_IMM : BitVec 8 := EBPF_CLS_ALU64 ||| EBPF_SRC_IMM ||| 0xa0
def EBPF_OP_XOR64_REG : BitVec 8 := EBPF_CLS_ALU64 ||| EBPF_SRC_REG ||| 0xa0
def EBPF_OP_MOV64_IMM : BitVec 8 := EBPF_CLS_ALU64 ||| EBPF_SRC_IMM ||| 0xb0
def EBPF_OP_MOV64_REG : BitVec 8 := EBPF_CLS_ALU64 ||| EBPF_SRC_REG ||| 0xb0
def EBPF_OP_ARSH64_IMM : BitVec 8 := EBPF_CLS_ALU64 ||| EBPF_SRC_IMM ||| 0xc0
def EBPF_OP_ARSH64_REG : BitVec 8 := EBPF_CLS_ALU64 ||| EBPF_SRC_REG ||| 0xc0

def EBPF_OP_LDXW : BitVec 8 := EBPF_CLS_LDX ||| EBPF_MODE_MEM ||| EBPF_SIZE_W
def EBPF_OP_LDXH : BitVec 8 := EBPF_CLS_LDX ||| EBPF_MODE_MEM ||| EBPF_SIZE_H
def EBPF_OP_LDXB : BitVec 8 := EBPF_CLS_LDX ||| EBPF_MODE_MEM ||| EBPF_SIZE_B
def EBPF_OP_LDXDW : BitVec 8 := EBPF_CLS_LDX ||| EBPF_MODE_MEM ||| EBPF_SIZE_DW
def EBPF_OP_STW : BitVec 8 := EBPF_CLS_ST ||| EBPF_MODE_MEM ||| EBPF_SIZE_W
def EBPF_OP_STH : BitVec 8 := EBPF_CLS_ST ||| EBPF_MODE_MEM ||| EBPF_SIZE_H
def EBPF_OP_STB : BitVec 8 := EBPF_CLS_ST ||| EBPF_MODE_MEM ||| EBPF_SIZE_B
def EBPF_OP_STDW : BitVec 8 := EBPF_CLS_ST ||| EBPF_MODE_MEM ||| EBPF_SIZE_DW
def EBPF_OP_STXW : BitVec 8 := EBPF_CLS_STX ||| EBPF_MODE_MEM ||| EBPF_SIZE_W
def EBPF_OP_STXH : BitVec 8 := EBPF_CLS_STX ||| EBPF_MODE_MEM ||| EBPF_SIZE_H
def EBPF_OP_STXB : BitVec 8 := EBPF_CLS_STX ||| EBPF_MODE_MEM ||| EBPF_SIZE_B
def EBPF_OP_STXDW : BitVec 8 := EBPF_CLS_STX ||| EBPF_MODE_MEM ||| EBPF_SIZE_DW
def EBPF_OP_LDDW : BitVec 8 := EBPF_CLS_LD ||| EBPF_MODE_IMM ||| EBPF_SIZE_DW

def EBPF_MODE_JA : BitVec 8 := 0x00
def EBPF_MODE_JEQ : BitVec 8 := 0x10
def EBPF_MODE_JGT : BitVec 8 := 0x20
def EBPF_MODE_JGE : BitVec 8 := 0x30
def EBPF_MODE_JSET : BitVec 8 := 0x40
def EBPF_MODE_JNE : BitVec 8 := 0x50
def EBPF_MODE_JSGT : BitVec 8 := 0x60
def EBPF_MODE_JSGE : BitVec 8 := 0x70
def EBPF_MODE_CALL : BitVec 8 := 0x80
def EBPF_MODE_EXIT : BitVec 8 := 0x90
def EBPF_MODE_JLT : BitVec 8 := 0xa0
def EBPF_MODE_JLE : BitVec 8 := 0xb0
def EBPF_MODE_JSLT : BitVec 8 := 0xc0
def EBPF_MODE_JSLE : BitVec 8 := 0xd0

def EBPF_OP_JA : BitVec 8 := EBPF_CLS_JMP ||| EBPF_MODE_JA
def EBPF_OP_JEQ_IMM : BitVec 8 := EBPF_CLS_JMP ||| EBPF_SRC_IMM ||| EBPF_MODE_JEQ
def EBPF_OP_JEQ_REG : BitVec 8 := EBPF_CLS_JMP ||| EBPF_SRC_REG ||| EBPF_MODE_JEQ
def EBPF_OP_JGT_IMM : BitVec 8 := EBPF_CLS_JMP ||| EBPF_SRC_IMM ||| EBPF_MODE_JGT
def EBPF_OP_JGT_REG : BitVec 8 := EBPF_CLS_JMP ||| EBPF_SRC_REG ||| EBPF_MODE_JGT
def EBPF_OP_JGE_IMM : BitVec 8 := EBPF_CLS_JMP ||| EBPF_SRC_IMM ||| EBPF_MODE_JGE
def EBPF_OP_JGE_REG : BitVec 8 := EBPF_CLS_JMP ||| EBPF_SRC_REG ||| EBPF_MODE_JGE
def EBPF_OP_JSET_REG : BitVec 8 := EBPF_CLS_JMP ||| EBPF_SRC_REG ||| EBPF_MODE_JSET
def EBPF_OP_JSET_IMM : BitVec 8 := EBPF_CLS_JMP ||| EBPF_SRC_IMM ||| EBPF_MODE_JSET
def EBPF_OP_JNE_IMM : BitVec 8 := EBPF_CLS_JMP ||| EBPF_SRC_IMM ||| EBPF_MODE_JNE
def EBPF_OP_JNE_REG : BitVec 8 := EBPF_CLS_JMP ||| EBPF_SRC_REG ||| EBPF_MODE_JNE
def EBPF_OP_JSGT_IMM : BitVec 8 := EBPF_CLS_JMP ||| EBPF_SRC_IMM ||| EBPF_MODE_JSGT
def EBPF_OP_JSGT_REG : BitVec 8 := EBPF_CLS_JMP ||| EBPF_SRC_REG ||| EBPF_MODE_JSGT
def EBPF_OP_JSGE_IMM : BitVec 8 := EBPF_CLS_JMP ||| EBPF_SRC_IMM ||| EBPF_MODE_JSGE
def EBPF_OP_JSGE_REG : BitVec 8 := EBPF_CLS_JMP ||| EBPF_SRC_REG ||| EBPF_MODE_JSGE
def EBPF_OP_CALL : BitVec 8 := EBPF_CLS_JMP ||| EBPF_MODE_CALL
def EBPF_OP_EXIT : BitVec 8 := EBPF_CLS_JMP ||| EBPF_MODE_EXIT
def EBPF_OP_JLT_IMM : BitVec 8 := EBPF_CLS_JMP ||| EBPF_SRC_IMM ||| EBPF_MODE_JLT
def EBPF_OP_JLT_REG : BitVec 8 := EBPF_CLS_JMP ||| EBPF_SRC_REG ||| EBPF_MODE_JLT
def EBPF_OP_JLE_IMM : BitVec 8 := EBPF_CLS_JMP ||| EBPF_SRC_IMM ||| EBPF_MODE_JLE
def EBPF_OP_JLE_REG : BitVec 8 := EBPF_CLS_JMP ||| EBPF_SRC_REG ||| EBPF_MODE_JLE
def EBPF_OP_JSLT_IMM : BitVec 8 := EBPF_CLS_JMP ||| EBPF_SRC_IMM ||| EBPF_MODE_JSLT
def EBPF_OP_JSLT_REG : BitVec 8 := EBPF_CLS_JMP ||| EBPF_SRC_REG ||| EBPF_MODE_JSLT
def EBPF_OP_JSLE_IMM : BitVec 8 := EBPF_CLS_JMP ||| EBPF_SRC_IMM ||| EBPF_MODE_JSLE
def EBPF_OP_JSLE_REG : BitVec 8 := EBPF_CLS_JMP ||| EBPF_SRC_REG ||| EBPF_MODE_JSLE

def EBPF_OP_JEQ32_IMM : BitVec 8 := EBPF_CLS_JMP32 ||| EBPF_SRC_IMM ||| EBPF_MODE_JEQ
def EBPF_OP_JEQ32_REG : BitVec 8 := EBPF_CLS_JMP32 ||| EBPF_SRC_REG ||| EBPF_MODE_JEQ
def EBPF_OP_JGT32_IMM : BitVec 8 := EBPF_CLS_JMP32 ||| EBPF_SRC_IMM ||| EBPF_MODE_JGT
def EBPF_OP_JGT32_REG : BitVec 8 := EBPF_CLS_JMP32 ||| EBPF_SRC_REG ||| EBPF_MODE_JGT
def EBPF_OP_JGE32_IMM : BitVec 8 := EBPF_CLS_JMP32 ||| EBPF_SRC_IMM ||| EBPF_MODE_JGE
def EBPF_OP_JGE32_REG : BitVec 8 := EBPF_CLS_JMP32 ||| EBPF_SRC_REG ||| EBPF_MODE_JGE
def EBPF_OP_JSET32_REG : BitVec 8 := EBPF_CLS_JMP32 ||| EBPF_SRC_REG ||| EBPF_MODE_JSET
def EBPF_OP_JSET32_IMM : BitVec 8 := EBPF_CLS_JMP32 ||| EBPF_SRC_IMM ||| EBPF_MODE_JSET
def EBPF_OP_JNE32_IMM : BitVec 8 := EBPF_CLS_JMP32 ||| EBPF_SRC_IMM ||| EBPF_MODE_JNE
def EBPF_OP_JNE32_REG : BitVec 8 := EBPF_CLS_JMP32 ||| EBPF_SRC_REG ||| EBPF_MODE_JNE
def EBPF_OP_JSGT32_IMM : BitVec 8 := EBPF_CLS_JMP32 ||| EBPF_SRC_IMM ||| EBPF_MODE_JSGT
def EBPF_OP_JSGT32_REG : BitVec 8 := EBPF_CLS_JMP32 ||| EBPF_SRC_REG ||| EBPF_MODE_JSGT
def EBPF_OP_JSGE32_IMM : BitVec 8 := EBPF_CLS_JMP32 ||| EBPF_SRC_IMM ||| EBPF_MODE_JSGE
def EBPF_OP_JSGE32_REG : BitVec 8 := EBPF_CLS_JMP32 ||| EBPF_SRC_REG ||| EBPF_MODE_JSGE
def EBPF_OP_JLT32_IMM : BitVec 8 := EBPF_CLS_JMP32 ||| EBPF_SRC_IMM ||| EBPF_MODE_JLT
def EBPF_OP_JLT32_REG : BitVec 8 := EBPF_CLS_JMP32 ||| EBPF_SRC_REG ||| EBPF_MODE_JLT
def EBPF_OP_JLE32_IMM : BitVec 8 := EBPF_CLS_JMP32 ||| EBPF_SRC_IMM ||| EBPF_MODE_JLE
def EBPF_OP_JLE32_REG : BitVec 8 := EBPF_CLS_JMP32 ||| EBPF_SRC_REG ||| EBPF_MODE_JLE
def EBPF_OP_JSLT32_IMM : BitVec 8 := EBPF_CLS_JMP32 ||| EBPF_SRC_IMM ||| EBPF_MODE_JSLT
def EBPF_OP_JSLT32_REG : BitVec 8 := EBPF_CLS_JMP32 ||| EBPF_SRC_REG ||| EBPF_MODE_JSLT
def EBPF_OP_JSLE32_IMM : BitVec 8 := EBPF_CLS_JMP32 ||| EBPF_SRC_IMM ||| EBPF_MODE_JSLE
def EBPF_OP_JSLE32_REG : BitVec 8 := EBPF_CLS_JMP32 ||| EBPF_SRC_REG ||| EBPF_MODE_JSLE

def EBPF_ATOMIC : BitVec 8 := 0xc0
def EBPF_FETCH : BitVec 32 := 0x01
def EBPF_XCHG : BitVec 32 := 0xe0 ||| EBPF_FETCH
def EBPF_CMPXCHG : BitVec 32 := 0xf0 ||| EBPF_FETCH
def EBPF_STX : BitVec 8 := 0x03
def EBPF_ATOMIC_ADD : BitVec 32 := 0x00
def EBPF_ATOMIC_OR : BitVec 32 := 0x40
def EBPF_ATOMIC_AND : BitVec 32 := 0x50
def EBPF_ATOMIC_XOR : BitVec 32 := 0xa0
def EBPF_ATOMIC_OPCODE_32 : BitVec 8 := EBPF_ATOMIC ||| EBPF_SIZE_W ||| EBPF_STX
def EBPF_ATOMIC_OPCODE_64 : BitVec 8 := EBPF_ATOMIC ||| EBPF_SIZE_DW ||| EBPF_STX

/-! ## Classes -/

/-- The instruction is in one of the two jump classes. -/
def isJmp (insn : EbpfInst) : Bool :=
  insn.code &&& 0x07 == EBPF_CLS_JMP || insn.code &&& 0x07 == EBPF_CLS_JMP32

/-- The instruction is in the 64-bit ALU class. -/
def isAlu64 (insn : EbpfInst) : Bool := insn.code &&& 0x07 == EBPF_CLS_ALU64

end EbpfJit
