import Mathlib.Logic.Function.Basic
import EbpfJit.Lib.ByteMemory
import EbpfJit.Lib.Transition

/-!
# A fragment of LLVM IR

The syntax and the meaning of the part of LLVM IR a simple compiler emits: typed
SSA values, straight-line instructions, the terminators of basic blocks, and
functions as control-flow graphs. The labels `ι` of the blocks and the names `σ`
of the stack slots are parameters.

There are two kinds of memory. A *stack slot* is an `alloca` whose address never
leaves the function: it is only reachable by its name, as an array of 64-bit
cells. Everything else, including an `alloca` whose address does leave the
function (`Instr.allocaMem`), is in one flat byte memory. The contents of a new
slot are whatever was there before.

Undefined behaviour ends a run (`Halt.ub`): a division by zero, a shift by the
width or more, an access outside of a slot, an atomic operation on an address
less aligned than it promises, an indirect branch to a block it does not list.
How plain loads and stores are aligned, and a `cmpxchg`, which promises no more
than they do, is left to the target, and not modelled.
-/

namespace Ir

open ByteMemory

/-- First-class types: the integers of `w` bits, and the pointers. -/
inductive Ty
  | int (w : ℕ)
  | ptr
  deriving DecidableEq

/-- Pointers: to a cell of a stack slot, or an address of the flat memory. -/
inductive Ptr (σ : Type)
  | slot (s : σ) (i : ℕ)
  | flat (a : BitVec 64)

/-- The values of a type. -/
abbrev Val (σ : Type) : Ty → Type
  | .int w => BitVec w
  | .ptr => Ptr σ

/-- Operands: constants, the results of earlier instructions, the arguments of
    the function, and the addresses of slots and blocks. -/
inductive Operand (ι σ : Type) : Ty → Type
  | const {w : ℕ} (v : BitVec w) : Operand ι σ (.int w)
  | tmp {t : Ty} (id : ℕ) : Operand ι σ t
  | argInt (n : ℕ) : Operand ι σ (.int 64)
  | argPtr (n : ℕ) : Operand ι σ .ptr
  | slot (s : σ) : Operand ι σ .ptr
  | blockAddress (l : ι) : Operand ι σ .ptr

inductive BinOp
  | add | sub | mul | udiv | urem | and | or | xor | shl | lshr | ashr
  deriving DecidableEq

inductive Pred
  | eq | ne | ugt | uge | ult | ule | sgt | sge | slt | sle
  deriving DecidableEq

inductive RmwOp
  | add | and | or | xor | xchg
  deriving DecidableEq

/-- Instructions, terminators included; `id` names the result. The index of a
    `gep` counts elements of `size` bytes, the length of an `alloca` cells. -/
inductive Instr (ι σ : Type)
  | alloca (s : σ) (n : ℕ)
  | allocaMem (id n : ℕ)
  | binop (id : ℕ) {w : ℕ} (op : BinOp) (a b : Operand ι σ (.int w))
  | icmp (id : ℕ) {w : ℕ} (p : Pred) (a b : Operand ι σ (.int w))
  | select (id : ℕ) {w : ℕ} (c : Operand ι σ (.int 1)) (a b : Operand ι σ (.int w))
  | zext (id : ℕ) {w : ℕ} (w' : ℕ) (a : Operand ι σ (.int w))
  | trunc (id : ℕ) {w : ℕ} (w' : ℕ) (a : Operand ι σ (.int w))
  | gep (id size : ℕ) {w : ℕ} (p : Operand ι σ .ptr) (i : Operand ι σ (.int w))
  | load (id : ℕ) (t : Ty) (p : Operand ι σ .ptr)
  | store {t : Ty} (v : Operand ι σ t) (p : Operand ι σ .ptr)
  | call (id : ℕ) (f : String) (args : List (Operand ι σ (.int 64)))
  | atomicrmw (id : ℕ) {w : ℕ} (op : RmwOp) (p : Operand ι σ .ptr) (v : Operand ι σ (.int w))
      (align : ℕ)
  | cmpxchg {w : ℕ} (p : Operand ι σ .ptr) (cmp new : Operand ι σ (.int w))
  | ret (v : Operand ι σ (.int 64))
  | br (l : ι)
  | condbr (c : Operand ι σ (.int 1)) (t f : ι)
  | indirectbr (a : Operand ι σ .ptr) (dests : List ι)

variable {ι σ : Type}

/-- The instructions that end a basic block. -/
def Instr.isTerminator : Instr ι σ → Bool
  | .ret _ | .br _ | .condbr .. | .indirectbr .. => true
  | _ => false

/-- The blocks an instruction may branch to. -/
def Instr.successors : Instr ι σ → List ι
  | .br l => [l]
  | .condbr _ t f => [t, f]
  | .indirectbr _ dests => dests
  | _ => []

/-- The terminator of a block: its last instruction, if it is one. -/
def terminator (code : List (Instr ι σ)) : Option (Instr ι σ) :=
  code.getLast?.filter Instr.isTerminator

/-- A function: its blocks, in order, and their contents. -/
structure Fn (ι σ : Type) where
  blocks : List ι
  code : ι → List (Instr ι σ)

/-- Every block has exactly one terminator, which is its last instruction. -/
def Fn.WellTerminated (F : Fn ι σ) : Prop :=
  ∀ l ∈ F.blocks, ∃ body t, F.code l = body ++ [t] ∧ t.isTerminator = true ∧
    ∀ i ∈ body, i.isTerminator = false

/-- Every block only branches to blocks of the function. -/
def Fn.Closed (F : Fn ι σ) : Prop :=
  ∀ l ∈ F.blocks, ∀ i ∈ F.code l, ∀ l' ∈ i.successors, l' ∈ F.blocks

/-! ## Meaning -/

/-- What a run of a function is given: its arguments, the addresses of its blocks
    and of the allocas whose address leaves it, and the functions it may call. -/
structure World (ι : Type) where
  args : ℕ → BitVec 64
  place : ℕ → BitVec 64
  blockAddr : ι → BitVec 64
  func : String → List (BitVec 64) → Mem 64 → BitVec 64 × Mem 64

/-- The blocks have different addresses. -/
def World.Separates {ι : Type} (W : World ι) (blocks : List ι) : Prop :=
  ∀ l ∈ blocks, ∀ l' ∈ blocks, W.blockAddr l = W.blockAddr l' → l = l'

theorem World.Separates.mono {ι : Type} {W : World ι} {blocks blocks' : List ι}
    (h : W.Separates blocks) (hsub : blocks' ⊆ blocks) : W.Separates blocks' :=
  fun l hl l' hl' => h l (hsub hl) l' (hsub hl')

instance {ι : Type} [DecidableEq ι] (W : World ι) (blocks : List ι) :
    Decidable (W.Separates blocks) :=
  inferInstanceAs (Decidable (∀ l ∈ blocks, ∀ l' ∈ blocks, W.blockAddr l = W.blockAddr l' → l = l'))

/-- The results of the instructions so far, by type and name. -/
def Env (σ : Type) := (t : Ty) → ℕ → Val σ t

/-- The environment `e` with the result `v` named `id`. -/
def Env.set (e : Env σ) {t : Ty} (id : ℕ) (v : Val σ t) : Env σ := fun t' id' =>
  if h : id' = id ∧ t = t' then h.2 ▸ v else e t' id'

@[simp] theorem Env.set_self (e : Env σ) {t : Ty} (id : ℕ) (v : Val σ t) :
    e.set id v t id = v := by
  simp [Env.set]

@[simp] theorem Env.set_of_ne (e : Env σ) {t t' : Ty} {id id' : ℕ} (v : Val σ t)
    (h : id' ≠ id) : e.set id v t' id' = e t' id' := by
  simp [Env.set, h]

/-- The value of an operand. -/
def Operand.eval (W : World ι) (e : Env σ) : {t : Ty} → Operand ι σ t → Val σ t
  | _, .const v => v
  | t, .tmp id => e t id
  | _, .argInt n => W.args n
  | _, .argPtr n => Ptr.flat (W.args n)
  | _, .slot s => Ptr.slot s 0
  | _, .blockAddress l => Ptr.flat (W.blockAddr l)

/-- The result of a binary operation, if it is defined. -/
def BinOp.eval {w : ℕ} (a b : BitVec w) : BinOp → Option (BitVec w)
  | .add => some (a + b)
  | .sub => some (a - b)
  | .mul => some (a * b)
  | .udiv => if b = 0 then none else some (a / b)
  | .urem => if b = 0 then none else some (a % b)
  | .and => some (a &&& b)
  | .or => some (a ||| b)
  | .xor => some (a ^^^ b)
  | .shl => if b.toNat < w then some (a <<< b) else none
  | .lshr => if b.toNat < w then some (a >>> b) else none
  | .ashr => if b.toNat < w then some (a.sshiftRight' b) else none

/-- The result of a comparison. -/
def Pred.eval {w : ℕ} (a b : BitVec w) : Pred → Bool
  | .eq => a == b
  | .ne => a != b
  | .ugt => b.ult a
  | .uge => b.ule a
  | .ult => a.ult b
  | .ule => a.ule b
  | .sgt => b.slt a
  | .sge => b.sle a
  | .slt => a.slt b
  | .sle => a.sle b

/-- What an atomic operation leaves in the cell. -/
def RmwOp.eval {w : ℕ} (old v : BitVec w) : RmwOp → BitVec w
  | .add => old + v
  | .and => old &&& v
  | .or => old ||| v
  | .xor => old ^^^ v
  | .xchg => v

/-- The 64-bit cell `c` with its low `w` bits replaced by `v`. -/
def setLow {w : ℕ} (c : BitVec 64) (v : BitVec w) : BitVec 64 :=
  ((c >>> w) <<< w) ||| v.setWidth 64

@[simp] theorem setLow_64 (c v : BitVec 64) : setLow c v = v := by
  simp [setLow]

/-- The memory a function runs on: its stack slots, and the flat memory. -/
structure Machine (σ : Type) where
  slot : σ → ℕ → BitVec 64
  size : σ → ℕ
  mem : Mem 64

/-- The address `i` elements of `size` bytes after `p`. -/
def Ptr.gep (p : Ptr σ) (size : ℕ) (i : BitVec 64) : Option (Ptr σ) :=
  match p with
  | .flat a => some (.flat (a + BitVec.ofNat 64 size * i))
  | .slot s j => if size = 8 then some (.slot s (BitVec.ofNat 64 j + i).toNat) else none

/-- The value of type `t` at `p`; narrow integers are the low part of a cell. -/
def Machine.load (m : Machine σ) (p : Ptr σ) : (t : Ty) → Option (Val σ t)
  | .int w =>
    match p with
    | .flat a => some (ByteMemory.load m.mem a w)
    | .slot s i => if i < m.size s then some ((m.slot s i).setWidth w) else none
  | .ptr =>
    match p with
    | .flat a => some (Ptr.flat (ByteMemory.load m.mem a 64))
    | .slot s i => if i < m.size s then some (Ptr.flat (m.slot s i)) else none

variable [DecidableEq σ]

/-- The machine with the cell `i` of the slot `s` holding `v`. -/
def Machine.set (m : Machine σ) (s : σ) (i : ℕ) (v : BitVec 64) : Machine σ :=
  { m with slot := Function.update m.slot s (Function.update (m.slot s) i v) }

/-- The machine after storing `v` at `p`. The address of a slot is never stored. -/
def Machine.store (m : Machine σ) (p : Ptr σ) : {t : Ty} → Val σ t → Option (Machine σ)
  | .int _, v =>
    match p with
    | .flat a => some { m with mem := ByteMemory.store m.mem a v }
    | .slot s i => if i < m.size s then some (m.set s i (setLow (m.slot s i) v)) else none
  | .ptr, .flat b =>
    match p with
    | .flat a => some { m with mem := ByteMemory.store m.mem a b }
    | .slot s i => if i < m.size s then some (m.set s i b) else none
  | .ptr, .slot _ _ => none

/-- Where control goes after an instruction. -/
inductive Exit (ι : Type)
  | fall
  | goto (l : ι)
  | ret (v : BitVec 64)

/-- The effect of an instruction, if it is defined. -/
def Instr.exec (W : World ι) (e : Env σ) (m : Machine σ) :
    Instr ι σ → Option (Exit ι × Env σ × Machine σ)
  | .alloca s n => some (.fall, e, { m with size := Function.update m.size s n })
  | .allocaMem id _ => some (.fall, e.set (t := .ptr) id (.flat (W.place id)), m)
  | .binop id (w := w) op a b =>
    (op.eval (a.eval W e) (b.eval W e)).map fun v => (.fall, e.set (t := .int w) id v, m)
  | .icmp id p a b =>
    some (.fall, e.set (t := .int 1) id (BitVec.ofBool (p.eval (a.eval W e) (b.eval W e))), m)
  | .select id (w := w) c a b =>
    some (.fall, e.set (t := .int w) id (if c.eval W e = 1#1 then a.eval W e else b.eval W e), m)
  | .zext id w' a => some (.fall, e.set (t := .int w') id ((a.eval W e).setWidth w'), m)
  | .trunc id w' a => some (.fall, e.set (t := .int w') id ((a.eval W e).setWidth w'), m)
  | .gep id size p i =>
    ((p.eval W e).gep size ((i.eval W e).signExtend 64)).map fun q =>
      (.fall, e.set (t := .ptr) id q, m)
  | .load id t p => (m.load (p.eval W e) t).map fun v => (.fall, e.set (t := t) id v, m)
  | .store (t := t) v p => (m.store (p.eval W e) (t := t) (v.eval W e)).map fun m' => (.fall, e, m')
  | .call id f args =>
    let r := W.func f (args.map fun a => a.eval W e) m.mem
    some (.fall, e.set (t := .int 64) id r.1, { m with mem := r.2 })
  | .atomicrmw id (w := w) op p v align =>
    match p.eval W e with
    | .flat a =>
      if a.toNat % align = 0 then
        let old := ByteMemory.load m.mem a w
        some (.fall, e.set (t := .int w) id old,
          { m with mem := ByteMemory.store m.mem a (op.eval old (v.eval W e)) })
      else none
    | .slot _ _ => none
  | .cmpxchg (w := w) p cmp new =>
    match p.eval W e with
    | .flat a =>
      if ByteMemory.load m.mem a w = cmp.eval W e then
        some (.fall, e, { m with mem := ByteMemory.store m.mem a (w := w) (new.eval W e) })
      else some (.fall, e, m)
    | .slot _ _ => none
  | .ret v => some (.ret (v.eval W e), e, m)
  | .br l => some (.goto l, e, m)
  | .condbr c t f => some (.goto (if c.eval W e = 1#1 then t else f), e, m)
  | .indirectbr a dests =>
    match a.eval W e with
    | .flat v => (dests.find? fun l => W.blockAddr l == v).map fun l => (.goto l, e, m)
    | .slot _ _ => none

/-- A point of a run: before the instruction `ip` of a block. -/
structure Config (ι σ : Type) where
  block : ι
  ip : ℕ
  env : Env σ
  m : Machine σ

/-- How a run ends: it returns, or has undefined behaviour. -/
inductive Halt (σ : Type)
  | ret (v : BitVec 64) (m : Machine σ)
  | ub

/-- One instruction of a run of `F`. Running off a block is undefined. -/
def step (F : Fn ι σ) (W : World ι) (c : Config ι σ) : Transition.Res (Config ι σ) (Halt σ) :=
  match (F.code c.block)[c.ip]? with
  | none => .done .ub
  | some i =>
    match i.exec W c.env c.m with
    | none => .done .ub
    | some (.fall, e, m) => .cont ⟨c.block, c.ip + 1, e, m⟩
    | some (.goto l, e, m) => .cont ⟨l, 0, e, m⟩
    | some (.ret v, _, m) => .done (.ret v m)

end Ir
