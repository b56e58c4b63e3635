import EbpfJit.Core
import EbpfJit.Shape
import EbpfJit.Lib.IrSpec

/-!
# What the code of an instruction does

The effect on the core of the instructions whose code falls through (`effect`), as
the emitters define it: in 32-bit operations only the low halves are used, and the
result clears the high half; a shift count is reduced; a division by zero is
undefined, and so is an atomic operation on an address that is not aligned to the
32 bytes it promises.

* `acts_emitCase`: the code of such an instruction does this, and nothing else.
-/

namespace EbpfJit

open Ir Ir.Builder

/-- The external functions, by name: what they return, and make of the memory. -/
abbrev Funcs := String → List (BitVec 64) → ByteMemory.Mem 64 → BitVec 64 × ByteMemory.Mem 64

namespace Core

variable (inst : EbpfInst) (c : Core)

/-! ## Effects -/

/-- The source operand of an ALU operation. -/
def aluSrc (w : ℕ) : BitVec w :=
  if inst.code &&& 0x08 = EBPF_SRC_IMM then inst.imm.signExtend w
  else (c.reg inst.src_reg).setWidth w

/-- The ALU operation `f`. -/
def alu (f : {w : ℕ} → BitVec w → BitVec w → Option (BitVec w)) : Option Core :=
  (f ((c.reg inst.dst_reg).setWidth (aluWidth (isAlu64 inst)))
    (c.aluSrc inst (aluWidth (isAlu64 inst)))).map fun v => c.setReg inst.dst_reg (v.setWidth 64)

/-- The bytes of `v`, the least significant one first. -/
def bytes (v : BitVec 64) (n : ℕ) : List (BitVec 64) :=
  (List.range n).map fun i => v >>> (8 * i) &&& 0xff

/-- The value `v` after a byte-order conversion. -/
def endian (v : BitVec 64) : BitVec 64 :=
  if inst.code &&& 0x08 = 0x08 then
    match bytes v (inst.imm.toNat / 8) with
    | [] => 0
    | b :: bs => bs.foldl (fun last b => last <<< 8 ||| b) b
  else v

/-- The address an instruction accesses, relative to the register `r`. -/
def addr (r : BitVec 4) : BitVec 64 := c.reg r + inst.off.signExtend 64

/-- A store of `w` bits. -/
def store (w : ℕ) : Core :=
  c.setMem (ByteMemory.store c.mem (c.addr inst inst.dst_reg)
    ((if inst.code &&& 0x07 = EBPF_CLS_STX then c.reg inst.src_reg
      else inst.imm.signExtend 64).setWidth w))

/-- A load of `w` bits. -/
def loadX (w : ℕ) : Core :=
  c.setReg inst.dst_reg
    ((ByteMemory.load c.mem (c.addr inst inst.src_reg) w).setWidth 64)

/-- The `lddw` of the value of a map. -/
def lddwMapVal (F : Funcs) (x : CompilerXDP) (patch : Bool) (nextInst : EbpfInst)
    (mapPtr : BitVec 64) : Core :=
  if patch then
    match x.map_val with
    | some map_val => c.setReg inst.dst_reg (map_val mapPtr + nextInst.imm.signExtend 64)
    | none => c
  else
    (c.setMem (F LDDW_HELPER_MAP_VAL [mapPtr] c.mem).2).setReg inst.dst_reg
      ((F LDDW_HELPER_MAP_VAL [mapPtr] c.mem).1 + nextInst.imm.signExtend 64)

/-- An `lddw`. -/
def lddw (F : Funcs) (x : CompilerXDP) (patch : Bool) (nextInst : EbpfInst) : Core :=
  let mapByFd := match x.map_by_fd with
    | some map_by_fd => map_by_fd inst.imm
    | none => inst.imm.signExtend 64
  let mapByIdx := match x.map_by_idx with
    | some map_by_idx => map_by_idx inst.imm
    | none => inst.imm.signExtend 64
  if inst.src_reg = 0 then
    c.setReg inst.dst_reg (inst.imm.setWidth 64 ||| nextInst.imm.setWidth 64 <<< 32)
  else if inst.src_reg = 1 then c.setReg inst.dst_reg mapByFd
  else if inst.src_reg = 2 then c.lddwMapVal inst F x patch nextInst mapByFd
  else if inst.src_reg = 3 then
    match x.var_addr with
    | some var_addr => c.setReg inst.dst_reg (var_addr inst.imm)
    | none => c
  else if inst.src_reg = 4 then
    match x.code_addr with
    | some code_addr => c.setReg inst.dst_reg (code_addr inst.imm)
    | none => c
  else if inst.src_reg = 5 then c.setReg inst.dst_reg mapByIdx
  else if inst.src_reg = 6 then c.lddwMapVal inst F x patch nextInst mapByIdx
  else c

/-- An `lddw` that no helper is defined for does nothing. -/
theorem lddw_of_lt {inst : EbpfInst} {c : Core} {F : Funcs} {x : CompilerXDP} {patch : Bool}
    {nextInst : EbpfInst} (h : 6 < inst.src_reg) : c.lddw inst F x patch nextInst = c := by
  have hne (n : BitVec 4) (hn : n ≤ 6) : inst.src_reg ≠ n := by
    intro heq
    have hlt : 6 < inst.src_reg.toNat := h
    have hle : n.toNat ≤ 6 := hn
    rw [heq] at hlt
    omega
  rw [lddw, if_neg (hne 0 (by decide)), if_neg (hne 1 (by decide)), if_neg (hne 2 (by decide)),
    if_neg (hne 3 (by decide)), if_neg (hne 4 (by decide)), if_neg (hne 5 (by decide)),
    if_neg (hne 6 (by decide))]

/-- The call of an external function. -/
def extCall (F : Funcs) : Core :=
  let r := F (extFuncSym inst.imm) [c.reg 1, c.reg 2, c.reg 3, c.reg 4, c.reg 5] c.mem
  (c.setMem r.2).setReg 0 r.1

/-- An atomic read-modify-write of `w` bits. A fetch replaces the low part of the
    source register. -/
def atomicRmw (op : RmwOp) (w : ℕ) (is_fetch : Bool) : Option Core :=
  let a := c.addr inst inst.dst_reg
  let old := ByteMemory.load c.mem a w
  let c' := c.setMem (ByteMemory.store c.mem a (op.eval old ((c.reg inst.src_reg).setWidth w)))
  if a.toNat % 32 = 0 then
    some (if is_fetch then c'.setReg inst.src_reg (setLow (c.reg inst.src_reg) old) else c')
  else none

/-- An atomic read-modify-write. -/
def atomicBinOp (op : RmwOp) (is64 is_fetch : Bool) : Option Core :=
  c.atomicRmw inst op (if is64 then 64 else 32) is_fetch

/-- A compare-and-exchange. -/
def cmpXchg : Core :=
  let w := if inst.code = EBPF_ATOMIC_OPCODE_64 then 64 else 32
  let a := c.addr inst inst.dst_reg
  let old := ByteMemory.load c.mem a w
  let c' := if old = (c.reg 0).setWidth w then
    c.setMem (ByteMemory.store c.mem a ((c.reg inst.src_reg).setWidth w)) else c
  c'.setReg 0 (old.setWidth 64)

/-- An atomic operation. -/
def atomic : Option Core :=
  let is64 := inst.code == EBPF_ATOMIC_OPCODE_64
  let is_fetch := inst.imm &&& EBPF_FETCH == EBPF_FETCH
  if inst.imm = EBPF_ATOMIC_ADD ∨ inst.imm = EBPF_ATOMIC_ADD ||| EBPF_FETCH then
    c.atomicBinOp inst .add is64 is_fetch
  else if inst.imm = EBPF_ATOMIC_AND ∨ inst.imm = EBPF_ATOMIC_AND ||| EBPF_FETCH then
    c.atomicBinOp inst .and is64 is_fetch
  else if inst.imm = EBPF_ATOMIC_OR ∨ inst.imm = EBPF_ATOMIC_OR ||| EBPF_FETCH then
    c.atomicBinOp inst .or is64 is_fetch
  else if inst.imm = EBPF_ATOMIC_XOR ∨ inst.imm = EBPF_ATOMIC_XOR ||| EBPF_FETCH then
    c.atomicBinOp inst .xor is64 is_fetch
  else if inst.imm = EBPF_XCHG then c.atomicBinOp inst .xchg is64 false
  else some (c.cmpXchg inst)

/-- The effect of an instruction whose code falls through, if it is defined. -/
def effect (F : Funcs) (x : CompilerXDP) (patch : Bool) (nextInst : EbpfInst) :
    SwitchCase → Option Core
  | .add => c.alu inst fun a b => some (a + b)
  | .sub => c.alu inst fun a b => some (a - b)
  | .mul => c.alu inst fun a b => some (a * b)
  | .div => c.alu inst fun a b => if b = 0 then none else some (a / b)
  | .or => c.alu inst fun a b => some (a ||| b)
  | .and => c.alu inst fun a b => some (a &&& b)
  | .lsh => c.alu inst fun {w} a b => some (a <<< (b.toNat % w))
  | .rsh => c.alu inst fun {w} a b => some (a >>> (b.toNat % w))
  | .neg => c.alu inst fun a _ => some (-a)
  | .mod => c.alu inst fun a b => if b = 0 then none else some (a % b)
  | .xor => c.alu inst fun a b => some (a ^^^ b)
  | .mov => c.alu inst fun _ b => some b
  | .arsh => c.alu inst fun {w} a b => some (a.sshiftRight (b.toNat % w))
  | .endian => some (c.setReg inst.dst_reg (endian inst (c.reg inst.dst_reg)))
  | .store w => some (c.store inst w)
  | .loadX w => some (c.loadX inst w)
  | .lddw => some (c.lddw inst F x patch nextInst)
  | .call => some (c.extCall inst F)
  | .atomic => c.atomic inst
  | .ja | .exit | .jcond _ | .jset => some c

/-- The source operand of a conditional jump. -/
def jmpSrc (w : ℕ) : BitVec w :=
  if inst.code &&& 0x8 = 0x8 then (c.reg inst.src_reg).setWidth w else inst.imm.signExtend w

/-- The condition of a jump. -/
def taken : SwitchCase → Bool
  | .jcond p =>
    p.eval ((c.reg inst.dst_reg).setWidth (jmpWidth inst)) (c.jmpSrc inst (jmpWidth inst))
  | .jset => (c.reg inst.dst_reg).setWidth (jmpWidth inst) &&& c.jmpSrc inst (jmpWidth inst) != 0
  | _ => true

end Core

/-! ## The emitters -/

section

variable {W : World Lbl} {s : Scope Slot} {m : Machine Slot} {c : Core} {inst : EbpfInst}
  {r : BitVec 4} {w : ℕ}

theorem yields_load_reg (hm : Allocated m) (hr : r ≤ 10) (w : ℕ) :
    Yields W s (withCore m c) (createLoad (.int w) (regs r) : Emit _) ((c.reg r).setWidth w) :=
  yields_createLoad (is_slot _) (load_reg hm hr w)

theorem yields_load_reg64 (hm : Allocated m) (hr : r ≤ 10) :
    Yields W s (withCore m c) (createLoad (.int 64) (regs r) : Emit _) (c.reg r) := by
  have h := yields_load_reg (W := W) (s := s) (c := c) hm hr 64
  rwa [BitVec.setWidth_eq] at h

theorem does_store_reg (hm : Allocated m) (hr : r ≤ 10) {a : Value (.int w)} {v : BitVec w}
    (ha : a.Is W s v) :
    Does W s (withCore m c) (createStore a (regs r) : Emit Unit)
      (withCore m (c.setReg r (setLow (c.reg r) v))) fun _ _ => True :=
  does_createStore ha (is_slot _) (store_reg hm hr v)

theorem does_store_reg64 (hm : Allocated m) (hr : r ≤ 10) {a : Value (.int 64)} {v : BitVec 64}
    (ha : a.Is W s v) :
    Does W s (withCore m c) (createStore a (regs r) : Emit Unit) (withCore m (c.setReg r v))
      fun _ _ => True := by
  have h := does_store_reg (c := c) hm hr ha
  rwa [setLow_64] at h

/-- The base of the address of an access. -/
theorem yields_base (hm : Allocated m) (hr : r ≤ 10) :
    Yields W s (withCore m c) (createLoad .ptr (regs r) : Emit _) (.flat (c.reg r)) :=
  yields_createLoad (is_slot _) (load_reg_ptr hm hr)

/-- The address of an access. -/
theorem yields_addr {base : Value .ptr} (hbase : base.Is W s (.flat (c.reg r))) :
    Yields W s m (createGEP 1 base (getInt64 (inst.off.signExtend 64)) : Emit _)
      (.flat (c.addr inst r)) :=
  yields_createGEP hbase (is_const _) (by simp [Ptr.gep, Core.addr])

/-! ### ALU -/

theorem yields_emitLoadALUSource (hm : Allocated m) (hr : inst.src_reg ≤ 10) (is64 : Bool) :
    Yields W s (withCore m c) (emitLoadALUSource inst is64) (c.aluSrc inst (aluWidth is64)) := by
  by_cases himm : inst.code &&& 0x08 = EBPF_SRC_IMM
  · rw [Core.aluSrc, if_pos himm]
    cases is64 with
    | true => exact does_ite (fun _ => does_pure (is_const _)) fun h => absurd himm h
    | false =>
      have h : inst.imm.signExtend (aluWidth false) = inst.imm := BitVec.signExtend_eq _
      rw [h]
      exact does_ite (fun _ => does_pure (is_const _)) fun h => absurd himm h
  · rw [Core.aluSrc, if_neg himm]
    cases is64 with
    | true => exact does_ite (fun h => absurd h himm) fun _ => yields_load_reg hm hr 64
    | false =>
      exact does_ite (fun h => absurd h himm) fun _ =>
        (yields_load_reg64 hm hr).bind fun v s' _ hv => yields_createTrunc hv

theorem does_emitStoreALUResult (hm : Allocated m) (hr : inst.dst_reg ≤ 10)
    {a : Value (.int w)} {v : BitVec w} (ha : a.Is W s v) (hw : isAlu64 inst = true → w = 64) :
    Does W s (withCore m c) (emitStoreALUResult inst a)
      (withCore m (c.setReg inst.dst_reg (v.setWidth 64))) fun _ _ => True := by
  rw [emitStoreALUResult]
  split
  · next h64 =>
    obtain rfl := hw h64
    rw [BitVec.setWidth_eq]
    exact does_store_reg64 hm hr ha
  · exact (yields_createZExt ha).bind fun v s' _ hv => does_store_reg64 hm hr hv

theorem aluWidth_of_isAlu64 (h : isAlu64 inst = true) : aluWidth (isAlu64 inst) = 64 := by
  rw [h]
  rfl

/-- The code of an ALU operation does the operation that `func` computes. -/
theorem acts_emitALUWithDstAndSrc (hm : Allocated m) (hd : inst.dst_reg ≤ 10)
    (hs : inst.src_reg ≤ 10)
    {func : {w : ℕ} → Value (.int w) → Value (.int w) → Emit (Value (.int w))}
    {f : {w : ℕ} → BitVec w → BitVec w → Option (BitVec w)}
    (hf : ∀ (s : Scope Slot) {a b : Value (.int (aluWidth (isAlu64 inst)))} {va vb},
      a.Is W s va → b.Is W s vb →
        match f va vb with
        | some v => Yields W s (withCore m c) (func a b) v
        | none => Acts W s (withCore m c) (func a b) none) :
    Acts W s (withCore m c) (emitALUWithDstAndSrc inst func)
      ((c.alu inst f).map fun c' => (.fall, withCore m c')) := by
  refine (yields_load_reg hm hd _).bind_acts fun dst_val s₁ _ hdst =>
    (yields_emitLoadALUSource hm hs _).bind_acts fun src_val s₂ h₂ hsrc => ?_
  have hdst' : dst_val.Is W s₂ ((c.reg inst.dst_reg).setWidth (aluWidth (isAlu64 inst))) :=
    hdst.mono h₂
  have h := hf s₂ hdst' hsrc
  rw [Core.alu]
  cases hv : f ((c.reg inst.dst_reg).setWidth (aluWidth (isAlu64 inst)))
      (c.aluSrc inst (aluWidth (isAlu64 inst))) with
  | some v =>
    rw [hv] at h
    exact h.bind_acts fun result s₃ _ hr =>
      (does_emitStoreALUResult hm hd hr aluWidth_of_isAlu64).acts
  | none =>
    rw [hv] at h
    exact h.bind_none

/-- A binary operation that is always defined. -/
theorem acts_emitALU_binOp (hm : Allocated m) (hd : inst.dst_reg ≤ 10) (hs : inst.src_reg ≤ 10)
    (op : BinOp) {f : {w : ℕ} → BitVec w → BitVec w → BitVec w}
    (h : ∀ {w : ℕ} (a b : BitVec w), op.eval a b = some (f a b)) :
    Acts W s (withCore m c) (emitALUWithDstAndSrc inst (createBinOp op))
      ((c.alu inst fun a b => some (f a b)).map fun c' => (.fall, withCore m c')) :=
  acts_emitALUWithDstAndSrc hm hd hs fun _ _ _ _ _ ha hb => yields_createBinOp ha hb (h _ _)

/-- A shift, whose count is reduced first. -/
theorem acts_emitALU_shift (hm : Allocated m) (hd : inst.dst_reg ≤ 10) (hs : inst.src_reg ≤ 10)
    (op : BinOp) {f : {w : ℕ} → BitVec w → ℕ → BitVec w}
    (h : ∀ {w : ℕ} (a b : BitVec w), b.toNat < w → op.eval a b = some (f a b.toNat)) :
    Acts W s (withCore m c) (emitALUWithDstAndSrc inst fun dst_val src_val => do
        let count ← emitShiftCount inst src_val
        createBinOp op dst_val count)
      ((c.alu inst fun {w} a b => some (f a (b.toNat % w))).map
        fun c' => (.fall, withCore m c')) := by
  refine acts_emitALUWithDstAndSrc hm hd hs ?_
  intro s a b va vb ha hb
  -- The count is reduced modulo the width of the operands.
  obtain ⟨k, hk, hw, hne⟩ : ∃ k : BitVec (aluWidth (isAlu64 inst)),
      emitShiftCount inst b = createBinOp .urem b (.const k) ∧
        k.toNat = aluWidth (isAlu64 inst) ∧ k ≠ 0 := by
    refine ⟨_, rfl, ?_⟩
    cases isAlu64 inst <;> decide
  have hrem : BinOp.urem.eval vb k = some (vb % k) := if_neg hne
  have hpos : 0 < aluWidth (isAlu64 inst) := by
    cases isAlu64 inst <;> decide
  have hshift : op.eval va (vb % k) = some (f va (vb.toNat % aluWidth (isAlu64 inst))) := by
    rw [h _ _ (by rw [BitVec.toNat_umod, hw]; exact Nat.mod_lt _ hpos), BitVec.toNat_umod, hw]
  simp only [hk]
  exact (yields_createBinOp hb (is_const _) hrem).bind fun count s' hs' hcnt =>
    yields_createBinOp (ha.mono hs') hcnt hshift

/-- An operation that divides comes before the check that it may, and is undefined
    if it may not. -/
theorem acts_emitALU_guarded (hm : Allocated m) (hd : inst.dst_reg ≤ 10)
    (hs : inst.src_reg ≤ 10) (op : BinOp) {f : {w : ℕ} → BitVec w → BitVec w → BitVec w}
    (hop : ∀ {w : ℕ} (a b : BitVec w), op.eval a b = if b = 0 then none else some (f a b))
    (zero : {w : ℕ} → Value (.int w) → Value (.int w))
    (hzero : ∀ (s : Scope Slot) {w : ℕ} {a : Value (.int w)} {va : BitVec w}, a.Is W s va →
      ∃ vz, (zero a).Is W s vz) :
    Acts W s (withCore m c) (emitALUWithDstAndSrc inst fun dst_val src_val => do
        let isZero ← createICmp .eq src_val (.const 0)
        let result ← createBinOp op dst_val src_val
        createSelect isZero (zero dst_val) result)
      ((c.alu inst fun a b => if b = 0 then none else some (f a b)).map
        fun c' => (.fall, withCore m c')) := by
  refine acts_emitALUWithDstAndSrc hm hd hs ?_
  intro s a b va vb ha hb
  have hz : Yields W s (withCore m c) (createICmp .eq b (.const 0) : Emit _)
      (BitVec.ofBool (vb == 0)) := yields_createICmp .eq hb (is_const _)
  have hop := hop va vb
  by_cases h : vb = 0
  · rw [if_pos h] at hop ⊢
    exact hz.bind_acts fun isZero s₁ h₁ _ =>
      (acts_createBinOp (ha.mono h₁) (hb.mono h₁) hop).bind_none
  · rw [if_neg h] at hop ⊢
    rw [beq_false_of_ne h] at hz
    refine hz.bind fun isZero s₁ h₁ hisZero =>
      (yields_createBinOp (ha.mono h₁) (hb.mono h₁) hop).bind fun r s₂ h₂ hr => ?_
    obtain ⟨vz, hvz⟩ := hzero s₂ (ha.mono (h₁.trans h₂))
    exact yields_createSelect (hisZero.mono h₂) hvz hr

/-! ### Byte order -/

theorem does_emitSplitBytes {a : Value (.int 64)} {v : BitVec 64} (ha : a.Is W s v) {l : List ℕ}
    (hl : ∀ i ∈ l, i < 64) :
    Does W s m (emitSplitBytes a l) m fun as s' =>
      List.Forall₂ (fun a v => a.Is W s' v) as (l.map fun i => v >>> i &&& 0xff) := by
  induction l generalizing s with
  | nil => exact does_pure .nil
  | cons i l ih =>
    have hi : i < 64 := hl i List.mem_cons_self
    have hi' : (BitVec.ofNat 64 i).toNat = i := by
      rw [BitVec.toNat_ofNat, Nat.mod_eq_of_lt (by omega)]
    have hshift : BinOp.lshr.eval v (BitVec.ofNat 64 i) = some (v >>> i) := by
      rw [BinOp.eval, if_pos (by rwa [hi']), BitVec.ushiftRight_eq', hi']
    refine (yields_createBinOp ha (is_const _) hshift).bind fun shifted s₁ h₁ hsh =>
      (yields_createBinOp hsh (is_const 0xff) rfl).bind fun byte s₂ h₂ hbyte =>
      (ih (ha.mono (h₁.trans h₂)) fun j hj => hl j (List.mem_cons_of_mem _ hj)).bind
        fun bytes s₃ h₃ hbytes => does_pure ?_
    exact .cons (hbyte.mono h₃) hbytes

theorem yields_emitMergeBytes {last : Value (.int 64)} {v : BitVec 64} (hlast : last.Is W s v)
    {as : List (Value (.int 64))} {vs : List (BitVec 64)}
    (has : List.Forall₂ (fun a v => a.Is W s v) as vs) :
    Yields W s m (emitMergeBytes last as) (vs.foldl (fun last b => last <<< 8 ||| b) v) := by
  induction as generalizing s last v vs with
  | nil =>
    cases has
    exact does_pure hlast
  | cons a as ih =>
    obtain ⟨_, _, ha, has', rfl⟩ := List.forall₂_cons_left_iff.1 has
    refine (yields_createBinOp hlast (is_const 8) rfl).bind fun shifted s₁ h₁ hsh =>
      (yields_createBinOp hsh (ha.mono h₁) rfl).bind fun merged s₂ h₂ hmerged => ?_
    exact ih hmerged (has'.imp fun _ _ h => h.mono (h₁.trans h₂))

theorem yields_emitALUEndianConversion {a : Value (.int 64)} {v : BitVec 64} (ha : a.Is W s v) :
    Yields W s m (emitALUEndianConversion inst a) (Core.endian inst v) := by
  rw [Core.endian]
  by_cases hbe : inst.code &&& 0x08 = 0x08
  · rw [if_pos hbe]
    refine does_ite (fun _ => does_ite (fun _ => does_fail _) fun himm => ?_) fun h => absurd hbe h
    have hlt : ∀ i ∈ (List.range (inst.imm.toNat / 8)).map (8 * ·), i < 64 := by
      have hle : inst.imm.toNat ≤ 64 := by
        have : inst.imm = 16 ∨ inst.imm = 32 ∨ inst.imm = 64 := by tauto
        rcases this with h | h | h <;> rw [h] <;> decide
      intro i hi
      obtain ⟨j, hj, rfl⟩ := List.mem_map.1 hi
      rw [List.mem_range] at hj
      omega
    refine (does_emitSplitBytes ha hlt).bind ?_
    intro bytes s' _ hbytes
    rw [List.map_map] at hbytes
    change List.Forall₂ _ bytes (Core.bytes v (inst.imm.toNat / 8)) at hbytes
    cases hv : Core.bytes v (inst.imm.toNat / 8) with
    | nil =>
      rw [hv, List.forall₂_nil_right_iff] at hbytes
      rw [hbytes]
      exact does_fail _
    | cons b bs =>
      rw [hv] at hbytes
      obtain ⟨b', bs', hb, hbs, rfl⟩ := List.forall₂_cons_right_iff.1 hbytes
      exact yields_emitMergeBytes hb hbs
  · rw [if_neg hbe]
    exact does_ite (fun h => absurd h hbe) fun _ => does_pure ha

/-! ### Memory -/

theorem does_emitStore (hm : Allocated m) (hd : inst.dst_reg ≤ 10) (hs : inst.src_reg ≤ 10)
    (w : ℕ) :
    Does W s (withCore m c) (emitStore inst w) (withCore m (c.store inst w)) fun _ _ => True := by
  have hsrc : Yields W s (withCore m c) (emitStoreLoadingSrc inst)
      (if inst.code &&& 0x07 = EBPF_CLS_STX then c.reg inst.src_reg
        else inst.imm.signExtend 64) := by
    rw [emitStoreLoadingSrc]
    split
    · exact yields_load_reg64 hm hs
    · exact does_pure (is_const _)
  exact hsrc.bind fun src s₁ _ hsrc =>
    (yields_createTrunc hsrc).bind fun result s₂ _ hres =>
    (yields_base hm hd).bind fun base s₃ h₃ hbase =>
    (yields_addr hbase).bind fun a s₄ h₄ ha =>
      does_createStore (hres.mono (h₃.trans h₄)) ha (store_flat _ _)

theorem does_emitLoadX (hm : Allocated m) (hd : inst.dst_reg ≤ 10) (hs : inst.src_reg ≤ 10)
    (w : ℕ) :
    Does W s (withCore m c) (emitLoadX inst w) (withCore m (c.loadX inst w)) fun _ _ => True :=
  ((yields_base hm hs).bind fun _ _ _ hbase => yields_addr hbase).bind fun _ _ _ ha =>
    (yields_createLoad ha (load_flat _ w)).bind fun _ _ _ hv =>
      (yields_createZExt hv).bind fun _ _ _ hv' => does_store_reg64 hm hd hv'

theorem does_call {g : String} {as : List (Value (.int 64))} {vs : List (BitVec 64)}
    (has : List.Forall₂ (fun a v => a.Is W s v) as vs) :
    Does W s (withCore m c) (createCall g as : Emit _)
      (withCore m (c.setMem (W.func g vs c.mem).2)) fun a s' => a.Is W s' (W.func g vs c.mem).1 :=
  does_createCall has

variable {x : CompilerXDP} {p : Program} {patch : Bool} {nextInst : EbpfInst} {pc : ℕ}

theorem does_emitLddwMapVal (hm : Allocated m) (hd : inst.dst_reg ≤ 10) (mapPtr : BitVec 64)
    (missing : String) :
    Does W s (withCore m c) (emitLddwMapVal x p patch inst nextInst mapPtr missing)
      (withCore m (c.lddwMapVal inst W.func x patch nextInst mapPtr)) fun _ _ => True := by
  rw [emitLddwMapVal, Core.lddwMapVal]
  cases patch with
  | true =>
    simp only [if_true]
    cases x.map_val with
    | some map_val => exact does_store_reg64 hm hd (is_const _)
    | none => exact does_fail _
  | false =>
    simp only [Bool.false_eq_true, if_false]
    refine does_ite (fun _ => ?_) fun _ => does_fail _
    exact (does_call (.cons (is_const _) .nil)).bind fun ret s₁ _ hret =>
      (yields_createBinOp hret (is_const _) rfl).bind fun final s₂ _ hfinal =>
        does_store_reg64 hm hd hfinal

theorem does_emitLddwHelper (hm : Allocated m) (hd : inst.dst_reg ≤ 10) :
    Does W s (withCore m c) (emitLddwHelper x p patch inst nextInst)
      (withCore m (c.lddw inst W.func x patch nextInst)) fun _ _ => True := by
  rw [emitLddwHelper, Core.lddw]
  by_cases h₀ : inst.src_reg = 0
  · simp only [if_pos h₀]
    exact does_store_reg64 hm hd (is_const _)
  by_cases h₁ : inst.src_reg = 1
  · simp only [if_neg h₀, if_pos h₁]
    exact does_store_reg64 hm hd (is_const _)
  by_cases h₂ : inst.src_reg = 2
  · simp only [if_neg h₀, if_neg h₁, if_pos h₂]
    exact does_emitLddwMapVal hm hd _ _
  by_cases h₃ : inst.src_reg = 3
  · simp only [if_neg h₀, if_neg h₁, if_neg h₂, if_pos h₃]
    cases x.var_addr with
    | some f => exact does_store_reg64 hm hd (is_const _)
    | none => exact does_fail _
  by_cases h₄ : inst.src_reg = 4
  · simp only [if_neg h₀, if_neg h₁, if_neg h₂, if_neg h₃, if_pos h₄]
    cases x.code_addr with
    | some f => exact does_store_reg64 hm hd (is_const _)
    | none => exact does_fail _
  by_cases h₅ : inst.src_reg = 5
  · simp only [if_neg h₀, if_neg h₁, if_neg h₂, if_neg h₃, if_neg h₄, if_pos h₅]
    exact does_store_reg64 hm hd (is_const _)
  by_cases h₆ : inst.src_reg = 6
  · simp only [if_neg h₀, if_neg h₁, if_neg h₂, if_neg h₃, if_neg h₄, if_neg h₅, if_pos h₆]
    exact does_emitLddwMapVal hm hd _ _
  · simp only [if_neg h₀, if_neg h₁, if_neg h₂, if_neg h₃, if_neg h₄, if_neg h₅, if_neg h₆]
    exact does_pure trivial

theorem does_emitLddw (hm : Allocated m) (hd : inst.dst_reg ≤ 10) :
    Does W s (withCore m c) (emitLddw x p patch pc inst)
      (withCore m (c.lddw inst W.func x patch (p.insn (pc + 1)))) fun _ _ => True :=
  does_ite (fun _ => does_fail _) fun _ => does_ite (fun _ => does_fail _) fun _ =>
    does_ite (fun _ => does_fail _) fun _ => does_emitLddwHelper hm hd

/-! ### External functions and atomic operations -/

/-- The call of an external function; a tail call then goes to the exit. -/
theorem acts_emitExtFuncCall (hm : Allocated m) (l : List String) :
    Acts W s (withCore m c) (emitExtFuncCall inst l .exitBlock)
      (some (if inst.imm = 12 then .goto .exitBlock else .fall,
        withCore m (c.extCall inst W.func))) := by
  have hld (s : Scope Slot) {r : BitVec 4} (hr : r ≤ 10) :
      Yields W s (withCore m c) (createLoad (.int 64) (regs r) : Emit _) (c.reg r) :=
    yields_load_reg64 hm hr
  rw [emitExtFuncCall]
  refine acts_ite (fun _ => ?_) fun _ => acts_fail _
  refine (hld s (by decide)).bind_acts fun r₁ s₁ _ h₁ =>
    (hld s₁ (by decide)).bind_acts fun r₂ s₂ h₁₂ h₂ =>
    (hld s₂ (by decide)).bind_acts fun r₃ s₃ h₂₃ h₃ =>
    (hld s₃ (by decide)).bind_acts fun r₄ s₄ h₃₄ h₄ =>
    (hld s₄ (by decide)).bind_acts fun r₅ s₅ h₄₅ h₅ => ?_
  have hargs : List.Forall₂ (fun a v => a.Is W s₅ v) [r₁, r₂, r₃, r₄, r₅]
      [c.reg 1, c.reg 2, c.reg 3, c.reg 4, c.reg 5] :=
    .cons (h₁.mono (h₁₂.trans (h₂₃.trans (h₃₄.trans h₄₅))))
      (.cons (h₂.mono (h₂₃.trans (h₃₄.trans h₄₅))) (.cons (h₃.mono (h₃₄.trans h₄₅))
        (.cons (h₄.mono h₄₅) (.cons h₅ .nil))))
  refine (does_call hargs).bind_acts fun ret s₆ _ hret =>
    (does_store_reg64 hm (r := 0) (by decide) hret).bind_acts fun _ s₇ _ _ => ?_
  by_cases h12 : inst.imm = 12
  · rw [if_pos h12, if_pos h12]
    exact acts_createBr _
  · rw [if_neg h12, if_neg h12]
    exact (does_pure (Q := fun _ _ => True) trivial).acts

theorem does_atomicRMW {op : RmwOp} {p : Value .ptr} {v : Value (.int w)} {align : ℕ}
    {a : BitVec 64} {vv : BitVec w} (hp : p.Is W s (Ptr.flat a)) (hv : v.Is W s vv)
    (h : a.toNat % align = 0) :
    Does W s (withCore m c) (createAtomicRMW op p v align : Emit _)
      (withCore m (c.setMem
        (ByteMemory.store c.mem a (op.eval (ByteMemory.load c.mem a w) vv))))
      fun b s' => b.Is W s' (ByteMemory.load c.mem a w) :=
  does_createAtomicRMW hp hv h

theorem acts_emitAtomicBinOp (hm : Allocated m) (hd : inst.dst_reg ≤ 10)
    (hs : inst.src_reg ≤ 10) (op : RmwOp) (is64 is_fetch : Bool) :
    Acts W s (withCore m c) (emitAtomicBinOp op inst is64 is_fetch)
      ((c.atomicBinOp inst op is64 is_fetch).map fun c' => (.fall, withCore m c')) := by
  -- What comes after the operand of the width `w` is there.
  have hrmw (w : ℕ) (s : Scope Slot) {addr : Value .ptr} {v : Value (.int w)}
      (ha : addr.Is W s (.flat (c.addr inst inst.dst_reg)))
      (hv : v.Is W s ((c.reg inst.src_reg).setWidth w)) :
      Acts W s (withCore m c) (do
        let oldValue ← createAtomicRMW op addr v 32
        if is_fetch then createStore oldValue (regs inst.src_reg) else pure () : Emit Unit)
        ((c.atomicRmw inst op w is_fetch).map fun c' => (.fall, withCore m c')) := by
    rw [Core.atomicRmw]
    by_cases h : (c.addr inst inst.dst_reg).toNat % 32 = 0
    · rw [if_pos h]
      refine (does_atomicRMW ha hv h).bind_acts ?_
      intro old s' _ hold
      cases is_fetch with
      | true => exact (does_store_reg hm hs hold).acts
      | false => exact (does_pure (Q := fun _ _ => True) trivial).acts
    · rw [if_neg h]
      exact (acts_createAtomicRMW ha h).bind_none
  refine (yields_base hm hd).bind_acts fun base s₁ _ hbase =>
    (yields_addr hbase).bind_acts fun addr s₂ _ ha =>
    (yields_load_reg64 hm hs).bind_acts fun v s₃ h₃ hv => ?_
  cases is64 with
  | true => exact hrmw 64 s₃ (ha.mono h₃) (by rwa [BitVec.setWidth_eq])
  | false =>
    refine (yields_createTrunc hv).bind_acts ?_
    intro v' s₄ h₄ hv'
    exact hrmw 32 s₄ (ha.mono (h₃.trans h₄)) hv'

theorem does_atomicCmpXchg {p : Value .ptr} {cmp new : Value (.int w)} {a : BitVec 64}
    {vc vn : BitVec w} (hp : p.Is W s (Ptr.flat a)) (hc : cmp.Is W s vc) (hn : new.Is W s vn) :
    Does W s (withCore m c) (createAtomicCmpXchg p cmp new : Emit _)
      (withCore m (if ByteMemory.load c.mem a w = vc then
        c.setMem (ByteMemory.store c.mem a vn) else c)) fun _ _ => True := by
  have h := does_createAtomicCmpXchg (m := withCore m c) (ε := Failure) hp hc hn
  rw [withCore_mem] at h
  by_cases hl : ByteMemory.load c.mem a w = vc
  · rw [if_pos hl] at h ⊢
    exact h
  · rw [if_neg hl] at h ⊢
    exact h

theorem does_emitCmpXchg (hm : Allocated m) (hd : inst.dst_reg ≤ 10) (hs : inst.src_reg ≤ 10) :
    Does W s (withCore m c) (emitCmpXchg inst) (withCore m (c.cmpXchg inst)) fun _ _ => True := by
  rw [emitCmpXchg, Core.cmpXchg]
  generalize (if inst.code = EBPF_ATOMIC_OPCODE_64 then 64 else 32) = w
  refine (yields_base hm hd).bind fun base s₁ _ hbase =>
    (yields_addr hbase).bind fun vPtr s₂ _ ha =>
    (yields_createLoad ha (load_flat _ w)).bind fun beforeVal s₃ h₃ hbefore =>
    (yields_load_reg hm (r := 0) (by decide) w).bind fun r0 s₄ h₄ hr0 =>
    (yields_load_reg hm hs w).bind fun src s₅ h₅ hsrc => ?_
  exact (does_atomicCmpXchg (ha.mono (h₃.trans (h₄.trans h₅))) (hr0.mono h₅) hsrc).bind
    fun _ s₆ h₆ _ => (yields_createZExt (hbefore.mono (h₄.trans (h₅.trans h₆)))).bind
    fun v s₇ _ hv => does_store_reg64 hm (r := 0) (by decide) hv

theorem acts_emitAtomic (hm : Allocated m) (hd : inst.dst_reg ≤ 10) (hs : inst.src_reg ≤ 10) :
    Acts W s (withCore m c) (emitAtomic inst)
      ((c.atomic inst).map fun c' => (.fall, withCore m c')) := by
  have hbin (op : RmwOp) (is64 is_fetch : Bool) :
      Acts W s (withCore m c) (emitAtomicBinOp op inst is64 is_fetch)
        ((c.atomicBinOp inst op is64 is_fetch).map fun c' => (.fall, withCore m c')) :=
    acts_emitAtomicBinOp hm hd hs op is64 is_fetch
  rw [emitAtomic, Core.atomic]
  split
  · exact hbin _ _ _
  split
  · exact hbin _ _ _
  split
  · exact hbin _ _ _
  split
  · exact hbin _ _ _
  split
  · exact hbin _ _ _
  split
  · exact (does_emitCmpXchg hm hd hs).acts
  · exact acts_fail _

/-! ## Instructions -/

/-- The code of an instruction that does not branch has the effect of the
    instruction. -/
theorem acts_emitCase {extFuncNames lddwHelpers : List String} (hm : Allocated m)
    (hd : inst.dst_reg ≤ 10) (hs : inst.src_reg ≤ 10) {sc : SwitchCase}
    (hb : branches pc inst sc = none) :
    Acts W s (withCore m c) (emitCase x (prepared x extFuncNames lddwHelpers) patch pc inst sc)
      ((c.effect inst W.func x patch (insnAt x.insts (pc + 1)) sc).map
        fun c' => (.fall, withCore m c')) := by
  cases sc with
  | add => exact acts_emitALU_binOp hm hd hs .add (f := fun a b => a + b) fun _ _ => rfl
  | sub => exact acts_emitALU_binOp hm hd hs .sub (f := fun a b => a - b) fun _ _ => rfl
  | mul => exact acts_emitALU_binOp hm hd hs .mul (f := fun a b => a * b) fun _ _ => rfl
  | or => exact acts_emitALU_binOp hm hd hs .or (f := fun a b => a ||| b) fun _ _ => rfl
  | and => exact acts_emitALU_binOp hm hd hs .and (f := fun a b => a &&& b) fun _ _ => rfl
  | xor => exact acts_emitALU_binOp hm hd hs .xor (f := fun a b => a ^^^ b) fun _ _ => rfl
  | div =>
    exact acts_emitALU_guarded hm hd hs .udiv (f := fun a b => a / b) (fun _ _ => rfl)
      (fun _ => .const 0) fun _ _ _ _ _ => ⟨0, is_const 0⟩
  | mod =>
    exact acts_emitALU_guarded hm hd hs .urem (f := fun a b => a % b) (fun _ _ => rfl)
      (fun a => a) fun _ _ _ _ ha => ⟨_, ha⟩
  | lsh => exact acts_emitALU_shift hm hd hs .shl (f := fun a n => a <<< n) fun _ _ h => if_pos h
  | rsh => exact acts_emitALU_shift hm hd hs .lshr (f := fun a n => a >>> n) fun _ _ h => if_pos h
  | arsh =>
    exact acts_emitALU_shift hm hd hs .ashr (f := fun a n => a.sshiftRight n) fun _ _ h => if_pos h
  | neg =>
    refine (yields_load_reg hm hd _).bind_acts fun dst_val s₁ _ hdst =>
      (yields_createNeg hdst).bind_acts fun result s₂ _ hres => ?_
    exact (does_emitStoreALUResult hm hd hres aluWidth_of_isAlu64).acts
  | mov =>
    exact (yields_emitLoadALUSource hm hs _).bind_acts fun src_val s₁ _ hsrc =>
      (does_emitStoreALUResult hm hd hsrc aluWidth_of_isAlu64).acts
  | endian =>
    refine (yields_load_reg64 hm hd).bind_acts fun dst_val s₁ _ hdst =>
      (yields_emitALUEndianConversion hdst).bind_acts fun result s₂ _ hres => ?_
    have h := does_emitStoreALUResult (c := c) hm hd hres fun _ => rfl
    rw [BitVec.setWidth_eq] at h
    exact h.acts
  | store w => exact (does_emitStore hm hd hs w).acts
  | loadX w => exact (does_emitLoadX hm hd hs w).acts
  | lddw => exact (does_emitLddw hm hd).acts
  | call =>
    rw [branches] at hb
    have hsrc : ¬inst.src_reg = 1 := fun h => by
      rw [if_pos h] at hb
      cases hb
    have himm : ¬inst.imm = 12 := fun h => by
      rw [if_neg hsrc, if_pos h] at hb
      cases hb
    rw [emitCase, if_neg hsrc]
    have h : Acts W s (withCore m c) (emitExtFuncCall inst
        (prepared x extFuncNames lddwHelpers).extFunc .exitBlock) _ :=
      acts_emitExtFuncCall hm _
    rwa [if_neg himm] at h
  | atomic => exact acts_emitAtomic hm hd hs
  | ja | exit | jcond | jset => cases hb

/-! ## Jumps -/

theorem does_emitJmpLoadSrcAndDstAndZero (hm : Allocated m) (hd : inst.dst_reg ≤ 10)
    (hs : inst.src_reg ≤ 10) :
    Does W s (withCore m c) (emitJmpLoadSrcAndDstAndZero inst) (withCore m c) fun a s' =>
      a.1.Is W s' (c.jmpSrc inst (jmpWidth inst)) ∧
        a.2.1.Is W s' ((c.reg inst.dst_reg).setWidth (jmpWidth inst)) ∧ a.2.2.Is W s' 0 := by
  have hdst {s' : Scope Slot} {src : Value (.int (jmpWidth inst))}
      (hsrc : src.Is W s' (c.jmpSrc inst (jmpWidth inst))) :
      Does W s' (withCore m c) (do
        let dst ← createLoad (.int (jmpWidth inst)) (regs inst.dst_reg)
        pure (src, dst, (.const 0 : Value (.int (jmpWidth inst)))) : Emit _) (withCore m c)
        fun a s' =>
          a.1.Is W s' (c.jmpSrc inst (jmpWidth inst)) ∧
            a.2.1.Is W s' ((c.reg inst.dst_reg).setWidth (jmpWidth inst)) ∧ a.2.2.Is W s' 0 :=
    (yields_load_reg hm hd _).bind fun dst s₂ h₂ hdst =>
      does_pure ⟨hsrc.mono h₂, hdst, is_const 0⟩
  rw [emitJmpLoadSrcAndDstAndZero]
  by_cases hreg : inst.code &&& 0x8 = 0x8
  · refine does_ite (fun _ => ?_) fun h => absurd hreg h
    refine (yields_load_reg hm hs _).bind fun src s₁ _ hsrc => hdst ?_
    rwa [Core.jmpSrc, if_pos hreg]
  · refine does_ite (fun h => absurd h hreg) fun _ => ?_
    have himm : (Operand.const (inst.imm.signExtend (jmpWidth inst)) : Value _).Is W s
        (c.jmpSrc inst (jmpWidth inst)) := by
      rw [Core.jmpSrc, if_neg hreg]
      exact is_const _
    exact Does.bind (does_pure (Q := fun src s' => src.Is W s' (c.jmpSrc inst (jmpWidth inst)))
      himm) fun src s₁ _ hsrc => hdst hsrc

/-- The code of a conditional jump goes to its target if it is taken. -/
theorem acts_jump {extFuncNames lddwHelpers : List String} (hm : Allocated m)
    (hd : inst.dst_reg ≤ 10) (hs : inst.src_reg ≤ 10) {sc : SwitchCase}
    (hsc : sc = .jset ∨ ∃ p, sc = .jcond p)
    (hl : Begins x.insts (jmpDst pc inst) ∧ Begins x.insts (toUInt16 (pc + 1))) :
    Acts W s (withCore m c) (emitCase x (prepared x extFuncNames lddwHelpers) patch pc inst sc)
      (some (.goto (if c.taken inst sc then .inst (jmpDst pc inst) else .inst (toUInt16 (pc + 1))),
        withCore m c)) := by
  rcases hsc with rfl | ⟨p, rfl⟩
  · rw [emitCase, localJmpDstAndNextBlk_ok hl.1 hl.2, ofExcept_ok_bind]
    refine (does_emitJmpLoadSrcAndDstAndZero hm hd hs).bind_acts fun a s₁ _ hloaded => ?_
    obtain ⟨hsrc, hdst, hzero⟩ := hloaded
    exact (yields_createBinOp hdst hsrc rfl).bind_acts fun bits s₂ h₂ hbits =>
      (yields_createICmp .ne hbits (hzero.mono h₂)).bind_acts fun cond s₃ _ hcond =>
        acts_createCondBr _ _ hcond
  · rw [emitCase, emitCondJmpWithDstAndSrc, localJmpDstAndNextBlk_ok hl.1 hl.2, ofExcept_ok_bind]
    refine (does_emitJmpLoadSrcAndDstAndZero hm hd hs).bind_acts fun a s₁ _ hloaded => ?_
    obtain ⟨hsrc, hdst, -⟩ := hloaded
    exact (yields_createICmp p hdst hsrc).bind_acts fun cond s₂ _ hcond =>
      acts_createCondBr _ _ hcond

end

end EbpfJit
