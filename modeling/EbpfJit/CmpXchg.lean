import EbpfJit.Atomic
import EbpfJit.Lib.Interference

/-!
# Compare-and-exchange

The code of a compare-and-exchange loads the cell, compares and exchanges it, and leaves
the value it has loaded in `r0`, rather than the one that has been compared. Between the
two, others may write to the cell.

* `progresses_cmpXchg`: the code gets to its end, whatever others write;
* `cmpXchg_iff`: which runs leave the right value in `r0`.
-/

namespace EbpfJit

open Ir Ir.Builder

variable {w : ℕ}

/-- The instruction compares and exchanges. -/
def isCmpXchg : Instr Lbl Slot → Bool
  | .cmpxchg .. => true
  | _ => false

/-- The exchange of a run: the step from `t₁` to `t₂` that compares and exchanges. -/
structure IsExchange (W : World Lbl) (a : BitVec 64) (t t' : Thread Lbl Slot)
    (evs : List (Event w)) (t₁ t₂ : Thread Lbl Slot) : Prop where
  step : Step W a t₁ (.own : Event w) t₂
  head : ∃ i rest, t₁.code = i :: rest ∧ isCmpXchg i = true
  runs : ∃ pre post, evs = pre ++ .own :: post ∧ Runs W a t pre t₁ ∧ Runs W a t₂ post t'

/-- The run `evs` of the code, from the machine `m` to the end `t'`, is an atomic
    compare-and-exchange of the cell, which leaves in `r0` the value that it has found
    there. -/
structure ReportsCompared (inst : EbpfInst) (W : World Lbl) (code : List (Instr Lbl Slot))
    (e : Env Slot) (m : Machine Slot) (evs : List (Event (atomicWidth inst)))
    (t' : Thread Lbl Slot) : Prop where
  exchanges : ∃ t₁ t₂,
    IsExchange W ((coreOf m).addr inst inst.dst_reg) ⟨code, e, m⟩ t' evs t₁ t₂
  replaced : ∀ t₁ t₂, IsExchange W ((coreOf m).addr inst inst.dst_reg) ⟨code, e, m⟩ t' evs t₁ t₂ →
    t₂.m.mem =
      if ByteMemory.load t₁.m.mem ((coreOf m).addr inst inst.dst_reg) (atomicWidth inst) =
          ((coreOf m).reg 0).setWidth (atomicWidth inst) then
        ByteMemory.store t₁.m.mem ((coreOf m).addr inst inst.dst_reg)
          (((coreOf m).reg inst.src_reg).setWidth (atomicWidth inst))
      else t₁.m.mem
  reported : ∀ t₁ t₂, IsExchange W ((coreOf m).addr inst inst.dst_reg) ⟨code, e, m⟩ t' evs t₁ t₂ →
    (coreOf t'.m).reg 0 = (ByteMemory.load t₁.m.mem ((coreOf m).addr inst inst.dst_reg)
      (atomicWidth inst)).setWidth 64
  took_place : ∀ t₁ t₂,
    IsExchange W ((coreOf m).addr inst inst.dst_reg) ⟨code, e, m⟩ t' evs t₁ t₂ →
      (((coreOf t'.m).reg 0).setWidth (atomicWidth inst) =
          ((coreOf m).reg 0).setWidth (atomicWidth inst) ↔
        ByteMemory.load t₁.m.mem ((coreOf m).addr inst inst.dst_reg) (atomicWidth inst) =
          ((coreOf m).reg 0).setWidth (atomicWidth inst))
  /-- Without interference, it is the sequential one. -/
  alone : (∀ ev ∈ evs, ev = .own) → t'.m = withCore m ((coreOf m).cmpXchg inst)
  /-- No other register changes, and nothing else in the memory. -/
  frame : withCore m (coreOf t'.m) = t'.m ∧
    (∀ r, r ≠ 0 → (coreOf t'.m).reg r = (coreOf m).reg r) ∧
    ∀ b ∉ ByteMemory.span ((coreOf m).addr inst inst.dst_reg) (atomicWidth inst / 8),
      t'.m.mem b = m.mem b

/-- The cell before the instruction `k` of a run, as others have left it. -/
def cellBefore (inst : EbpfInst) (c : Core) (k : ℕ) (evs : List (Event (atomicWidth inst))) :
    BitVec (atomicWidth inst) :=
  (othersBefore k evs).getLastD (c.cell inst)

/-! ## The code -/

/-- The code before the exchange: it loads the cell, `r0` and the source. -/
def loadsOf (inst : EbpfInst) (w n : ℕ) : List (Instr Lbl Slot) :=
  [.load n .ptr (regs inst.dst_reg), .gep (n + 1) 1 (.tmp n) (getInt64 (inst.off.signExtend 64)),
    .load (n + 2) (.int w) (.tmp (n + 1)), .load (n + 3) (.int w) (regs 0),
    .load (n + 4) (.int w) (regs inst.src_reg)]

/-- The exchange. -/
def exchangeOf (w n : ℕ) : Instr Lbl Slot :=
  .cmpxchg (.tmp (n + 1)) (.tmp (n + 3) : Value (.int w)) (.tmp (n + 4))

/-- The code after the exchange: it extends the value loaded before, and leaves it in `r0`. -/
def emitReport (w n : ℕ) : Emit Unit := do
  let v ← createZExt 64 (.tmp (n + 2) : Value (.int w))
  createStore v (regs 0)

theorem emitCmpXchg_eq {inst : EbpfInst} {n n' : ℕ} {code : List (Instr Lbl Slot)}
    (h : emitCmpXchg inst n = .ok ((), n', code)) :
    ∃ after, code = loadsOf inst (atomicWidth inst) n ++ exchangeOf (atomicWidth inst) n :: after ∧
      emitReport (atomicWidth inst) n (n + 5) = .ok ((), n', after) := by
  obtain ⟨_, _, _, _, ⟨⟩, h₁, rfl⟩ := bind_eq_ok h
  obtain ⟨_, _, _, _, ⟨⟩, h₂, rfl⟩ := bind_eq_ok h₁
  obtain ⟨_, _, _, _, ⟨⟩, h₃, rfl⟩ := bind_eq_ok h₂
  obtain ⟨_, _, _, _, ⟨⟩, h₄, rfl⟩ := bind_eq_ok h₃
  obtain ⟨_, _, _, _, ⟨⟩, h₅, rfl⟩ := bind_eq_ok h₄
  obtain ⟨_, _, _, after, ⟨⟩, h₆, rfl⟩ := bind_eq_ok h₅
  exact ⟨after, rfl, h₆⟩

/-! ## Accesses under interference -/

variable {inst : EbpfInst} {W : World Lbl} {e e₁ : Env Slot} {m m₁ : Machine Slot} {r : BitVec 4}
  {a : BitVec 64} {vs : List (BitVec w)} {n n' k : ℕ} {c : Core}

theorem Allocated.writes (hm : Allocated m) (a : BitVec 64) (vs : List (BitVec w)) :
    Allocated (m.writes a vs) := ⟨hm.reg, hm.callStack, hm.callItemCnt⟩

theorem reg_writes (m : Machine Slot) (a : BitVec 64) (vs : List (BitVec w)) (r : BitVec 4) :
    (coreOf (m.writes a vs)).reg r = (coreOf m).reg r := rfl

/-- The registers are not written by others. -/
theorem exec_load_reg (hm : Allocated m) (hr : r ≤ 10) (id w' : ℕ) :
    (Instr.load id (.int w') (regs r)).exec W e (m.writes a vs) =
      some (.fall, e.set (t := .int w') id (((coreOf m).reg r).setWidth w'), m.writes a vs) := by
  have h := load_reg (c := coreOf (m.writes a vs)) (hm.writes a vs) hr w'
  rw [withCore_coreOf, reg_writes] at h
  rw [Instr.exec, Operand.eval, h]
  rfl

theorem exec_load_reg_ptr (hm : Allocated m) (hr : r ≤ 10) (id : ℕ) :
    (Instr.load id .ptr (regs r)).exec W e (m.writes a vs) =
      some (.fall, e.set (t := .ptr) id (.flat ((coreOf m).reg r)), m.writes a vs) := by
  have h := load_reg_ptr (c := coreOf (m.writes a vs)) (hm.writes a vs) hr
  rw [withCore_coreOf, reg_writes] at h
  rw [Instr.exec, Operand.eval, h]
  rfl

theorem exec_gep (ha : (coreOf m).addr inst inst.dst_reg = a) {id id' : ℕ}
    (hid : e .ptr id = .flat ((coreOf m).reg inst.dst_reg)) :
    (Instr.gep id' 1 (.tmp id) (getInt64 (inst.off.signExtend 64)) : Instr Lbl Slot).exec W e
      m₁ = some (.fall, e.set (t := .ptr) id' (.flat a), m₁) := by
  simp [Instr.exec, Operand.eval, hid, Ptr.gep, ← ha, Core.addr]

theorem exec_load_cell {id id' : ℕ} (hid : e .ptr id = .flat a) :
    (Instr.load id' (.int w) (.tmp id) : Instr Lbl Slot).exec W e m₁ =
      some (.fall, e.set (t := .int w) id' (ByteMemory.load m₁.mem a w), m₁) := by
  rw [Instr.exec, Operand.eval, hid]
  rfl

theorem exec_store_reg (hm : Allocated m) (hr : r ≤ 10) (id : ℕ) :
    (Instr.store (.tmp id : Value (.int 64)) (regs r) : Instr Lbl Slot).exec W e
        ((withCore m c).writes a vs) =
      some (.fall, e, (withCore m (c.setReg r (e (.int 64) id))).writes a vs) := by
  have h := store_reg (c := coreOf ((withCore m c).writes a vs)) hm hr (e (.int 64) id)
  rw [setLow_64] at h
  rw [Instr.exec, Operand.eval, Operand.eval]
  exact (congrArg (Option.map fun m' => (Exit.fall, e, m')) h :)

/-- What the loads leave before the exchange, in a run `evs` from the machine `m`. -/
structure Loaded (inst : EbpfInst) (a : BitVec 64) (n : ℕ) (m : Machine Slot)
    (evs : List (Event w)) (e₁ : Env Slot) (m₁ : Machine Slot) : Prop where
  owns : owns evs = 5
  machine : m₁ = m.writes a (othersBefore 5 evs)
  ptr : e₁ .ptr (n + 1) = .flat a
  before : e₁ (.int w) (n + 2) = ByteMemory.load (m.writes a (othersBefore 2 evs)).mem a w
  comparand : e₁ (.int w) (n + 3) = ((coreOf m).reg 0).setWidth w
  new : e₁ (.int w) (n + 4) = ((coreOf m).reg inst.src_reg).setWidth w

theorem loaded_of_runs (hm : Allocated m) (hd : inst.dst_reg ≤ 10) (hs : inst.src_reg ≤ 10)
    (ha : (coreOf m).addr inst inst.dst_reg = a) {rest : List (Instr Lbl Slot)}
    {evs : List (Event w)} (h : Runs W a ⟨loadsOf inst w n ++ rest, e, m⟩ evs ⟨rest, e₁, m₁⟩) :
    Loaded inst a n m evs e₁ m₁ := by
  have hle (code : List (Instr Lbl Slot)) : rest.length ≤ (code ++ rest).length :=
    (List.suffix_append code rest).length_le
  obtain ⟨vs₀, evs, e', m', rfl, hx, h⟩ := h.own (hle [_, _, _, _])
  rw [exec_load_reg_ptr hm hd] at hx
  cases hx
  obtain ⟨vs₁, evs, e', m', rfl, hx, h⟩ := h.own (hle [_, _, _])
  rw [← writes_append] at hx
  rw [exec_gep ha (by simp)] at hx
  cases hx
  obtain ⟨vs₂, evs, e', m', rfl, hx, h⟩ := h.own (hle [_, _])
  rw [← writes_append, exec_load_cell (a := a) (by simp)] at hx
  cases hx
  obtain ⟨vs₃, evs, e', m', rfl, hx, h⟩ := h.own (hle [_])
  rw [← writes_append, exec_load_reg hm (by decide)] at hx
  cases hx
  obtain ⟨vs₄, evs, e', m', rfl, hx, h⟩ := h.own (hle [])
  rw [← writes_append, exec_load_reg hm hs] at hx
  cases hx
  obtain ⟨vs₅, rfl, ht⟩ := h.eq_others (le_refl _)
  cases ht
  constructor
  · simp
  · simp [writes_append]
  · simp
  · simp
  · simp
  · simp

/-- The memory after the exchange of a cell. -/
def exchanged (mem : ByteMemory.Mem 64) (a : BitVec 64) (cmp new : BitVec w) : ByteMemory.Mem 64 :=
  if ByteMemory.load mem a w = cmp then ByteMemory.store mem a new else mem

theorem exchanged_of_notMem (mem : ByteMemory.Mem 64) {a b : BitVec 64} (cmp new : BitVec w)
    (hb : b ∉ ByteMemory.span a (w / 8)) : exchanged mem a cmp new b = mem b := by
  rw [exchanged]
  split
  · exact ByteMemory.store_of_notMem mem new hb
  · rfl

/-- The exchange compares the cell with `r0`, and replaces it by the source. -/
theorem exec_exchange {vc vn : BitVec w} (hptr : e .ptr (n + 1) = .flat a)
    (hc : e (.int w) (n + 3) = vc) (hn : e (.int w) (n + 4) = vn) :
    (exchangeOf w n).exec W e m₁ =
      some (.fall, e, { m₁ with mem := exchanged m₁.mem a vc vn }) := by
  simp only [exchangeOf, Instr.exec, Operand.eval, hptr, hc, hn, exchanged]
  split <;> rfl

theorem emitReport_eq {code : List (Instr Lbl Slot)}
    (h : emitReport w n (n + 5) = .ok ((), n', code)) :
    (w = 64 ∧ code = [.store (.tmp (n + 2) : Value (.int 64)) (regs 0)]) ∨
      (w ≠ 64 ∧ code = [.zext (n + 5) 64 (.tmp (n + 2) : Value (.int w)),
        .store (.tmp (n + 5) : Value (.int 64)) (regs 0)]) := by
  obtain ⟨v, n₁, c₁, c₂, h₁, h₂, rfl⟩ := bind_eq_ok h
  by_cases hw : w = 64
  · subst hw
    rw [createZExt_self] at h₁
    cases h₁
    cases h₂
    exact .inl ⟨rfl, rfl⟩
  · rw [createZExt_of_ne hw] at h₁
    cases h₁
    cases h₂
    exact .inr ⟨hw, rfl⟩

/-- The value loaded before the exchange gets to `r0`, whatever others write meanwhile. -/
theorem reports_of_runs (hm : Allocated m) {after : List (Instr Lbl Slot)}
    (hemit : emitReport w n (n + 5) = .ok ((), n', after)) {evs : List (Event w)}
    {t' : Thread Lbl Slot} (h : Runs W a ⟨after, e, withCore m c⟩ evs t') (hend : t'.code = []) :
    ∃ vs : List (BitVec w),
      t'.m = (withCore m (c.setReg 0 ((e (.int w) (n + 2)).setWidth 64))).writes a vs := by
  -- Others write before the store, and after it.
  have hstore (id : ℕ) (e : Env Slot) (vs : List (BitVec w)) {evs : List (Event w)}
      (h : Runs W a ⟨[.store (.tmp id : Value (.int 64)) (regs 0)], e,
        (withCore m c).writes a vs⟩ evs t') :
      ∃ vs : List (BitVec w), t'.m = (withCore m (c.setReg 0 (e (.int 64) id))).writes a vs := by
    obtain ⟨vs₁, evs, e', m', rfl, hx, h⟩ := h.own (length_le_of_end hend _)
    rw [← writes_append, exec_store_reg hm (by decide)] at hx
    cases hx
    obtain ⟨vs₂, rfl, rfl⟩ := h.nil_others
    exact ⟨vs ++ vs₁ ++ vs₂, (writes_append _ _ _ _).symm⟩
  rcases emitReport_eq hemit with ⟨rfl, rfl⟩ | ⟨hw, rfl⟩
  · have h := hstore (n + 2) e [] h
    rwa [BitVec.setWidth_eq]
  · obtain ⟨vs₀, evs, e', m', rfl, hx, h⟩ := h.own (length_le_of_end hend _)
    cases hx
    have h := hstore (n + 5) _ vs₀ h
    rwa [Env.set_self] at h

/-! ## The exchange -/

section

variable {after : List (Instr Lbl Slot)} {evs : List (Event w)} {t' t₁ t₂ : Thread Lbl Slot}

theorem isCmpXchg_loadsOf : ∀ i ∈ loadsOf inst w n, ¬isCmpXchg i = true := by
  simp [loadsOf, isCmpXchg]

theorem isCmpXchg_emitReport (hemit : emitReport w n (n + 5) = .ok ((), n', after)) :
    ∀ i ∈ after, ¬isCmpXchg i = true := by
  rcases emitReport_eq hemit with ⟨rfl, rfl⟩ | ⟨-, rfl⟩ <;> simp [isCmpXchg]

/-- A run to the end has an exchange. -/
theorem exists_isExchange
    (h : Runs W a ⟨loadsOf inst w n ++ exchangeOf w n :: after, e, m⟩ evs t')
    (hend : t'.code = []) :
    ∃ t₁ t₂, IsExchange W a ⟨loadsOf inst w n ++ exchangeOf w n :: after, e, m⟩ t' evs t₁ t₂ := by
  obtain ⟨evs₁, evs₂, e₁, m₁, rfl, h₁, h₂⟩ := h.passes (length_le_of_end hend _)
  obtain ⟨vs, post, e₂, m₂, rfl, hx, h₂⟩ := h₂.own (length_le_of_end hend _)
  refine ⟨_, _, .own hx, ⟨_, _, rfl, rfl⟩, evs₁ ++ others vs, post, by simp, ?_, h₂⟩
  exact h₁.append (runs_others _ vs)

/-- What the exchange of a run begins with, and what it does. -/
theorem IsExchange.spec (hm : Allocated m) (hd : inst.dst_reg ≤ 10) (hs : inst.src_reg ≤ 10)
    (ha : (coreOf m).addr inst inst.dst_reg = a)
    (hemit : emitReport w n (n + 5) = .ok ((), n', after))
    (h : IsExchange W a ⟨loadsOf inst w n ++ exchangeOf w n :: after, e, m⟩ t' evs t₁ t₂) :
    ∃ (e₁ : Env Slot) (post : List (Event w)),
      t₁ = ⟨exchangeOf w n :: after, e₁, m.writes a (othersBefore 5 evs)⟩ ∧
      e₁ (.int w) (n + 2) = ByteMemory.load (m.writes a (othersBefore 2 evs)).mem a w ∧
      t₂ = ⟨after, e₁, withCore m ((coreOf m).setMem (exchanged
        (m.writes a (othersBefore 5 evs)).mem a (((coreOf m).reg 0).setWidth w)
        (((coreOf m).reg inst.src_reg).setWidth w)))⟩ ∧
      Runs W a t₂ post t' := by
  obtain ⟨hstep, ⟨i, rest, hi, hx⟩, pre, post, rfl, hpre, hpost⟩ := h
  have hcode := hpre.eq_only (P := fun i => isCmpXchg i = true) hi hx isCmpXchg_loadsOf
    (isCmpXchg_emitReport hemit)
  rcases t₁ with ⟨code, e₁, m₁⟩
  cases hcode
  have hl := loaded_of_runs hm hd hs ha hpre
  have hbefore (k : ℕ) (hk : k ≤ 5) : othersBefore k (pre ++ .own :: post) = othersBefore k pre :=
    othersBefore_append_own (hl.owns ▸ hk) post
  rw [hbefore 5 (le_refl _), hbefore 2 (by decide)]
  cases hstep with
  | own hexec =>
    rw [exec_exchange hl.ptr hl.comparand hl.new, hl.machine] at hexec
    cases hexec
    refine ⟨e₁, post, by rw [hl.machine], hl.before, ?_, hpost⟩
    rw [← setMem_withCore, withCore_coreOf]
    rfl

end

/-! ## The value that is reported -/

section

variable {x : CompilerXDP} {extFuncNames lddwHelpers : List String} {patch : Bool} {pc : ℕ}
  {code : List (Instr Lbl Slot)} {evs : List (Event (atomicWidth inst))} {t' : Thread Lbl Slot}

theorem IsCodeOf.cmpXchg (h : IsCodeOf x extFuncNames lddwHelpers patch pc inst code)
    (hcode : inst.code = EBPF_ATOMIC_OPCODE_32 ∨ inst.code = EBPF_ATOMIC_OPCODE_64)
    (himm : inst.imm = EBPF_CMPXCHG) :
    ∃ n n' after,
      code = loadsOf inst (atomicWidth inst) n ++ exchangeOf (atomicWidth inst) n :: after ∧
      emitReport (atomicWidth inst) n (n + 5) = .ok ((), n', after) := by
  obtain ⟨n, n', hemit⟩ := h.emitCase (switchCase_atomic.2 hcode)
  have hcmp : emitAtomic inst = emitCmpXchg inst := by
    rw [emitAtomic, himm]
    rfl
  rw [EbpfJit.emitCase, hcmp] at hemit
  obtain ⟨after, hc, hafter⟩ := emitCmpXchg_eq hemit
  exact ⟨n, n', after, hc, hafter⟩

theorem atomic_cmpXchg (himm : inst.imm = EBPF_CMPXCHG) :
    c.atomic inst = some (c.cmpXchg inst) := by
  rw [Core.atomic, himm]
  rfl

/-- The cell is what others have left. -/
theorem load_writes_cell (m : Machine Slot) (vs : List (BitVec (atomicWidth inst))) :
    ByteMemory.load (m.writes ((coreOf m).addr inst inst.dst_reg) vs).mem
      ((coreOf m).addr inst inst.dst_reg) (atomicWidth inst) =
      vs.getLastD ((coreOf m).cell inst) := by
  rcases atomicWidth_eq inst with hw | hw
  · exact load_writes (by rw [hw]) (by rw [hw]; decide)
  · exact load_writes (by rw [hw]) (by rw [hw]; decide)

/-- Without interference, the code has the effect of the instruction. -/
theorem eq_cmpXchg_of_own (h : IsCodeOf x extFuncNames lddwHelpers patch pc inst code)
    (hcode : inst.code = EBPF_ATOMIC_OPCODE_32 ∨ inst.code = EBPF_ATOMIC_OPCODE_64)
    (himm : inst.imm = EBPF_CMPXCHG) (hm : Allocated m) (hrun : Runs W a ⟨code, e, m⟩ evs t')
    (hend : t'.code = []) (hown : ∀ ev ∈ evs, ev = .own) :
    t'.m = withCore m ((coreOf m).cmpXchg inst) := by
  have heff := h.runCode (switchCase_atomic.2 hcode) rfl hm (W := W) (e := e)
  have hexec : execList W code e m = some (.fall, t'.env, t'.m) := hrun.execList hown hend
  rw [runCode, hexec, Core.effect, atomic_cmpXchg himm, Option.map_some, Option.map_some,
    Option.some.injEq, Prod.mk.injEq] at heff
  exact heff.2

/-- The code never gets stuck. -/
theorem progresses_cmpXchg (h : IsCodeOf x extFuncNames lddwHelpers patch pc inst code)
    (hcode : inst.code = EBPF_ATOMIC_OPCODE_32 ∨ inst.code = EBPF_ATOMIC_OPCODE_64)
    (himm : inst.imm = EBPF_CMPXCHG) (hm : Allocated m) :
    Progresses W ((coreOf m).addr inst inst.dst_reg) (atomicWidth inst) ⟨code, e, m⟩ := by
  obtain ⟨n, n', after, rfl, hemit⟩ := h.cmpXchg hcode himm
  generalize ha : (coreOf m).addr inst inst.dst_reg = a
  have hstore (id : ℕ) (e : Env Slot) {m : Machine Slot} (hm : Allocated m) :
      Progresses W a (atomicWidth inst)
        ⟨[.store (.tmp id : Value (.int 64)) (regs 0)], e, m⟩ := by
    refine progresses_cons fun vs => ?_
    rw [← withCore_coreOf m]
    exact ⟨_, _, exec_store_reg hm (by decide) id, progresses_nil _ _⟩
  refine progresses_cons fun vs₀ => ⟨_, _, exec_load_reg_ptr hm h.dst_reg _, ?_⟩
  have hm := hm.writes a vs₀
  refine progresses_cons fun vs₁ => ⟨_, _, exec_gep ha (by simp), ?_⟩
  have hm := hm.writes a vs₁
  refine progresses_cons fun vs₂ => ⟨_, _, exec_load_cell (a := a) (by simp), ?_⟩
  have hm := hm.writes a vs₂
  refine progresses_cons fun vs₃ => ⟨_, _, exec_load_reg hm (by decide) _ _, ?_⟩
  have hm := hm.writes a vs₃
  refine progresses_cons fun vs₄ => ⟨_, _, exec_load_reg hm h.src_reg _ _, ?_⟩
  have hm := hm.writes a vs₄
  refine progresses_cons fun vs₅ => ⟨_, _, exec_exchange (a := a) (by simp) rfl rfl, ?_⟩
  rcases emitReport_eq hemit with ⟨-, rfl⟩ | ⟨-, rfl⟩
  · exact hstore _ _ ⟨hm.reg, hm.callStack, hm.callItemCnt⟩
  · refine progresses_cons fun vs₆ => ⟨_, _, rfl, ?_⟩
    exact hstore _ _ ⟨hm.reg, hm.callStack, hm.callItemCnt⟩

/-- The code reports the value it has compared exactly if the value it has loaded before
    is the same. -/
theorem IsCodeOf.reportsCompared_iff
    (h : IsCodeOf x extFuncNames lddwHelpers patch pc inst code)
    (hcode : inst.code = EBPF_ATOMIC_OPCODE_32 ∨ inst.code = EBPF_ATOMIC_OPCODE_64)
    (himm : inst.imm = EBPF_CMPXCHG) (hm : Allocated m)
    (hrun : Runs W ((coreOf m).addr inst inst.dst_reg) ⟨code, e, m⟩ evs t')
    (hend : t'.code = []) :
    ReportsCompared inst W code e m evs t' ↔
      cellBefore inst (coreOf m) 2 evs = cellBefore inst (coreOf m) 5 evs := by
  obtain ⟨n, n', after, rfl, hemit⟩ := h.cmpXchg hcode himm
  -- All exchanges of the run are at the same place.
  have hspec (t₁ t₂ : Thread Lbl Slot) (hex : IsExchange W ((coreOf m).addr inst inst.dst_reg)
      ⟨loadsOf inst (atomicWidth inst) n ++ exchangeOf (atomicWidth inst) n :: after, e, m⟩ t' evs
      t₁ t₂) := hex.spec hm h.dst_reg h.src_reg rfl hemit
  have hcell (k : ℕ) : ByteMemory.load
      (m.writes ((coreOf m).addr inst inst.dst_reg) (othersBefore k evs)).mem
      ((coreOf m).addr inst inst.dst_reg) (atomicWidth inst) = cellBefore inst (coreOf m) k evs :=
    load_writes_cell m _
  simp only [hcell] at hspec
  obtain ⟨t₁, t₂, hex⟩ := exists_isExchange hrun hend
  obtain ⟨e₁, post, ht₁, hbefore, ht₂, hpost⟩ := hspec t₁ t₂ hex
  rw [ht₂] at hpost
  obtain ⟨vs, ht'⟩ := reports_of_runs hm hemit hpost hend
  rw [hbefore] at ht'
  have hreg : (coreOf t'.m).reg 0 = (cellBefore inst (coreOf m) 2 evs).setWidth 64 := by
    rw [ht', reg_writes, coreOf_withCore, Core.reg_setReg_self]
  have hw : atomicWidth inst ≤ 64 := by
    rcases atomicWidth_eq inst with hw | hw <;> omega
  constructor
  · intro hr
    have hrep := hr.reported t₁ t₂ hex
    rw [hreg, ht₁, hcell] at hrep
    have h' := congrArg (BitVec.setWidth (atomicWidth inst)) hrep
    rwa [BitVec.setWidth_setWidth_of_le _ hw, BitVec.setWidth_setWidth_of_le _ hw,
      BitVec.setWidth_eq, BitVec.setWidth_eq] at h'
  · intro heq
    refine ⟨⟨t₁, t₂, hex⟩, ?_, ?_, ?_, ?_, ?_⟩
    · intro t₁ t₂ hex
      obtain ⟨e₁, post, rfl, -, rfl, -⟩ := hspec t₁ t₂ hex
      rfl
    · intro t₁ t₂ hex
      obtain ⟨e₁, post, rfl, -, rfl, -⟩ := hspec t₁ t₂ hex
      rw [hreg, heq, hcell]
    · intro t₁ t₂ hex
      obtain ⟨e₁, post, rfl, -, rfl, -⟩ := hspec t₁ t₂ hex
      rw [hreg, heq, hcell, BitVec.setWidth_setWidth_of_le _ hw, BitVec.setWidth_eq]
    · exact eq_cmpXchg_of_own h hcode himm hm hrun hend
    · refine ⟨?_, ?_, ?_⟩
      · rw [ht']
        rfl
      · intro r hr
        have hne : r.toNat ≠ (0 : BitVec 4).toNat := fun h => hr (BitVec.eq_of_toNat_eq h)
        rw [ht', reg_writes]
        exact Core.regs_setReg_of_ne _ _ _ hne
      · intro b hb
        rw [ht', writes_of_notMem hb, withCore_mem, Core.setReg_mem, Core.setMem_mem,
          exchanged_of_notMem _ _ _ hb, writes_of_notMem hb]

/-- In every run of its code, whatever others write to the cell meanwhile, the
    compare-and-exchange reports the value it has compared exactly if the cell is then the
    same as before the separate load. -/
theorem cmpXchg_iff (h : IsCodeOf x extFuncNames lddwHelpers patch pc inst code)
    (hcode : inst.code = EBPF_ATOMIC_OPCODE_32 ∨ inst.code = EBPF_ATOMIC_OPCODE_64)
    (himm : inst.imm = EBPF_CMPXCHG) (hm : Allocated m)
    (hrun : Runs W ((coreOf m).addr inst inst.dst_reg) ⟨code, e, m⟩ evs t')
    (hend : t'.code = []) :
    ReportsCompared inst W code e m evs t' ↔
      cellBefore inst (coreOf m) 2 evs = cellBefore inst (coreOf m) 5 evs :=
  h.reportsCompared_iff hcode himm hm hrun hend

/-- A compare-and-exchange with `r2`, of the cell at the address in `r1`. -/
def cmpXchg64 : EbpfInst := ⟨EBPF_ATOMIC_OPCODE_64, 1, 2, 0, EBPF_CMPXCHG⟩

/-- Its beginning, with all registers zero, and the memory as well. -/
def cmpXchgStart : Thread Lbl Slot := ⟨codeOf cmpXchg64, Env.zero, Machine.allocated⟩

theorem isCodeOf_cmpXchg64 :
    IsCodeOf { insts := [cmpXchg64] } [] [] false 0 cmpXchg64 (codeOf cmpXchg64) :=
  isCodeOf_codeOf cmpXchg64 (by decide) (by decide) rfl

theorem exists_runs_cmpXchg64 (evs : List (Event (atomicWidth cmpXchg64))) {v : BitVec 64}
    (h : (evs.foldlM (Thread.next World.numbered 0) cmpXchgStart).map
      (fun t => (t.code.isEmpty, (coreOf t.m).reg 0)) = some (true, v)) :
    ∃ t', Runs World.numbered 0 cmpXchgStart evs t' ∧ t'.code = [] ∧ (coreOf t'.m).reg 0 = v := by
  obtain ⟨t', hrun, ht'⟩ := Option.map_eq_some_iff.1 h
  obtain ⟨hcode, hreg⟩ := Prod.mk.inj ht'
  exact ⟨t', runs_of_foldlM hrun, List.isEmpty_iff.1 hcode, hreg⟩

theorem cmpXchg_alone :
    ∃ t', Runs World.numbered 0 cmpXchgStart
        (List.replicate 7 (.own : Event (atomicWidth cmpXchg64))) t' ∧
      ReportsCompared cmpXchg64 World.numbered (codeOf cmpXchg64) Env.zero Machine.allocated
        (List.replicate 7 .own) t' := by
  obtain ⟨t', hrun, hend, -⟩ := exists_runs_cmpXchg64 (v := 0)
    (List.replicate 7 .own) (by decide +kernel)
  refine ⟨t', hrun, ?_⟩
  exact (cmpXchg_iff isCodeOf_cmpXchg64 (by decide) rfl allocated_allocated hrun hend).2
    (by decide)

/-- Another agent writes 5 between the separate load and the exchange. -/
def interfered : List (Event (atomicWidth cmpXchg64)) :=
  [.own, .own, .own, .other 5, .own, .own, .own, .own]

/-- The exchange finds 5, and leaves it there, but `r0` says that it has found the 0 it has
    looked for. -/
theorem not_cmpXchg_interfered :
    ∃ t', Runs World.numbered ((coreOf Machine.allocated).addr cmpXchg64 1) cmpXchgStart
        interfered t' ∧ t'.code = [] ∧ (coreOf t'.m).reg 0 = 0 ∧
      cellBefore cmpXchg64 (coreOf Machine.allocated) 5 interfered = 5 ∧
      ¬ReportsCompared cmpXchg64 World.numbered (codeOf cmpXchg64) Env.zero Machine.allocated
        interfered t' := by
  obtain ⟨t', hrun, hend, hreg⟩ := exists_runs_cmpXchg64 (v := 0) interfered (by decide +kernel)
  refine ⟨t', hrun, hend, hreg, rfl, ?_⟩
  rw [isCodeOf_cmpXchg64.reportsCompared_iff (by decide) rfl allocated_allocated hrun hend]
  decide

end

end EbpfJit
