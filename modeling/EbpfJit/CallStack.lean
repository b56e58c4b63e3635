import EbpfJit.Effect

/-!
# The call stack

A local call pushes five items onto the call stack: the registers `r9` to `r6` of
the caller, and the address of the block it goes on with. `Represents` says that a
machine holds a core and the frames of the callers.

* `acts_emitLocalCall`: a local call pushes a frame, if there are less than
  `CALL_STACK_SIZE` of them, and has no defined behaviour otherwise;
* `acts_emitLocalRetBlock`: the return block pops the topmost frame;
* `acts_exit`: an exit goes to the return block if there is a frame;
* `acts_emitSetupBlock`: to begin with, there is none.
-/

namespace EbpfJit

open Ir Ir.Builder

/-- A caller of a local function: where it goes on, and its registers at the call. -/
structure Frame where
  ret : ℕ
  regs : ℕ → BitVec 64

/-- The topmost items of the call stack are the frames, the last one on top. -/
def Saved (W : World Lbl) (items : ℕ → BitVec 64) : List Frame → Prop
  | [] => True
  | f :: fs =>
    items (5 * fs.length + 4) = W.blockAddr (.inst f.ret) ∧
      (∀ i, 6 ≤ i → i ≤ 9 → items (5 * fs.length + (9 - i)) = f.regs i) ∧ Saved W items fs

/-- The machine holds the registers and the memory `c`, and the frames `fs`. -/
structure Represents (W : World Lbl) (m : Machine Slot) (c : Core) (fs : List Frame) : Prop where
  allocated : Allocated m
  core : coreOf m = c
  count : m.slot .callItemCnt 0 = BitVec.ofNat 64 (5 * fs.length)
  saved : Saved W (m.slot .callStack) fs
  depth : fs.length ≤ CALL_STACK_SIZE

/-- The core when a local function is entered: the data stack has moved. -/
def Core.enter (c : Core) : Core := c.setReg 10 (c.reg 10 - BitVec.ofNat 64 STACK_SIZE)

/-- The core when a local function has returned to the caller `f`. -/
def Core.leave (c : Core) (f : Frame) : Core where
  regs i :=
    if 6 ≤ i ∧ i ≤ 9 then f.regs i
    else if i = 10 then c.regs 10 + BitVec.ofNat 64 STACK_SIZE
    else c.regs i
  mem := c.mem

theorem Core.regs_leave_saved (c : Core) (f : Frame) {i : ℕ} (h₆ : 6 ≤ i) (h₉ : i ≤ 9) :
    (c.leave f).regs i = f.regs i := if_pos ⟨h₆, h₉⟩

theorem Core.regs_leave_of_lt (c : Core) (f : Frame) {i : ℕ} (h : i < 6) :
    (c.leave f).regs i = c.regs i :=
  (if_neg (by omega)).trans (if_neg (by omega))

theorem Core.regs_leave_ten (c : Core) (f : Frame) :
    (c.leave f).regs 10 = c.regs 10 + BitVec.ofNat 64 STACK_SIZE := rfl

theorem Core.regs_enter_ten (c : Core) :
    c.enter.regs 10 = c.regs 10 - BitVec.ofNat 64 STACK_SIZE := rfl

/-! ## Slots -/

section

variable {W : World Lbl} {s : Scope Slot} {m : Machine Slot} {c : Core} {fs : List Frame}
  {f : Frame} {k : ℕ} {v : BitVec 64}

theorem represents_withCore (h : Represents W m c fs) (c' : Core) :
    Represents W (withCore m c') c' fs :=
  ⟨h.allocated.withCore c', rfl, h.count, h.saved, h.depth⟩

theorem withCore_of_represents (h : Represents W m c fs) : withCore m c = m := by
  rw [← h.core, withCore_coreOf]

/-- Only the items below the number of items matter. -/
theorem Saved.congr {items items' : ℕ → BitVec 64} (h : Saved W items fs)
    (heq : ∀ k < 5 * fs.length, items' k = items k) : Saved W items' fs := by
  induction fs with
  | nil => trivial
  | cons f fs ih =>
    obtain ⟨hret, hregs, hrest⟩ := h
    rw [List.length_cons] at heq
    refine ⟨?_, fun i h₁ h₂ => ?_, ih hrest fun k hk => heq k (by omega)⟩
    · rw [heq _ (by omega), hret]
    · rw [heq _ (by omega), hregs i h₁ h₂]

@[simp] theorem coreOf_set_callStack (m : Machine Slot) (k : ℕ) (v : BitVec 64) :
    coreOf (m.set .callStack k v) = coreOf m := by
  simp [coreOf, Machine.set]

@[simp] theorem coreOf_set_callItemCnt (m : Machine Slot) (k : ℕ) (v : BitVec 64) :
    coreOf (m.set .callItemCnt k v) = coreOf m := by
  simp [coreOf, Machine.set]

theorem Allocated.set (h : Allocated m) (s : Slot) (k : ℕ) (v : BitVec 64) :
    Allocated (m.set s k v) :=
  ⟨h.reg, h.callStack, h.callItemCnt⟩

@[simp] theorem slot_set_self (m : Machine Slot) (s : Slot) (k : ℕ) (v : BitVec 64) :
    (m.set s k v).slot s = Function.update (m.slot s) k v := by
  simp [Machine.set]

theorem slot_set_of_ne (m : Machine Slot) {s s' : Slot} (k : ℕ) (v : BitVec 64) (h : s' ≠ s) :
    (m.set s k v).slot s' = m.slot s' := by
  simp [Machine.set, h]

@[simp] theorem slot_callItemCnt_set_callStack (m : Machine Slot) (k : ℕ) (v : BitVec 64) :
    (m.set .callStack k v).slot .callItemCnt = m.slot .callItemCnt :=
  slot_set_of_ne m k v (by simp)

@[simp] theorem slot_callStack_set_callItemCnt (m : Machine Slot) (k : ℕ) (v : BitVec 64) :
    (m.set .callItemCnt k v).slot .callStack = m.slot .callStack :=
  slot_set_of_ne m k v (by simp)

theorem load_slot {s : Slot} (h : k < m.size s) :
    m.load (.slot s k) (.int 64) = some (m.slot s k) := by
  refine (if_pos h).trans ?_
  rw [BitVec.setWidth_eq]

theorem load_slot_ptr {s : Slot} (h : k < m.size s) :
    m.load (.slot s k) .ptr = some (.flat (m.slot s k)) := if_pos h

theorem store_slot {s : Slot} (h : k < m.size s) (v : BitVec 64) :
    m.store (.slot s k) (t := .int 64) v = some (m.set s k v) := by
  refine (if_pos h).trans ?_
  rw [setLow_64]

theorem store_slot_ptr {s : Slot} (h : k < m.size s) (v : BitVec 64) :
    m.store (.slot s k) (t := .ptr) (.flat v) = some (m.set s k v) := if_pos h

/-- The address of an item. -/
theorem yields_emitCallStackItem {pos : Value (.int 64)} {n i : ℕ}
    (hpos : pos.Is W s (BitVec.ofNat 64 n)) (hi : i ≤ n) (hn : n < 2 ^ 64) :
    Yields W s m (emitCallStackItem pos i) (.slot .callStack (n - i)) := by
  have hsub : BinOp.sub.eval (BitVec.ofNat 64 n) (BitVec.ofNat 64 i) =
      some (BitVec.ofNat 64 (n - i)) := by
    refine congrArg some (BitVec.eq_of_toNat_eq ?_)
    simp only [BitVec.toNat_sub, BitVec.toNat_ofNat]
    omega
  refine (yields_createBinOp hpos (is_const _) hsub).bind fun idx s' _ hidx =>
    yields_createGEP (is_slot _) hidx ?_
  have hmod : (n - i) % 18446744073709551616 = n - i := Nat.mod_eq_of_lt (by omega)
  simp [Ptr.gep, hmod]

/-! ## Calls -/

/-- The machine after `n` frames, with one more: the address `a`, and the registers
    `r6` to `r9` of the core `c`. -/
def pushItems (m : Machine Slot) (n : ℕ) (a : BitVec 64) (c : Core) : Machine Slot :=
  (((((m.set .callItemCnt 0 (BitVec.ofNat 64 (5 * n + 5))).set .callStack (5 * n + 4) a).set
    .callStack (5 * n + 3) (c.regs 6)).set .callStack (5 * n + 2) (c.regs 7)).set
    .callStack (5 * n + 1) (c.regs 8)).set .callStack (5 * n) (c.regs 9)

/-- The items of a new frame are above the ones before. -/
theorem represents_pushItems (h : Represents W m c fs) (hlt : fs.length < CALL_STACK_SIZE)
    (ret : ℕ) (c' : Core) :
    Represents W (withCore (pushItems m fs.length (W.blockAddr (.inst ret)) c) c') c'
      (⟨ret, c.regs⟩ :: fs) where
  allocated := ((((((h.allocated.set _ _ _).set _ _ _).set _ _ _).set _ _ _).set _ _ _).set
    _ _ _).withCore c'
  core := rfl
  count := by
    simp [pushItems, Nat.mul_add]
  saved := by
    refine ⟨?_, fun i h₁ h₂ => ?_, h.saved.congr fun k hk => ?_⟩
    · simp [pushItems]
    · obtain rfl | rfl | rfl | rfl : i = 6 ∨ i = 7 ∨ i = 8 ∨ i = 9 := by omega
      all_goals simp [pushItems]
    · have hne (j : ℕ) : k ≠ 5 * fs.length + j := by omega
      have hne₀ : k ≠ 5 * fs.length := by omega
      simp [pushItems, hne, hne₀]
  depth := hlt

variable {x : CompilerXDP} {extFuncNames lddwHelpers : List String} {pc : ℕ} {inst : EbpfInst}

/-- Loading the number of items. -/
theorem yields_count (h : Represents W m c fs) :
    Yields W s m (createLoad (.int 64) (.slot .callItemCnt) : Emit _)
      (BitVec.ofNat 64 (5 * fs.length)) := by
  rw [← h.count]
  refine yields_createLoad (is_slot _) (load_slot ?_)
  rw [h.allocated.callItemCnt]
  exact Nat.one_pos

/-- Storing the number of items. -/
theorem does_count (hm : Allocated m) {a : Value (.int 64)} (ha : a.Is W s v) :
    Does W s m (createStore a (.slot .callItemCnt) : Emit Unit) (m.set .callItemCnt 0 v)
      fun _ _ => True := by
  refine does_createStore ha (is_slot _) (store_slot ?_ v)
  rw [hm.callItemCnt]
  exact Nat.one_pos

/-- Saving a register. -/
theorem does_saveReg {pos : Value (.int 64)} {n i : ℕ} (hm : Allocated m) (hc : coreOf m = c)
    (hpos : pos.Is W s (BitVec.ofNat 64 (5 * n + 5))) (hn : n < CALL_STACK_SIZE) (h₆ : 6 ≤ i)
    (h₉ : i ≤ 9) :
    Does W s m (do
      let v ← createLoad (.int 64) (.slot (.reg i))
      let item ← emitCallStackItem pos (i - 4)
      createStore v item : Emit Unit)
      (m.set .callStack (5 * n + (9 - i)) (c.regs i)) fun _ _ => True := by
  subst hc
  have hn' : n < 64 := hn
  have hi : 5 * n + 5 - (i - 4) = 5 * n + (9 - i) := by omega
  have hsize : 5 * n + (9 - i) < m.size .callStack := by
    rw [hm.callStack]
    omega
  have hreg : 0 < m.size (.reg i) := by
    rw [hm.reg i (by omega)]
    exact Nat.one_pos
  refine (yields_createLoad (is_slot _) (load_slot hreg)).bind fun v s₁ h₁ hv =>
    (yields_emitCallStackItem (hpos.mono h₁) (i := i - 4) (by omega) (by omega)).bind
      fun item s₂ h₂ hitem => ?_
  rw [hi] at hitem
  exact does_createStore (hv.mono h₂) hitem (store_slot hsize _)

/-- Moving the data stack by `d`, and going on. -/
theorem acts_moveStack {op : BinOp} {d : BitVec 64} {rest : Emit Unit}
    {r : Option (Exit Lbl × Machine Slot)} (hm : Allocated m) (hc : coreOf m = c)
    (h : op.eval (c.reg 10) d = some v)
    (hrest : ∀ s', s ≤ s' → Acts W s' (withCore m (c.setReg 10 v)) rest r) :
    Acts W s m (do
      let r10 ← createLoad (.int 64) (regs 10)
      let r10' ← createBinOp op r10 (getInt64 d)
      createStore r10' (regs 10)
      rest : Emit Unit) r := by
  have hmc : m = withCore m c := by
    rw [← hc, withCore_coreOf]
  rw [hmc]
  exact (yields_load_reg64 hm (r := 10) (by decide)).bind_acts fun r10 s₁ h₁ hr10 =>
    (yields_createBinOp hr10 (is_const d) h).bind_acts fun r10' s₂ h₂ hr10' =>
    (does_store_reg64 hm (r := 10) (by decide) hr10').bind_acts fun _ s₃ h₃ _ =>
      hrest s₃ (h₁.trans (h₂.trans h₃))

/-- Counting five more items, and going on with the position after them. -/
theorem acts_nextPos (h : Represents W m c fs) {rest : Value (.int 64) → Emit Unit}
    {r : Option (Exit Lbl × Machine Slot)}
    (hrest : ∀ nextPos s', nextPos.Is W s' (BitVec.ofNat 64 (5 * fs.length + 5)) →
      Acts W s' (m.set .callItemCnt 0 (BitVec.ofNat 64 (5 * fs.length + 5))) (rest nextPos) r) :
    Acts W s m (do
      let count ← createLoad (.int 64) (.slot .callItemCnt)
      let nextPos ← createBinOp .add count (getInt64 5)
      createStore nextPos (.slot .callItemCnt)
      rest nextPos : Emit Unit) r := by
  have hadd : BinOp.add.eval (BitVec.ofNat 64 (5 * fs.length)) 5 =
      some (BitVec.ofNat 64 (5 * fs.length + 5)) :=
    congrArg some (BitVec.ofNat_add _ _).symm
  exact (yields_count h).bind_acts fun count s₁ _ hcount =>
    (yields_createBinOp hcount (is_const 5) hadd).bind_acts fun nextPos s₂ _ hnext =>
    (does_count h.allocated hnext).bind_acts fun _ s₃ h₃ _ => hrest nextPos s₃ (hnext.mono h₃)

/-- A local call pushes a frame, and goes to the function. -/
theorem acts_emitLocalCall (h : Represents W m c fs) (hlt : fs.length < CALL_STACK_SIZE)
    (hr : Begins x.insts (toUInt16 (pc + 1)) ∧ ReturnsTo x.insts (toUInt16 (pc + 1)))
    (hd : Begins x.insts (callDst pc inst)) :
    Acts W s m (emitLocalCall (prepared x extFuncNames lddwHelpers) pc inst)
      (some (.goto (.inst (callDst pc inst)), withCore (pushItems m fs.length
        (W.blockAddr (.inst (toUInt16 (pc + 1)))) c) c.enter)) := by
  have hlt' : fs.length < 64 := hlt
  -- The machines between the stores of the items.
  have hm₁ := h.allocated.set .callItemCnt 0 (BitVec.ofNat 64 (5 * fs.length + 5))
  have hm₂ := hm₁.set .callStack (5 * fs.length + 4) (W.blockAddr (.inst (toUInt16 (pc + 1))))
  have hm₃ := hm₂.set .callStack (5 * fs.length + 3) (c.regs 6)
  have hm₄ := hm₃.set .callStack (5 * fs.length + 2) (c.regs 7)
  have hm₅ := hm₄.set .callStack (5 * fs.length + 1) (c.regs 8)
  have hm₆ := hm₅.set .callStack (5 * fs.length) (c.regs 9)
  rw [emitLocalCall, lookup_localFuncRetBlks, if_pos hr]
  refine acts_nextPos h fun nextPos s₃ hnext =>
    (does_pure (Q := fun blk _ => blk = .inst (toUInt16 (pc + 1))) rfl).bind_acts
      fun retBlk s₄ h₄ hret => ?_
  subst hret
  -- The return address, then the registers.
  have hnext₄ := hnext.mono h₄
  have hsize : 5 * fs.length + 4 < (m.set .callItemCnt 0
      (BitVec.ofNat 64 (5 * fs.length + 5))).size .callStack := by
    rw [hm₁.callStack]
    omega
  refine (yields_emitCallStackItem hnext₄ (i := 1) (by omega) (by omega)).bind_acts
    fun addr s₅ h₅ haddr =>
    (does_createStore (is_blockAddress _) haddr (store_slot_ptr hsize _)).bind_acts
    fun _ s₆ h₆ _ => ?_
  have hnext₆ := hnext₄.mono (h₅.trans h₆)
  refine ((does_saveReg hm₂ (c := c) (by simp [h.core]) hnext₆ hlt (i := 6) (by decide)
      (by decide)).bind
    fun _ s₇ h₇ _ => (does_saveReg hm₃ (c := c) (by simp [h.core]) (hnext₆.mono h₇) hlt (i := 7)
      (by decide) (by decide)).bind
    fun _ s₈ h₈ _ => (does_saveReg hm₄ (c := c) (by simp [h.core]) (hnext₆.mono (h₇.trans h₈)) hlt
      (i := 8) (by decide) (by decide)).bind
    fun _ s₉ h₉ _ => (does_saveReg hm₅ (c := c) (by simp [h.core])
      (hnext₆.mono (h₇.trans (h₈.trans h₉))) hlt (i := 9) (by decide) (by decide)).bind
    fun _ s₁₀ _ _ => does_pure (Q := fun _ _ => True) trivial).bind_acts fun _ s₁₁ _ _ => ?_
  refine acts_moveStack hm₆ (c := c) (by simp [h.core]) rfl ?_
  intro s₁₂ _
  have e : loadCallDstBlock pc inst (prepared x extFuncNames lddwHelpers).instBlocks =
      .ok (.inst (callDst pc inst)) := loadBlock_ok hd
  rw [e, ofExcept_ok_bind]
  exact acts_createBr _

/-- A local call with a full call stack writes outside of it. -/
theorem acts_emitLocalCall_none (h : Represents W m c fs) (hfull : ¬fs.length < CALL_STACK_SIZE)
    (hr : Begins x.insts (toUInt16 (pc + 1)) ∧ ReturnsTo x.insts (toUInt16 (pc + 1))) :
    Acts W s m (emitLocalCall (prepared x extFuncNames lddwHelpers) pc inst) none := by
  have hlen : fs.length = 64 := le_antisymm h.depth (Nat.not_lt.1 hfull)
  rw [emitLocalCall, lookup_localFuncRetBlks, if_pos hr]
  refine acts_nextPos h fun nextPos s₃ hnext =>
    (does_pure (Q := fun _ _ => True) trivial).bind_acts fun retBlk s₄ h₄ _ =>
    (yields_emitCallStackItem (hnext.mono h₄) (i := 1) (by omega) (by omega)).bind_acts
      fun addr s₅ h₅ haddr => ?_
  have hsize : ¬5 * fs.length + 5 - 1 < (m.set .callItemCnt 0
      (BitVec.ofNat 64 (5 * fs.length + 5))).size .callStack := by
    rw [(h.allocated.set _ _ _).callStack]
    omega
  have hstore : (m.set .callItemCnt 0 (BitVec.ofNat 64 (5 * fs.length + 5))).store
      (.slot .callStack (5 * fs.length + 5 - 1)) (t := .ptr) (.flat (W.blockAddr retBlk)) = none :=
    if_neg hsize
  exact (acts_createStore (is_blockAddress _) haddr hstore).bind_none

/-! ## Returns -/

/-- An exit returns from the local function, if there is one. -/
theorem acts_exit {p : Program} {patch : Bool} (h : Represents W m c fs) :
    Acts W s m (emitCase x p patch pc inst .exit)
      (some (.goto (if fs.isEmpty then .exitBlock else .localRetBlock), m)) := by
  have hzero : Pred.eval (BitVec.ofNat 64 (5 * fs.length)) 0 .eq = fs.isEmpty := by
    have hlen : fs.length ≤ 64 := h.depth
    cases fs with
    | nil => rfl
    | cons f fs =>
      refine beq_false_of_ne ?_
      intro h0
      have := congrArg BitVec.toNat h0
      rw [BitVec.toNat_ofNat, List.length_cons] at this
      rw [List.length_cons] at hlen
      change _ = 0 at this
      omega
  refine (yields_count h).bind_acts fun count s₁ _ hcount =>
    (yields_createICmp .eq hcount (is_const 0)).bind_acts fun isZero s₂ _ hisZero => ?_
  rw [hzero] at hisZero
  exact acts_createCondBr _ _ hisZero

/-- The exit block returns `r0`. -/
theorem acts_emitExitBlock (hm : Allocated m) :
    Acts W s (withCore m c) emitExitBlock (some (.ret (c.reg 0), withCore m c)) :=
  (yields_load_reg64 hm (r := 0) (by decide)).bind_acts fun _ _ _ hr0 => acts_createRet hr0

theorem set_reg_withCore (m : Machine Slot) (c : Core) (i : ℕ) (v : BitVec 64) :
    (withCore m c).set (.reg i) 0 v = withCore m { c with regs := Function.update c.regs i v } := by
  simp only [Machine.set, withCore, Machine.mk.injEq, and_true]
  funext s k
  by_cases hs : s = .reg i
  · subst hs
    cases k <;> simp
  · rw [Function.update_of_ne hs]
    split
    · next j =>
      have hj : j ≠ i := fun hj => hs (hj ▸ rfl)
      exact (Function.update_of_ne hj _ _).symm
    · rfl

/-- Restoring a register. -/
theorem does_restoreReg {pos : Value (.int 64)} {n i : ℕ} (hm : Allocated m)
    (hpos : pos.Is W s (BitVec.ofNat 64 (5 * n + 5))) (hn : n < CALL_STACK_SIZE) (h₆ : 6 ≤ i)
    (h₉ : i ≤ 9) (hv : m.slot .callStack (5 * n + (9 - i)) = v) :
    Does W s (withCore m c) (do
      let item ← emitCallStackItem pos (i - 4)
      let v ← createLoad (.int 64) item
      createStore v (.slot (.reg i)) : Emit Unit)
      (withCore m { c with regs := Function.update c.regs i v }) fun _ _ => True := by
  subst hv
  have hn' : n < 64 := hn
  have hi : 5 * n + 5 - (i - 4) = 5 * n + (9 - i) := by omega
  have hsize : 5 * n + (9 - i) < (withCore m c).size .callStack := by
    rw [(hm.withCore c).callStack]
    omega
  have hreg : 0 < (withCore m c).size (.reg i) := by
    rw [(hm.withCore c).reg i (by omega)]
    exact Nat.one_pos
  refine (yields_emitCallStackItem hpos (i := i - 4) (by omega) (by omega)).bind
    fun item s₁ _ hitem => ?_
  rw [hi] at hitem
  rw [← set_reg_withCore]
  exact (yields_createLoad hitem (load_slot hsize)).bind fun a s₂ _ ha =>
    does_createStore ha (is_slot _) (store_slot hreg _)

/-- The machine after a return from a local function to the frame `f`. -/
def popItems (m : Machine Slot) (c : Core) (f : Frame) (n : ℕ) : Machine Slot :=
  withCore (m.set .callItemCnt 0 (BitVec.ofNat 64 (5 * n))) (c.leave f)

theorem represents_popItems (h : Represents W m c (f :: fs)) :
    Represents W (popItems m c f fs.length) (c.leave f) fs where
  allocated := (h.allocated.set _ _ _).withCore _
  core := rfl
  count := by
    simp [popItems]
  saved := by
    simpa [popItems] using h.saved.2.2
  depth := Nat.le_of_succ_le h.depth

theorem set_callItemCnt_withCore (m : Machine Slot) (c : Core) (k : ℕ) (v : BitVec 64) :
    (withCore m c).set .callItemCnt k v = withCore (m.set .callItemCnt k v) c := by
  simp only [Machine.set, withCore, Machine.mk.injEq, and_true]
  funext s j
  rcases s with i | _ | _ <;> rcases j with _ | j <;> simp

/-- The core with the saved registers restored, one by one. -/
def Core.restore (c : Core) (f : Frame) : Core :=
  { c with regs := Function.update (Function.update (Function.update
      (Function.update c.regs 6 (f.regs 6)) 7 (f.regs 7)) 8 (f.regs 8)) 9 (f.regs 9) }

theorem setReg_restore (c : Core) (f : Frame) :
    (c.restore f).setReg 10 (c.regs 10 + BitVec.ofNat 64 STACK_SIZE) = c.leave f := by
  refine Core.ext (funext fun i => ?_) rfl
  by_cases h : 6 ≤ i ∧ i ≤ 9
  · obtain rfl | rfl | rfl | rfl : i = 6 ∨ i = 7 ∨ i = 8 ∨ i = 9 := by omega
    all_goals rfl
  · have h₆ : i ≠ 6 := by omega
    have h₇ : i ≠ 7 := by omega
    have h₈ : i ≠ 8 := by omega
    have h₉ : i ≠ 9 := by omega
    by_cases h₁₀ : i = 10
    · subst h₁₀
      rfl
    · simp only [Core.leave, if_neg h, if_neg h₁₀]
      rw [Core.regs_setReg_of_ne _ _ _ (show i ≠ (10 : BitVec 4).toNat from h₁₀)]
      simp [Core.restore, h₆, h₇, h₈, h₉]

/-- The return block pops a frame, and goes to its block, which is listed. -/
theorem acts_emitLocalRetBlock {dests : List Lbl} (hW : W.Separates dests)
    (h : Represents W m c (f :: fs)) (hret : .inst f.ret ∈ dests) :
    Acts W s m (emitLocalRetBlock dests)
      (some (.goto (.inst f.ret), popItems m c f fs.length)) := by
  have hdepth : fs.length < CALL_STACK_SIZE := h.depth
  have hdepth' : fs.length < 64 := hdepth
  have hm := h.allocated
  obtain ⟨hsret, hsregs, -⟩ := h.saved
  have hcount := yields_count (s := s) h
  rw [List.length_cons, Nat.mul_add, Nat.mul_one] at hcount
  have hmc : m = withCore m c := by
    rw [← h.core, withCore_coreOf]
  -- The count of items goes down by the five of a frame.
  have hsub : BinOp.sub.eval (BitVec.ofNat 64 (5 * fs.length + 5)) 5 =
      some (BitVec.ofNat 64 (5 * fs.length)) := by
    refine congrArg some ?_
    rw [BitVec.ofNat_add]
    exact BitVec.add_sub_cancel _ _
  have hsize : 5 * fs.length + 4 < m.size .callStack := by
    rw [hm.callStack]
    omega
  refine hcount.bind_acts fun count s₁ _ hcnt =>
    (yields_emitCallStackItem hcnt (i := 1) (by omega) (by omega)).bind_acts
      fun addr s₂ h₂ haddr =>
    (yields_createLoad haddr (load_slot_ptr hsize)).bind_acts fun target s₃ h₃ htarget => ?_
  have hcnt₃ := hcnt.mono (h₂.trans h₃)
  rw [hmc]
  refine ((does_restoreReg hm hcnt₃ hdepth (i := 6) (by decide) (by decide)
      (hsregs 6 (by decide) (by decide))).bind
    fun _ s₄ h₄ _ => (does_restoreReg hm (hcnt₃.mono h₄) hdepth (i := 7) (by decide) (by decide)
      (hsregs 7 (by decide) (by decide))).bind
    fun _ s₅ h₅ _ => (does_restoreReg hm (hcnt₃.mono (h₄.trans h₅)) hdepth (i := 8) (by decide)
      (by decide) (hsregs 8 (by decide) (by decide))).bind
    fun _ s₆ h₆ _ => (does_restoreReg hm (hcnt₃.mono (h₄.trans (h₅.trans h₆))) hdepth (i := 9)
      (by decide) (by decide) (hsregs 9 (by decide) (by decide))).bind
    fun _ s₇ _ _ => does_pure (Q := fun _ _ => True) trivial).bind_acts fun _ s₇ h₇ _ =>
    (yields_createBinOp (hcnt₃.mono h₇) (is_const 5) hsub).bind_acts fun count' s₈ h₈ hcount' =>
    (does_count (hm.withCore _) hcount').bind_acts fun _ s₉ h₉ _ =>
    acts_moveStack (c := c.restore f) (v := c.regs 10 + BitVec.ofNat 64 STACK_SIZE)
      ((hm.withCore _).set _ _ _) (coreOf_set_callItemCnt _ _ _) rfl fun s₁₀ h₁₀ => ?_
  -- The address that has been loaded first is still the one to go to.
  have htarget' : target.Is W s₁₀ (.flat (W.blockAddr (.inst f.ret))) := by
    rw [← hsret]
    exact htarget.mono (h₇.trans (h₈.trans (h₉.trans h₁₀)))
  rw [popItems, set_callItemCnt_withCore, set_callItemCnt_withCore, withCore_withCore,
    withCore_withCore, setReg_restore]
  exact acts_createIndirectBr hW hret htarget'

/-! ## The entry -/

/-- The end of the data stack, which begins at the place of the first result. -/
def stackEnd (W : World Lbl) : BitVec 64 :=
  W.place 0 + BitVec.ofNat 64 (8 * (STACK_SIZE * MAX_LOCAL_FUNC_DEPTH))

/-- The core at the first instruction. The other registers are not initialized. -/
def startCore (W : World Lbl) (m : Machine Slot) : Core where
  regs i :=
    if i = 1 then W.args 0 else if i = 2 then W.args 1 else if i = 10 then stackEnd W
    else m.slot (.reg i) 0
  mem := m.mem

theorem does_allocas (l : List ℕ) :
    ∃ size : Slot → ℕ, (∀ x, size x = if x ∈ l.map .reg then 1 else m.size x) ∧
      Does W s m (l.forM fun i => createAlloca (.reg i) 1 : Emit Unit) { m with size := size }
        fun _ s' => s' = s := by
  induction l generalizing m with
  | nil => exact ⟨m.size, fun x => by simp, does_pure rfl⟩
  | cons i l ih =>
    obtain ⟨size, hsize, hdoes⟩ := ih (m := { m with size := Function.update m.size (.reg i) 1 })
    have hi : Does W s m (createAlloca (.reg i) 1 : Emit Unit)
        { m with size := Function.update m.size (.reg i) 1 } fun _ s' => s' = s :=
      does_emitVoid rfl rfl
    refine ⟨size, fun x => ?_, hi.bind fun _ s' _ hs' => hs' ▸ hdoes⟩
    rw [hsize]
    by_cases hx : x = .reg i
    · subst hx
      simp
    · simp [hx]

/-- The machine after the setup block, the registers having been allocated. -/
def setupMachine (W : World Lbl) (m : Machine Slot) : Machine Slot :=
  let m' := ((m.set (.reg 10) 0 (stackEnd W)).set (.reg 1) 0 (W.args 0)).set (.reg 2) 0 (W.args 1)
  { m' with
    size := Function.update (Function.update m.size .callStack (CALL_STACK_SIZE * 5))
      .callItemCnt 1 }.set .callItemCnt 0 0

theorem represents_setupMachine (h : ∀ i ≤ 10, m.size (.reg i) = 1) :
    Represents W (setupMachine W m) (startCore W m) [] where
  allocated := ⟨fun i hi => by simp [setupMachine, Machine.set, h i hi],
    by simp [setupMachine, Machine.set, CALL_STACK_SIZE], by simp [setupMachine, Machine.set]⟩
  core := by
    refine Core.ext (funext fun i => ?_) rfl
    by_cases h₁ : i = 1
    · subst h₁
      simp [coreOf, setupMachine, startCore, Machine.set]
    by_cases h₂ : i = 2
    · subst h₂
      simp [coreOf, setupMachine, startCore, Machine.set]
    by_cases h₁₀ : i = 10
    · subst h₁₀
      simp [coreOf, setupMachine, startCore, Machine.set]
    · simp [coreOf, setupMachine, startCore, Machine.set, h₁, h₂, h₁₀]
  count := by
    simp [setupMachine]
  saved := trivial
  depth := Nat.zero_le _

/-- The setup block allocates the slots, and starts with an empty call stack. -/
theorem acts_emitSetupBlock (e : Env Slot) (m : Machine Slot) :
    ∃ m', Acts W ⟨0, e⟩ m emitSetupBlock (some (.fall, m')) ∧
      Represents W m' (startCore W m) [] := by
  -- All registers have a slot of one cell each.
  obtain ⟨size, hsize, hregs⟩ := does_allocas (W := W) (s := ⟨0, e⟩) (m := m) (List.range 11)
  have hreg (i : ℕ) (hi : i ≤ 10) : size (.reg i) = 1 := by
    rw [hsize, if_pos (List.mem_map_of_mem (List.mem_range.2 (Nat.lt_succ_of_le hi)))]
  have hlt (i : ℕ) (hi : i ≤ 10) : 0 < size (.reg i) := by
    rw [hreg i hi]
    exact Nat.one_pos
  refine ⟨setupMachine W { m with size := size }, hregs.bind_acts fun _ s₁ _ hs₁ => ?_,
    represents_setupMachine hreg⟩
  subst hs₁
  refine Does.bind_acts (does_emit (t := .ptr) (v := .flat (W.place 0)) rfl)
    fun stackBegin s₂ _ hbegin =>
    (yields_createGEP hbegin (is_const _) rfl).bind_acts fun stackEnd' s₃ _ hend =>
    (does_createStore hend (is_slot _) (store_slot_ptr (hlt 10 (by decide)) _)).bind_acts
      fun _ s₄ _ _ =>
    (does_createStore (is_argPtr 0) (is_slot _) (store_slot_ptr (hlt 1 (by decide)) _)).bind_acts
      fun _ s₅ _ _ =>
    (does_createStore (is_argInt 1) (is_slot _) (store_slot (hlt 2 (by decide)) _)).bind_acts
      fun _ s₆ _ _ =>
    (does_emitVoid (Q := fun _ _ => True) rfl trivial).bind_acts fun _ s₇ _ _ =>
    (does_emitVoid (Q := fun _ _ => True) rfl trivial).bind_acts fun _ s₈ _ _ => ?_
  have hstore := does_createStore (W := W) (s := s₈) (ε := Failure) (is_const 0)
    (is_slot .callItemCnt) (store_slot (m := { m with
      slot := (((Machine.set { m with size := size } (.reg 10) 0 (stackEnd W)).set (.reg 1) 0
        (W.args 0)).set (.reg 2) 0 (W.args 1)).slot
      size := Function.update (Function.update size .callStack (CALL_STACK_SIZE * 5))
        .callItemCnt 1 }) (s := .callItemCnt) (k := 0) (by simp) 0)
  exact hstore.acts

end

end EbpfJit
