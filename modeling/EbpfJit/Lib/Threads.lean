import EbpfJit.Lib.IrSpec
import EbpfJit.Lib.Reduction

/-!
# Threads

Functions that run side by side share the flat memory; their results and stack slots are
their own. An instruction shares if it works on the flat memory.

* `step_put`: the other instructions do not depend on it, nor change it;
* `sharings`: how many instructions of a piece of code may share, which can be told from
  the code, as far as it is known which pointers point into slots;
* `length_trace_shares_le`: no more do in a run.
-/

namespace Ir

open ByteMemory Transition

variable {ι σ : Type}

/-- The flat memory. -/
def Config.flat : Part (Config ι σ) (Mem 64) where
  get c := c.m.mem
  put mem c := { c with m := { c.m with mem := mem } }
  get_put _ _ := rfl
  put_put _ _ _ := rfl
  put_get _ := rfl

/-- The final result with another flat memory. -/
def Halt.withMem (mem : Mem 64) : Halt σ → Halt σ
  | .ret v m => .ret v { m with mem := mem }
  | .ub => .ub

/-- What a final result leaves of the flat memory: what there is. -/
def Halt.Left : Halt σ → Mem 64 → Mem 64 → Prop
  | .ret _ m, _, mem => mem = m.mem
  | .ub, mem', mem => mem = mem'

theorem Halt.left_withMem (mem : Mem 64) (r : Halt σ) (mem' : Mem 64) :
    (r.withMem mem).Left mem mem' ↔ mem' = mem := by
  cases r <;> rfl

theorem Halt.withMem_withMem (mem mem' : Mem 64) (r : Halt σ) :
    (r.withMem mem').withMem mem = r.withMem mem := by
  cases r <;> rfl

theorem Halt.exists_withMem (r : Halt σ) : ∃ mem, r.withMem mem = r := by
  cases r with
  | ret v m => exact ⟨m.mem, rfl⟩
  | ub => exact ⟨fun _ => 0, rfl⟩

/-- The pointer points into the flat memory. -/
def Ptr.isFlat : Ptr σ → Bool
  | .flat _ => true
  | .slot _ _ => false

/-- The instruction works on the flat memory. -/
def Instr.shares (W : World ι) (e : Env σ) : Instr ι σ → Bool
  | .load _ _ p | .store _ p => (p.eval W e).isFlat
  | .call .. | .atomicrmw .. | .cmpxchg .. => true
  | _ => false

/-- The next instruction of a run does. -/
def Config.shares (F : Fn ι σ) (W : World ι) (c : Config ι σ) : Bool :=
  (F.code c.block)[c.ip]?.any (·.shares W c.env)

variable [DecidableEq σ] {F : Fn ι σ} {W : World ι} {i : Instr ι σ} {e e' : Env σ}
  {m m' : Machine σ} {c : Config ι σ} {code : List (Instr ι σ)} {l : ι} {ip k : ℕ}

/-! ## Private instructions -/

omit [DecidableEq σ] in
theorem load_mem {p : Ptr σ} (h : p.isFlat = false) (m : Machine σ) (ty : Ty) (mem : Mem 64) :
    Machine.load { m with mem := mem } p ty = m.load p ty := by
  cases p with
  | flat a => cases h
  | slot s k => cases ty <;> rfl

theorem store_mem {p : Ptr σ} (h : p.isFlat = false) (m : Machine σ) {ty : Ty} (v : Val σ ty)
    (mem : Mem 64) : Machine.store { m with mem := mem } p v =
      (m.store p v).map fun m' => { m' with mem := mem } := by
  cases p with
  | flat a => cases h
  | slot s k =>
    cases ty with
    | int w =>
      rw [Machine.store, Machine.store, apply_ite (Option.map _)]
      rfl
    | ptr =>
      cases v with
      | flat b =>
        rw [Machine.store, Machine.store, apply_ite (Option.map _)]
        rfl
      | slot s' k' => rfl

/-- What an instruction that does not share does is the same whatever the flat memory is. -/
theorem exec_mem (h : i.shares W e = false) (mem : Mem 64) :
    i.exec W e { m with mem := mem } =
      (i.exec W e m).map fun r => (r.1, r.2.1, { r.2.2 with mem := mem }) := by
  cases i with
  | binop id op a b =>
    rw [Instr.exec, Instr.exec, Option.map_map]
    rfl
  | gep id size p i =>
    rw [Instr.exec, Instr.exec, Option.map_map]
    rfl
  | load id ty p =>
    rw [Instr.exec, load_mem h, Instr.exec, Option.map_map]
    rfl
  | store v p =>
    rw [Instr.exec, store_mem h, Instr.exec, Option.map_map, Option.map_map]
    rfl
  | call | atomicrmw | cmpxchg => cases h
  | indirectbr a dests =>
    rw [Instr.exec, Instr.exec]
    cases a.eval W e with
    | flat v =>
      rw [Option.map_map]
      rfl
    | slot s k => rfl
  | _ => rfl

theorem step_put (h : c.shares F W = false) (mem : Mem 64) :
    step F W (Config.flat.put mem c) =
      (step F W c).map (Config.flat.put mem) (Halt.withMem mem) := by
  rw [step, step]
  cases hi : (F.code c.block)[c.ip]? with
  | none =>
    rw [show (F.code (Config.flat.put mem c).block)[(Config.flat.put mem c).ip]? = none from hi]
    rfl
  | some i =>
    rw [show (F.code (Config.flat.put mem c).block)[(Config.flat.put mem c).ip]? = some i from hi]
    rw [Config.shares, hi] at h
    have hx : i.exec W (Config.flat.put mem c).env (Config.flat.put mem c).m =
        (i.exec W c.env c.m).map fun r => (r.1, r.2.1, { r.2.2 with mem := mem }) := exec_mem h mem
    simp only [hx]
    rcases i.exec W c.env c.m with _ | ⟨_ | l | v, e', m'⟩ <;> rfl

/-! ## Counting -/

/-- The pointer points into a slot, if the results named in `ids` do. -/
def Operand.inSlot (ids : List ℕ) : Operand ι σ .ptr → Bool
  | .slot _ => true
  | .tmp id => decide (id ∈ ids)
  | _ => false

/-- The results that point into slots after the instruction, if those named in `ids` do
    before. -/
def Instr.inSlots (ids : List ℕ) : Instr ι σ → List ℕ
  | .gep id _ p _ => if p.inSlot ids then id :: ids else ids.filter (· ≠ id)
  | .allocaMem id _ | .load id _ _ => ids.filter (· ≠ id)
  | _ => ids

/-- The instruction does not share, if the results named in `ids` point into slots. -/
def Instr.isPrivate (ids : List ℕ) : Instr ι σ → Bool
  | .load _ _ p | .store _ p => p.inSlot ids
  | .call .. | .atomicrmw .. | .cmpxchg .. => false
  | _ => true

/-- How many instructions may share, if the results named in `ids` point into slots. -/
def sharings (ids : List ℕ) : List (Instr ι σ) → ℕ
  | [] => 0
  | i :: code => (if i.isPrivate ids then 0 else 1) + sharings (i.inSlots ids) code

/-- The results named in `ids` point into slots. -/
def Env.InSlots (e : Env σ) (ids : List ℕ) : Prop := ∀ id ∈ ids, (e .ptr id).isFlat = false

variable {ids : List ℕ}

omit [DecidableEq σ] in
theorem Env.inSlots_nil (e : Env σ) : e.InSlots [] := fun _ hid => absurd hid List.not_mem_nil

omit [DecidableEq σ] in
theorem isFlat_of_inSlot {p : Operand ι σ .ptr} (h : p.inSlot ids = true) (he : e.InSlots ids) :
    (p.eval W e).isFlat = false := by
  cases p with
  | slot s => rfl
  | tmp id => exact he id (of_decide_eq_true h)
  | _ => cases h

omit [DecidableEq σ] in
theorem not_shares_of_isPrivate (h : i.isPrivate ids = true) (he : e.InSlots ids) :
    i.shares W e = false := by
  cases i with
  | load id ty p => exact isFlat_of_inSlot h he
  | store v p => exact isFlat_of_inSlot h he
  | call | atomicrmw | cmpxchg => cases h
  | _ => rfl

omit [DecidableEq σ] in
theorem Env.InSlots.filter {id : ℕ} {ty : Ty} (h : e.InSlots ids) (v : Val σ ty) :
    (e.set id v).InSlots (ids.filter (· ≠ id)) := by
  intro id' hid
  obtain ⟨hid, hne⟩ := List.mem_filter.1 hid
  rw [Env.set_of_ne _ _ (by simpa using hne)]
  exact h id' hid

omit [DecidableEq σ] in
/-- An integer leaves the pointers alone. -/
theorem Env.InSlots.int {id w : ℕ} (h : e.InSlots ids) (v : BitVec w) :
    (e.set (t := .int w) id v).InSlots ids := by
  intro id' hid
  rw [Env.set, dif_neg (by simp)]
  exact h id' hid

theorem Env.InSlots.exec (h : e.InSlots ids) {x : Exit ι}
    (hx : i.exec W e m = some (x, e', m')) : e'.InSlots (i.inSlots ids) := by
  cases i with
  | alloca => cases hx; exact h
  | allocaMem => cases hx; exact h.filter _
  | binop id op a b =>
    obtain ⟨v, -, hx⟩ := Option.map_eq_some_iff.1 hx
    cases hx
    exact h.int v
  | icmp | select | zext | trunc => cases hx; exact h.int _
  | gep id size p i =>
    obtain ⟨q, hq, hx⟩ := Option.map_eq_some_iff.1 hx
    cases hx
    rw [Instr.inSlots]
    split
    · next hp =>
      intro id' hid
      by_cases hne : id' = id
      · subst hne
        rw [Env.set_self]
        have hp' := isFlat_of_inSlot (W := W) hp h
        generalize p.eval W e = r at hq hp'
        cases r with
        | flat a => cases hp'
        | slot s k =>
          rw [Ptr.gep] at hq
          split at hq
          · cases hq
            rfl
          · cases hq
      · rw [Env.set_of_ne _ _ hne]
        exact h id' ((List.mem_cons.1 hid).resolve_left hne)
    · exact h.filter _
  | load id ty p =>
    obtain ⟨v, -, hx⟩ := Option.map_eq_some_iff.1 hx
    cases hx
    exact h.filter _
  | store v p =>
    obtain ⟨m₁, -, hx⟩ := Option.map_eq_some_iff.1 hx
    cases hx
    exact h
  | call id f args => cases hx; exact h.int _
  | atomicrmw id op p v align =>
    rw [Instr.exec] at hx
    split at hx
    · split at hx
      · cases hx
        exact h.int _
      · cases hx
    · cases hx
  | cmpxchg p cmp new =>
    rw [Instr.exec] at hx
    split at hx
    · split at hx
      · cases hx
        exact h
      · cases hx
        exact h
    · cases hx
  | ret | br | condbr => cases hx; exact h
  | indirectbr a dests =>
    rw [Instr.exec] at hx
    split at hx
    · obtain ⟨l, -, hx⟩ := Option.map_eq_some_iff.1 hx
      cases hx
      exact h
    · cases hx

/-- A run through the code shares no more often than can be told from the code. -/
theorem length_trace_shares_le (h : CodeAt F l ip code) (he : e.InSlots ids)
    (hrun : ∀ j < k, ∃ e' m', iter (step F W) j ⟨l, ip, e, m⟩ = .cont ⟨l, ip + j, e', m'⟩)
    (hk : k ≤ code.length) :
    (trace (step F W) (Config.shares F W) k ⟨l, ip, e, m⟩).length ≤ sharings ids code := by
  induction code generalizing ip e m ids k with
  | nil =>
    obtain rfl := Nat.le_zero.1 hk
    exact Nat.zero_le _
  | cons i is ih =>
    cases k with
    | zero => exact Nat.zero_le _
    | succ k =>
      have hfst : (if Config.shares F W ⟨l, ip, e, m⟩ then [(⟨l, ip, e, m⟩ : Config ι σ)]
          else []).length ≤ if i.isPrivate ids then 0 else 1 := by
        by_cases hi : i.isPrivate ids = true
        · have hsh : Config.shares F W ⟨l, ip, e, m⟩ = false := by
            rw [Config.shares, h.head]
            exact not_shares_of_isPrivate hi he
          rw [hsh]
          exact Nat.zero_le _
        · rw [if_neg hi]
          split <;> simp
      rw [trace, List.length_append, sharings]
      refine Nat.add_le_add hfst ?_
      have hs := step_eq_afterCode (W := W) (e := e) (m := m) h.head
      cases k with
      | zero => 
        split
        · exact Nat.zero_le _
        · exact Nat.zero_le _
      | succ k =>
        -- The run goes on to the next instruction.
        obtain ⟨e₁, m₁, h₁⟩ := hrun 1 (by omega)
        rw [iter_one] at h₁
        rw [h₁]
        refine ih h.tail ?_ (fun j hj => ?_) (Nat.le_of_succ_le_succ hk)
        · rw [h₁] at hs
          rcases hx : i.exec W e m with _ | ⟨_ | l' | v, e', m'⟩
          · rw [hx] at hs; cases hs
          · rw [hx] at hs
            cases hs
            exact he.exec hx
          · rw [hx] at hs
            cases hs
          · rw [hx] at hs; cases hs
        · obtain ⟨e', m', hj'⟩ := hrun (j + 1) (by omega)
          refine ⟨e', m', ?_⟩
          rw [iter_succ_of_cont h₁] at hj'
          rw [hj', Nat.add_right_comm, Nat.add_assoc]

/-! ## Builders -/

/-- The results that point into slots after the code, if those named in `ids` do before. -/
def inSlotsAfter (ids : List ℕ) (code : List (Instr ι σ)) : List ℕ :=
  code.foldl (fun ids i => i.inSlots ids) ids

omit [DecidableEq σ] in
theorem sharings_append (ids : List ℕ) (code code' : List (Instr ι σ)) :
    sharings ids (code ++ code') = sharings ids code + sharings (inSlotsAfter ids code) code' := by
  induction code generalizing ids with
  | nil => exact (Nat.zero_add _).symm
  | cons i code ih =>
    rw [List.cons_append, sharings, sharings, ih, Nat.add_assoc]
    rfl

namespace Builder

variable {ε α β : Type} {b b' : Builder ι σ ε α} {f : α → Builder ι σ ε β} {n n' : ℕ}

/-- No more than `n` of the instructions that the builder appends may share, if the results
    named in `ids` point into slots. -/
def SharesAtMost (ids : List ℕ) (n : ℕ) (b : Builder ι σ ε α) : Prop :=
  ∀ m a m' code ids', ids ⊆ ids' → b m = .ok (a, m', code) → sharings ids' code ≤ n

/-- None of them share. -/
abbrev Private (ids : List ℕ) (b : Builder ι σ ε α) : Prop := SharesAtMost ids 0 b

section

omit [DecidableEq σ]

theorem SharesAtMost.mono (h : SharesAtMost ids n b) (hn : n ≤ n') : SharesAtMost ids n' b :=
  fun m a m' code ids' hids hb => (h m a m' code ids' hids hb).trans hn

theorem SharesAtMost.bind (hb : SharesAtMost ids n b) (hf : ∀ a, SharesAtMost [] n' (f a)) :
    SharesAtMost ids (n + n') (b >>= f) := by
  intro m r m' code ids' hids h
  obtain ⟨a, m₁, c₁, c₂, h₁, h₂, rfl⟩ := bind_eq_ok h
  rw [sharings_append]
  exact Nat.add_le_add (hb _ _ _ _ _ hids h₁) (hf a _ _ _ _ _ (List.nil_subset _) h₂)

theorem Private.bind (hb : Private ids b) (hf : ∀ a, SharesAtMost [] n (f a)) :
    SharesAtMost ids n (b >>= f) := by
  have h := SharesAtMost.bind hb hf
  rwa [Nat.zero_add] at h

theorem sharesAtMost_ite {p : Prop} [Decidable p] (h : p → SharesAtMost ids n b)
    (h' : ¬p → SharesAtMost ids n b') : SharesAtMost ids n (if p then b else b') := by
  split
  · exact h ‹_›
  · exact h' ‹_›

theorem sharesAtMost_fail (e : ε) : SharesAtMost ids n (fail e : Builder ι σ ε α) := by
  rintro m a m' code ids' hids ⟨⟩

theorem private_pure (a : α) : Private ids (pure a : Builder ι σ ε α) := by
  rintro m a' m' code ids' hids ⟨⟩
  exact Nat.le_refl 0

theorem private_ofExcept (r : Except ε α) : Private ids (ofExcept r : Builder ι σ ε α) := by
  cases r with
  | ok a => exact private_pure a
  | error e => exact sharesAtMost_fail e

theorem sharesAtMost_emit {t : Ty} (i : ℕ → Instr ι σ) :
    SharesAtMost ids 1 (emit i : Builder ι σ ε (Operand ι σ t)) := by
  rintro m a m' code ids' hids ⟨⟩
  rw [sharings, sharings]
  split <;> decide

theorem sharesAtMost_emitVoid (i : Instr ι σ) :
    SharesAtMost ids 1 (emitVoid i : Builder ι σ ε Unit) := by
  rintro m a m' code ids' hids ⟨⟩
  rw [sharings, sharings]
  split <;> decide

theorem private_emit {t : Ty} {i : ℕ → Instr ι σ}
    (h : ∀ id ids', ids ⊆ ids' → (i id).isPrivate ids' = true) :
    Private ids (emit i : Builder ι σ ε (Operand ι σ t)) := by
  rintro m a m' code ids' hids ⟨⟩
  rw [sharings, sharings, if_pos (h _ _ hids)]

theorem private_emitVoid {i : Instr ι σ}
    (h : ∀ ids', ids ⊆ ids' → i.isPrivate ids' = true) :
    Private ids (emitVoid i : Builder ι σ ε Unit) := by
  rintro m a m' code ids' hids ⟨⟩
  rw [sharings, sharings, if_pos (h _ hids)]

variable {w : ℕ}

theorem private_createBinOp (op : BinOp) (x y : Operand ι σ (.int w)) :
    Private ids (createBinOp op x y : Builder ι σ ε _) := private_emit fun _ _ _ => rfl

theorem private_createZExt (w' : ℕ) (x : Operand ι σ (.int w)) :
    Private ids (createZExt w' x : Builder ι σ ε _) := by
  by_cases h : w = w'
  · subst h
    rw [createZExt_self]
    exact private_pure x
  · rw [createZExt_of_ne h]
    exact private_emit fun _ _ _ => rfl

theorem private_createTrunc (w' : ℕ) (x : Operand ι σ (.int w)) :
    Private ids (createTrunc w' x : Builder ι σ ε _) := by
  by_cases h : w = w'
  · subst h
    rw [createTrunc_self]
    exact private_pure x
  · rw [createTrunc_of_ne h]
    exact private_emit fun _ _ _ => rfl

theorem private_loadSlot (t : Ty) (s : σ) :
    Private ids (createLoad t (.slot s) : Builder ι σ ε _) := private_emit fun _ _ _ => rfl

theorem private_storeSlot {t : Ty} (v : Operand ι σ t) (s : σ) :
    Private ids (createStore v (.slot s) : Builder ι σ ε _) := private_emitVoid fun _ _ => rfl

theorem private_forM {l : List β} {g : β → Builder ι σ ε PUnit} (h : ∀ x, Private [] (g x)) :
    Private [] (l.forM g) := by
  induction l with
  | nil => exact private_pure _
  | cons x l ih => exact (h x).bind fun _ => ih

/-- An element of a slot is in the slot. -/
theorem SharesAtMost.gep {size : ℕ} {s : σ} {i : Operand ι σ (.int w)}
    {f : Operand ι σ .ptr → Builder ι σ ε β} (hf : ∀ id, SharesAtMost [id] n (f (.tmp id))) :
    SharesAtMost ids n (createGEP size (.slot s) i >>= f) := by
  intro m r m' code ids' hids h
  obtain ⟨a, m₁, c₁, c₂, h₁, h₂, rfl⟩ := bind_eq_ok h
  cases h₁
  have hin : [m] ⊆ Instr.inSlots ids' (.gep m size (.slot s) i : Instr ι σ) :=
    List.cons_subset.2 ⟨List.mem_cons_self, List.nil_subset _⟩
  have hle := hf m _ _ _ _ _ hin h₂
  rw [List.singleton_append, sharings]
  exact (Nat.zero_add _).trans_le hle

end

end Builder

end Ir
