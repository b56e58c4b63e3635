import EbpfJit.Lib.IrRun

/-!
# Building code

`Builder` is the IR builder of LLVM, as a monad: a builder is given the next free
name and, unless it fails, gives its result, the next free name, and the code it
appends at the insertion point. A conversion to the type a value already has is
the value itself, as in LLVM. Constant folding, which does not change what the
code means, is left out.
-/

namespace Ir

/-- A computation appending code at the insertion point. -/
def Builder (ι σ ε α : Type) := ℕ → Except ε (α × ℕ × List (Instr ι σ))

namespace Builder

variable {ι σ ε α β : Type}

/-- First `b`, then `f` on its result, from the next free name it leaves. -/
protected def bind (b : Builder ι σ ε α) (f : α → Builder ι σ ε β) : Builder ι σ ε β := fun n =>
  match b n with
  | .error e => .error e
  | .ok (a, n', c) => (f a n').map fun r => (r.1, r.2.1, c ++ r.2.2)

instance : Monad (Builder ι σ ε) where
  pure a n := .ok (a, n, [])
  bind := Builder.bind

/-- Fail. -/
def fail (e : ε) : Builder ι σ ε α := fun _ => .error e

/-- A result that may be an error. -/
def ofExcept : Except ε α → Builder ι σ ε α
  | .ok a => pure a
  | .error e => fail e

variable {n : ℕ} {b : Builder ι σ ε α} {f : α → Builder ι σ ε β}

@[simp] theorem pure_apply (a : α) : (pure a : Builder ι σ ε α) n = .ok (a, n, []) := rfl

theorem bind_of_ok {a : α} {n' : ℕ} {c : List (Instr ι σ)} (h : b n = .ok (a, n', c)) :
    (b >>= f) n = (f a n').map fun r => (r.1, r.2.1, c ++ r.2.2) := by
  change Builder.bind b f n = _
  rw [Builder.bind, h]

theorem bind_of_error {e : ε} (h : b n = .error e) : (b >>= f) n = .error e := by
  change Builder.bind b f n = _
  rw [Builder.bind, h]

@[simp] theorem pure_bind_apply (a : α) : ((pure a : Builder ι σ ε α) >>= f) n = f a n := by
  rw [bind_of_ok (pure_apply a)]
  rcases f a n with e | ⟨r, n'', c'⟩ <;> rfl

theorem ofExcept_ok_bind (a : α) : ((ofExcept (.ok a) : Builder ι σ ε α) >>= f) = f a :=
  funext fun _ => pure_bind_apply a

/-! ## Instructions -/

/-- Append an instruction with a result. -/
def emit {t : Ty} (i : ℕ → Instr ι σ) : Builder ι σ ε (Operand ι σ t) := fun n =>
  .ok (.tmp n, n + 1, [i n])

/-- Append an instruction without a result. -/
def emitVoid (i : Instr ι σ) : Builder ι σ ε Unit := fun n => .ok ((), n, [i])

@[simp] theorem emit_apply {t : Ty} (i : ℕ → Instr ι σ) :
    (emit i : Builder ι σ ε (Operand ι σ t)) n = .ok (.tmp n, n + 1, [i n]) := rfl

@[simp] theorem emitVoid_apply (i : Instr ι σ) :
    (emitVoid i : Builder ι σ ε Unit) n = .ok ((), n, [i]) := rfl

@[simp] theorem map_ok {γ δ : Type} (g : γ → δ) (a : γ) :
    (Except.ok a : Except ε γ).map g = .ok (g a) := rfl

variable {w : ℕ}

/-- The 64-bit constant `v`. -/
abbrev getInt64 (v : BitVec 64) : Operand ι σ (.int 64) := .const v

/-- The 32-bit constant `v`. -/
abbrev getInt32 (v : BitVec 32) : Operand ι σ (.int 32) := .const v

@[simp] def createAlloca (s : σ) (n : ℕ) : Builder ι σ ε Unit := emitVoid (.alloca s n)

@[simp] def createAllocaMem (n : ℕ) : Builder ι σ ε (Operand ι σ .ptr) :=
  emit fun id => .allocaMem id n

@[simp] def createBinOp (op : BinOp) (a b : Operand ι σ (.int w)) :
    Builder ι σ ε (Operand ι σ (.int w)) := emit fun id => .binop id op a b

@[simp] def createICmp (p : Pred) (a b : Operand ι σ (.int w)) :
    Builder ι σ ε (Operand ι σ (.int 1)) := emit fun id => .icmp id p a b

@[simp] def createSelect (c : Operand ι σ (.int 1)) (a b : Operand ι σ (.int w)) :
    Builder ι σ ε (Operand ι σ (.int w)) := emit fun id => .select id c a b

@[simp] def createNeg (a : Operand ι σ (.int w)) : Builder ι σ ε (Operand ι σ (.int w)) :=
  createBinOp .sub (.const 0#w) a

def createZExt (w' : ℕ) (a : Operand ι σ (.int w)) : Builder ι σ ε (Operand ι σ (.int w')) :=
  if h : w = w' then pure (h ▸ a) else emit fun id => .zext id w' a

def createTrunc (w' : ℕ) (a : Operand ι σ (.int w)) : Builder ι σ ε (Operand ι σ (.int w')) :=
  if h : w = w' then pure (h ▸ a) else emit fun id => .trunc id w' a

@[simp] theorem createZExt_self (a : Operand ι σ (.int w)) :
    (createZExt w a : Builder ι σ ε _) = pure a := by
  simp [createZExt]

@[simp] theorem createZExt_of_ne {w' : ℕ} (h : w ≠ w') (a : Operand ι σ (.int w)) :
    (createZExt w' a : Builder ι σ ε _) = emit fun id => .zext id w' a := by
  simp [createZExt, h]

@[simp] theorem createTrunc_self (a : Operand ι σ (.int w)) :
    (createTrunc w a : Builder ι σ ε _) = pure a := by
  simp [createTrunc]

@[simp] theorem createTrunc_of_ne {w' : ℕ} (h : w ≠ w') (a : Operand ι σ (.int w)) :
    (createTrunc w' a : Builder ι σ ε _) = emit fun id => .trunc id w' a := by
  simp [createTrunc, h]

/-- The address `i` elements of `size` bytes after `p`. -/
@[simp] def createGEP (size : ℕ) (p : Operand ι σ .ptr) (i : Operand ι σ (.int w)) :
    Builder ι σ ε (Operand ι σ .ptr) := emit fun id => .gep id size p i

@[simp] def createLoad (t : Ty) (p : Operand ι σ .ptr) : Builder ι σ ε (Operand ι σ t) :=
  emit fun id => .load id t p

@[simp] def createStore {t : Ty} (v : Operand ι σ t) (p : Operand ι σ .ptr) :
    Builder ι σ ε Unit := emitVoid (.store v p)

@[simp] def createCall (f : String) (args : List (Operand ι σ (.int 64))) :
    Builder ι σ ε (Operand ι σ (.int 64)) := emit fun id => .call id f args

@[simp] def createAtomicRMW (op : RmwOp) (p : Operand ι σ .ptr) (v : Operand ι σ (.int w))
    (align : ℕ) : Builder ι σ ε (Operand ι σ (.int w)) :=
  emit fun id => .atomicrmw id op p v align

@[simp] def createAtomicCmpXchg (p : Operand ι σ .ptr) (cmp new : Operand ι σ (.int w)) :
    Builder ι σ ε Unit := emitVoid (.cmpxchg p cmp new)

@[simp] def createRet (v : Operand ι σ (.int 64)) : Builder ι σ ε Unit := emitVoid (.ret v)

@[simp] def createBr (l : ι) : Builder ι σ ε Unit := emitVoid (.br l)

@[simp] def createCondBr (c : Operand ι σ (.int 1)) (t f : ι) : Builder ι σ ε Unit :=
  emitVoid (.condbr c t f)

@[simp] def createIndirectBr (a : Operand ι σ .ptr) (dests : List ι) : Builder ι σ ε Unit :=
  emitVoid (.indirectbr a dests)

/-! ## Shapes

Up to its end or to its terminator, code is straight. `Straight` and `EndsWith`
say so of what a builder appends, which they also say not to fail. -/

/-- No instruction of `code` is a terminator. -/
def NoTerminator (code : List (Instr ι σ)) : Prop := ∀ i ∈ code, i.isTerminator = false

/-- `b` appends code without a terminator. -/
def Straight (b : Builder ι σ ε α) : Prop :=
  ∀ n, ∃ a n' code, b n = .ok (a, n', code) ∧ NoTerminator code

/-- `b` appends code whose last instruction satisfies `P`, the other ones being no
    terminators. -/
def EndsWith (P : Instr ι σ → Prop) (b : Builder ι σ ε α) : Prop :=
  ∀ n, ∃ a n' body t, b n = .ok (a, n', body ++ [t]) ∧ NoTerminator body ∧ P t

section

variable {P : Instr ι σ → Prop}

theorem NoTerminator.append {c c' : List (Instr ι σ)} (h : NoTerminator c)
    (h' : NoTerminator c') : NoTerminator (c ++ c') := fun i hi =>
  (List.mem_append.1 hi).elim (h i) (h' i)

theorem noTerminator_nil : NoTerminator ([] : List (Instr ι σ)) := fun _ h => by cases h

theorem straight_ite {p : Prop} [Decidable p] {b' : Builder ι σ ε α} (h : p → Straight b)
    (h' : ¬p → Straight b') : Straight (if p then b else b') := by
  split
  · exact h ‹_›
  · exact h' ‹_›

theorem endsWith_ite {p : Prop} [Decidable p] {b' : Builder ι σ ε α} (h : p → EndsWith P b)
    (h' : ¬p → EndsWith P b') : EndsWith P (if p then b else b') := by
  split
  · exact h ‹_›
  · exact h' ‹_›

theorem straight_pure (a : α) : Straight (pure a : Builder ι σ ε α) := fun n =>
  ⟨a, n, [], rfl, noTerminator_nil⟩

theorem endsWith_emit {t : Ty} {i : ℕ → Instr ι σ} (h : ∀ id, P (i id)) :
    EndsWith P (emit i : Builder ι σ ε (Operand ι σ t)) := fun n =>
  ⟨_, _, [], i n, rfl, noTerminator_nil, h n⟩

theorem endsWith_emitVoid {i : Instr ι σ} (h : P i) :
    EndsWith P (emitVoid i : Builder ι σ ε Unit) := fun _ =>
  ⟨_, _, [], i, rfl, noTerminator_nil, h⟩

theorem EndsWith.straight (h : EndsWith (fun i => i.isTerminator = false) b) : Straight b := by
  intro n
  obtain ⟨a, n', body, t, hb, hbody, ht⟩ := h n
  refine ⟨a, n', body ++ [t], hb, hbody.append fun i hi => ?_⟩
  rwa [List.mem_singleton.1 hi]

theorem straight_emit {t : Ty} {i : ℕ → Instr ι σ} (h : ∀ id, (i id).isTerminator = false) :
    Straight (emit i : Builder ι σ ε (Operand ι σ t)) := (endsWith_emit h).straight

theorem straight_emitVoid {i : Instr ι σ} (h : i.isTerminator = false) :
    Straight (emitVoid i : Builder ι σ ε Unit) :=
  EndsWith.straight (endsWith_emitVoid (P := fun i => i.isTerminator = false) h)

theorem Straight.bind (hb : Straight b) (hf : ∀ a, Straight (f a)) : Straight (b >>= f) := by
  intro n
  obtain ⟨a, n₁, c₁, h₁, hc₁⟩ := hb n
  obtain ⟨r, n₂, c₂, h₂, hc₂⟩ := hf a n₁
  exact ⟨r, n₂, c₁ ++ c₂, by rw [bind_of_ok h₁, h₂]; rfl, hc₁.append hc₂⟩

theorem Straight.bind_endsWith (hb : Straight b) (hf : ∀ a, EndsWith P (f a)) :
    EndsWith P (b >>= f) := by
  intro n
  obtain ⟨a, n₁, c₁, h₁, hc₁⟩ := hb n
  obtain ⟨r, n₂, body, t, h₂, hbody, ht⟩ := hf a n₁
  exact ⟨r, n₂, c₁ ++ body, t, by rw [bind_of_ok h₁, h₂, List.append_assoc]; rfl,
    hc₁.append hbody, ht⟩

theorem EndsWith.bind_pure (hb : EndsWith P b) (g : α → β) :
    EndsWith P (b >>= fun a => pure (g a)) := by
  intro n
  obtain ⟨a, n₁, body, t, h₁, hbody, ht⟩ := hb n
  exact ⟨g a, n₁, body, t, by rw [bind_of_ok h₁]; simp, hbody, ht⟩

theorem straight_createZExt (w' : ℕ) (a : Operand ι σ (.int w)) :
    Straight (createZExt w' a : Builder ι σ ε _) := by
  by_cases h : w = w'
  · subst h
    rw [createZExt_self]
    exact straight_pure a
  · rw [createZExt_of_ne h]
    exact straight_emit fun _ => rfl

theorem straight_createTrunc (w' : ℕ) (a : Operand ι σ (.int w)) :
    Straight (createTrunc w' a : Builder ι σ ε _) := by
  by_cases h : w = w'
  · subst h
    rw [createTrunc_self]
    exact straight_pure a
  · rw [createTrunc_of_ne h]
    exact straight_emit fun _ => rfl

/-- `b` fails. -/
def Fails (b : Builder ι σ ε α) : Prop := ∀ n, ∃ e, b n = .error e

theorem fails_fail (e : ε) : Fails (fail e : Builder ι σ ε α) := fun _ => ⟨e, rfl⟩

theorem Fails.bind (hb : Fails b) : Fails (b >>= f) := fun n =>
  let ⟨e, h⟩ := hb n
  ⟨e, bind_of_error h⟩

theorem Straight.bind_fails (hb : Straight b) (hf : ∀ a, Fails (f a)) : Fails (b >>= f) := by
  intro n
  obtain ⟨a, n₁, c₁, h₁, _⟩ := hb n
  obtain ⟨e, h₂⟩ := hf a n₁
  exact ⟨e, by rw [bind_of_ok h₁, h₂]; rfl⟩

theorem Straight.forM {l : List β} {g : β → Builder ι σ ε PUnit} (h : ∀ x, Straight (g x)) :
    Straight (l.forM g) := by
  induction l with
  | nil => exact straight_pure _
  | cons x l ih => exact (h x).bind fun _ => ih

/-- `b` always fails with `e`. -/
def FailsWith (e : ε) (b : Builder ι σ ε α) : Prop := ∀ n, b n = .error e

theorem failsWith_fail (e : ε) : FailsWith e (fail e : Builder ι σ ε α) := fun _ => rfl

theorem FailsWith.bind {e : ε} (hb : FailsWith e b) : FailsWith e (b >>= f) := fun n =>
  bind_of_error (hb n)

theorem Straight.bind_failsWith {e : ε} (hb : Straight b) (hf : ∀ a, FailsWith e (f a)) :
    FailsWith e (b >>= f) := by
  intro n
  obtain ⟨a, n₁, c₁, h₁, _⟩ := hb n
  rw [bind_of_ok h₁, hf a n₁]
  rfl

/-- `b` does not fail with `e`. -/
def Never (e : ε) (b : Builder ι σ ε α) : Prop := ∀ n, b n ≠ .error e

variable {e : ε}

theorem EndsWith.never {P : Instr ι σ → Prop} (h : EndsWith P b) : Never e b := by
  intro n hb
  obtain ⟨a, n', body, t, hb', -⟩ := h n
  rw [hb'] at hb
  cases hb

theorem Straight.never (h : Straight b) : Never e b := by
  intro n hb
  obtain ⟨a, n', code, hb', -⟩ := h n
  rw [hb'] at hb
  cases hb

theorem never_fail {e' : ε} (h : e' ≠ e) : Never e (fail e' : Builder ι σ ε α) := by
  intro n hb
  cases hb
  exact h rfl

theorem never_ofExcept {r : Except ε α} (h : r ≠ .error e) :
    Never e (ofExcept r : Builder ι σ ε α) := by
  cases r with
  | ok a => exact (straight_pure a).never
  | error e' => exact never_fail fun he => h (he ▸ rfl)

theorem never_ite {p : Prop} [Decidable p] {b' : Builder ι σ ε α} (h : p → Never e b)
    (h' : ¬p → Never e b') : Never e (if p then b else b') := by
  split
  · exact h ‹_›
  · exact h' ‹_›

theorem Never.bind (hb : Never e b) (hf : ∀ a, Never e (f a)) : Never e (b >>= f) := by
  intro n h
  cases hr : b n with
  | error e' =>
    rw [bind_of_error hr] at h
    cases h
    exact hb n hr
  | ok r =>
    rw [bind_of_ok hr] at h
    cases hr' : f r.1 r.2.1 with
    | error e' =>
      rw [hr'] at h
      cases h
      exact hf r.1 r.2.1 hr'
    | ok r' =>
      rw [hr'] at h
      cases h

end

end Builder

end Ir
