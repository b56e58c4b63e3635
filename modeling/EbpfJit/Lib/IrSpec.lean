import Mathlib.Order.Defs.PartialOrder
import EbpfJit.Lib.IrBuilder

/-!
# What built code does

Rules for what the code does that a builder appends, one for each way to build a
builder, so that the code itself need not be looked at.

The results named so far are a `Scope`, which naming more results extends (`≤`).
An operand `Is` a value if it has it in all of the scopes that extend the current
one. From a machine `m`,

* a builder `Does` take `m` to `m'` if its code falls through to `m'`, with a
  result that satisfies a postcondition;
* a builder `Yields` a value if it leaves the machine as it is, its result being
  that value;
* a builder `Acts` as `r` if its code goes where `r` says, or is undefined.

All of this is about the code a builder appends, if it does not fail.
-/

namespace Ir

variable {ι σ ε α β : Type}

/-- The next free name, and the results named so far. -/
structure Scope (σ : Type) where
  next : ℕ
  env : Env σ

instance : Preorder (Scope σ) where
  le s s' := s.next ≤ s'.next ∧ ∀ t id, id < s.next → s'.env t id = s.env t id
  le_refl s := ⟨le_refl _, fun _ _ _ => rfl⟩
  le_trans s s' s'' h h' := ⟨h.1.trans h'.1, fun t id hid => by
    rw [h'.2 t id (hid.trans_le h.1), h.2 t id hid]⟩

/-- The scope `s` with one more result. -/
def Scope.push (s : Scope σ) {t : Ty} (v : Val σ t) : Scope σ := ⟨s.next + 1, s.env.set s.next v⟩

theorem Scope.le_push (s : Scope σ) {t : Ty} (v : Val σ t) : s ≤ s.push v :=
  ⟨Nat.le_succ _, fun _ _ hid => Env.set_of_ne _ _ hid.ne⟩

/-- The operand `a` is `v`, also when more results are named. -/
def Operand.Is (W : World ι) (s : Scope σ) {t : Ty} (a : Operand ι σ t) (v : Val σ t) : Prop :=
  ∀ s', s ≤ s' → a.eval W s'.env = v

section

variable {W : World ι} {s s' : Scope σ}

theorem Operand.Is.eval {t : Ty} {a : Operand ι σ t} {v : Val σ t} (h : a.Is W s v) :
    a.eval W s.env = v := h s (le_refl s)

theorem Operand.Is.mono {t : Ty} {a : Operand ι σ t} {v : Val σ t} (h : a.Is W s v)
    (hs : s ≤ s') : a.Is W s' v := fun s'' hs' => h s'' (hs.trans hs')

theorem is_const {w : ℕ} (v : BitVec w) : (Operand.const v : Operand ι σ _).Is W s v :=
  fun _ _ => rfl

theorem is_argInt (n : ℕ) : (Operand.argInt n : Operand ι σ _).Is W s (W.args n) :=
  fun _ _ => rfl

theorem is_argPtr (n : ℕ) : (Operand.argPtr n : Operand ι σ _).Is W s (Ptr.flat (W.args n)) :=
  fun _ _ => rfl

theorem is_slot (x : σ) : (Operand.slot x : Operand ι σ _).Is W s (Ptr.slot x 0) :=
  fun _ _ => rfl

theorem is_blockAddress (l : ι) :
    (Operand.blockAddress l : Operand ι σ _).Is W s (Ptr.flat (W.blockAddr l)) :=
  fun _ _ => rfl

theorem is_tmp {t : Ty} (v : Val σ t) :
    (Operand.tmp s.next : Operand ι σ t).Is W (s.push v) v := by
  intro s' hs
  exact (hs.2 t s.next (Nat.lt_succ_self _)).trans (Env.set_self _ _ _)

theorem Operand.Is.map_eval {as : List (Operand ι σ (.int 64))} {vs : List (BitVec 64)}
    (h : List.Forall₂ (fun a v => a.Is W s v) as vs) : as.map (·.eval W s.env) = vs := by
  induction h with
  | nil => rfl
  | cons ha _ ih => rw [List.map_cons, ih, ha.eval]

end

namespace Builder

variable [DecidableEq σ]

/-- The code of `b` takes the machine `m` to `m'`, with a result satisfying `Q`. -/
def Does (W : World ι) (s : Scope σ) (m : Machine σ) (b : Builder ι σ ε α) (m' : Machine σ)
    (Q : α → Scope σ → Prop) : Prop :=
  ∀ a n code, b s.next = .ok (a, n, code) → ∃ s', s'.next = n ∧ s ≤ s' ∧
    execList W code s.env m = some (.fall, s'.env, m') ∧ Q a s'

/-- The code of `b` computes `v`. -/
abbrev Yields (W : World ι) (s : Scope σ) (m : Machine σ) {t : Ty}
    (b : Builder ι σ ε (Operand ι σ t)) (v : Val σ t) : Prop :=
  Does W s m b m fun a s' => a.Is W s' v

/-- The code of `b` does `r`: it goes somewhere, or is undefined. -/
def Acts (W : World ι) (s : Scope σ) (m : Machine σ) (b : Builder ι σ ε α)
    (r : Option (Exit ι × Machine σ)) : Prop :=
  ∀ a n code, b s.next = .ok (a, n, code) → runCode W code s.env m = r

omit [DecidableEq σ] in
theorem bind_eq_ok {b : Builder ι σ ε α} {f : α → Builder ι σ ε β} {n n' : ℕ} {r : β}
    {c : List (Instr ι σ)} (h : (b >>= f) n = .ok (r, n', c)) :
    ∃ a n₁ c₁ c₂, b n = .ok (a, n₁, c₁) ∧ f a n₁ = .ok (r, n', c₂) ∧ c = c₁ ++ c₂ := by
  rcases hb : b n with e | ⟨a, n₁, c₁⟩
  · rw [bind_of_error hb] at h
    cases h
  · rw [bind_of_ok hb] at h
    rcases hf : f a n₁ with e | ⟨r', n₂, c₂⟩
    · rw [hf] at h
      cases h
    · rw [hf] at h
      cases h
      exact ⟨a, n₁, c₁, c₂, rfl, hf, rfl⟩

section

variable {W : World ι} {s : Scope σ} {m m' m'' : Machine σ} {b : Builder ι σ ε α}
  {f : α → Builder ι σ ε β} {Q : α → Scope σ → Prop} {R : β → Scope σ → Prop}
  {r : Option (Exit ι × Machine σ)} {t : Ty} {w : ℕ}

/-! ## Sequences -/

theorem Does.mono {Q' : α → Scope σ → Prop} (h : Does W s m b m' Q)
    (hQ : ∀ a s', s ≤ s' → Q a s' → Q' a s') : Does W s m b m' Q' := by
  intro a n code he
  obtain ⟨s', hn, hs, hx, ha⟩ := h a n code he
  exact ⟨s', hn, hs, hx, hQ a s' hs ha⟩

theorem does_pure {a : α} (h : Q a s) : Does W s m (pure a : Builder ι σ ε α) m Q := by
  intro a' n code he
  cases he
  exact ⟨s, rfl, le_refl s, rfl, h⟩

theorem does_fail (e : ε) : Does W s m (fail e : Builder ι σ ε α) m' Q := fun _ _ _ he => by
  cases he

theorem acts_fail (e : ε) : Acts W s m (fail e : Builder ι σ ε α) r := fun _ _ _ he => by
  cases he

theorem does_ite {p : Prop} [Decidable p] {b' : Builder ι σ ε α} (h : p → Does W s m b m' Q)
    (h' : ¬p → Does W s m b' m' Q) : Does W s m (if p then b else b') m' Q := by
  split
  · exact h ‹_›
  · exact h' ‹_›

theorem acts_ite {p : Prop} [Decidable p] {b' : Builder ι σ ε α} (h : p → Acts W s m b r)
    (h' : ¬p → Acts W s m b' r) : Acts W s m (if p then b else b') r := by
  split
  · exact h ‹_›
  · exact h' ‹_›

theorem Does.bind (hb : Does W s m b m' Q)
    (hf : ∀ a s', s ≤ s' → Q a s' → Does W s' m' (f a) m'' R) : Does W s m (b >>= f) m'' R := by
  intro r n code he
  obtain ⟨a, n₁, c₁, c₂, h₁, h₂, rfl⟩ := bind_eq_ok he
  obtain ⟨s₁, rfl, hs₁, hx₁, ha⟩ := hb a n₁ c₁ h₁
  obtain ⟨s₂, hn, hs₂, hx₂, hr⟩ := hf a s₁ hs₁ ha r n c₂ h₂
  exact ⟨s₂, hn, hs₁.trans hs₂, by rw [execList_append_fall hx₁, hx₂], hr⟩

theorem Does.bind_acts (hb : Does W s m b m' Q)
    (hf : ∀ a s', s ≤ s' → Q a s' → Acts W s' m' (f a) r) : Acts W s m (b >>= f) r := by
  intro r' n code he
  obtain ⟨a, n₁, c₁, c₂, h₁, h₂, rfl⟩ := bind_eq_ok he
  obtain ⟨s₁, rfl, hs₁, hx₁, ha⟩ := hb a n₁ c₁ h₁
  rw [runCode_append_fall hx₁, hf a s₁ hs₁ ha r' n c₂ h₂]

theorem Does.acts (h : Does W s m b m' Q) : Acts W s m b (some (.fall, m')) := by
  intro a n code he
  obtain ⟨s', _, _, hx, _⟩ := h a n code he
  rw [runCode, hx]
  rfl

/-- Nothing is done after undefined behaviour. -/
theorem Acts.bind_none (h : Acts W s m b none) : Acts W s m (b >>= f) none := by
  intro r n code he
  obtain ⟨a, n₁, c₁, c₂, h₁, -, rfl⟩ := bind_eq_ok he
  rw [runCode, execList_append_none (execList_of_runCode_eq_none (h a n₁ c₁ h₁))]
  rfl

/-! ## Instructions -/

theorem does_emit {i : ℕ → Instr ι σ} {v : Val σ t}
    (h : (i s.next).exec W s.env m = some (.fall, s.env.set s.next v, m')) :
    Does W s m (emit i : Builder ι σ ε (Operand ι σ t)) m' fun a s' => a.Is W s' v := by
  intro a n code he
  cases he
  exact ⟨s.push v, rfl, s.le_push v, execList_cons_fall h, is_tmp v⟩

theorem acts_emit {i : ℕ → Instr ι σ} (h : (i s.next).exec W s.env m = none) :
    Acts W s m (emit i : Builder ι σ ε (Operand ι σ t)) none := by
  intro a n code he
  cases he
  rw [runCode, execList, h]
  rfl

theorem does_emitVoid {i : Instr ι σ} {Q : Unit → Scope σ → Prop}
    (h : i.exec W s.env m = some (.fall, s.env, m')) (hQ : Q () s) :
    Does W s m (emitVoid i : Builder ι σ ε Unit) m' Q := by
  intro a n code he
  cases he
  exact ⟨s, rfl, le_refl s, execList_cons_fall h, hQ⟩

theorem acts_emitVoid {i : Instr ι σ} {x : Exit ι} {e : Env σ}
    (h : i.exec W s.env m = some (x, e, m')) :
    Acts W s m (emitVoid i : Builder ι σ ε Unit) (some (x, m')) := by
  intro a n code he
  cases he
  rw [runCode, execList, h]
  rcases x with _ | l | v <;> rfl

theorem acts_emitVoid_none {i : Instr ι σ} (h : i.exec W s.env m = none) :
    Acts W s m (emitVoid i : Builder ι σ ε Unit) none := by
  intro a n code he
  cases he
  rw [runCode, execList, h]
  rfl

/-! ### Values -/

theorem yields_createBinOp {op : BinOp} {a b : Operand ι σ (.int w)} {va vb v : BitVec w}
    (ha : a.Is W s va) (hb : b.Is W s vb) (h : op.eval va vb = some v) :
    Yields W s m (createBinOp op a b : Builder ι σ ε _) v :=
  does_emit (by rw [Instr.exec, ha.eval, hb.eval, h]; rfl)

theorem acts_createBinOp {op : BinOp} {a b : Operand ι σ (.int w)} {va vb : BitVec w}
    (ha : a.Is W s va) (hb : b.Is W s vb) (h : op.eval va vb = none) :
    Acts W s m (createBinOp op a b : Builder ι σ ε _) none :=
  acts_emit (by rw [Instr.exec, ha.eval, hb.eval, h]; rfl)

theorem yields_createNeg {a : Operand ι σ (.int w)} {va : BitVec w} (ha : a.Is W s va) :
    Yields W s m (createNeg a : Builder ι σ ε _) (-va) :=
  yields_createBinOp (is_const 0#w) ha (by rw [BinOp.eval, BitVec.zero_sub])

theorem yields_createICmp (p : Pred) {a b : Operand ι σ (.int w)} {va vb : BitVec w}
    (ha : a.Is W s va) (hb : b.Is W s vb) :
    Yields W s m (createICmp p a b : Builder ι σ ε _) (BitVec.ofBool (p.eval va vb)) :=
  does_emit (by rw [Instr.exec, ha.eval, hb.eval])

theorem yields_createSelect {c : Operand ι σ (.int 1)} {a b : Operand ι σ (.int w)}
    {vc : Bool} {va vb : BitVec w} (hc : c.Is W s (BitVec.ofBool vc)) (ha : a.Is W s va)
    (hb : b.Is W s vb) :
    Yields W s m (createSelect c a b : Builder ι σ ε _) (if vc then va else vb) := by
  refine does_emit ?_
  rw [Instr.exec, ha.eval, hb.eval, hc.eval]
  cases vc <;> rfl

theorem yields_createZExt {w' : ℕ} {a : Operand ι σ (.int w)} {v : BitVec w} (ha : a.Is W s v) :
    Yields W s m (createZExt w' a : Builder ι σ ε _) (v.setWidth w') := by
  by_cases h : w = w'
  · subst h
    rw [createZExt_self, BitVec.setWidth_eq]
    exact does_pure ha
  · rw [createZExt_of_ne h]
    exact does_emit (by rw [Instr.exec, ha.eval])

theorem yields_createTrunc {w' : ℕ} {a : Operand ι σ (.int w)} {v : BitVec w} (ha : a.Is W s v) :
    Yields W s m (createTrunc w' a : Builder ι σ ε _) (v.setWidth w') := by
  by_cases h : w = w'
  · subst h
    rw [createTrunc_self, BitVec.setWidth_eq]
    exact does_pure ha
  · rw [createTrunc_of_ne h]
    exact does_emit (by rw [Instr.exec, ha.eval])

theorem yields_createGEP {size : ℕ} {p : Operand ι σ .ptr} {i : Operand ι σ (.int w)}
    {vp vq : Ptr σ} {vi : BitVec w} (hp : p.Is W s vp) (hi : i.Is W s vi)
    (h : vp.gep size (vi.signExtend 64) = some vq) :
    Yields W s m (createGEP size p i : Builder ι σ ε _) vq :=
  does_emit (t := .ptr) (by rw [Instr.exec, hp.eval, hi.eval, h]; rfl)

theorem yields_createLoad {p : Operand ι σ .ptr} {vp : Ptr σ} {v : Val σ t} (hp : p.Is W s vp)
    (h : m.load vp t = some v) : Yields W s m (createLoad t p : Builder ι σ ε _) v :=
  does_emit (by rw [Instr.exec, hp.eval, h]; rfl)

/-! ### Memory -/

theorem does_createStore {a : Operand ι σ t} {p : Operand ι σ .ptr} {v : Val σ t} {vp : Ptr σ}
    (ha : a.Is W s v) (hp : p.Is W s vp) (h : m.store vp v = some m') :
    Does W s m (createStore a p : Builder ι σ ε Unit) m' fun _ _ => True :=
  does_emitVoid (by rw [Instr.exec, ha.eval, hp.eval, h]; rfl) trivial

theorem acts_createStore {a : Operand ι σ t} {p : Operand ι σ .ptr} {v : Val σ t} {vp : Ptr σ}
    (ha : a.Is W s v) (hp : p.Is W s vp) (h : m.store vp v = none) :
    Acts W s m (createStore a p : Builder ι σ ε Unit) none :=
  acts_emitVoid_none (by rw [Instr.exec, ha.eval, hp.eval, h]; rfl)

theorem does_createCall {g : String} {as : List (Operand ι σ (.int 64))} {vs : List (BitVec 64)}
    (has : List.Forall₂ (fun a v => a.Is W s v) as vs) :
    Does W s m (createCall g as : Builder ι σ ε _) { m with mem := (W.func g vs m.mem).2 }
      fun a s' => a.Is W s' (W.func g vs m.mem).1 :=
  does_emit (by rw [Instr.exec, Operand.Is.map_eval has])

theorem does_createAtomicRMW {op : RmwOp} {p : Operand ι σ .ptr} {v : Operand ι σ (.int w)}
    {align : ℕ} {a : BitVec 64} {vv : BitVec w} (hp : p.Is W s (Ptr.flat a)) (hv : v.Is W s vv)
    (h : a.toNat % align = 0) :
    Does W s m (createAtomicRMW op p v align : Builder ι σ ε _)
      { m with mem := ByteMemory.store m.mem a (op.eval (ByteMemory.load m.mem a w) vv) }
      fun b s' => b.Is W s' (ByteMemory.load m.mem a w) :=
  does_emit (by rw [Instr.exec, hp.eval, hv.eval]; simp only [if_pos h])

theorem acts_createAtomicRMW {op : RmwOp} {p : Operand ι σ .ptr} {v : Operand ι σ (.int w)}
    {align : ℕ} {a : BitVec 64} (hp : p.Is W s (Ptr.flat a)) (h : ¬a.toNat % align = 0) :
    Acts W s m (createAtomicRMW op p v align : Builder ι σ ε _) none :=
  acts_emit (by rw [Instr.exec, hp.eval]; simp only [if_neg h])

theorem does_createAtomicCmpXchg {p : Operand ι σ .ptr} {cmp new : Operand ι σ (.int w)}
    {a : BitVec 64} {vc vn : BitVec w} (hp : p.Is W s (Ptr.flat a)) (hc : cmp.Is W s vc)
    (hn : new.Is W s vn) :
    Does W s m (createAtomicCmpXchg p cmp new : Builder ι σ ε Unit)
      (if ByteMemory.load m.mem a w = vc then { m with mem := ByteMemory.store m.mem a vn } else m)
      fun _ _ => True := by
  refine does_emitVoid ?_ trivial
  rw [Instr.exec, hp.eval, hc.eval, hn.eval]
  simp only
  split <;> rfl

/-! ### Terminators -/

theorem acts_createRet {a : Operand ι σ (.int 64)} {v : BitVec 64} (ha : a.Is W s v) :
    Acts W s m (createRet a : Builder ι σ ε Unit) (some (.ret v, m)) :=
  acts_emitVoid (e := s.env) (by rw [Instr.exec, ha.eval])

theorem acts_createBr (l : ι) : Acts W s m (createBr l : Builder ι σ ε Unit) (some (.goto l, m)) :=
  acts_emitVoid (e := s.env) rfl

theorem acts_createCondBr {c : Operand ι σ (.int 1)} {vc : Bool} (t f : ι)
    (hc : c.Is W s (BitVec.ofBool vc)) :
    Acts W s m (createCondBr c t f : Builder ι σ ε Unit)
      (some (.goto (if vc then t else f), m)) := by
  refine acts_emitVoid (e := s.env) ?_
  rw [Instr.exec, hc.eval]
  cases vc <;> rfl

theorem acts_createIndirectBr {a : Operand ι σ .ptr} {l : ι} {dests : List ι}
    (hW : W.Separates dests) (hl : l ∈ dests) (ha : a.Is W s (Ptr.flat (W.blockAddr l))) :
    Acts W s m (createIndirectBr a dests : Builder ι σ ε Unit) (some (.goto l, m)) := by
  refine acts_emitVoid (e := s.env) ?_
  rw [Instr.exec, ha.eval]
  cases hf : dests.find? fun l' => W.blockAddr l' == W.blockAddr l with
  | none => simpa using List.find?_eq_none.1 hf l hl
  | some l' =>
    have hl' : W.blockAddr l' = W.blockAddr l := by simpa using List.find?_some hf
    simp only [hf, hW _ (List.mem_of_find?_eq_some hf) _ hl hl', Option.map_some]

end

end Builder

end Ir
