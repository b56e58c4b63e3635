import Mathlib.Data.List.Nodup
import Mathlib.Data.Set.Basic
import EbpfJit.Lib.IrBuilder
import EbpfJit.Lib.IrRun

/-!
# SSA form

A function is in SSA form (`Fn.Ssa`) if its results have names of their own, and
operands only refer to what is there: to earlier results of their block, to slots
that the entry block has allocated, and to what is given with the function. That
is what a verifier checks besides the shape of the blocks.

* `Builder.Scoped`: what a computation of the IR builder appends keeps to this,
  given what is in scope where it starts; one rule for each way to build code.
* `Fn.Ssa.iter_rel`: runs of functions in SSA form do not depend on the results
  that have names at their start.
-/

namespace Ir

open Transition

variable {ι σ : Type}

/-- What code refers to: the result of an instruction, with its type; a slot; an
    argument; a block; a function, with its number of arguments. -/
inductive Ref (ι σ : Type)
  | tmp (t : Ty) (id : ℕ)
  | slot (s : σ)
  | arg (t : Ty) (n : ℕ)
  | block (l : ι)
  | func (f : String) (n : ℕ)

/-- What an operand refers to, unless it is a constant. -/
def Operand.ref : {t : Ty} → Operand ι σ t → Option (Ref ι σ)
  | _, .const _ => none
  | t, .tmp id => some (.tmp t id)
  | _, .argInt n => some (.arg (.int 64) n)
  | _, .argPtr n => some (.arg .ptr n)
  | _, .slot s => some (.slot s)
  | _, .blockAddress l => some (.block l)

/-- What the operand refers to is in the scope `Γ`. -/
def Operand.In {t : Ty} (Γ : Set (Ref ι σ)) (a : Operand ι σ t) : Prop := ∀ r ∈ a.ref, r ∈ Γ

/-- The widths that atomic operations have. -/
def atomicWidths : List ℕ := [8, 16, 32, 64]

/-- The instruction refers to what is in scope, at widths it is there for. -/
def Instr.In (Γ : Set (Ref ι σ)) : Instr ι σ → Prop
  | .alloca _ _ => True
  | .allocaMem _ _ => True
  | .binop _ _ a b => a.In Γ ∧ b.In Γ
  | .icmp _ _ a b => a.In Γ ∧ b.In Γ
  | .select _ c a b => c.In Γ ∧ a.In Γ ∧ b.In Γ
  | .zext _ (w := w) w' a => w < w' ∧ a.In Γ
  | .trunc _ (w := w) w' a => w' < w ∧ a.In Γ
  | .gep _ _ p i => p.In Γ ∧ i.In Γ
  | .load _ _ p => p.In Γ
  | .store v p => v.In Γ ∧ p.In Γ
  | .call _ f args => Ref.func f args.length ∈ Γ ∧ ∀ a ∈ args, a.In Γ
  | .atomicrmw _ (w := w) _ p v _ => w ∈ atomicWidths ∧ p.In Γ ∧ v.In Γ
  | .cmpxchg (w := w) p cmp new => w ∈ atomicWidths ∧ p.In Γ ∧ cmp.In Γ ∧ new.In Γ
  | .ret v => v.In Γ
  | .br l => Ref.block l ∈ Γ
  | .condbr c t f => c.In Γ ∧ Ref.block t ∈ Γ ∧ Ref.block f ∈ Γ
  | .indirectbr a dests => a.In Γ ∧ ∀ l ∈ dests, Ref.block l ∈ Γ

/-- What the instruction adds to the scope, if anything. -/
def Instr.result : Instr ι σ → Option (Ref ι σ)
  | .alloca s _ => some (.slot s)
  | .allocaMem id _ => some (.tmp .ptr id)
  | .binop id (w := w) _ _ _ => some (.tmp (.int w) id)
  | .icmp id _ _ _ => some (.tmp (.int 1) id)
  | .select id (w := w) _ _ _ => some (.tmp (.int w) id)
  | .zext id w' _ => some (.tmp (.int w') id)
  | .trunc id w' _ => some (.tmp (.int w') id)
  | .gep id _ _ _ => some (.tmp .ptr id)
  | .load id t _ => some (.tmp t id)
  | .call id _ _ => some (.tmp (.int 64) id)
  | .atomicrmw id (w := w) _ _ _ _ => some (.tmp (.int w) id)
  | _ => none

/-- The name of a result. -/
def Ref.id : Ref ι σ → Option ℕ
  | .tmp _ id => some id
  | _ => none

/-- The slot that is allocated. -/
def Ref.alloc : Ref ι σ → Option σ
  | .slot s => some s
  | _ => none

/-- What the code adds to the scope. -/
def defs (code : List (Instr ι σ)) : Set (Ref ι σ) := {r | ∃ i ∈ code, r ∈ i.result}

/-- The names of the results of the code, in order. -/
def resultIds (code : List (Instr ι σ)) : List ℕ := code.filterMap fun i => i.result.bind Ref.id

/-- The slots that the code allocates, in order. -/
def allocated (code : List (Instr ι σ)) : List σ := code.filterMap fun i => i.result.bind Ref.alloc

/-- All of the code is in scope, where every instruction adds its result. -/
def InScope (Γ : Set (Ref ι σ)) : List (Instr ι σ) → Prop
  | [] => True
  | i :: code => i.In Γ ∧ InScope (Γ ∪ defs [i]) code

/-- What a function is declared with: the types of its arguments, and the functions of
    the module, with their numbers of 64-bit arguments. -/
structure Sig where
  args : List Ty
  funcs : List (String × ℕ)

/-- What is in scope everywhere in a function: its arguments, the functions of the module,
    and its blocks but for the entry block, which no branch goes to. -/
def Sig.scope (S : Sig) (blocks : List ι) (entry : ι) : Set (Ref ι σ)
  | .arg t n => S.args[n]? = some t
  | .func f n => (f, n) ∈ S.funcs
  | .block l => l ∈ blocks ∧ l ≠ entry
  | _ => False

/-- The slots are in scope. -/
def slotScope (slots : List σ) : Set (Ref ι σ) := {r | ∃ s ∈ slots, r = .slot s}

/-- The function is in SSA form. -/
structure Fn.Ssa (F : Fn ι σ) (entry : ι) (S : Sig) : Prop where
  /-- Every name is the one of one result. -/
  ids : (F.blocks.flatMap fun l => resultIds (F.code l)).Nodup
  /-- Every slot is allocated once, and that by the entry block. -/
  slots : (allocated (F.code entry)).Nodup
  alloc : ∀ l ∈ F.blocks, l ≠ entry → allocated (F.code l) = []
  inScope_entry : InScope (S.scope F.blocks entry) (F.code entry)
  inScope : ∀ l ∈ F.blocks, l ≠ entry →
    InScope (S.scope F.blocks entry ∪ slotScope (allocated (F.code entry))) (F.code l)

/-! ## Scopes -/

variable {Γ Γ' : Set (Ref ι σ)} {code code' : List (Instr ι σ)} {i : Instr ι σ}

theorem Operand.In.mono {t : Ty} {a : Operand ι σ t} (h : a.In Γ) (hΓ : Γ ⊆ Γ') : a.In Γ' :=
  fun r hr => hΓ (h r hr)

theorem Operand.in_const {w : ℕ} (v : BitVec w) : (.const v : Operand ι σ (.int w)).In Γ :=
  fun _ h => by cases h

theorem Operand.in_of_ref {t : Ty} {a : Operand ι σ t} {r : Ref ι σ} (ha : a.ref = some r)
    (hr : r ∈ Γ) : a.In Γ := by
  intro r' h
  rw [ha] at h
  cases h
  exact hr

theorem Instr.In.mono (h : i.In Γ) (hΓ : Γ ⊆ Γ') : i.In Γ' := by
  cases i with
  | alloca | allocaMem => trivial
  | br => exact hΓ h
  | load | ret => exact Operand.In.mono h hΓ
  | binop | icmp | gep | store => exact ⟨h.1.mono hΓ, h.2.mono hΓ⟩
  | select => exact ⟨h.1.mono hΓ, h.2.1.mono hΓ, h.2.2.mono hΓ⟩
  | zext | trunc => exact ⟨h.1, h.2.mono hΓ⟩
  | condbr => exact ⟨h.1.mono hΓ, hΓ h.2.1, hΓ h.2.2⟩
  | indirectbr => exact ⟨h.1.mono hΓ, fun l hl => hΓ (h.2 l hl)⟩
  | call => exact ⟨hΓ h.1, fun a ha => (h.2 a ha).mono hΓ⟩
  | atomicrmw => exact ⟨h.1, h.2.1.mono hΓ, h.2.2.mono hΓ⟩
  | cmpxchg => exact ⟨h.1, h.2.1.mono hΓ, h.2.2.1.mono hΓ, h.2.2.2.mono hΓ⟩

theorem mem_defs_singleton {r : Ref ι σ} : r ∈ defs [i] ↔ r ∈ i.result := by
  simp [defs]

theorem defs_append (code code' : List (Instr ι σ)) :
    defs (code ++ code') = defs code ∪ defs code' := by
  ext r
  simp only [defs, List.mem_append, Set.mem_union, Set.mem_ofPred_eq, or_and_right, exists_or]

theorem InScope.mono (h : InScope Γ code) (hΓ : Γ ⊆ Γ') : InScope Γ' code := by
  induction code generalizing Γ Γ' with
  | nil => trivial
  | cons i code ih => exact ⟨h.1.mono hΓ, ih h.2 (Set.union_subset_union_left _ hΓ)⟩

/-- Code that is in scope without the results before it. -/
theorem inScope_of_forall (h : ∀ i ∈ code, i.In Γ) : InScope Γ code := by
  induction code generalizing Γ with
  | nil => trivial
  | cons i code ih =>
    exact ⟨h i List.mem_cons_self, ih fun j hj =>
      (h j (List.mem_cons_of_mem _ hj)).mono Set.subset_union_left⟩

theorem inScope_append :
    InScope Γ (code ++ code') ↔ InScope Γ code ∧ InScope (Γ ∪ defs code) code' := by
  induction code generalizing Γ with
  | nil => simp [InScope, defs]
  | cons i code ih =>
    rw [List.cons_append, InScope, InScope, ih, Set.union_assoc, ← defs_append, and_assoc]
    rfl

/-- An instruction of code in scope is in scope after the ones before it. -/
theorem InScope.get (h : InScope Γ code) {ip : ℕ} (hi : code[ip]? = some i) :
    i.In (Γ ∪ defs (code.take ip)) := by
  obtain ⟨hlt, hget⟩ := List.getElem?_eq_some_iff.1 hi
  have hsplit : code = code.take ip ++ i :: code.drop (ip + 1) := by
    rw [← hget, List.getElem_cons_drop, List.take_append_drop]
  rw [hsplit] at h
  exact (inScope_append.1 h).2.1

theorem resultIds_append (code code' : List (Instr ι σ)) :
    resultIds (code ++ code') = resultIds code ++ resultIds code' := List.filterMap_append

theorem allocated_append (code code' : List (Instr ι σ)) :
    allocated (code ++ code') = allocated code ++ allocated code' := List.filterMap_append

/-- What is added to the scope is a result, or a slot. -/
theorem eq_of_mem_result {r : Ref ι σ} (h : r ∈ i.result) :
    (∃ t id, r = .tmp t id) ∨ ∃ s, r = .slot s := by
  cases i
  all_goals cases h
  case alloca s n => exact .inr ⟨s, rfl⟩
  all_goals exact .inl ⟨_, _, rfl⟩

theorem resultIds_of_result_eq_none (hi : i.result = none) : resultIds [i] = [] := by
  simp [resultIds, hi]

theorem allocated_of_result_eq_none (hi : i.result = none) : allocated [i] = [] := by
  simp [allocated, hi]

/-- The results in the blocks have names of their own, below `n`. -/
structure Named (code : ι → List (Instr ι σ)) (n : ℕ) : Prop where
  lt : ∀ l, ∀ id ∈ resultIds (code l), id < n
  nodup : ∀ l, (resultIds (code l)).Nodup
  disjoint : ∀ l l', l ≠ l' → (resultIds (code l)).Disjoint (resultIds (code l'))

namespace Named

variable {blocks : ι → List (Instr ι σ)} {n n' : ℕ}

theorem empty : Named (fun _ : ι => ([] : List (Instr ι σ))) 0 where
  lt := fun _ _ h => by cases h
  nodup := fun _ => List.nodup_nil
  disjoint := fun _ _ _ _ h => by cases h

/-- The names from `n` on are new. -/
theorem append [DecidableEq ι] (h : Named blocks n) (hn : n ≤ n')
    (hids : resultIds code = List.range' n (n' - n)) (l : ι) :
    Named (Function.update blocks l (blocks l ++ code)) n' := by
  have hnew (id : ℕ) (hid : id ∈ resultIds code) : n ≤ id ∧ id < n' := by
    rw [hids, List.mem_range'_1] at hid
    omega
  have hold (l' : ι) (id : ℕ) (hid : id ∈ resultIds (blocks l')) : id ∉ resultIds code :=
    fun hid' => absurd (hnew id hid').1 (Nat.not_le.2 (h.lt l' id hid))
  refine ⟨fun l₁ id hid => ?_, fun l₁ => ?_, fun l₁ l₂ hne => ?_⟩
  · by_cases hl : l₁ = l
    · subst hl
      rw [Function.update_self, resultIds_append] at hid
      rcases List.mem_append.1 hid with hid | hid
      · exact Nat.lt_of_lt_of_le (h.lt l₁ id hid) hn
      · exact (hnew id hid).2
    · rw [Function.update_of_ne hl] at hid
      exact Nat.lt_of_lt_of_le (h.lt l₁ id hid) hn
  · by_cases hl : l₁ = l
    · subst hl
      rw [Function.update_self, resultIds_append]
      refine (h.nodup l₁).append ?_ fun id hid hid' => hold l₁ id hid hid'
      rw [hids]
      exact List.nodup_range'
    · rw [Function.update_of_ne hl]
      exact h.nodup l₁
  · by_cases hl₁ : l₁ = l
    · subst hl₁
      rw [Function.update_self, Function.update_of_ne hne.symm, resultIds_append,
        List.disjoint_append_left]
      exact ⟨h.disjoint l₁ l₂ hne, fun id hid hid' => hold l₂ id hid' hid⟩
    · rw [Function.update_of_ne hl₁]
      by_cases hl₂ : l₂ = l
      · subst hl₂
        rw [Function.update_self, resultIds_append, List.disjoint_append_right]
        exact ⟨h.disjoint l₁ l₂ hne, fun id hid hid' => hold l₁ id hid hid'⟩
      · rw [Function.update_of_ne hl₂]
        exact h.disjoint l₁ l₂ hne

/-- Then every name is the one of one result. -/
theorem nodup_flatMap (h : Named blocks n) {ls : List ι} (hls : ls.Nodup) :
    (ls.flatMap fun l => resultIds (blocks l)).Nodup :=
  List.nodup_flatMap.2 ⟨fun l _ => h.nodup l, hls.imp fun hne => h.disjoint _ _ hne⟩

end Named

/-! ## Building code in scope -/

namespace Builder

variable {ε α β : Type}

/-- Code in scope, whose results have the names from `n` up to `n'`, in order. -/
structure Appended (Γ : Set (Ref ι σ)) (n n' : ℕ) (code : List (Instr ι σ)) : Prop where
  le : n ≤ n'
  inScope : InScope Γ code
  ids : resultIds code = List.range' n (n' - n)
  alloc : allocated code = []

/-- Where `Γ` is in scope, `b` appends code in scope, and its result is as `Q` says of it
    and the scope after that code. -/
def Scoped (Γ : Set (Ref ι σ)) (b : Builder ι σ ε α) (Q : Set (Ref ι σ) → α → Prop) : Prop :=
  ∀ n a n' code, b n = .ok (a, n', code) → Appended Γ n n' code ∧ Q (Γ ∪ defs code) a

/-- The result of `b` is in scope. -/
abbrev ScopedOp {t : Ty} (Γ : Set (Ref ι σ)) (b : Builder ι σ ε (Operand ι σ t)) : Prop :=
  Scoped Γ b Operand.In

/-- `b` has no result. -/
abbrev ScopedVoid (Γ : Set (Ref ι σ)) (b : Builder ι σ ε Unit) : Prop :=
  Scoped Γ b fun _ _ => True

section

variable {Q : Set (Ref ι σ) → α → Prop} {Q' : Set (Ref ι σ) → β → Prop} {b b' : Builder ι σ ε α}
  {f : α → Builder ι σ ε β}

theorem Appended.nil (n : ℕ) : Appended Γ n n ([] : List (Instr ι σ)) :=
  ⟨Nat.le_refl n, trivial, by rw [Nat.sub_self]; rfl, rfl⟩

theorem Appended.append {n n' n'' : ℕ} (h : Appended Γ n n' code)
    (h' : Appended (Γ ∪ defs code) n' n'' code') : Appended Γ n n'' (code ++ code') := by
  have hle := h.le
  have hle' := h'.le
  refine ⟨Nat.le_trans hle hle', inScope_append.2 ⟨h.inScope, h'.inScope⟩, ?_, ?_⟩
  · have hsplit := List.range'_append_1 (s := n) (m := n' - n) (n := n'' - n')
    rw [show n + (n' - n) = n' by omega, show n' - n + (n'' - n') = n'' - n by omega] at hsplit
    rw [resultIds_append, h.ids, h'.ids, hsplit]
  · rw [allocated_append, h.alloc, h'.alloc]
    rfl

theorem scoped_pure {a : α} (h : Q Γ a) : Scoped Γ (pure a : Builder ι σ ε α) Q := by
  rintro n _ _ _ ⟨⟩
  refine ⟨.nil n, ?_⟩
  rwa [show defs ([] : List (Instr ι σ)) = ∅ by simp [defs], Set.union_empty]

/-- The rule for one computation after the other. -/
theorem Scoped.bind (hb : Scoped Γ b Q)
    (hf : ∀ Γ' a, Γ ⊆ Γ' → Q Γ' a → Scoped Γ' (f a) Q') : Scoped Γ (b >>= f) Q' := by
  intro n r n'' code h
  rcases hbn : b n with e | ⟨a, n', c⟩
  · rw [bind_of_error hbn] at h
    cases h
  · rw [bind_of_ok hbn] at h
    rcases hfn : f a n' with e | ⟨r', n₂, c'⟩
    · rw [hfn] at h
      cases h
    · rw [hfn] at h
      cases h
      obtain ⟨happ, hQ⟩ := hb n a n' c hbn
      obtain ⟨happ', hQ'⟩ := hf _ a Set.subset_union_left hQ n' _ _ c' hfn
      refine ⟨happ.append happ', ?_⟩
      rwa [defs_append, ← Set.union_assoc]

theorem scoped_fail {e : ε} : Scoped Γ (fail e : Builder ι σ ε α) Q := by
  rintro n a n' code ⟨⟩

theorem Scoped.ite {p : Prop} [Decidable p] (h : p → Scoped Γ b Q) (h' : ¬p → Scoped Γ b' Q) :
    Scoped Γ (if p then b else b') Q := by
  split
  · exact h ‹_›
  · exact h' ‹_›

theorem scoped_ofExcept {r : Except ε α} (h : ∀ a, r = .ok a → Q Γ a) :
    Scoped Γ (ofExcept r : Builder ι σ ε α) Q := by
  cases r with
  | ok a => exact scoped_pure (h a rfl)
  | error e => exact scoped_fail

theorem scopedOp_emit {t : Ty} {i : ℕ → Instr ι σ} (hi : ∀ id, (i id).In Γ)
    (hr : ∀ id, (i id).result = some (.tmp t id)) :
    ScopedOp Γ (emit i : Builder ι σ ε (Operand ι σ t)) := by
  rintro n _ _ _ ⟨⟩
  refine ⟨⟨Nat.le_succ n, ⟨hi n, trivial⟩, ?_, ?_⟩, ?_⟩
  · simp [resultIds, hr, Ref.id]
  · simp [allocated, hr, Ref.alloc]
  · exact Operand.in_of_ref rfl (.inr (mem_defs_singleton.2 (hr n)))

theorem scopedVoid_emitVoid {i : Instr ι σ} (hi : i.In Γ) (hr : i.result = none) :
    ScopedVoid Γ (emitVoid i : Builder ι σ ε Unit) := by
  rintro n _ _ _ ⟨⟩
  refine ⟨⟨Nat.le_refl n, ⟨hi, trivial⟩, ?_, ?_⟩, trivial⟩
  · simp [resultIds, hr]
  · simp [allocated, hr]

theorem Scoped.forM {l : List β} {g : β → Builder ι σ ε PUnit}
    (h : ∀ Γ', Γ ⊆ Γ' → ∀ x ∈ l, Scoped Γ' (g x) fun _ _ => True) :
    Scoped Γ (l.forM g) fun _ _ => True := by
  induction l generalizing Γ with
  | nil => exact scoped_pure trivial
  | cons x l ih =>
    exact (h Γ subset_rfl x List.mem_cons_self).bind fun Γ₁ _ h₁ _ =>
      ih fun Γ₂ h₂ y hy => h Γ₂ (h₁.trans h₂) y (List.mem_cons_of_mem _ hy)

end

variable {w : ℕ} {a b : Operand ι σ (.int w)} {p : Operand ι σ .ptr}

theorem scopedOp_binop (op : BinOp) (ha : a.In Γ) (hb : b.In Γ) :
    ScopedOp Γ (createBinOp op a b : Builder ι σ ε _) :=
  scopedOp_emit (fun _ => ⟨ha, hb⟩) fun _ => rfl

theorem scopedOp_icmp (q : Pred) (ha : a.In Γ) (hb : b.In Γ) :
    ScopedOp Γ (createICmp q a b : Builder ι σ ε _) :=
  scopedOp_emit (fun _ => ⟨ha, hb⟩) fun _ => rfl

theorem scopedOp_select {c : Operand ι σ (.int 1)} (hc : c.In Γ) (ha : a.In Γ) (hb : b.In Γ) :
    ScopedOp Γ (createSelect c a b : Builder ι σ ε _) :=
  scopedOp_emit (fun _ => ⟨hc, ha, hb⟩) fun _ => rfl

theorem scopedOp_gep {size : ℕ} (hp : p.In Γ) (ha : a.In Γ) :
    ScopedOp Γ (createGEP size p a : Builder ι σ ε _) :=
  scopedOp_emit (fun _ => ⟨hp, ha⟩) fun _ => rfl

theorem scopedOp_load (t : Ty) (hp : p.In Γ) :
    ScopedOp Γ (createLoad t p : Builder ι σ ε _) :=
  scopedOp_emit (fun _ => hp) fun _ => rfl

theorem scopedOp_call {f : String} {args : List (Operand ι σ (.int 64))}
    (hf : Ref.func f args.length ∈ Γ) (hargs : ∀ a ∈ args, a.In Γ) :
    ScopedOp Γ (createCall f args : Builder ι σ ε _) :=
  scopedOp_emit (fun _ => ⟨hf, hargs⟩) fun _ => rfl

theorem scopedOp_atomicRMW {op : RmwOp} {align : ℕ} (hw : w ∈ atomicWidths) (hp : p.In Γ)
    (ha : a.In Γ) : ScopedOp Γ (createAtomicRMW op p a align : Builder ι σ ε _) :=
  scopedOp_emit (fun _ => ⟨hw, hp, ha⟩) fun _ => rfl

theorem scopedVoid_cmpXchg {c : Operand ι σ (.int w)} (hw : w ∈ atomicWidths) (hp : p.In Γ)
    (hc : c.In Γ) (ha : a.In Γ) :
    ScopedVoid Γ (createAtomicCmpXchg p c a : Builder ι σ ε _) :=
  scopedVoid_emitVoid ⟨hw, hp, hc, ha⟩ rfl

/-- A conversion to a type at least as wide. -/
theorem scopedOp_zext {w' : ℕ} (hw : w ≤ w') (ha : a.In Γ) :
    ScopedOp Γ (createZExt w' a : Builder ι σ ε _) := by
  by_cases h : w = w'
  · subst h
    rw [createZExt_self]
    exact scoped_pure ha
  · rw [createZExt_of_ne h]
    exact scopedOp_emit (fun _ => ⟨by omega, ha⟩) fun _ => rfl

theorem scopedOp_trunc {w' : ℕ} (hw : w' ≤ w) (ha : a.In Γ) :
    ScopedOp Γ (createTrunc w' a : Builder ι σ ε _) := by
  by_cases h : w = w'
  · subst h
    rw [createTrunc_self]
    exact scoped_pure ha
  · rw [createTrunc_of_ne h]
    exact scopedOp_emit (fun _ => ⟨by omega, ha⟩) fun _ => rfl

theorem scopedVoid_br {l : ι} (hl : Ref.block l ∈ Γ) :
    ScopedVoid Γ (createBr l : Builder ι σ ε _) :=
  scopedVoid_emitVoid hl rfl

theorem scopedVoid_condBr {c : Operand ι σ (.int 1)} {l l' : ι} (hc : c.In Γ)
    (hl : Ref.block l ∈ Γ) (hl' : Ref.block l' ∈ Γ) :
    ScopedVoid Γ (createCondBr c l l' : Builder ι σ ε _) :=
  scopedVoid_emitVoid ⟨hc, hl, hl'⟩ rfl

theorem scopedVoid_store {t : Ty} {v : Operand ι σ t} (hv : v.In Γ) (hp : p.In Γ) :
    ScopedVoid Γ (createStore v p : Builder ι σ ε _) :=
  scopedVoid_emitVoid ⟨hv, hp⟩ rfl

end Builder

/-! ## Runs -/

/-- The environments agree on the results in scope. -/
def Agree (Γ : Set (Ref ι σ)) (e e' : Env σ) : Prop :=
  ∀ t id, Ref.tmp t id ∈ Γ → e t id = e' t id

/-- Two outcomes of an instruction that differ only in results out of scope. -/
inductive ExecRel (Γ : Set (Ref ι σ)) : Option (Exit ι × Env σ × Machine σ) →
    Option (Exit ι × Env σ × Machine σ) → Prop
  | none : ExecRel Γ none none
  | some (x : Exit ι) (m : Machine σ) {e e' : Env σ} (h : Agree Γ e e') :
    ExecRel Γ (some (x, e, m)) (some (x, e', m))

section

variable {W : World ι} {e e' : Env σ}

theorem Operand.eval_congr {t : Ty} {a : Operand ι σ t} (ha : a.In Γ) (h : Agree Γ e e') :
    a.eval W e = a.eval W e' := by
  cases a with
  | tmp id => exact h _ id (ha _ rfl)
  | _ => rfl

theorem Agree.mono (h : Agree Γ' e e') (hΓ : Γ ⊆ Γ') : Agree Γ e e' :=
  fun t id hid => h t id (hΓ hid)

theorem Agree.set (h : Agree Γ e e') {t : Ty} {id : ℕ} (v : Val σ t)
    (hi : i.result = some (.tmp t id)) : Agree (Γ ∪ defs [i]) (e.set id v) (e'.set id v) := by
  intro t' id' hmem
  rw [Env.set, Env.set]
  by_cases hid : id' = id ∧ t = t'
  · rw [dif_pos hid, dif_pos hid]
  · rw [dif_neg hid, dif_neg hid]
    refine h t' id' (hmem.resolve_right fun hdef => hid ?_)
    rw [mem_defs_singleton, hi] at hdef
    cases hdef
    exact ⟨rfl, rfl⟩

/-- An instruction without a result, and one that allocates, leave the results alone. -/
theorem Agree.union (h : Agree Γ e e') (hi : ∀ t id, Ref.tmp t id ∉ i.result) :
    Agree (Γ ∪ defs [i]) e e' := fun t id hmem =>
  h t id (hmem.resolve_right fun hdef => hi t id (mem_defs_singleton.1 hdef))

theorem Agree.execRel_map (h : Agree Γ e e') {m : Machine σ} {t : Ty} {id : ℕ}
    (hi : i.result = some (.tmp t id)) (r : Option (Val σ t)) :
    ExecRel (Γ ∪ defs [i]) (r.map fun v => (.fall, e.set id v, m))
      (r.map fun v => (.fall, e'.set id v, m)) := by
  cases r with
  | none => exact .none
  | some v => exact .some _ _ (h.set v hi)

end

variable [DecidableEq σ] {W : World ι} {e e' : Env σ} {m : Machine σ}

/-- What an instruction in scope does only depends on what is in scope. -/
theorem Instr.exec_rel (hi : i.In Γ) (h : Agree Γ e e') :
    ExecRel (Γ ∪ defs [i]) (i.exec W e m) (i.exec W e' m) := by
  have hop {t : Ty} {a : Operand ι σ t} (ha : a.In Γ) : a.eval W e = a.eval W e' :=
    Operand.eval_congr ha h
  cases i with
  | alloca s n => exact .some _ _ (h.union fun _ _ hr => by cases hr)
  | allocaMem id n => exact .some _ _ (h.set (t := .ptr) _ rfl)
  | binop id op a b =>
    simp only [exec, hop hi.1, hop hi.2]
    exact h.execRel_map rfl _
  | icmp id p a b =>
    simp only [exec, hop hi.1, hop hi.2]
    exact .some _ _ (h.set (t := .int 1) _ rfl)
  | select id c a b =>
    simp only [exec, hop hi.1, hop hi.2.1, hop hi.2.2]
    exact .some _ _ (h.set _ rfl)
  | zext id w' a | trunc id w' a =>
    simp only [exec, hop hi.2]
    exact .some _ _ (h.set (t := .int w') _ rfl)
  | gep id size p a =>
    simp only [exec, hop hi.1, hop hi.2]
    exact h.execRel_map (t := .ptr) rfl _
  | load id t p =>
    simp only [exec, hop (show p.In Γ from hi)]
    exact h.execRel_map rfl _
  | store v p =>
    simp only [exec, hop hi.1, hop hi.2]
    rcases m.store (p.eval W e') (v.eval W e') with _ | m'
    · exact .none
    · exact .some _ _ (h.union fun _ _ hr => by cases hr)
  | call id f args =>
    have hargs : args.map (fun a => a.eval W e) = args.map fun a => a.eval W e' :=
      List.map_congr_left fun a ha => hop (hi.2 a ha)
    simp only [exec, hargs]
    exact .some _ _ (h.set (t := .int 64) _ rfl)
  | atomicrmw id op p v align =>
    simp only [exec, hop hi.2.1, hop hi.2.2]
    rcases p.eval W e' with ⟨s, j⟩ | a
    · exact .none
    · by_cases ha : a.toNat % align = 0
      · simp only [if_pos ha]
        exact .some _ _ (h.set _ rfl)
      · simp only [if_neg ha]
        exact .none
  | cmpxchg p cmp new =>
    simp only [exec, hop hi.2.1, hop hi.2.2.1, hop hi.2.2.2]
    have hres : Agree (Γ ∪ defs [Instr.cmpxchg p cmp new]) e e' :=
      h.union fun _ _ hr => by cases hr
    rcases p.eval W e' with ⟨s, j⟩ | a
    · exact .none
    · by_cases ha : ByteMemory.load m.mem a _ = cmp.eval W e'
      · simp only [if_pos ha]
        exact .some _ _ hres
      · simp only [if_neg ha]
        exact .some _ _ hres
  | ret v =>
    simp only [exec, hop (show v.In Γ from hi)]
    exact .some _ _ (h.union fun _ _ hr => by cases hr)
  | condbr c l l' =>
    simp only [exec, hop hi.1]
    exact .some _ _ (h.union fun _ _ hr => by cases hr)
  | br l => exact .some _ _ (h.union fun _ _ hr => by cases hr)
  | indirectbr a dests =>
    simp only [exec, hop hi.1]
    have hres : Agree (Γ ∪ defs [Instr.indirectbr a dests]) e e' :=
      h.union fun _ _ hr => by cases hr
    rcases a.eval W e' with ⟨s, j⟩ | v
    · exact .none
    · dsimp only
      rcases dests.find? fun l => W.blockAddr l == v with _ | l
      · exact .none
      · exact .some _ _ hres

/-- An instruction only goes to its successors. -/
theorem Instr.mem_successors {l : ι} {m' : Machine σ} (h : i.exec W e m = some (.goto l, e', m')) :
    l ∈ i.successors := by
  cases i with
  | alloca | allocaMem | icmp | select | zext | trunc | call | ret => cases h
  | binop | gep | load | store =>
    obtain ⟨_, -, h⟩ := Option.map_eq_some_iff.1 h
    cases h
  | atomicrmw | cmpxchg =>
    rw [exec] at h
    split at h
    · split at h <;> cases h
    · cases h
  | br l' =>
    cases h
    exact List.mem_singleton_self l
  | condbr c t f =>
    rw [exec] at h
    split at h
    · cases h
      exact List.mem_cons_self
    · cases h
      exact List.mem_cons_of_mem _ List.mem_cons_self
  | indirectbr a dests =>
    rw [exec] at h
    split at h
    · obtain ⟨l', hl', h⟩ := Option.map_eq_some_iff.1 h
      cases h
      exact List.mem_of_find?_eq_some hl'
    · cases h

omit [DecidableEq σ] in
/-- The blocks that an instruction in scope goes to are in scope. -/
theorem Instr.In.mem_scope {l : ι} (hi : i.In Γ) (hl : l ∈ i.successors) : Ref.block l ∈ Γ := by
  cases i with
  | br l' =>
    rw [List.mem_singleton.1 hl]
    exact hi
  | condbr c t f =>
    rcases List.mem_pair.1 hl with rfl | rfl
    · exact hi.2.1
    · exact hi.2.2
  | indirectbr a dests => exact hi.2 l hl
  | _ => cases hl

/-- The configurations differ only in results out of scope. -/
structure SameUpTo (F : Fn ι σ) (c c' : Config ι σ) : Prop where
  block : c.block = c'.block
  ip : c.ip = c'.ip
  m : c.m = c'.m
  mem : c.block ∈ F.blocks
  agree : Agree (defs ((F.code c.block).take c.ip)) c.env c'.env

variable {F : Fn ι σ} {entry : ι} {S : Sig}

namespace Fn.Ssa

omit [DecidableEq σ] in
/-- The results in the scope of an instruction are the ones before it. -/
theorem instr (h : F.Ssa entry S) {l : ι} {ip : ℕ} (hl : l ∈ F.blocks)
    (hi : (F.code l)[ip]? = some i) : ∃ Γ, i.In (Γ ∪ defs ((F.code l).take ip)) ∧
      (∀ t id, Ref.tmp t id ∉ Γ) ∧ ∀ l', Ref.block l' ∈ Γ → l' ∈ F.blocks := by
  by_cases he : l = entry
  · subst he
    exact ⟨_, h.inScope_entry.get hi, fun _ _ hid => hid, fun _ hl' => hl'.1⟩
  · refine ⟨_, (h.inScope l hl he).get hi, ?_, ?_⟩
    · rintro t id (hid | ⟨s, -, hs⟩)
      · exact hid
      · cases hs
    · rintro l' (hl' | ⟨s, -, hs⟩)
      · exact hl'.1
      · cases hs

omit [DecidableEq σ] in
/-- Every block only branches to blocks of the function. -/
theorem closed (h : F.Ssa entry S) : F.Closed := by
  intro l hl i hi l' hl'
  obtain ⟨ip, hlt, hget⟩ := List.getElem_of_mem hi
  obtain ⟨Γ, hin, -, hΓ⟩ := h.instr hl (List.getElem?_eq_some_iff.2 ⟨hlt, hget⟩)
  refine hΓ l' ((hin.mem_scope hl').resolve_right ?_)
  rintro ⟨j, -, hj⟩
  rcases eq_of_mem_result hj with ⟨t, id, hr⟩ | ⟨s, hr⟩ <;> cases hr

theorem step_rel (h : F.Ssa entry S) {c c' : Config ι σ} (hs : SameUpTo F c c') :
    Res.Rel (SameUpTo F) Eq (step F W c) (step F W c') := by
  obtain ⟨l, ip, e, m⟩ := c
  obtain ⟨l', ip', e', m'⟩ := c'
  obtain ⟨rfl, rfl, rfl, hl, hagree⟩ := hs
  dsimp only at hl hagree
  cases hi : (F.code l)[ip]? with
  | none =>
    simp only [step, hi]
    exact .done rfl
  | some i =>
    obtain ⟨Γ, hin, hΓ, -⟩ := h.instr hl hi
    have hrel := Instr.exec_rel (W := W) (m := m) hin
      fun t id hid => hagree t id (hid.resolve_left (hΓ t id))
    rw [step_eq_afterCode hi, step_eq_afterCode hi]
    cases hx : i.exec W e m with
    | none =>
      rw [hx] at hrel
      generalize i.exec W e' m = r at hrel
      cases hrel
      exact .done rfl
    | some q =>
      obtain ⟨x, e₁, m₁⟩ := q
      rw [hx] at hrel
      generalize i.exec W e' m = r at hrel
      cases hrel with
      | some _ _ hagree' =>
        cases x with
        | ret v => exact .done rfl
        | goto l' =>
          have hl' := h.closed l hl i (List.mem_of_getElem? hi) l' (Instr.mem_successors hx)
          exact .cont ⟨rfl, rfl, rfl, hl', fun t id hid => by simp [defs] at hid⟩
        | fall =>
          refine .cont ⟨rfl, rfl, rfl, hl, hagree'.mono ?_⟩
          rw [List.take_add_one, hi, defs_append, Set.union_assoc]
          exact Set.subset_union_right

/-- A run of a function in SSA form does not depend on the results it starts with. -/
theorem iter_rel (h : F.Ssa entry S) (hentry : entry ∈ F.blocks) (W : World ι) (e e' : Env σ)
    (m : Machine σ) (k : ℕ) : Res.Rel (SameUpTo F) Eq (iter (step F W) k ⟨entry, 0, e, m⟩)
      (iter (step F W) k ⟨entry, 0, e', m⟩) := by
  have hs : SameUpTo F ⟨entry, 0, e, m⟩ ⟨entry, 0, e', m⟩ :=
    ⟨rfl, rfl, rfl, hentry, fun t id hid => by simp [defs] at hid⟩
  exact Transition.iter_rel (P := fun _ => True) (fun _ _ _ => h.step_rel) hs
    (fun _ _ _ => trivial) k

end Fn.Ssa

end Ir
