import EbpfJit.Lib.Transition
import Mathlib.Algebra.BigOperators.Group.Finset.Basic
import Mathlib.Logic.Function.Basic
import Mathlib.Logic.Relation

/-!
# Reduction

Systems that run side by side share a part of their states (`Part`): they take their
steps in any order, and each step finds the part as the last one has left it
(`Interleaves`). Others may come in between any two steps.

A concrete system implements abstract steps which take several of its own ones. If no
more than one of these works on the shared part (`Simulation.SharesOnce`), an abstract
step takes place at that one, as far as others can tell: the steps before and after it
could not be told from steps at another time.

* `Interleaves.lift`, `Interleaves.exists_sum`: systems that follow others step by step,
  and what they add up to;
* `Simulation.SharesOnce.Agree`: where the concrete system is when the abstract one has
  got to a state;
* `Simulation.SharesOnce.moves`: the abstract steps at one concrete step;
* `exists_interleaves`: an interleaving of concrete systems is one of abstract systems,
  and leaves the same shared part.
-/

namespace Transition

/-- A part of the states of a system. -/
structure Part (α μ : Type*) where
  get : α → μ
  put : μ → α → α
  get_put : ∀ n a, get (put n a) = n
  put_put : ∀ m n a, put m (put n a) = put m a
  put_get : ∀ a, put (get a) a = a

section

variable {α β μ I : Type*}

/-- The result, with its state or its final result mapped. -/
def Res.map (f : α → α) (g : β → β) : Res α β → Res α β
  | .cont a => .cont (f a)
  | .done b => .done (g b)

/-- A system takes a step on the shared part, which is put into its state before and
    taken out of it after; `left` is what a final result may leave of it. -/
inductive Part.Step (P : Part α μ) (left : β → μ → μ → Prop) (step : α → Res α β) :
    Res α β → μ → Res α β → μ → Prop
  | cont {a b : α} {n : μ} (hs : step (P.put n a) = .cont b) :
      P.Step left step (.cont a) n (.cont b) (P.get b)
  | done {a : α} {b : β} {n n' : μ} (hs : step (P.put n a) = .done b) (hn : left b n n') :
      P.Step left step (.cont a) n (.done b) n'

/-- Some steps of a system on the shared part, alone. -/
inductive Part.Steps (P : Part α μ) (left : β → μ → μ → Prop) (step : α → Res α β)
    (r : Res α β) (m : μ) : Res α β → μ → Prop
  | refl : P.Steps left step r m r m
  | tail {r' r'' : Res α β} {n n' : μ} (h : P.Steps left step r m r' n)
      (hs : P.Step left step r' n r'' n') : P.Steps left step r m r'' n'

/-- Some steps of the systems on the shared part, in any order. -/
inductive Interleaves [DecidableEq I] (P : Part α μ) (left : β → μ → μ → Prop)
    (step : I → α → Res α β) (rs : I → Res α β) (m : μ) : (I → Res α β) → μ → Prop
  | refl : Interleaves P left step rs m rs m
  | tail {rs' : I → Res α β} {r : Res α β} {n n' : μ} {i : I}
      (h : Interleaves P left step rs m rs' n)
      (hs : P.Step left (step i) (rs' i) n r n') :
      Interleaves P left step rs m (Function.update rs' i r) n'

variable [DecidableEq I] {P : Part α μ} {left : β → μ → μ → Prop} {step : I → α → Res α β}
  {rs rs' : I → Res α β} {r : Res α β} {m n n' : μ} {i : I} {a b : α} {k : ℕ}

/-- Steps of one system can go on an interleaving. -/
theorem Interleaves.steps (h : Interleaves P left step rs m rs' n)
    (hs : P.Steps left (step i) (rs' i) n r n') :
    Interleaves P left step rs m (Function.update rs' i r) n' := by
  induction hs with
  | refl => rwa [Function.update_eq_self]
  | tail _ hs ih =>
    rw [← Function.update_idem]
    refine ih.tail ?_
    rwa [Function.update_self]

/-- Two families stay related if both change at the same place, to something related. -/
theorem rel_update {κ κ' : Type*} {rel : I → κ → κ' → Prop} {f : I → κ}
    {f' : I → κ'} {c : κ} {c' : κ'} (h : ∀ j, rel j (f j) (f' j)) (hi : rel i c c') (j : I) :
    rel j (Function.update f i c j) (Function.update f' i c' j) := by
  by_cases hj : j = i
  · subst hj
    rwa [Function.update_self, Function.update_self]
  · rw [Function.update_of_ne hj, Function.update_of_ne hj]
    exact h j

/-- Systems that can follow every step of an interleaving, from where they have got to so far,
    can follow all of it. -/
theorem Interleaves.lift {α' β' : Type*} {P' : Part α' μ} {left' : β' → μ → μ → Prop}
    {step' : I → α' → Res α' β'} {rel : I → Res α' β' → Res α β → Prop} {rs₀ : I → Res α' β'}
    (hstart : ∀ i, rel i (rs₀ i) (rs i))
    (hstep : ∀ {qs : I → Res α' β'} {i : I} {r₁ r₂ : Res α β} {n n' : μ},
      Interleaves P' left' step' rs₀ m qs n → rel i (qs i) r₁ → P.Step left (step i) r₁ n r₂ n' →
        ∃ q, P'.Step left' (step' i) (qs i) n q n' ∧ rel i q r₂)
    (h : Interleaves P left step rs m rs' n) :
    ∃ qs, Interleaves P' left' step' rs₀ m qs n ∧ ∀ i, rel i (qs i) (rs' i) := by
  induction h with
  | refl => exact ⟨rs₀, .refl, hstart⟩
  | @tail rs₁ r n n' i _ hs ih =>
    obtain ⟨qs, hqs, hrel⟩ := ih
    obtain ⟨q, hq, hr⟩ := hstep hqs (hrel i) hs
    exact ⟨Function.update qs i q, hqs.tail hq, rel_update hrel hr⟩

/-- If every system adds to a quantity once at most, it is the sum of what some of them have
    added: those that have got to `R`, while the others are still in `Q`. -/
theorem Interleaves.exists_sum {G : Type*} [AddCommMonoid G] {Q R : I → Res α β → Prop}
    {g : μ → G} {v : I → G} (hstart : ∀ i, Q i (rs i))
    (hadd : ∀ {i r r' n n'}, Q i r → P.Step left (step i) r n r' n' →
      (Q i r' ∧ g n' = g n) ∨ (R i r' ∧ g n' = g n + v i))
    (hkeep : ∀ {i r r' n n'}, R i r → P.Step left (step i) r n r' n' → R i r' ∧ g n' = g n)
    (h : Interleaves P left step rs m rs' n) :
    ∃ S : Finset I, (∀ i ∈ S, R i (rs' i)) ∧ (∀ i ∉ S, Q i (rs' i)) ∧
      g n = g m + ∑ i ∈ S, v i := by
  induction h with
  | refl => exact ⟨∅, by simp, fun i _ => hstart i, by simp⟩
  | @tail rs' r n n' i _ hs ih =>
    obtain ⟨S, hR, hQ, hsum⟩ := ih
    have hupd {T : I → Res α β → Prop} (hi : T i r) {j : I} (hj : j ≠ i → T j (rs' j)) :
        T j (Function.update rs' i r j) := by
      by_cases hji : j = i
      · subst hji
        rwa [Function.update_self]
      · rw [Function.update_of_ne hji]
        exact hj hji
    have hold {T : I → Res α β → Prop} {j : I} (hj : T j (rs' j)) (hji : j ≠ i) :
        T j (Function.update rs' i r j) := by
      rwa [Function.update_of_ne hji]
    by_cases hi : i ∈ S
    · obtain ⟨hr, hn⟩ := hkeep (hR i hi) hs
      exact ⟨S, fun j hj => hupd hr fun _ => hR j hj,
        fun j hj => hold (hQ j hj) fun hji => hj (hji ▸ hi), hn.trans hsum⟩
    · rcases hadd (hQ i hi) hs with ⟨hr, hn⟩ | ⟨hr, hn⟩
      · exact ⟨S, fun j hj => hold (hR j hj) fun hji => hi (hji ▸ hj),
          fun j hj => hupd hr fun _ => hQ j hj, hn.trans hsum⟩
      · -- The system adds now.
        refine ⟨insert i S, fun j hj => hupd hr fun hji => ?_, fun j hj => ?_, ?_⟩
        · exact hR j (Finset.mem_of_mem_insert_of_ne hj hji)
        · rw [Finset.mem_insert, not_or] at hj
          exact hold (hQ j hj.2) hj.1
        · rw [hn, hsum, Finset.sum_insert hi, add_assoc, add_comm (v i)]

theorem Part.Steps.trans {stepA : α → Res α β} {r r' r'' : Res α β}
    (h : P.Steps left stepA r m r' n) (h' : P.Steps left stepA r' n r'' n') :
    P.Steps left stepA r m r'' n' := by
  induction h' with
  | refl => exact h
  | tail _ hs ih => exact ih.tail hs

end

variable {A X C Y μ I : Type*} {stepA : A → Res A X} {stepC : C → Res C Y}

/-- The system simulates abstract steps, the marks being on between two of them, and works
    on the shared part once in each. The other states do not share: their steps are the
    same whatever the part is, and leave it alone; they may change what final results say
    of it, by `relabel`. -/
structure Simulation.SharesOnce (S : Simulation stepA stepC) (P : Part A μ) (Q : Part C μ)
    (leftA : X → μ → μ → Prop) (leftC : Y → μ → μ → Prop) where
  shares : C → Bool
  relabel : μ → Y → Y
  rel_put : ∀ {a c}, S.rel a c → ∀ n, S.rel (P.put n a) (Q.put n c)
  get_eq : ∀ {a c}, S.rel a c → P.get a = Q.get c
  quiet_put : ∀ n a, S.quiet (P.put n a) = S.quiet a
  mark_put : ∀ n c, S.mark (Q.put n c) = S.mark c
  shares_put : ∀ n c, shares (Q.put n c) = shares c
  step_put : ∀ {c}, shares c = false → ∀ n, stepC (Q.put n c) = (stepC c).map (Q.put n) (relabel n)
  relabel_self : ∀ y, ∃ n, relabel n y = y
  relabel_relabel : ∀ m n y, relabel m (relabel n y) = relabel m y
  left_relabel : ∀ m y n, leftC (relabel m y) m n ↔ n = m
  left_of_relDone : ∀ {x y m n}, S.relDone x y → leftC y m n → ∀ m', leftA x m' n
  once : ∀ {c k}, S.mark c = true → Unmarked stepC S.mark k c →
    (trace stepC shares k c).length ≤ 1

/-- A state that is related to an abstract one is related to one that is not quiet,
    too, after some quiet steps. -/
theorem Simulation.exists_not_quiet (S : Simulation stepA stepC) {a : A} {c : C}
    (h : S.rel a c) :
    ∃ k a', iter stepA k a = .cont a' ∧ S.rel a' c ∧ S.quiet a' = false ∧
      ∀ j ≤ k, ∀ b, iter stepA j a = .cont b → S.rel b c := by
  induction hr : S.rank a using Nat.strongRecOn generalizing a with
  | ind r ih =>
    cases hq : S.quiet a with
    | true =>
      obtain ⟨a₁, hs, h₁, hlt⟩ := S.quiet_step h hq
      obtain ⟨k, a', hk, h', hq', hall⟩ := ih _ (hr ▸ hlt) h₁ rfl
      refine ⟨k + 1, a', by rwa [iter_succ_of_cont hs], h', hq', fun j hj b hb => ?_⟩
      cases j with
      | zero =>
        cases hb
        exact h
      | succ j =>
        rw [iter_succ_of_cont hs] at hb
        exact hall j (by omega) b hb
    | false =>
      refine ⟨0, a, rfl, h, hq, fun j hj b hb => ?_⟩
      obtain rfl : j = 0 := by omega
      cases hb
      exact h

theorem Simulation.mark_of_rel' (S : Simulation stepA stepC) {a : A} {c : C} (h : S.rel a c) :
    S.mark c = true := by
  obtain ⟨_, a', _, h', hq, _⟩ := S.exists_not_quiet h
  exact S.mark_of_rel h' hq

namespace Simulation.SharesOnce

variable {S : Simulation stepA stepC} {P : Part A μ} {Q : Part C μ}
  {leftA : X → μ → μ → Prop} {leftC : Y → μ → μ → Prop} (H : S.SharesOnce P Q leftA leftC)
  {a a' : A} {c c' c₀ : C} {x : X} {y : Y} {m n n' : μ} {j k : ℕ}

/-! ## Private runs -/

/-- The first `k` steps from `c` do not work on the shared part. -/
def Private (k : ℕ) (c : C) : Prop :=
  ∀ j < k, ∀ d, iter stepC j c = .cont d → H.shares d = false

variable {H}

theorem Private.mono (h : H.Private k c) (hj : j ≤ k) : H.Private j c := fun i hi =>
  h i (by omega)

theorem Private.of_succ (h : H.Private (k + 1) c) (hs : stepC c = .cont c') :
    H.Private k c' := fun j hj d hd =>
  h (j + 1) (by omega) d (by rwa [iter_succ_of_cont hs])

/-- A run without steps on the shared part is the same whatever that is. -/
theorem Private.iter_put (h : H.Private k c) (n : μ) :
    iter stepC k (Q.put n c) = (iter stepC k c).map (Q.put n) (H.relabel n) := by
  induction k generalizing c with
  | zero => rfl
  | succ k ih =>
    have hs := H.step_put (h 0 k.succ_pos c rfl) n
    cases hc : stepC c with
    | cont c' =>
      rw [hc] at hs
      rw [iter_succ_of_cont hc, iter_succ_of_cont hs]
      exact ih (h.of_succ hc)
    | done y =>
      rw [hc] at hs
      rw [iter_succ_of_done hc, iter_succ_of_done hs]
      rfl

theorem Private.exists_of_put (h : H.Private k c) (hk : iter stepC k (Q.put n c) = .cont c') :
    ∃ d, iter stepC k c = .cont d ∧ Q.put n d = c' := by
  have hp := h.iter_put n
  rw [hk] at hp
  cases hc : iter stepC k c with
  | cont d =>
    rw [hc] at hp
    exact ⟨d, rfl, (Res.cont.inj hp).symm⟩
  | done y =>
    rw [hc] at hp
    cases hp

theorem Private.put (h : H.Private k c) (n : μ) : H.Private k (Q.put n c) := by
  intro j hj d hd
  obtain ⟨d', hd', rfl⟩ := (h.mono (Nat.le_of_lt hj)).exists_of_put hd
  rw [H.shares_put]
  exact h j hj d' hd'

theorem Private.cont_put (h : H.Private k c) (hk : iter stepC k c = .cont c') (n : μ) :
    iter stepC k (Q.put n c) = .cont (Q.put n c') := by
  rw [h.iter_put, hk, Res.map]

theorem Private.done_put (h : H.Private k c) (hk : iter stepC k c = .done y) (n : μ) :
    iter stepC k (Q.put n c) = .done (H.relabel n y) := by
  rw [h.iter_put, hk, Res.map]

/-- It leaves it alone. -/
theorem Private.get_eq (h : H.Private k c) (hk : iter stepC k c = .cont c') :
    Q.get c' = Q.get c := by
  have hp := h.cont_put hk (Q.get c)
  rw [Q.put_get, hk] at hp
  rw [Res.cont.inj hp, Q.get_put]

theorem Private.relabel_eq (h : H.Private k c) (hk : iter stepC k c = .done y) :
    H.relabel (Q.get c) y = y := by
  have hp := h.done_put hk (Q.get c)
  rw [Q.put_get, hk] at hp
  exact (Res.done.inj hp).symm

theorem Private.succ (h : H.Private k c) (hk : iter stepC k c = .cont c')
    (hc : H.shares c' = false) : H.Private (k + 1) c := by
  intro j hj d hd
  by_cases hjk : j < k
  · exact h j hjk d hd
  · obtain rfl : j = k := by omega
    cases hk.symm.trans hd
    exact hc

/-- After a step on the shared part, there is none before the next mark. -/
theorem private_of_shares (hc : S.mark c = true) (hj : iter stepC j c = .cont c')
    (hs : H.shares c' = true) (hun : Unmarked stepC S.mark k c) {c'' : C}
    (hnext : stepC c' = .cont c'') : H.Private (k - (j + 1)) c'' := by
  intro i hi d hd
  have hji : iter stepC (j + 1 + i) c = .cont d := by
    rw [iter_add ((iter_succ_right hj).trans hnext), hd]
  by_contra hd'
  have h := two_le_length_trace (by omega : j < j + 1 + i) (by omega : j + 1 + i < k) hj hs hji
    (by simpa using hd')
  have := H.once hc hun
  omega

variable (H) in
/-- The first `k` states from `c` are not marked, and do not work on the shared part. -/
structure Hidden (k : ℕ) (c : C) : Prop where
  private' : H.Private k c
  unmarked : ∀ j < k, ∀ d, iter stepC j c = .cont d → S.mark d = false

theorem Hidden.of_succ (h : H.Hidden (k + 1) c) (hs : stepC c = .cont c') : H.Hidden k c' :=
  ⟨h.private'.of_succ hs, fun j hj d hd =>
    h.unmarked (j + 1) (by omega) d (by rwa [iter_succ_of_cont hs])⟩

theorem Hidden.put (h : H.Hidden k c) (n : μ) : H.Hidden k (Q.put n c) := by
  refine ⟨h.private'.put n, fun j hj d hd => ?_⟩
  obtain ⟨d', hd', rfl⟩ := (h.private'.mono (Nat.le_of_lt hj)).exists_of_put hd
  rw [H.mark_put]
  exact h.unmarked j hj d' hd'

/-! ## Agreement -/

variable (H)

/-- The concrete system has got to `c` on the code of the abstract step from `a`, and
    has not worked on the shared part yet. -/
structure Before (a : A) (c₀ : C) (j : ℕ) (c : C) : Prop where
  rel : S.rel a c₀
  loud : S.quiet a = false
  run : iter stepC j c₀ = .cont c
  private' : H.Private j c₀
  unmarked : ∀ i, 0 < i → i ≤ j → ∀ d, iter stepC i c₀ = .cont d → S.mark d = false

/-- Where the concrete system is when the abstract one has got to a state: on the code of
    its next step, before working on the shared part; on its way to that code; or on its
    way to the final result. Their own copies of the shared part do not matter. -/
inductive Agree : Res A X → Res C Y → Prop
  | before {a : A} {n : μ} {c₀ c : C} {j : ℕ} (hb : H.Before (P.put n a) c₀ j c) :
      Agree (.cont a) (.cont c)
  | arriving {a : A} {n : μ} {c c' : C} {j : ℕ} (hr : S.rel (P.put n a) c')
      (hj : iter stepC j c = .cont c') (hp : H.Hidden j c) : Agree (.cont a) (.cont c)
  | leaving {x : X} {n : μ} {c : C} {y : Y} {j : ℕ} (hd : S.relDone x y)
      (hj : iter stepC j c = .done (H.relabel n y)) (hp : H.Hidden j c) :
      Agree (.done x) (.cont c)
  | done {x : X} {n : μ} {y : Y} (hd : S.relDone x y) : Agree (.done x) (.done (H.relabel n y))

variable {H}

theorem Before.put (h : H.Before a c₀ j c) (n : μ) :
    H.Before (P.put n a) (Q.put n c₀) j (Q.put n c) := by
  refine ⟨H.rel_put h.rel n, (H.quiet_put n a).trans h.loud, h.private'.cont_put h.run n,
    h.private'.put n, fun i hi hij d hd => ?_⟩
  obtain ⟨d', hd', rfl⟩ := (h.private'.mono hij).exists_of_put hd
  rw [H.mark_put]
  exact h.unmarked i hi hij d' hd'

/-- The code of the step goes on after `c`. -/
theorem Before.lt (h : H.Before a c₀ j c) (hk : 0 < k) (hc : iter stepC k c₀ = .cont c')
    (hm : S.mark c' = true) : j < k := by
  by_contra hle
  rw [h.unmarked k hk (by omega) c' hc] at hm
  cases hm

/-- A step of the concrete system which does not get to its final result. -/
theorem Before.cont (h : H.Before a c₀ j c) (hs : stepC c = .cont c') :
    (H.Before a c₀ (j + 1) c' ∧ Q.get c' = Q.get c) ∨
      (∃ a', stepA a = .cont a' ∧ P.get a' = Q.get c' ∧ H.Agree (.cont a') (.cont c')) ∨
      ∃ x, stepA a = .done x ∧ leftA x (Q.get c) (Q.get c') ∧ H.Agree (.done x) (.cont c') := by
  have hj : iter stepC (j + 1) c₀ = .cont c' := (iter_succ_right h.run).trans hs
  have hmark := S.mark_of_rel h.rel h.loud
  by_cases hstay : S.mark c' = false ∧ H.shares c = false
  · -- A private step to a state that is not marked.
    left
    have hp : H.Private (j + 1) c₀ := h.private'.succ h.run hstay.2
    refine ⟨⟨h.rel, h.loud, hj, hp, fun i hi hij d hd => ?_⟩, ?_⟩
    · rcases Nat.lt_or_ge j i with hlt | hle
      · obtain rfl : i = j + 1 := by omega
        cases hj.symm.trans hd
        exact hstay.1
      · exact h.unmarked i hi hle d hd
    · rw [hp.get_eq hj, h.private'.get_eq h.run]
  right
  -- The steps after this one are private, up to the end of the match.
  have hrest (k : ℕ) (hjk : j + 1 ≤ k) (hun : Unmarked stepC S.mark k c₀) :
      H.Hidden (k - (j + 1)) c' := by
    refine ⟨?_, fun i hi d hd => hun (j + 1 + i) (by omega) (by omega) d (by rwa [iter_add hj])⟩
    by_cases hc : H.shares c = true
    · exact private_of_shares hmark h.run hc hun hs
    · obtain rfl : k = j + 1 := by
        by_contra hne
        rw [hun (j + 1) j.succ_pos (by omega) c' hj] at hstay
        simp_all
      rw [Nat.sub_self]
      exact fun i hi => absurd hi (Nat.not_lt_zero i)
  cases ha : stepA a with
  | cont a' =>
    obtain ⟨k, c'', hk, hrun, hr, hun⟩ := S.cont_step h.rel h.loud ha
    have hjk := h.lt hk hrun (S.mark_of_rel' hr)
    have hp := hrest k hjk hun
    have hrun' : iter stepC (k - (j + 1)) c' = .cont c'' := by
      rw [← iter_add hj, Nat.add_sub_cancel' hjk, hrun]
    refine .inl ⟨a', rfl, (H.get_eq hr).trans (hp.private'.get_eq hrun'), ?_⟩
    refine .arriving (n := P.get a') ?_ hrun' hp
    rwa [P.put_get]
  | done x =>
    obtain ⟨k, y, hk, hrun, hd, hun⟩ := S.done_step h.rel h.loud ha
    have hjk : j + 1 ≤ k := by
      by_contra hlt
      rw [iter_done_of_le hrun (by omega : k ≤ j + 1)] at hj
      cases hj
    have hp := hrest k hjk hun
    have hrun' : iter stepC (k - (j + 1)) c' = .done y := by
      rw [← iter_add hj, Nat.add_sub_cancel' hjk, hrun]
    have hy := hp.private'.relabel_eq hrun'
    have hl : leftC y (Q.get c') (Q.get c') := by
      rw [← hy, H.left_relabel]
    exact .inr ⟨x, rfl, H.left_of_relDone hd hl _, .leaving hd (hrun'.trans (by rw [hy])) hp⟩

/-- A step of the concrete system to its final result. -/
theorem Before.done (h : H.Before a c₀ j c) (hs : stepC c = .done y) :
    ∃ x, stepA a = .done x ∧ S.relDone x y := by
  have hj : iter stepC (j + 1) c₀ = .done y := (iter_succ_right h.run).trans hs
  cases ha : stepA a with
  | cont a' =>
    obtain ⟨k, c'', hk, hrun, hr, -⟩ := S.cont_step h.rel h.loud ha
    have hjk := h.lt hk hrun (S.mark_of_rel' hr)
    rw [iter_done_of_le hj hjk] at hrun
    cases hrun
  | done x =>
    obtain ⟨k, y', hk, hrun, hd, -⟩ := S.done_step h.rel h.loud ha
    cases iter_done_unique hrun hj
    exact ⟨x, rfl, hd⟩

include H in
/-- Quiet steps leave the shared part alone. -/
theorem exists_steps_quiet (hr : S.rel (P.put n a) c) (hk : iter stepA k (P.put n a) = .cont a')
    (hall : ∀ j ≤ k, ∀ b, iter stepA j (P.put n a) = .cont b → S.rel b c) :
    ∃ b, P.Steps leftA stepA (.cont a) n (.cont b) n ∧ P.put n b = a' := by
  have hget (b : A) (hb : S.rel b c) : P.get b = n := by
    rw [H.get_eq hb, ← H.get_eq hr, P.get_put]
  induction k generalizing a' with
  | zero =>
    cases hk
    exact ⟨a, .refl, rfl⟩
  | succ k ih =>
    obtain ⟨b, hb, -⟩ := iter_cont_of_le hk k.le_succ
    obtain ⟨b', hsteps, rfl⟩ := ih hb fun j hj => hall j (by omega)
    rw [iter_succ_right hb] at hk
    have hn := hget a' (hall (k + 1) (Nat.le_refl _) a' ((iter_succ_right hb).trans hk))
    have h := hsteps.tail (.cont hk)
    rw [hn] at h
    refine ⟨a', h, ?_⟩
    rw [← hn, P.put_get]

/-- A step of the concrete system on the code of an abstract step. -/
theorem Before.steps (h : H.Before (P.put n a) c₀ j (Q.put n c)) {r : Res C Y}
    (hs : Q.Step leftC stepC (.cont c) n r n') :
    ∃ r', P.Steps leftA stepA (.cont a) n r' n' ∧ H.Agree r' r := by
  cases hs with
  | cont hs =>
    rcases h.cont hs with ⟨hb, hn⟩ | ⟨a', ha, hn, hagree⟩ | ⟨x, ha, hn, hagree⟩
    · rw [hn, Q.get_put]
      exact ⟨_, .refl, .before hb⟩
    · have hstep : P.Step leftA stepA (.cont a) n (.cont a') (P.get a') := .cont ha
      rw [hn] at hstep
      exact ⟨_, Part.Steps.refl.tail hstep, hagree⟩
    · rw [Q.get_put] at hn
      exact ⟨_, Part.Steps.refl.tail (.done ha hn), hagree⟩
  | @done _ y _ _ hs hn =>
    obtain ⟨x, ha, hd⟩ := h.done hs
    obtain ⟨m, hm⟩ := H.relabel_self y
    have hagree : H.Agree (.done x) (.done (H.relabel m y)) := .done hd
    rw [hm] at hagree
    exact ⟨_, Part.Steps.refl.tail (.done ha (H.left_of_relDone hd hn _)), hagree⟩

/-- A step of the concrete system on its way leaves the shared part alone. -/
theorem agree_of_private (ra : Res A X) {r : Res C Y} (hp : H.Private 1 (Q.put n c))
    (hs : Q.Step leftC stepC (.cont c) n r n')
    (hcont : ∀ c', stepC (Q.put n c) = .cont c' → H.Agree ra (.cont c'))
    (hdone : ∀ y, stepC (Q.put n c) = .done y → H.Agree ra (.done y)) :
    n' = n ∧ H.Agree ra r := by
  cases hs with
  | cont hs =>
    refine ⟨?_, hcont _ hs⟩
    rw [hp.get_eq (iter_one.trans hs), Q.get_put]
  | done hs hn =>
    refine ⟨?_, hdone _ hs⟩
    have hy := hp.relabel_eq (iter_one.trans hs)
    rw [Q.get_put] at hy
    rwa [← hy, H.left_relabel] at hn

/-- The abstract steps at one step of the concrete system. -/
theorem Agree.steps {ra : Res A X} {rc rc' : Res C Y} (h : H.Agree ra rc)
    (hs : Q.Step leftC stepC rc n rc' n') :
    ∃ ra', P.Steps leftA stepA ra n ra' n' ∧ H.Agree ra' rc' := by
  cases h with
  | done hd => cases hs
  | @before a m c₀ c j hb =>
    have hb' := hb.put n
    rw [P.put_put] at hb'
    exact hb'.steps hs
  | @arriving a m c c' j hr hj hp =>
    have hr' := H.rel_put hr n
    rw [P.put_put] at hr'
    have hj' := hp.private'.cont_put hj n
    cases j with
    | zero =>
      -- At the code of the next step, quiet steps may come before that.
      cases hj
      obtain ⟨k, a', hk, hr'', hq, hall⟩ := S.exists_not_quiet hr'
      obtain ⟨b, hsteps, rfl⟩ := exists_steps_quiet (H := H) hr' hk hall
      have hb : H.Before (P.put n b) (Q.put n c) 0 (Q.put n c) :=
        ⟨hr'', hq, rfl, fun i hi => absurd hi (Nat.not_lt_zero i), fun i hi hi' => by omega⟩
      obtain ⟨ra', hsteps', hagree⟩ := hb.steps hs
      exact ⟨ra', hsteps.trans hsteps', hagree⟩
    | succ j =>
      have hp' := hp.put n
      have hp₁ := hp'.private'.mono (Nat.le_add_left 1 j)
      obtain ⟨rfl, hagree⟩ := agree_of_private (.cont a) hp₁ hs
        (fun c₁ hs' => .arriving hr' (by rwa [iter_succ_of_cont hs'] at hj') (hp'.of_succ hs'))
        (fun y hs' => by rw [iter_succ_of_done hs'] at hj'; cases hj')
      exact ⟨_, .refl, hagree⟩
  | @leaving x m c y j hd hj hp =>
    have hj' := hp.private'.done_put hj n
    rw [H.relabel_relabel] at hj'
    have hp' := hp.put n
    cases j with
    | zero => cases hj
    | succ j =>
      have hp₁ := hp'.private'.mono (Nat.le_add_left 1 j)
      obtain ⟨rfl, hagree⟩ := agree_of_private (.done x) hp₁ hs
        (fun c₁ hs' => .leaving hd (by rwa [iter_succ_of_cont hs'] at hj') (hp'.of_succ hs'))
        (fun y' hs' => by
          rw [iter_succ_of_done hs'] at hj'
          cases hj'
          exact .done hd)
      exact ⟨_, .refl, hagree⟩

/-- At a mark, the two are related. -/
theorem Agree.of_mark {ra : Res A X} (h : H.Agree ra (.cont c)) (hm : S.mark c = true) :
    ∃ a, ra = .cont a ∧ S.rel (P.put (Q.get c) a) c := by
  have hput {a : A} {n : μ} (hr : S.rel (P.put n a) c) : S.rel (P.put (Q.get c) a) c := by
    have hn := H.get_eq hr
    rw [P.get_put] at hn
    rwa [← hn]
  cases h with
  | @before a n c₀ _ j hb =>
    cases j with
    | zero =>
      cases hb.run
      exact ⟨a, rfl, hput hb.rel⟩
    | succ j =>
      rw [hb.unmarked (j + 1) j.succ_pos (Nat.le_refl _) c hb.run] at hm
      cases hm
  | @arriving a n _ c' j hr hj hp =>
    cases j with
    | zero =>
      cases hj
      exact ⟨a, rfl, hput hr⟩
    | succ j =>
      rw [hp.unmarked 0 j.succ_pos c rfl] at hm
      cases hm
  | @leaving x n _ y j hd hj hp =>
    cases j with
    | zero => cases hj
    | succ j =>
      rw [hp.unmarked 0 j.succ_pos c rfl] at hm
      cases hm

/-- In the end, the results are related, but for the shared part. -/
theorem Agree.of_done {ra : Res A X} (h : H.Agree ra (.done y)) :
    ∃ x n y', ra = .done x ∧ S.relDone x y' ∧ H.relabel n y' = y := by
  generalize hrc : (.done y : Res C Y) = rc at h
  cases h with
  | done hd => exact ⟨_, _, _, rfl, hd, (Res.done.inj hrc).symm⟩
  | before | arriving | leaving => cases hrc

end Simulation.SharesOnce

/-! ## Interleavings -/

/-- Concrete systems side by side do what the abstract ones do, in some order of their
    steps, and leave the same shared part. -/
theorem exists_interleaves [DecidableEq I] {stepA : I → A → Res A X} {stepC : I → C → Res C Y}
    {S : ∀ i, Simulation (stepA i) (stepC i)} {P : Part A μ} {Q : Part C μ}
    {leftA : X → μ → μ → Prop} {leftC : Y → μ → μ → Prop}
    (H : ∀ i, (S i).SharesOnce P Q leftA leftC) {rs rs' : I → Res C Y} {as : I → Res A X}
    {m n : μ} (h : Interleaves Q leftC stepC rs m rs' n) (has : ∀ i, (H i).Agree (as i) (rs i)) :
    ∃ as', Interleaves P leftA stepA as m as' n ∧ ∀ i, (H i).Agree (as' i) (rs' i) := by
  induction h with
  | refl => exact ⟨as, .refl, has⟩
  | @tail rs' r n n' i _ hs ih =>
    obtain ⟨as', hi, has'⟩ := ih
    obtain ⟨a, hsteps, hagree⟩ := (has' i).steps hs
    exact ⟨Function.update as' i a, hi.steps hsteps, rel_update has' hagree⟩

end Transition
