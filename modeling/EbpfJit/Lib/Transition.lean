import Mathlib.Data.List.Forall2
import Mathlib.Tactic.Common

/-!
# Deterministic transition systems

A deterministic transition system is a step function `α → Res α β`: a state
either continues to a next state, or is done with a final result. Its runs are
the iterates of the step (`iter`).

Two such systems are related by a *stuttering simulation* (`Simulation`): every
step of the abstract system is matched by some steps of the concrete one. Some
abstract states are `quiet`, i.e., their step is matched by no concrete step at
all (which a rank keeps from going on forever). The other ones are matched by at
least one step, and start at a *marked* concrete state, the states strictly
inside the match being unmarked: the marks are the points of a concrete run at
which it can be observed.

* `Simulation.forward`, `Simulation.forward_done`: abstract runs are matched;
* `Simulation.backward_done`: a concrete run is only done if the abstract one is;
* `Simulation.backward_mark`: every marked state of a concrete run is related to
  an abstract state, and the marked states before it are related, one by one, to
  the abstract states before that.

Two systems of which every step of the one is matched by one step of the other go in
*lock-step*:

* `iter_rel`, `trace_rel`: what holds of every step holds of the runs.

Whether a run `Ends` well is decided step by step (`ends_of_cont`, `ends_of_done`).
-/

namespace Transition

variable {α β : Type*}

/-- The result of a step: go on from a state, or be done. -/
inductive Res (α β : Type*)
  | cont (a : α)
  | done (b : β)

/-- `n` steps from `a`. Being done is final. -/
def iter (step : α → Res α β) : ℕ → α → Res α β
  | 0, a => .cont a
  | n + 1, a =>
    match step a with
    | .cont a' => iter step n a'
    | .done b => .done b

/-- The states satisfying `p` among the first `n` ones of the run from `a`. -/
def trace (step : α → Res α β) (p : α → Bool) : ℕ → α → List α
  | 0, _ => []
  | n + 1, a =>
    (if p a then [a] else []) ++
      match step a with
      | .cont a' => trace step p n a'
      | .done _ => []

section

variable {step : α → Res α β} {p : α → Bool} {a a' : α} {b : β} {m n : ℕ}

@[simp] theorem iter_zero : iter step 0 a = .cont a := rfl

theorem iter_succ_of_cont (h : step a = .cont a') : iter step (n + 1) a = iter step n a' := by
  rw [iter, h]

theorem iter_succ_of_done (h : step a = .done b) : iter step (n + 1) a = .done b := by
  rw [iter, h]

theorem iter_one : iter step 1 a = step a := by
  cases h : step a with
  | cont a' => rw [iter_succ_of_cont h, iter_zero]
  | done b => rw [iter_succ_of_done h]

theorem iter_add (h : iter step m a = .cont a') : iter step (m + n) a = iter step n a' := by
  induction m generalizing a with
  | zero =>
    cases h
    rw [Nat.zero_add]
  | succ m ih =>
    rw [Nat.add_right_comm]
    cases hs : step a with
    | cont a₁ =>
      rw [iter_succ_of_cont hs] at h ⊢
      exact ih h
    | done b =>
      rw [iter_succ_of_done hs] at h
      cases h

theorem iter_add_of_done (h : iter step m a = .done b) : iter step (m + n) a = .done b := by
  induction m generalizing a with
  | zero => cases h
  | succ m ih =>
    rw [Nat.add_right_comm]
    cases hs : step a with
    | cont a₁ =>
      rw [iter_succ_of_cont hs] at h ⊢
      exact ih h
    | done b' =>
      rw [iter_succ_of_done hs] at h ⊢
      exact h

theorem iter_done_of_le (h : iter step m a = .done b) (hmn : m ≤ n) :
    iter step n a = .done b := by
  obtain ⟨k, rfl⟩ := Nat.exists_eq_add_of_le hmn
  exact iter_add_of_done h

/-- A run that goes on after `n` steps went on before. -/
theorem iter_cont_of_le (h : iter step n a = .cont a') (hmn : m ≤ n) :
    ∃ c, iter step m a = .cont c ∧ iter step (n - m) c = .cont a' := by
  cases hm : iter step m a with
  | cont c =>
    refine ⟨c, rfl, ?_⟩
    rw [← iter_add hm, Nat.add_sub_cancel' hmn, h]
  | done b =>
    rw [iter_done_of_le hm hmn] at h
    cases h

theorem iter_succ_right (h : iter step n a = .cont a') : iter step (n + 1) a = step a' := by
  rw [iter_add h, iter_one]

/-- A run that is done has a last state. -/
theorem exists_last (h : iter step n a = .done b) :
    ∃ m < n, ∃ c, iter step m a = .cont c ∧ step c = .done b := by
  induction n with
  | zero => cases h
  | succ n ih =>
    cases hn : iter step n a with
    | cont c => exact ⟨n, n.lt_succ_self, c, hn, (iter_succ_right hn).symm.trans h⟩
    | done b' =>
      rw [iter_add_of_done hn] at h
      obtain ⟨m, hm, c, hc, hs⟩ := ih (hn.trans h)
      exact ⟨m, Nat.lt_succ_of_lt hm, c, hc, hs⟩

/-- A run is done with one result only. -/
theorem iter_done_unique {b' : β} (h : iter step m a = .done b) (h' : iter step n a = .done b') :
    b = b' := by
  have e := iter_done_of_le h (Nat.le_max_left m n)
  rw [iter_done_of_le h' (Nat.le_max_right m n)] at e
  exact (Res.done.inj e).symm

/-- The run from `a` is done with a result that satisfies `P`. -/
def Ends (step : α → Res α β) (P : β → Prop) (a : α) : Prop :=
  ∃ n b, iter step n a = .done b ∧ P b

theorem ends_of_cont {P : β → Prop} (h : step a = .cont a') :
    Ends step P a ↔ Ends step P a' := by
  constructor
  · rintro ⟨n, b, hn, hb⟩
    cases n with
    | zero => cases hn
    | succ n => exact ⟨n, b, by rwa [iter_succ_of_cont h] at hn, hb⟩
  · rintro ⟨n, b, hn, hb⟩
    exact ⟨n + 1, b, by rwa [iter_succ_of_cont h], hb⟩

theorem ends_of_done {P : β → Prop} (h : step a = .done b) : Ends step P a ↔ P b := by
  constructor
  · rintro ⟨n, b', hn, hb⟩
    cases n with
    | zero => cases hn
    | succ n =>
      rw [iter_succ_of_done h] at hn
      cases hn
      exact hb
  · intro hb
    exact ⟨1, b, iter_succ_of_done h, hb⟩

theorem trace_add (h : iter step m a = .cont a') :
    trace step p (m + n) a = trace step p m a ++ trace step p n a' := by
  induction m generalizing a with
  | zero =>
    cases h
    rw [Nat.zero_add]
    rfl
  | succ m ih =>
    rw [Nat.add_right_comm]
    cases hs : step a with
    | cont a₁ =>
      rw [iter_succ_of_cont hs] at h
      simp only [trace, hs, ih h, List.append_assoc]
    | done b =>
      rw [iter_succ_of_done hs] at h
      cases h

/-- The trace of one more step. -/
theorem trace_succ_right (h : iter step n a = .cont a') :
    trace step p (n + 1) a = trace step p n a ++ if p a' then [a'] else [] := by
  rw [trace_add h]
  cases hs : step a' with
  | cont a₁ => simp [trace, hs]
  | done b => simp [trace, hs]

/-- Systems that agree on the states the first one gets to have the same runs. -/
theorem iter_congr {step' : α → Res α β}
    (h : ∀ n c, iter step n a = .cont c → step c = step' c) (n : ℕ) :
    iter step n a = iter step' n a := by
  induction n with
  | zero => rfl
  | succ n ih =>
    cases hn : iter step n a with
    | cont c => rw [iter_succ_right hn, iter_succ_right (ih ▸ hn), h n c hn]
    | done b => rw [iter_add_of_done hn, iter_add_of_done (ih ▸ hn)]

/-- A run that is done has no more states. -/
theorem trace_succ_of_done (h : iter step n a = .done b) :
    trace step p (n + 1) a = trace step p n a := by
  induction n generalizing a with
  | zero => cases h
  | succ n ih =>
    rw [trace, trace]
    cases hs : step a with
    | cont a₁ =>
      rw [iter_succ_of_cont hs] at h
      simp only [ih h]
    | done b' => rfl

/-- Systems with the same runs go through the same states. -/
theorem trace_congr {step' : α → Res α β} (h : ∀ n, iter step n a = iter step' n a) (n : ℕ) :
    trace step p n a = trace step' p n a := by
  induction n with
  | zero => rfl
  | succ n ih =>
    cases hn : iter step n a with
    | cont c => rw [trace_succ_right hn, trace_succ_right (h n ▸ hn), ih]
    | done b => rw [trace_succ_of_done hn, trace_succ_of_done (h n ▸ hn), ih]

/-- Every step of a run that goes on is one of its trace. -/
theorem length_trace (h : iter step n a = .cont a') :
    (trace step (fun _ => true) n a).length = n := by
  induction n generalizing a' with
  | zero => rfl
  | succ n ih =>
    obtain ⟨b, hb, -⟩ := iter_cont_of_le h n.le_succ
    rw [trace_succ_right hb, List.length_append, ih hb]
    rfl

/-- All states of a run that is done within `n` steps are in its trace. -/
theorem mem_trace_of_done (hn : iter step n a = .done b) (hm : iter step m a = .cont a') :
    a' ∈ trace step (fun _ => true) n a := by
  have hlt : m < n := by
    by_contra hle
    rw [iter_done_of_le hn (Nat.not_lt.1 hle)] at hm
    cases hm
  obtain ⟨k, rfl⟩ := Nat.exists_eq_add_of_lt hlt
  rw [Nat.add_assoc, trace_add hm, trace]
  exact List.mem_append_right _ (List.mem_append_left _ (List.mem_singleton_self _))

/-- The states of a run that satisfy `p` are in its trace. -/
theorem mem_trace_of_iter (hm : m < n) (h : iter step m a = .cont a') (hp : p a' = true) :
    a' ∈ trace step p n a := by
  obtain ⟨k, rfl⟩ := Nat.exists_eq_add_of_lt hm
  rw [Nat.add_assoc, trace_add h, trace, if_pos hp]
  exact List.mem_append_right _ (List.mem_append_left _ (List.mem_singleton_self _))

theorem trace_add_of_done (h : iter step m a = .done b) :
    trace step p (m + n) a = trace step p m a := by
  induction n with
  | zero => rfl
  | succ n ih => rw [← Nat.add_assoc, trace_succ_of_done (iter_add_of_done h), ih]

theorem length_trace_mono (hmn : m ≤ n) :
    (trace step p m a).length ≤ (trace step p n a).length := by
  obtain ⟨k, rfl⟩ := Nat.exists_eq_add_of_le hmn
  cases h : iter step m a with
  | cont c => simp [trace_add h]
  | done b => exact Nat.le_of_eq (congrArg List.length (trace_add_of_done h).symm)

/-- Two states of a run that satisfy `p` are both in its trace. -/
theorem two_le_length_trace {c : α} {k : ℕ} (hmn : m < n) (hn : n < k)
    (h : iter step m a = .cont a') (hp : p a' = true) (h' : iter step n a = .cont c)
    (hp' : p c = true) : 2 ≤ (trace step p k a).length := by
  have hm : 1 ≤ (trace step p n a).length :=
    List.length_pos_of_mem (mem_trace_of_iter hmn h hp)
  have hlen : (trace step p (n + 1) a).length ≤ _ := length_trace_mono hn
  rw [trace_succ_right h', List.length_append, if_pos hp'] at hlen
  exact Nat.le_trans (Nat.add_le_add_right hm 1) hlen

/-- A stretch of a run without a state satisfying `p` has an empty trace. -/
theorem trace_eq_nil (h : ∀ j < n, ∀ c, iter step j a = .cont c → p c = false) :
    trace step p n a = [] := by
  induction n generalizing a with
  | zero => rfl
  | succ n ih =>
    have ha : p a = false := h 0 n.succ_pos a rfl
    cases hs : step a with
    | cont a₁ =>
      have := ih fun j hj c hc => h (j + 1) (by omega) c (by rwa [iter_succ_of_cont hs])
      simp [trace, ha, hs, this]
    | done b => simp [trace, ha, hs]

/-- The states of a trace satisfy `p`, and are states of the run. -/
theorem mem_trace {c : α} (h : c ∈ trace step p n a) :
    p c = true ∧ ∃ j < n, iter step j a = .cont c := by
  induction n generalizing a with
  | zero => cases h
  | succ n ih =>
    rw [trace, List.mem_append] at h
    rcases h with h | h
    · split at h
      · next hp =>
        rw [List.mem_singleton] at h
        exact ⟨h ▸ hp, 0, n.succ_pos, h ▸ rfl⟩
      · cases h
    · cases hs : step a with
      | cont a₁ =>
        rw [hs] at h
        obtain ⟨hp, j, hj, hc⟩ := ih h
        exact ⟨hp, j + 1, by omega, by rwa [iter_succ_of_cont hs]⟩
      | done b =>
        rw [hs] at h
        cases h

/-- The last state of a trace, and the trace before it. -/
theorem exists_last_of_trace (h : trace step p n a ≠ []) :
    ∃ j < n, ∃ c, iter step j a = .cont c ∧ p c = true ∧
      trace step p n a = trace step p j a ++ [c] := by
  induction n with
  | zero => exact absurd rfl h
  | succ n ih =>
    cases hn : iter step n a with
    | done b =>
      rw [trace_succ_of_done hn] at h ⊢
      obtain ⟨j, hj, hspec⟩ := ih h
      exact ⟨j, Nat.lt_succ_of_lt hj, hspec⟩
    | cont c =>
      rw [trace_succ_right hn] at h ⊢
      cases hp : p c with
      | true => exact ⟨n, n.lt_succ_self, c, hn, hp, by simp⟩
      | false =>
        rw [hp] at h
        simp only [Bool.false_eq_true, if_false, List.append_nil] at h ⊢
        obtain ⟨j, hj, hspec⟩ := ih h
        exact ⟨j, Nat.lt_succ_of_lt hj, hspec⟩

theorem length_trace_le (n : ℕ) (a : α) : (trace step p n a).length ≤ n := by
  induction n generalizing a with
  | zero => exact Nat.le_refl 0
  | succ n ih =>
    rw [trace, List.length_append, Nat.add_comm]
    refine Nat.add_le_add ?_ ?_
    · split
      · exact ih _
      · exact Nat.zero_le n
    · split <;> simp

/-- A run whose steps decrease a rank has no more steps than that. -/
theorem add_rank_le {rank : α → ℕ}
    (hrank : ∀ n c c', iter step n a = .cont c → step c = .cont c' → rank c' < rank c)
    (h : iter step n a = .cont a') : n + rank a' ≤ rank a := by
  induction n generalizing a' with
  | zero =>
    cases h
    exact Nat.le_of_eq (Nat.zero_add _)
  | succ n ih =>
    obtain ⟨c, hc, -⟩ := iter_cont_of_le h n.le_succ
    have hlt := hrank n c a' hc ((iter_succ_right hc).symm.trans h)
    have := ih hc
    omega

/-- Such a run ends. -/
theorem exists_done_of_rank {rank : α → ℕ}
    (hrank : ∀ n c c', iter step n a = .cont c → step c = .cont c' → rank c' < rank c) :
    ∃ b, iter step (rank a + 1) a = .done b := by
  cases h : iter step (rank a + 1) a with
  | done b => exact ⟨b, rfl⟩
  | cont c =>
    have := add_rank_le hrank h
    omega

end

/-! ## Pending events -/

/-- The pending events after the event `a`: it opens, or closes the last one. -/
def pend (opens closes : α → Bool) (ps : List α) (a : α) : List α :=
  if opens a then a :: ps else if closes a then ps.tail else ps

/-- The events of `l` that open, and that no later one closes, the last one first. -/
def pending (opens closes : α → Bool) (l : List α) : List α := l.foldl (pend opens closes) []

section

variable {opens closes : α → Bool}

theorem pending_append_singleton (l : List α) (a : α) :
    pending opens closes (l ++ [a]) = pend opens closes (pending opens closes l) a := by
  rw [pending, List.foldl_append]
  rfl

theorem foldl_pend_opens {l ps : List α} (hps : ∀ b ∈ ps, opens b = true) :
    ∀ b ∈ l.foldl (pend opens closes) ps, opens b = true := by
  induction l generalizing ps with
  | nil => exact hps
  | cons a l ih =>
    refine ih ?_
    intro b hb
    rw [pend] at hb
    split at hb
    · next ha =>
      rcases List.mem_cons.1 hb with rfl | hb
      · exact ha
      · exact hps b hb
    split at hb
    · exact hps b (List.mem_of_mem_tail hb)
    · exact hps b hb

/-- Pending events open. -/
theorem opens_of_mem_pending {l : List α} {a : α} (h : a ∈ pending opens closes l) :
    opens a = true :=
  foldl_pend_opens (fun _ hb => absurd hb List.not_mem_nil) a h

/-- What holds of the one of two related traces holds of the other one. -/
theorem forall_mem_of_forall₂ {R : α → β → Prop} {P : α → Prop} {Q : β → Prop} {l : List α}
    {l' : List β} (h : List.Forall₂ R l l') (hR : ∀ a b, R a b → Q b → P a)
    (hQ : ∀ b ∈ l', Q b) : ∀ a ∈ l, P a := by
  induction h with
  | nil => exact fun a ha => absurd ha List.not_mem_nil
  | cons hab _ ih =>
    rw [List.forall_mem_cons] at hQ ⊢
    exact ⟨hR _ _ hab hQ.1, ih hQ.2⟩

/-- Lists that are both related to a third one are related to each other. -/
theorem forall₂_of_forall₂ {γ : Type*} {R : α → β → Prop} {R' : α → γ → Prop} {S : β → γ → Prop}
    {l : List α} {l₁ : List β} {l₂ : List γ} (h : List.Forall₂ R l l₁) (h' : List.Forall₂ R' l l₂)
    (hS : ∀ a ∈ l, ∀ b c, R a b → R' a c → S b c) : List.Forall₂ S l₁ l₂ := by
  induction h generalizing l₂ with
  | nil =>
    cases h'
    exact .nil
  | @cons a b l l₁ hab h ih =>
    cases h' with
    | cons hac h' =>
      exact .cons (hS a List.mem_cons_self b _ hab hac)
        (ih h' fun a' ha' => hS a' (List.mem_cons_of_mem a ha'))

/-- The pending events of related traces are related. -/
theorem pending_forall₂ {R : α → β → Prop} {opens' closes' : β → Bool} {l : List α} {l' : List β}
    (h : List.Forall₂ R l l')
    (hR : ∀ a b, R a b → opens a = opens' b ∧ closes a = closes' b) :
    List.Forall₂ R (pending opens closes l) (pending opens' closes' l') := by
  -- By induction on the traces, from any related events that are pending before.
  suffices ∀ ps ps', List.Forall₂ R ps ps' →
      List.Forall₂ R (l.foldl (pend opens closes) ps) (l'.foldl (pend opens' closes') ps') from
    this [] [] .nil
  induction h with
  | nil => exact fun ps ps' hps => hps
  | @cons a b l l' hab _ ih =>
    intro ps ps' hps
    obtain ⟨hopens, hcloses⟩ := hR a b hab
    refine ih _ _ ?_
    rw [pend, pend, hopens, hcloses]
    split
    · exact .cons hab hps
    split
    · rcases hps with _ | ⟨_, htail⟩
      · exact .nil
      · exact htail
    · exact hps

end

variable {A X C Y : Type*}

/-! ## Lock-step -/

/-- The results are related: both go on, or both are done. -/
inductive Res.Rel (R : A → C → Prop) (D : X → Y → Prop) : Res A X → Res C Y → Prop
  | cont {a : A} {c : C} (h : R a c) : Rel R D (.cont a) (.cont c)
  | done {x : X} {y : Y} (h : D x y) : Rel R D (.done x) (.done y)

section

variable {R : A → C → Prop} {D : X → Y → Prop} {P : C → Prop} {stepA : A → Res A X}
  {stepC : C → Res C Y} {a : A} {c : C} {x : X} {y : Y} {rA : Res A X} {rC : Res C Y}

theorem Res.Rel.of_cont (h : Res.Rel R D (.cont a) rC) : ∃ c, rC = .cont c ∧ R a c := by
  cases h with
  | cont h => exact ⟨_, rfl, h⟩

theorem Res.Rel.of_done (h : Res.Rel R D (.done x) rC) : ∃ y, rC = .done y ∧ D x y := by
  cases h with
  | done h => exact ⟨_, rfl, h⟩

theorem Res.Rel.to_cont (h : Res.Rel R D rA (.cont c)) : ∃ a, rA = .cont a ∧ R a c := by
  cases h with
  | cont h => exact ⟨_, rfl, h⟩

theorem Res.Rel.to_done (h : Res.Rel R D rA (.done y)) : ∃ x, rA = .done x ∧ D x y := by
  cases h with
  | done h => exact ⟨_, rfl, h⟩

/-- Systems whose steps are related, from the states of the second one that satisfy
    `P`, have related runs, if the states on the second one do. -/
theorem iter_rel (hstep : ∀ a c, P c → R a c → Res.Rel R D (stepA a) (stepC c)) (hr : R a c)
    (hP : ∀ n d, iter stepC n c = .cont d → P d) (n : ℕ) :
    Res.Rel R D (iter stepA n a) (iter stepC n c) := by
  induction n generalizing a c with
  | zero => exact .cont hr
  | succ n ih =>
    have h := hstep a c (hP 0 c rfl) hr
    cases hs : stepC c with
    | cont c' =>
      obtain ⟨a', hsA, hr'⟩ := (hs ▸ h).to_cont
      rw [iter_succ_of_cont hsA, iter_succ_of_cont hs]
      exact ih hr' fun m d hd => hP (m + 1) d (by rwa [iter_succ_of_cont hs])
    | done y =>
      obtain ⟨x, hsA, hd⟩ := (hs ▸ h).to_done
      rw [iter_succ_of_done hsA, iter_succ_of_done hs]
      exact .done hd

/-- They go through related states. -/
theorem trace_rel {p : A → Bool} {q : C → Bool}
    (hstep : ∀ a c, P c → R a c → Res.Rel R D (stepA a) (stepC c))
    (hpq : ∀ a c, P c → R a c → p a = q c) (hr : R a c)
    (hP : ∀ n d, iter stepC n c = .cont d → P d) (n : ℕ) :
    List.Forall₂ R (trace stepA p n a) (trace stepC q n c) := by
  induction n generalizing a c with
  | zero => exact .nil
  | succ n ih =>
    have hc := hP 0 c rfl
    have h := hstep a c hc hr
    -- The two states are both in their traces, or neither is.
    have hhead : List.Forall₂ R (if p a then [a] else []) (if q c then [c] else []) := by
      rw [hpq a c hc hr]
      split
      · exact .cons hr .nil
      · exact .nil
    rw [trace, trace]
    refine List.rel_append hhead ?_
    cases hs : stepC c with
    | cont c' =>
      obtain ⟨a', hsA, hr'⟩ := (hs ▸ h).to_cont
      rw [hsA]
      exact ih hr' fun m d hd => hP (m + 1) d (by rwa [iter_succ_of_cont hs])
    | done y =>
      obtain ⟨x, hsA, -⟩ := (hs ▸ h).to_done
      rw [hsA]
      exact .nil

/-- It is enough that the steps are related from the states of the first system that
    satisfy `Q`, as long as the run on the first one only goes through such states. -/
theorem iter_rel_of_left {Q : A → Prop}
    (hstep : ∀ a c, Q a → P c → R a c → Res.Rel R D (stepA a) (stepC c)) (hr : R a c)
    (hP : ∀ n d, iter stepC n c = .cont d → P d) {n : ℕ}
    (hQ : ∀ m < n, ∀ b, iter stepA m a = .cont b → Q b) :
    Res.Rel R D (iter stepA n a) (iter stepC n c) := by
  induction n with
  | zero => exact .cont hr
  | succ n ih =>
    have hn := ih fun m hm => hQ m (Nat.lt_succ_of_lt hm)
    cases hc : iter stepC n c with
    | cont c' =>
      obtain ⟨a', ha, hr'⟩ := (hc ▸ hn).to_cont
      rw [iter_succ_right ha, iter_succ_right hc]
      exact hstep a' c' (hQ n n.lt_succ_self a' ha) (hP n c' hc) hr'
    | done y =>
      obtain ⟨x, ha, hd⟩ := (hc ▸ hn).to_done
      rw [iter_add_of_done ha, iter_add_of_done hc]
      exact .done hd

/-- Then they go through related states, too. -/
theorem trace_rel_of_left {Q : A → Prop} {p : A → Bool} {q : C → Bool}
    (hstep : ∀ a c, Q a → P c → R a c → Res.Rel R D (stepA a) (stepC c))
    (hpq : ∀ a c, P c → R a c → p a = q c) (hr : R a c)
    (hP : ∀ n d, iter stepC n c = .cont d → P d) {n : ℕ}
    (hQ : ∀ m < n, ∀ b, iter stepA m a = .cont b → Q b) :
    List.Forall₂ R (trace stepA p n a) (trace stepC q n c) := by
  induction n with
  | zero => exact .nil
  | succ n ih =>
    have hQ' (m : ℕ) (hm : m < n) := hQ m (Nat.lt_succ_of_lt hm)
    have hn := iter_rel_of_left hstep hr hP hQ'
    cases hc : iter stepC n c with
    | cont c' =>
      obtain ⟨a', ha, hr'⟩ := (hc ▸ hn).to_cont
      rw [trace_succ_right ha, trace_succ_right hc, hpq a' c' (hP n c' hc) hr']
      refine List.rel_append (ih hQ') ?_
      split
      · exact .cons hr' .nil
      · exact .nil
    | done y =>
      obtain ⟨x, ha, -⟩ := (hc ▸ hn).to_done
      rw [trace_succ_of_done ha, trace_succ_of_done hc]
      exact ih hQ'

end

/-! ## Simulations -/

/-- The states strictly inside the first `k` steps from `c` are unmarked. -/
def Unmarked (step : C → Res C Y) (mark : C → Bool) (k : ℕ) (c : C) : Prop :=
  ∀ j, 0 < j → j < k → ∀ d, iter step j c = .cont d → mark d = false

/-- A stretch of unmarked states goes on with unmarked states. -/
theorem Unmarked.add {step : C → Res C Y} {mark : C → Bool} {k k' : ℕ} {c c' : C}
    (h : Unmarked step mark k c) (hk : iter step k c = .cont c')
    (h' : ∀ j < k', (k = 0 → 0 < j) → ∀ d, iter step j c' = .cont d → mark d = false) :
    Unmarked step mark (k + k') c := by
  intro j hj hlt d hd
  by_cases hjk : j < k
  · exact h j hj hjk d hd
  · obtain ⟨i, rfl⟩ := Nat.exists_eq_add_of_le (Nat.not_lt.1 hjk)
    rw [iter_add hk] at hd
    exact h' i (by omega) (fun h0 => by omega) d hd

/-- A stuttering simulation of the abstract system `stepA` by the concrete
    system `stepC`. -/
structure Simulation (stepA : A → Res A X) (stepC : C → Res C Y) where
  /-- The related states. -/
  rel : A → C → Prop
  /-- The related results. -/
  relDone : X → Y → Prop
  /-- The observable concrete states. -/
  mark : C → Bool
  /-- The abstract states whose step no concrete step matches. -/
  quiet : A → Bool
  /-- The rank that a quiet step decreases. -/
  rank : A → ℕ
  quiet_step : ∀ {a c}, rel a c → quiet a = true →
    ∃ a', stepA a = .cont a' ∧ rel a' c ∧ rank a' < rank a
  mark_of_rel : ∀ {a c}, rel a c → quiet a = false → mark c = true
  cont_step : ∀ {a a' c}, rel a c → quiet a = false → stepA a = .cont a' →
    ∃ k c', 0 < k ∧ iter stepC k c = .cont c' ∧ rel a' c' ∧ Unmarked stepC mark k c
  done_step : ∀ {a x c}, rel a c → quiet a = false → stepA a = .done x →
    ∃ k y, 0 < k ∧ iter stepC k c = .done y ∧ relDone x y ∧ Unmarked stepC mark k c

namespace Simulation

variable {stepA : A → Res A X} {stepC : C → Res C Y} (S : Simulation stepA stepC)

/-- A step of the abstract system, quiet or not, is matched. -/
theorem step_cont {a a' : A} {c : C} (hr : S.rel a c) (hs : stepA a = .cont a') :
    ∃ k c', iter stepC k c = .cont c' ∧ S.rel a' c' := by
  cases hq : S.quiet a with
  | true =>
    obtain ⟨a₁, hs', hr', _⟩ := S.quiet_step hr hq
    rw [hs] at hs'
    cases hs'
    exact ⟨0, c, rfl, hr'⟩
  | false =>
    obtain ⟨k, c', _, hk, hr', _⟩ := S.cont_step hr hq hs
    exact ⟨k, c', hk, hr'⟩

/-- Abstract runs are matched by concrete ones. -/
theorem forward {a a' : A} {c : C} {n : ℕ} (hr : S.rel a c) (h : iter stepA n a = .cont a') :
    ∃ k c', iter stepC k c = .cont c' ∧ S.rel a' c' := by
  induction n generalizing a c with
  | zero =>
    cases h
    exact ⟨0, c, rfl, hr⟩
  | succ n ih =>
    cases hs : stepA a with
    | cont a₁ =>
      rw [iter_succ_of_cont hs] at h
      obtain ⟨k, c₁, hk, hr₁⟩ := S.step_cont hr hs
      obtain ⟨k', c', hk', hr'⟩ := ih hr₁ h
      exact ⟨k + k', c', by rw [iter_add hk, hk'], hr'⟩
    | done x =>
      rw [iter_succ_of_done hs] at h
      cases h

/-- If the abstract system is done, so is the concrete one. -/
theorem forward_done {a : A} {x : X} {c : C} {n : ℕ} (hr : S.rel a c)
    (h : iter stepA n a = .done x) : ∃ k y, iter stepC k c = .done y ∧ S.relDone x y := by
  induction n generalizing a c with
  | zero => cases h
  | succ n ih =>
    cases hs : stepA a with
    | cont a₁ =>
      rw [iter_succ_of_cont hs] at h
      obtain ⟨k, c₁, hk, hr₁⟩ := S.step_cont hr hs
      obtain ⟨k', y, hk', hy⟩ := ih hr₁ h
      exact ⟨k + k', y, by rw [iter_add hk, hk'], hy⟩
    | done x' =>
      rw [iter_succ_of_done hs] at h
      cases h
      cases hq : S.quiet a with
      | true =>
        obtain ⟨_, hs', _, _⟩ := S.quiet_step hr hq
        rw [hs] at hs'
        cases hs'
      | false =>
        obtain ⟨k, y, _, hk, hy, _⟩ := S.done_step hr hq hs
        exact ⟨k, y, hk, hy⟩

/-- The induction along a concrete run: on the concrete steps left, and on the rank along
    quiet steps. -/
theorem backward_induction {P : A → C → ℕ → Prop}
    (hquiet : ∀ a a' c k, S.rel a c → S.quiet a = true → stepA a = .cont a' → P a' c k → P a c k)
    (hstep : ∀ a c k, S.rel a c → S.quiet a = false →
      (∀ a' c' k', k' < k → S.rel a' c' → P a' c' k') → P a c k)
    {a : A} {c : C} (hr : S.rel a c) (k : ℕ) : P a c k := by
  induction k using Nat.strongRecOn generalizing a c with
  | ind k ihk =>
    induction hrank : S.rank a using Nat.strongRecOn generalizing a with
    | ind r ihr =>
      cases hq : S.quiet a with
      | true =>
        obtain ⟨a', hs, hr', hlt⟩ := S.quiet_step hr hq
        exact hquiet a a' c k hr hq hs (ihr _ (hrank ▸ hlt) hr' rfl)
      | false => exact hstep a c k hr hq fun _ _ k' hlt hr' => ihk k' hlt hr'

/-- If the concrete system is done, so is the abstract one. -/
theorem backward_done {a : A} {c : C} {y : Y} {k : ℕ} (hr : S.rel a c)
    (h : iter stepC k c = .done y) : ∃ n x, iter stepA n a = .done x ∧ S.relDone x y := by
  revert h
  refine S.backward_induction (P := fun a c k => iter stepC k c = .done y →
    ∃ n x, iter stepA n a = .done x ∧ S.relDone x y) ?_ ?_ hr k
  · intro a a' c k hr hq hs ih h
    obtain ⟨n, x, hn, hx⟩ := ih h
    exact ⟨n + 1, x, by rw [iter_succ_of_cont hs, hn], hx⟩
  · intro a c k hr hq ih h
    cases hs : stepA a with
    | cont a' =>
      obtain ⟨k₁, c', hpos, hk₁, hr', _⟩ := S.cont_step hr hq hs
      -- The match of this step is not longer than the run, which ends.
      have hle : k₁ ≤ k := by
        by_contra hlt
        rw [iter_done_of_le h (by omega)] at hk₁
        cases hk₁
      have h' : iter stepC (k - k₁) c' = .done y := by
        rw [← iter_add hk₁, Nat.add_sub_cancel' hle, h]
      obtain ⟨n, x, hn, hx⟩ := ih a' c' (k - k₁) (by omega) hr' h'
      exact ⟨n + 1, x, by rw [iter_succ_of_cont hs, hn], hx⟩
    | done x =>
      obtain ⟨k₁, y', _, hk₁, hy, _⟩ := S.done_step hr hq hs
      -- Both runs end, and in the same way.
      have e₁ := iter_done_of_le hk₁ (Nat.le_max_left k₁ k)
      rw [iter_done_of_le h (Nat.le_max_right k₁ k)] at e₁
      cases e₁
      exact ⟨1, x, by rw [iter_one, hs], hy⟩

/-- The only marked state of a match is its first one. -/
theorem trace_match {a : A} {c c' : C} {k : ℕ} (hr : S.rel a c) (hq : S.quiet a = false)
    (hk : 0 < k) (hc : iter stepC k c = .cont c') (hun : Unmarked stepC S.mark k c) :
    trace stepC S.mark k c = [c] := by
  obtain ⟨m, rfl⟩ : ∃ m, k = m + 1 := ⟨k - 1, by omega⟩
  cases hs : stepC c with
  | cont c₁ =>
    have : trace stepC S.mark m c₁ = [] := trace_eq_nil fun j hj e he =>
      hun (j + 1) j.succ_pos (by omega) e (by rwa [iter_succ_of_cont hs])
    simp [trace, hs, this, S.mark_of_rel hr hq]
  | done y =>
    rw [iter_succ_of_done hs] at hc
    cases hc

/-- The states of an abstract run that are not quiet are the marked ones of the concrete
    run that matches it. -/
theorem forward_trace {a a' : A} {c : C} {n : ℕ} (hr : S.rel a c)
    (h : iter stepA n a = .cont a') :
    ∃ k c', iter stepC k c = .cont c' ∧ S.rel a' c' ∧
      List.Forall₂ S.rel (trace stepA (fun a => !S.quiet a) n a) (trace stepC S.mark k c) := by
  induction n generalizing a c with
  | zero =>
    cases h
    exact ⟨0, c, rfl, hr, .nil⟩
  | succ n ih =>
    cases hs : stepA a with
    | cont a₁ =>
      rw [iter_succ_of_cont hs] at h
      cases hq : S.quiet a with
      | true =>
        obtain ⟨a₂, hs', hr', -⟩ := S.quiet_step hr hq
        cases hs.symm.trans hs'
        obtain ⟨k, c', hk, hr', htr⟩ := ih hr' h
        refine ⟨k, c', hk, hr', ?_⟩
        simpa [trace, hq, hs] using htr
      | false =>
        obtain ⟨k, c₁, hpos, hk, hr₁, hun⟩ := S.cont_step hr hq hs
        obtain ⟨k', c', hk', hr', htr⟩ := ih hr₁ h
        refine ⟨k + k', c', by rw [iter_add hk, hk'], hr', ?_⟩
        rw [trace_add hk, S.trace_match hr hq hpos hk hun]
        simpa [trace, hq, hs] using ⟨hr, htr⟩
    | done x =>
      rw [iter_succ_of_done hs] at h
      cases h

/-- Every marked state of a concrete run is related to a state of the abstract
    run, and so are, one by one, the marked states before it. -/
theorem backward_mark {a : A} {c d : C} {k : ℕ} (hr : S.rel a c)
    (h : iter stepC k c = .cont d) (hd : S.mark d = true) :
    ∃ n a', iter stepA n a = .cont a' ∧ S.rel a' d ∧ S.quiet a' = false ∧
      List.Forall₂ S.rel (trace stepA (fun a => !S.quiet a) n a) (trace stepC S.mark k c) := by
  revert h
  refine S.backward_induction (P := fun a c k => iter stepC k c = .cont d →
    ∃ n a', iter stepA n a = .cont a' ∧ S.rel a' d ∧ S.quiet a' = false ∧
      List.Forall₂ S.rel (trace stepA (fun a => !S.quiet a) n a) (trace stepC S.mark k c))
    ?_ ?_ hr k
  · intro a a₁ c k hr hq hs ih h
    obtain ⟨n, a', hn, hr', hq', htr⟩ := ih h
    refine ⟨n + 1, a', by rw [iter_succ_of_cont hs, hn], hr', hq', ?_⟩
    simpa [trace, hq, hs] using htr
  · intro a c k hr hq ih h
    rcases Nat.eq_zero_or_pos k with rfl | hk
    · cases h
      exact ⟨0, a, rfl, hr, hq, .nil⟩
    cases hs : stepA a with
    | cont a₁ =>
      obtain ⟨k₁, c₁, hpos, hk₁, hr₁, hun⟩ := S.cont_step hr hq hs
      -- A run that ends inside of a match does so in an unmarked state.
      have hle : k₁ ≤ k := by
        by_contra hlt
        rw [hun k hk (by omega) d h] at hd
        cases hd
      obtain ⟨m, rfl⟩ := Nat.exists_eq_add_of_le hle
      rw [iter_add hk₁] at h
      obtain ⟨n, a', hn, hr', hq', htr⟩ := ih a₁ c₁ m (by omega) hr₁ h
      refine ⟨n + 1, a', by rw [iter_succ_of_cont hs, hn], hr', hq', ?_⟩
      rw [trace_add hk₁, S.trace_match hr hq hpos hk₁ hun]
      simpa [trace, hq, hs] using ⟨hr, htr⟩
    | done x =>
      obtain ⟨k₁, y, _, hk₁, _, hun⟩ := S.done_step hr hq hs
      have hlt : k < k₁ := by
        by_contra hle
        rw [iter_done_of_le hk₁ (by omega)] at h
        cases h
      rw [hun k hk hlt d h] at hd
      cases hd

end Simulation

end Transition
