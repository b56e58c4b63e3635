import Mathlib.Algebra.Group.Int.Defs
import Mathlib.Algebra.Group.Nat.Defs
import Mathlib.Data.List.Chain
import Mathlib.Tactic.Common

/-!
# Counted loops

The C loop `for (i = 0; i < size; i++) body` with a counter of `w` bits: the
counter wraps around, the bound does not. The body may fail, and may itself
advance the counter. A loop may thus not terminate: `run` takes fuel, and gives
`none` when it runs out.

* `run_induction`: the invariant rule;
* `run_total`, `run_ok`: a loop whose counter never wraps terminates, as a fold
  over the indices when its body leaves the counter alone;
* `run_eq_none`: a loop whose bound the counter cannot reach never terminates;
* `visited_total`, `visited_chain`: the indices at which the body is entered;
* `visited_induction`, `mem_visited`: an index is one of them if and, with an invariant,
  only if the body leads there.
-/

namespace CountedLoop

variable {ε σ : Type*}

/-- The loop `for (; i < size; i++) body` from the counter `i` and the state `s`.
    The body gives the counter back, as it may have advanced it. -/
def run (w size : ℕ) (body : ℕ → σ → Except ε (ℕ × σ)) : ℕ → ℕ → σ → Option (Except ε σ)
  | 0, _, _ => none
  | fuel + 1, i, s =>
    if i < size then
      match body i s with
      | .error e => some (.error e)
      | .ok (i', s') => run w size body fuel ((i' + 1) % 2 ^ w) s'
    else some (.ok s)

/-- The counters at which the body is entered, within the fuel. -/
def visited (w size : ℕ) (body : ℕ → σ → Except ε (ℕ × σ)) : ℕ → ℕ → σ → List ℕ
  | 0, _, _ => []
  | fuel + 1, i, s =>
    if i < size then
      i :: match body i s with
        | .error _ => []
        | .ok (i', s') => visited w size body fuel ((i' + 1) % 2 ^ w) s'
    else []

variable {w size fuel i : ℕ} {body : ℕ → σ → Except ε (ℕ × σ)} {s : σ}

/-- The body is only entered below the bound. -/
theorem lt_of_mem_visited {j : ℕ} (hj : j ∈ visited w size body fuel i s) : j < size := by
  induction fuel generalizing i s with
  | zero => cases hj
  | succ fuel ih =>
    rw [visited] at hj
    split at hj
    · next hi =>
      rcases List.mem_cons.1 hj with rfl | hj
      · exact hi
      · split at hj
        · cases hj
        · exact ih hj
    · cases hj

theorem run_of_ge (h : size ≤ i) : run w size body (fuel + 1) i s = some (.ok s) := by
  rw [run, if_neg (Nat.not_lt.2 h)]

theorem run_of_error {e : ε} (hi : i < size) (h : body i s = .error e) :
    run w size body (fuel + 1) i s = some (.error e) := by
  rw [run, if_pos hi, h]

theorem run_of_ok {i' : ℕ} {s' : σ} (hi : i < size) (h : body i s = .ok (i', s')) :
    run w size body (fuel + 1) i s = run w size body fuel ((i' + 1) % 2 ^ w) s' := by
  rw [run, if_pos hi, h]

/-- More fuel does not change the result. -/
theorem run_mono {fuel' : ℕ} {r : Except ε σ} (h : run w size body fuel i s = some r)
    (hle : fuel ≤ fuel') : run w size body fuel' i s = some r := by
  induction fuel generalizing fuel' i s with
  | zero => cases h
  | succ fuel ih =>
    obtain ⟨f, rfl⟩ : ∃ f, fuel' = f + 1 := ⟨fuel' - 1, by omega⟩
    by_cases hi : i < size
    · cases hb : body i s with
      | error e => rwa [run_of_error hi hb] at h ⊢
      | ok p =>
        rw [run_of_ok hi hb] at h ⊢
        exact ih h (by omega)
    · rwa [run_of_ge (Nat.not_lt.1 hi)] at h ⊢

/-- The result does not depend on the fuel. -/
theorem run_unique {fuel' : ℕ} {r r' : Except ε σ} (h : run w size body fuel i s = some r)
    (h' : run w size body fuel' i s = some r') : r = r' := by
  have e := run_mono h (Nat.le_max_left fuel fuel')
  rw [run_mono h' (Nat.le_max_right fuel fuel')] at e
  exact (Option.some.inj e).symm

/-- The invariant rule: what the body preserves holds at the end of the loop. -/
theorem run_induction {P : ℕ → σ → Prop} {s' : σ}
    (hstep : ∀ i s i' s', i < size → P i s → body i s = .ok (i', s') → P ((i' + 1) % 2 ^ w) s')
    (h₀ : P i s) (h : run w size body fuel i s = some (.ok s')) : ∃ j, size ≤ j ∧ P j s' := by
  induction fuel generalizing i s with
  | zero => cases h
  | succ fuel ih =>
    by_cases hi : i < size
    · cases hb : body i s with
      | error e => rw [run_of_error hi hb] at h; cases h
      | ok p =>
        rw [run_of_ok hi hb] at h
        exact ih (hstep i s _ _ hi h₀ hb) h
    · rw [run_of_ge (Nat.not_lt.1 hi)] at h
      cases h
      exact ⟨i, Nat.not_lt.1 hi, h₀⟩

/-- The progress rule: if the body succeeds under an invariant, without wrapping
    the counter, the loop ends well. -/
theorem run_ok {P : ℕ → σ → Prop}
    (hstep : ∀ i s, i < size → P i s →
      ∃ i' s', body i s = .ok (i', s') ∧ i ≤ i' ∧ i' + 1 < 2 ^ w ∧ P (i' + 1) s')
    (h₀ : P i s) (hfuel : size - i < fuel) :
    ∃ s', run w size body fuel i s = some (.ok s') := by
  induction fuel generalizing i s with
  | zero => exact absurd hfuel (Nat.not_lt_zero _)
  | succ fuel ih =>
    by_cases hi : i < size
    · obtain ⟨i', s', hb, hle, hlt, hP⟩ := hstep i s hi h₀
      rw [run_of_ok hi hb, Nat.mod_eq_of_lt hlt]
      exact ih hP (by omega)
    · exact ⟨s, run_of_ge (Nat.not_lt.1 hi)⟩

/-- A loop whose body never moves the counter back, nor makes it wrap, ends. -/
theorem run_isSome
    (hstep : ∀ i s i' s', i < size → body i s = .ok (i', s') → i ≤ i' ∧ i' + 1 < 2 ^ w)
    (hfuel : size - i < fuel) : (run w size body fuel i s).isSome := by
  induction fuel generalizing i s with
  | zero => exact absurd hfuel (Nat.not_lt_zero _)
  | succ fuel ih =>
    by_cases hi : i < size
    · cases hb : body i s with
      | error e => rw [run_of_error hi hb]; rfl
      | ok p =>
        obtain ⟨hle, hlt⟩ := hstep i s _ _ hi hb
        rw [run_of_ok hi hb, Nat.mod_eq_of_lt hlt]
        exact ih (by omega)
    · rw [run_of_ge (Nat.not_lt.1 hi)]
      rfl

/-- What the body preserves holds wherever the body is entered. -/
theorem visited_induction {P : ℕ → σ → Prop} {j : ℕ}
    (hstep : ∀ i s i' s', i < size → P i s → body i s = .ok (i', s') → P ((i' + 1) % 2 ^ w) s')
    (h₀ : P i s) (hj : j ∈ visited w size body fuel i s) : ∃ s', P j s' := by
  induction fuel generalizing i s with
  | zero => cases hj
  | succ fuel ih =>
    by_cases hi : i < size
    · rw [visited, if_pos hi] at hj
      rcases List.mem_cons.1 hj with rfl | hj
      · exact ⟨s, h₀⟩
      · cases hb : body i s with
        | error e => rw [hb] at hj; cases hj
        | ok p =>
          rw [hb] at hj
          exact ih (hstep i s _ _ hi h₀ hb) hj
    · rw [visited, if_neg hi] at hj
      cases hj

/-- An index is visited if the body leads to it, rather than past it. -/
theorem mem_visited {P : ℕ → σ → Prop} {j : ℕ} (hsize : j < size) (hw : j < 2 ^ w)
    (hstep : ∀ i s, i < j → P i s →
      ∃ i' s', body i s = .ok (i', s') ∧ i ≤ i' ∧ i' + 1 ≤ j ∧ P (i' + 1) s')
    (h₀ : P i s) (hij : i ≤ j) (hfuel : j - i < fuel) : j ∈ visited w size body fuel i s := by
  induction fuel generalizing i s with
  | zero => exact absurd hfuel (Nat.not_lt_zero _)
  | succ fuel ih =>
    rw [visited, if_pos (by omega)]
    rcases Nat.eq_or_lt_of_le hij with rfl | hlt
    · exact List.mem_cons_self
    · obtain ⟨i', s', hb, hle, hle', hP⟩ := hstep i s hlt h₀
      refine List.mem_cons_of_mem _ ?_
      rw [hb]
      simp only [Nat.mod_eq_of_lt (show i' + 1 < 2 ^ w by omega)]
      exact ih hP hle' (by omega)

/-- A loop fails where it enters its body for the last time. -/
theorem exists_visited_of_run_error {e : ε} (h : run w size body fuel i s = some (.error e)) :
    ∃ j ∈ visited w size body fuel i s, ∃ s', body j s' = .error e := by
  induction fuel generalizing i s with
  | zero => cases h
  | succ fuel ih =>
    by_cases hi : i < size
    · rw [visited, if_pos hi]
      cases hb : body i s with
      | error e' =>
        rw [run_of_error hi hb] at h
        cases h
        exact ⟨i, List.mem_cons_self, s, hb⟩
      | ok p =>
        rw [run_of_ok hi hb] at h
        obtain ⟨j, hj, hbody⟩ := ih h
        exact ⟨j, List.mem_cons_of_mem _ hj, hbody⟩
    · rw [run_of_ge (Nat.not_lt.1 hi)] at h
      cases h

/-- A loop fails if it comes to an index at which its body always does. -/
theorem run_error_of_mem_visited {e : ε} {j : ℕ} (hbody : ∀ s', body j s' = .error e)
    (hj : j ∈ visited w size body fuel i s) : run w size body fuel i s = some (.error e) := by
  induction fuel generalizing i s with
  | zero => cases hj
  | succ fuel ih =>
    by_cases hi : i < size
    · rw [visited, if_pos hi] at hj
      rcases List.mem_cons.1 hj with rfl | hj
      · exact run_of_error hi (hbody s)
      · cases hb : body i s with
        | error e' => rw [hb] at hj; cases hj
        | ok p =>
          rw [hb] at hj
          rw [run_of_ok hi hb]
          exact ih hj
    · rw [visited, if_neg hi] at hj
      cases hj

/-- Along such a loop, consecutive indices are related as the body relates them. -/
theorem visited_chain {R : ℕ → ℕ → Prop}
    (hstep : ∀ i s i' s', i < size → body i s = .ok (i', s') → i' + 1 < 2 ^ w ∧ R i (i' + 1)) :
    (visited w size body fuel i s).IsChain R ∧
      ∀ j ∈ (visited w size body fuel i s).head?, j = i := by
  induction fuel generalizing i s with
  | zero => simp [visited]
  | succ fuel ih =>
    by_cases hi : i < size
    · cases hb : body i s with
      | error e => simp [visited, hi, hb]
      | ok p =>
        obtain ⟨hlt, hR⟩ := hstep i s _ _ hi hb
        obtain ⟨hc, hh⟩ := ih (i := p.1 + 1) (s := p.2)
        simp only [visited, hi, hb, if_true, Nat.mod_eq_of_lt hlt, List.isChain_cons,
          List.head?_cons, Option.mem_def, Option.some.injEq]
        refine ⟨⟨fun j hj => ?_, hc⟩, fun j hj => hj.symm⟩
        rw [hh j hj]
        exact hR
    · simp [visited, hi]

/-! ## Bodies that leave the counter alone -/

variable {f : ℕ → σ → σ}

/-- A loop with a bound below `2 ^ w` is a fold over the indices. -/
theorem run_total (hsize : size < 2 ^ w) (hfuel : size - i < fuel) :
    run w size (fun i s => (.ok (i, f i s) : Except ε (ℕ × σ))) fuel i s =
      some (.ok ((List.range' i (size - i)).foldl (fun s i => f i s) s)) := by
  induction fuel generalizing i s with
  | zero => exact absurd hfuel (Nat.not_lt_zero _)
  | succ fuel ih =>
    by_cases hi : i < size
    · rw [run_of_ok hi rfl, Nat.mod_eq_of_lt (by omega), ih (by omega),
        show size - i = (size - (i + 1)) + 1 by omega, List.range'_succ, List.foldl_cons]
    · rw [run_of_ge (Nat.not_lt.1 hi), show size - i = 0 by omega]
      rfl

/-- Such a loop does not fail. -/
theorem run_total_ne_error {e : ε} :
    run w size (fun i s => (.ok (i, f i s) : Except ε (ℕ × σ))) fuel i s ≠ some (.error e) := by
  induction fuel generalizing i s with
  | zero => simp [run]
  | succ fuel ih =>
    by_cases hi : i < size
    · rw [run_of_ok hi rfl]
      exact ih
    · simp [run_of_ge (Nat.not_lt.1 hi)]

/-- Such a loop enters its body at each index once. -/
theorem visited_total (hsize : size < 2 ^ w) (hfuel : size - i ≤ fuel) :
    visited w size (fun i s => (.ok (i, f i s) : Except ε (ℕ × σ))) fuel i s =
      List.range' i (size - i) := by
  induction fuel generalizing i s with
  | zero => simp [visited, show size - i = 0 by omega]
  | succ fuel ih =>
    by_cases hi : i < size
    · simp only [visited, hi, if_true]
      rw [Nat.mod_eq_of_lt (by omega), ih (by omega),
        show size - i = (size - (i + 1)) + 1 by omega, List.range'_succ]
    · rw [visited, if_neg hi, show size - i = 0 by omega]
      rfl

/-- A loop with a bound from `2 ^ w` on never ends: the counter stays below it. -/
theorem run_eq_none (hsize : 2 ^ w ≤ size) (hi : i < 2 ^ w) :
    run w size (fun i s => (.ok (i, f i s) : Except ε (ℕ × σ))) fuel i s = none := by
  induction fuel generalizing i s with
  | zero => rfl
  | succ fuel ih =>
    rw [run_of_ok (by omega) rfl]
    exact ih (Nat.mod_lt _ (Nat.two_pow_pos w))

end CountedLoop
