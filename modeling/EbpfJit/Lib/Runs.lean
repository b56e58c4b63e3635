import Mathlib.Data.Nat.Notation
import Mathlib.Tactic.Common

/-!
# Runs

Scanning a list for `n` elements `a` in a row, with a counter of the ones seen last.

* `scan_eq_some_iff`, `scan_eq_none_iff`: the scan finds the first such run, if there is one;
* `scan_delimited_iff`: which lists can be told from a run that follows.
-/

namespace Runs

variable {α : Type*} {a x : α} {n c c' j k : ℕ} {l p rest : List α}

/-- The `n` elements before `j` are `a`, where `c` of them may be before the list. -/
def RunAt (a : α) (n c : ℕ) (l : List α) (j : ℕ) : Prop :=
  n ≤ c + j ∧ ∀ i < j, j ≤ i + n → l[i]? = some a

/-- The first run ends at `k`. -/
structure FirstRunAt (a : α) (n c : ℕ) (l : List α) (k : ℕ) : Prop where
  run : RunAt a n c l k
  first : ∀ j < k, ¬RunAt a n c l j

theorem not_runAt_zero (hc : c < n) : ¬RunAt a n c l 0 := fun h => absurd h.1 (by omega)

/-- A run is inside of the list. -/
theorem RunAt.le_length (hc : c < n) (h : RunAt a n c l j) : j ≤ l.length := by
  by_contra hlt
  obtain ⟨hle, hall⟩ := h
  have hlast := hall (j - 1) (by omega) (by omega)
  rw [List.getElem?_eq_none (by omega)] at hlast
  cases hlast

theorem runAt_cons_self : RunAt a n c (a :: l) (j + 1) ↔ RunAt a n (c + 1) l j := by
  constructor
  · rintro ⟨hle, hall⟩
    refine ⟨by omega, fun i hi hj => ?_⟩
    simpa using hall (i + 1) (by omega) (by omega)
  · rintro ⟨hle, hall⟩
    refine ⟨by omega, fun i hi hj => ?_⟩
    cases i with
    | zero => rfl
    | succ i => simpa using hall i (by omega) (by omega)

/-- A run does not reach over another element. -/
theorem runAt_cons_of_ne (hx : x ≠ a) : RunAt a n c (x :: l) (j + 1) ↔ RunAt a n 0 l j := by
  constructor
  · rintro ⟨hle, hall⟩
    have hlong : ¬j + 1 ≤ n := by
      intro hshort
      have hfirst := hall 0 (Nat.succ_pos j) (by omega)
      exact hx (by simpa using hfirst)
    refine ⟨by omega, fun i hi hj => ?_⟩
    simpa using hall (i + 1) (by omega) (by omega)
  · rintro ⟨hle, hall⟩
    refine ⟨by omega, fun i hi hj => ?_⟩
    cases i with
    | zero => omega
    | succ i => simpa using hall i (by omega) (by omega)

/-- The first run behind the first element. -/
theorem firstRunAt_cons (hc : c < n)
    (h : ∀ j, RunAt a n c (x :: l) (j + 1) ↔ RunAt a n c' l j) :
    FirstRunAt a n c (x :: l) k ↔ ∃ k', FirstRunAt a n c' l k' ∧ k' + 1 = k := by
  constructor
  · rintro ⟨hrun, hfirst⟩
    cases k with
    | zero => exact absurd hrun (not_runAt_zero hc)
    | succ k =>
      exact ⟨k, ⟨(h k).1 hrun, fun j hj hrun' => hfirst (j + 1) (by omega) ((h j).2 hrun')⟩, rfl⟩
  · rintro ⟨k, ⟨hrun, hfirst⟩, rfl⟩
    refine ⟨(h k).2 hrun, fun j hj hrun' => ?_⟩
    cases j with
    | zero => exact not_runAt_zero hc hrun'
    | succ j => exact hfirst j (by omega) ((h j).1 hrun')

variable [DecidableEq α]

/-- How many elements there are up to the end of the first run of `n` elements `a`, the
    last `c` ones before the list having been `a`. -/
def scan (a : α) (n : ℕ) : ℕ → List α → Option ℕ
  | _, [] => none
  | c, x :: l =>
    if x = a then if c + 1 < n then (scan a n (c + 1) l).map (· + 1) else some 1
    else (scan a n 0 l).map (· + 1)

/-- The scan finds the first run. -/
theorem scan_eq_some_iff (hc : c < n) : scan a n c l = some k ↔ FirstRunAt a n c l k := by
  induction l generalizing c k with
  | nil =>
    refine iff_of_false (by rintro ⟨⟩) fun h => not_runAt_zero hc (?_ : RunAt a n c [] 0)
    rw [← Nat.le_zero.1 (h.run.le_length hc)]
    exact h.run
  | cons x l ih =>
    rw [scan]
    by_cases hx : x = a
    · subst hx
      rw [if_pos rfl]
      by_cases hlt : c + 1 < n
      · rw [if_pos hlt, Option.map_eq_some_iff, firstRunAt_cons hc fun j => runAt_cons_self]
        simp only [ih hlt]
      · rw [if_neg hlt, Option.some.injEq]
        have hone : RunAt x n c (x :: l) 1 := by
          refine ⟨by omega, fun i hi _ => ?_⟩
          obtain rfl : i = 0 := by omega
          rfl
        constructor
        · rintro rfl
          refine ⟨hone, fun j hj hrun => ?_⟩
          obtain rfl : j = 0 := by omega
          exact not_runAt_zero hc hrun
        · rintro ⟨hrun, hfirst⟩
          have hne : k ≠ 0 := by
            rintro rfl
            exact not_runAt_zero hc hrun
          have hle : ¬1 < k := fun hk => hfirst 1 hk hone
          omega
    · rw [if_neg hx, Option.map_eq_some_iff, firstRunAt_cons hc fun j => runAt_cons_of_ne hx]
      simp only [ih (Nat.zero_lt_of_lt hc)]

/-- It finds one if there is one. -/
theorem scan_eq_none_iff (hc : c < n) : scan a n c l = none ↔ ∀ j, ¬RunAt a n c l j := by
  constructor
  · intro h j
    induction j using Nat.strongRecOn with
    | ind j ih =>
      intro hrun
      rw [(scan_eq_some_iff hc).2 ⟨hrun, ih⟩] at h
      cases h
  · intro h
    cases hs : scan a n c l with
    | none => rfl
    | some k => exact absurd ((scan_eq_some_iff hc).1 hs).run (h k)

/-! ## Delimiters -/

/-- No run begins before the one that follows the list. -/
def Delimited (a : α) (n : ℕ) (p : List α) : Prop :=
  ∀ j, ¬RunAt a n 0 (p ++ List.replicate (n - 1) a) j

/-- The scan of a list that a run follows ends with that run exactly if the list is delimited
    by it. -/
theorem scan_delimited_iff (hn : 0 < n) :
    scan a n 0 (p ++ List.replicate n a ++ rest) = some (p.length + n) ↔ Delimited a n p := by
  have hrun : RunAt a n 0 (p ++ List.replicate n a ++ rest) (p.length + n) := by
    refine ⟨by omega, fun i hi hle => ?_⟩
    rw [List.append_assoc, List.getElem?_append_right (by omega),
      List.getElem?_append_left (by rw [List.length_replicate]; omega),
      List.getElem?_replicate_of_lt (by omega)]
  have hsplit : p ++ List.replicate n a ++ rest =
      (p ++ List.replicate (n - 1) a) ++ (a :: rest) := by
    obtain ⟨m, rfl⟩ := Nat.exists_eq_add_one.2 hn
    rw [List.replicate_succ', Nat.add_sub_cancel]
    simp
  have hlen : (p ++ List.replicate (n - 1) a).length = p.length + (n - 1) := by
    rw [List.length_append, List.length_replicate]
  -- Before its end, the two lists have the same runs.
  have hiff (j : ℕ) (hj : j < p.length + n) :
      RunAt a n 0 (p ++ List.replicate n a ++ rest) j ↔
        RunAt a n 0 (p ++ List.replicate (n - 1) a) j := by
    refine and_congr_right fun _ => forall_congr' fun i => ?_
    refine imp_congr_right fun hi => imp_congr_right fun _ => ?_
    rw [hsplit, List.getElem?_append_left (by omega)]
  rw [scan_eq_some_iff hn]
  constructor
  · rintro ⟨-, hfirst⟩ j hrun'
    have hle := hrun'.le_length hn
    have hj : j < p.length + n := by omega
    exact hfirst j hj ((hiff j hj).2 hrun')
  · exact fun h => ⟨hrun, fun j hj hrun' => h j ((hiff j hj).1 hrun')⟩

instance decidableDelimited (a : α) (n : ℕ) (p : List α) : Decidable (Delimited a n p) :=
  if hn : 0 < n then
    decidable_of_iff ((scan a n 0 (p ++ List.replicate (n - 1) a)).isNone = true) (by
      rw [Option.isNone_iff_eq_none, scan_eq_none_iff hn]
      rfl)
  else .isFalse fun h => h 0 ⟨by omega, fun i hi => absurd hi i.not_lt_zero⟩

end Runs
