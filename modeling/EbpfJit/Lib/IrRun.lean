import Mathlib.Data.List.Basic
import EbpfJit.Lib.Ir

/-!
# Running pieces of code

Compiled code for a source instruction sits inside a block, at some offset
(`CodeAt`). `execList` runs such a piece on its own, up to its end or to its
first terminator; a run of the function that gets to the piece does the same
(`iter_execList`), staying inside of it until then.

`runCode` forgets the results the piece has named, which nothing after it reads:
what a piece means is what it does to the machine, and where it goes.
-/

namespace Ir

open Transition

variable {ι σ : Type} [DecidableEq σ]

/-- Run the instructions in order, until one of them leaves. -/
def execList (W : World ι) :
    List (Instr ι σ) → Env σ → Machine σ → Option (Exit ι × Env σ × Machine σ)
  | [], e, m => some (.fall, e, m)
  | i :: is, e, m =>
    match i.exec W e m with
    | some (.fall, e', m') => execList W is e' m'
    | r => r

/-- What a piece of code does to the machine, and where it goes. -/
def runCode (W : World ι) (code : List (Instr ι σ)) (e : Env σ) (m : Machine σ) :
    Option (Exit ι × Machine σ) :=
  (execList W code e m).map fun r => (r.1, r.2.2)

section

variable {W : World ι} {e e' : Env σ} {m m' : Machine σ} {i : Instr ι σ}
  {code code' : List (Instr ι σ)}

theorem execList_cons_fall (h : i.exec W e m = some (.fall, e', m')) :
    execList W (i :: code) e m = execList W code e' m' := by
  rw [execList, h]

theorem execList_append_fall (h : execList W code e m = some (.fall, e', m')) :
    execList W (code ++ code') e m = execList W code' e' m' := by
  induction code generalizing e m with
  | nil =>
    cases h
    rfl
  | cons i is ih =>
    rw [execList] at h
    rw [List.cons_append, execList]
    rcases hi : i.exec W e m with _ | ⟨_ | l | v, e₁, m₁⟩
    · rw [hi] at h; cases h
    · rw [hi] at h; exact ih h
    · rw [hi] at h; cases h
    · rw [hi] at h; cases h

theorem execList_append_none (h : execList W code e m = none) :
    execList W (code ++ code') e m = none := by
  induction code generalizing e m with
  | nil => cases h
  | cons i is ih =>
    rw [execList] at h
    rw [List.cons_append, execList]
    rcases hi : i.exec W e m with _ | ⟨_ | l | v, e₁, m₁⟩
    · rfl
    · rw [hi] at h; exact ih h
    · rw [hi] at h; cases h
    · rw [hi] at h; cases h

theorem runCode_append_fall (h : execList W code e m = some (.fall, e', m')) :
    runCode W (code ++ code') e m = runCode W code' e' m' := by
  rw [runCode, execList_append_fall h, runCode]

theorem execList_of_runCode {x : Exit ι} (h : runCode W code e m = some (x, m')) :
    ∃ e', execList W code e m = some (x, e', m') := by
  rw [runCode, Option.map_eq_some_iff] at h
  obtain ⟨⟨x', e', m''⟩, h, he⟩ := h
  cases he
  exact ⟨e', h⟩

theorem execList_of_runCode_eq_none (h : runCode W code e m = none) :
    execList W code e m = none := by
  rwa [runCode, Option.map_eq_none_iff] at h

end

/-! ## Pieces of code in a function -/

section

variable {ι σ : Type} {F : Fn ι σ} {l : ι} {ip : ℕ} {code code' : List (Instr ι σ)}

/-- The piece `code` is in the block `l`, at the offset `ip`. -/
def CodeAt (F : Fn ι σ) (l : ι) (ip : ℕ) (code : List (Instr ι σ)) : Prop :=
  code <+: (F.code l).drop ip

theorem CodeAt.head {i : Instr ι σ} (h : CodeAt F l ip (i :: code)) :
    (F.code l)[ip]? = some i := by
  obtain ⟨rest, h⟩ := h
  rw [← List.head?_drop, ← h]
  rfl

theorem CodeAt.tail {i : Instr ι σ} (h : CodeAt F l ip (i :: code)) :
    CodeAt F l (ip + 1) code := by
  obtain ⟨rest, h⟩ := h
  exact ⟨rest, by rw [← List.drop_drop, ← h]; rfl⟩

theorem codeAt_zero (h : F.code l = code ++ code') : CodeAt F l 0 code := ⟨code', h.symm⟩

end

variable {F : Fn ι σ} {W : World ι} {l : ι} {ip : ℕ} {e : Env σ} {m : Machine σ}
  {i : Instr ι σ} {code : List (Instr ι σ)}

/-- Where a run is after the code ending at `ip` of the block `l`. -/
def afterCode (l : ι) (ip : ℕ) : Option (Exit ι × Env σ × Machine σ) → Res (Config ι σ) (Halt σ)
  | none => .done .ub
  | some (.fall, e, m) => .cont ⟨l, ip, e, m⟩
  | some (.goto l', e, m) => .cont ⟨l', 0, e, m⟩
  | some (.ret v, _, m) => .done (.ret v m)

theorem step_eq_afterCode (h : (F.code l)[ip]? = some i) :
    step F W ⟨l, ip, e, m⟩ = afterCode l (ip + 1) (i.exec W e m) := by
  simp only [step, h]
  rcases i.exec W e m with _ | ⟨_ | l' | v, e₁, m₁⟩ <;> rfl

/-- An instruction that does not fall through is the last one executed. -/
theorem afterCode_execList_of_leave (h : ∀ e' m', i.exec W e m ≠ some (.fall, e', m')) (ip' : ℕ) :
    afterCode l ip' (execList W (i :: code) e m) = afterCode l ip (i.exec W e m) := by
  rw [execList]
  rcases hx : i.exec W e m with _ | ⟨_ | l' | v, e₁, m₁⟩
  · rfl
  · exact absurd hx (h e₁ m₁)
  · rfl
  · rfl

/-- A run that gets to a piece of code executes it, staying inside until it is
    executed. -/
theorem iter_execList (h : CodeAt F l ip code) :
    ∃ k ≤ code.length, (code ≠ [] → 0 < k) ∧
      iter (step F W) k ⟨l, ip, e, m⟩ = afterCode l (ip + code.length) (execList W code e m) ∧
      ∀ j < k, ∃ e' m', iter (step F W) j ⟨l, ip, e, m⟩ = .cont ⟨l, ip + j, e', m'⟩ := by
  induction code generalizing ip e m with
  | nil =>
    exact ⟨0, le_refl 0, fun h => absurd rfl h, rfl, fun j hj => absurd hj (Nat.not_lt_zero j)⟩
  | cons i is ih =>
    have hs := step_eq_afterCode (W := W) (e := e) (m := m) h.head
    by_cases hfall : ∃ e₁ m₁, i.exec W e m = some (.fall, e₁, m₁)
    · obtain ⟨e₁, m₁, hx⟩ := hfall
      rw [hx] at hs
      obtain ⟨k, hk, -, hrun, hin⟩ := ih (e := e₁) (m := m₁) h.tail
      refine ⟨k + 1, Nat.succ_le_succ hk, fun _ => k.succ_pos, ?_, fun j hj => ?_⟩
      · rw [iter_succ_of_cont hs, hrun, execList_cons_fall hx, List.length_cons,
          Nat.add_right_comm, Nat.add_assoc]
      · cases j with
        | zero => exact ⟨e, m, rfl⟩
        | succ j =>
          obtain ⟨e', m', hj'⟩ := hin j (by omega)
          refine ⟨e', m', ?_⟩
          rw [iter_succ_of_cont hs, hj', Nat.add_right_comm, Nat.add_assoc]
    · -- An instruction that leaves the code ends it.
      push Not at hfall
      refine ⟨1, by simp, fun _ => Nat.one_pos, ?_, fun j hj => ?_⟩
      · rw [iter_one, hs, afterCode_execList_of_leave hfall]
      · obtain rfl : j = 0 := by omega
        exact ⟨e, m, rfl⟩

end Ir
