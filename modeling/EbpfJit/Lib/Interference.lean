import EbpfJit.Lib.IrRun

/-!
# Interference

Straight code that runs while other agents write to a cell of the memory: a run is a
sequence of events (`Runs`), each one an instruction of the code or a write of `w` bits
to the cell by someone else, in any order.

* `Runs.passes`: a run passes through the beginnings of all instructions;
* `Runs.own`: before each instruction, others write any number of times;
* `load_writes`, `writes_of_notMem`: the cell then has the last value written, and
  nothing else has changed;
* `progresses_cons`: the code does not get stuck if none of its instructions does.
-/

namespace Ir

variable {ι σ : Type} [DecidableEq σ] {w : ℕ}

/-- What happens in a run: an instruction of the code, or a write of another agent. -/
inductive Event (w : ℕ)
  | own
  | other (v : BitVec w)

/-- Code that is left to run. -/
structure Thread (ι σ : Type) where
  code : List (Instr ι σ)
  env : Env σ
  m : Machine σ

/-- The machine after others have written the values `vs` to the cell at `a`. -/
def Machine.writes (m : Machine σ) (a : BitVec 64) (vs : List (BitVec w)) : Machine σ :=
  { m with mem := vs.foldl (fun mem v => ByteMemory.store mem a v) m.mem }

/-- An event. -/
inductive Step (W : World ι) (a : BitVec 64) : Thread ι σ → Event w → Thread ι σ → Prop
  | own {i : Instr ι σ} {code : List (Instr ι σ)} {e e' : Env σ} {m m' : Machine σ}
      (h : i.exec W e m = some (.fall, e', m')) : Step W a ⟨i :: code, e, m⟩ .own ⟨code, e', m'⟩
  | other (t : Thread ι σ) (v : BitVec w) :
      Step W a t (.other v) ⟨t.code, t.env, t.m.writes a [v]⟩

/-- A run. -/
inductive Runs (W : World ι) (a : BitVec 64) : Thread ι σ → List (Event w) → Thread ι σ → Prop
  | nil (t : Thread ι σ) : Runs W a t [] t
  | cons {t t' t'' : Thread ι σ} {ev : Event w} {evs : List (Event w)} (h : Step W a t ev t')
      (hs : Runs W a t' evs t'') : Runs W a t (ev :: evs) t''

/-- What others write before the instruction `k` of a run. -/
@[simp] def othersBefore : ℕ → List (Event w) → List (BitVec w)
  | _, [] => []
  | k, .other v :: evs => v :: othersBefore k evs
  | 0, .own :: _ => []
  | k + 1, .own :: evs => othersBefore k evs

/-- The number of instructions of a run. -/
@[simp] def owns : List (Event w) → ℕ
  | [] => 0
  | .other _ :: evs => owns evs
  | .own :: evs => owns evs + 1

/-- The thread after an event, if the instruction falls through. -/
def Thread.next (W : World ι) (a : BitVec 64) (t : Thread ι σ) : Event w → Option (Thread ι σ)
  | .other v => some ⟨t.code, t.env, t.m.writes a [v]⟩
  | .own =>
    match t.code with
    | [] => none
    | i :: code =>
      match i.exec W t.env t.m with
      | some (.fall, e, m) => some ⟨code, e, m⟩
      | _ => none

/-- The writes of others, as events. -/
abbrev others (vs : List (BitVec w)) : List (Event w) := vs.map .other

variable {W : World ι} {a : BitVec 64} {t t' : Thread ι σ} {evs evs' : List (Event w)}
  {vs vs' : List (BitVec w)} {m : Machine σ} {k : ℕ}

/-! ## Writes of others -/

omit [DecidableEq σ] in
@[simp] theorem writes_nil (m : Machine σ) : m.writes a ([] : List (BitVec w)) = m := rfl

omit [DecidableEq σ] in
theorem writes_append (m : Machine σ) (a : BitVec 64) (vs vs' : List (BitVec w)) :
    m.writes a (vs ++ vs') = (m.writes a vs).writes a vs' := by
  simp [Machine.writes]

omit [DecidableEq σ] in
/-- Others only write to the cell. -/
theorem writes_of_notMem {x : BitVec 64} (hx : x ∉ ByteMemory.span a (w / 8)) :
    (m.writes a vs).mem x = m.mem x := by
  induction vs generalizing m with
  | nil => rfl
  | cons v vs ih =>
    exact (ih (m := m.writes a [v])).trans (ByteMemory.store_of_notMem m.mem v hx)

omit [DecidableEq σ] in
/-- The cell has the last value written. -/
theorem load_writes (hw : w % 8 = 0) (hlen : w / 8 ≤ 2 ^ 64) :
    ByteMemory.load (m.writes a vs).mem a w = vs.getLastD (ByteMemory.load m.mem a w) := by
  induction vs generalizing m with
  | nil => rfl
  | cons v vs ih =>
    have hv : ByteMemory.load (m.writes a [v]).mem a w = v :=
      ByteMemory.load_store m.mem a v hw hlen
    have h := ih (m := m.writes a [v])
    rw [hv] at h
    rw [List.getLastD_cons]
    exact h

@[simp] theorem othersBefore_nil (k : ℕ) : othersBefore k ([] : List (Event w)) = [] := by
  rw [othersBefore]

@[simp] theorem othersBefore_others_append (vs : List (BitVec w)) (evs : List (Event w)) (k : ℕ) :
    othersBefore k (others vs ++ evs) = vs ++ othersBefore k evs := by
  induction vs with
  | nil => rfl
  | cons v vs ih => exact congrArg (v :: ·) ih

@[simp] theorem othersBefore_others (vs : List (BitVec w)) (k : ℕ) :
    othersBefore k (others vs) = vs := by
  have h := othersBefore_others_append vs [] k
  rwa [List.append_nil, othersBefore_nil, List.append_nil] at h

@[simp] theorem owns_others_append (vs : List (BitVec w)) (evs : List (Event w)) :
    owns (others vs ++ evs) = owns evs := by
  induction vs with
  | nil => rfl
  | cons v vs ih => exact ih

@[simp] theorem owns_others (vs : List (BitVec w)) : owns (others vs) = 0 := by
  have h := owns_others_append vs []
  rwa [List.append_nil] at h

/-- What others write before an instruction only depends on the events before it. -/
theorem othersBefore_append_own (h : k ≤ owns evs) (evs' : List (Event w)) :
    othersBefore k (evs ++ .own :: evs') = othersBefore k evs := by
  induction evs generalizing k with
  | nil =>
    obtain rfl := Nat.le_zero.1 h
    rfl
  | cons ev evs ih =>
    cases ev with
    | other v => exact congrArg (v :: ·) (ih h)
    | own =>
      cases k with
      | zero => rfl
      | succ k => exact ih (Nat.le_of_succ_le_succ h)

/-! ## Runs -/

theorem step_of_next {ev : Event w} (h : t.next W a ev = some t') : Step W a t ev t' := by
  rcases t with ⟨code, e, m⟩
  cases ev with
  | other v =>
    cases h
    exact .other _ v
  | own =>
    cases code with
    | nil => cases h
    | cons i code =>
      simp only [Thread.next] at h
      rcases hi : i.exec W e m with _ | ⟨_ | l | v, e', m'⟩
      · rw [hi] at h; cases h
      · rw [hi] at h
        cases h
        exact .own hi
      · rw [hi] at h; cases h
      · rw [hi] at h; cases h

/-- Runs can be computed. -/
theorem runs_of_foldlM (h : evs.foldlM (Thread.next W a) t = some t') :
    Runs W a t evs t' := by
  induction evs generalizing t with
  | nil =>
    cases h
    exact .nil _
  | cons ev evs ih =>
    rw [List.foldlM_cons] at h
    obtain ⟨t'', hstep, hrun⟩ := Option.bind_eq_some_iff.1 h
    exact .cons (step_of_next hstep) (ih hrun)

theorem Runs.append {t'' : Thread ι σ} (h : Runs W a t evs t') (h' : Runs W a t' evs' t'') :
    Runs W a t (evs ++ evs') t'' := by
  induction h with
  | nil t => exact h'
  | cons hstep _ ih => exact .cons hstep (ih h')

/-- The code that is left is the end of the code. -/
theorem Runs.suffix (h : Runs W a t evs t') : t'.code <:+ t.code := by
  induction h with
  | nil t => exact List.suffix_rfl
  | cons hstep _ ih =>
    cases hstep with
    | own h => exact ih.trans (List.suffix_cons _ _)
    | other t v => exact ih

/-- Without interference, the code runs on its own. -/
theorem Runs.execList (h : Runs W a t evs t') (hevs : ∀ ev ∈ evs, ev = .own)
    (hend : t'.code = []) : execList W t.code t.env t.m = some (.fall, t'.env, t'.m) := by
  induction h with
  | nil t =>
    rw [hend]
    rfl
  | cons hstep _ ih =>
    cases hstep with
    | own h =>
      rw [execList_cons_fall h]
      exact ih (fun ev hev => hevs ev (List.mem_cons_of_mem _ hev)) hend
    | other t v => cases hevs _ List.mem_cons_self

/-- A run that comes to an instruction with the property `P` comes to the only one. -/
theorem Runs.eq_only {P : Instr ι σ → Prop} {pre rest code : List (Instr ι σ)}
    {i j : Instr ι σ} {e : Env σ} (h : Runs W a ⟨pre ++ i :: rest, e, m⟩ evs t')
    (hcode : t'.code = j :: code) (hj : P j) (hpre : ∀ i ∈ pre, ¬P i) (hrest : ∀ i ∈ rest, ¬P i) :
    t'.code = i :: rest := by
  obtain ⟨pre', hsuf⟩ := h.suffix
  rw [hcode] at hsuf ⊢
  rcases List.append_eq_append_iff.1 hsuf with ⟨l, rfl, hl⟩ | ⟨l, rfl, hl⟩
  · cases l with
    | nil => exact hl
    | cons j' l =>
      cases hl
      exact absurd hj (hpre j (List.mem_append_right _ List.mem_cons_self))
  · cases l with
    | nil => exact hl.symm
    | cons i' l =>
      cases hl
      exact absurd hj (hrest j (List.mem_append_right _ List.mem_cons_self))

omit [DecidableEq σ] in
/-- At the end, no code is left. -/
theorem length_le_of_end (hend : t.code = []) (code : List (Instr ι σ)) :
    t.code.length ≤ code.length := by
  rw [hend]
  exact Nat.zero_le _

/-- As long as the code does not become shorter, only others do something. -/
theorem Runs.eq_others (h : Runs W a t evs t') (hlen : t.code.length ≤ t'.code.length) :
    ∃ vs, evs = others vs ∧ t' = ⟨t.code, t.env, t.m.writes a vs⟩ := by
  induction h with
  | nil t => exact ⟨[], rfl, rfl⟩
  | cons hstep hs ih =>
    cases hstep with
    | own h => exact absurd (hlen.trans hs.suffix.length_le) (Nat.not_succ_le_self _)
    | other t v =>
      obtain ⟨vs, rfl, rfl⟩ := ih hlen
      exact ⟨v :: vs, rfl, rfl⟩

/-- Before an instruction, others write any number of times. -/
theorem Runs.own {i : Instr ι σ} {code : List (Instr ι σ)} {e : Env σ}
    (h : Runs W a ⟨i :: code, e, m⟩ evs t') (hlen : t'.code.length ≤ code.length) :
    ∃ vs evs' e' m', evs = others vs ++ .own :: evs' ∧
      i.exec W e (m.writes a vs) = some (.fall, e', m') ∧ Runs W a ⟨code, e', m'⟩ evs' t' := by
  generalize ht : (⟨i :: code, e, m⟩ : Thread ι σ) = t at h
  induction h generalizing m with
  | nil t =>
    subst ht
    exact absurd hlen (Nat.not_succ_le_self _)
  | cons hstep hs ih =>
    cases hstep with
    | own hexec =>
      cases ht
      exact ⟨[], _, _, _, rfl, hexec, hs⟩
    | other t v =>
      subst ht
      obtain ⟨vs, evs', e', m', rfl, hexec, hs'⟩ := ih hlen rfl
      exact ⟨v :: vs, evs', e', m', rfl, hexec, hs'⟩

/-- Others write after the code, too. -/
theorem Runs.nil_others {e : Env σ} (h : Runs W a ⟨[], e, m⟩ evs t') :
    ∃ vs, evs = others vs ∧ t' = ⟨[], e, m.writes a vs⟩ :=
  h.eq_others (Nat.zero_le _)

/-- A run is at the beginning, or past the first instruction. -/
theorem Runs.cons_cases {i : Instr ι σ} {code : List (Instr ι σ)} {e : Env σ}
    (h : Runs W a ⟨i :: code, e, m⟩ evs t') :
    (∃ vs : List (BitVec w), t' = ⟨i :: code, e, m.writes a vs⟩) ∨
      ∃ (vs : List (BitVec w)) (evs' : List (Event w)) (e' : Env σ) (m' : Machine σ),
        i.exec W e (m.writes a vs) = some (.fall, e', m') ∧
          Runs W a ⟨code, e', m'⟩ evs' t' := by
  rcases Nat.lt_or_ge code.length t'.code.length with hlt | hge
  · obtain ⟨vs, -, rfl⟩ := h.eq_others hlt
    exact .inl ⟨vs, rfl⟩
  · obtain ⟨vs, evs', e', m', -, hexec, hrun⟩ := h.own hge
    exact .inr ⟨vs, evs', e', m', hexec, hrun⟩

/-- The code never gets stuck, whatever others write meanwhile. -/
def Progresses (W : World ι) (a : BitVec 64) (w : ℕ) (t : Thread ι σ) : Prop :=
  ∀ (evs : List (Event w)) (t' : Thread ι σ), Runs W a t evs t' →
    t'.code = [] ∨ ∃ t'', Step W a t' (.own : Event w) t''

theorem progresses_nil (e : Env σ) (m : Machine σ) : Progresses W a w ⟨[], e, m⟩ := by
  intro evs t' h
  exact .inl (List.suffix_nil.1 h.suffix)

/-- It does not if its first instruction runs, and the rest does not get stuck then. -/
theorem progresses_cons {i : Instr ι σ} {code : List (Instr ι σ)} {e : Env σ}
    (h : ∀ vs : List (BitVec w), ∃ e' m', i.exec W e (m.writes a vs) = some (.fall, e', m') ∧
      Progresses W a w ⟨code, e', m'⟩) : Progresses W a w ⟨i :: code, e, m⟩ := by
  intro evs t' hrun
  rcases hrun.cons_cases with ⟨vs, rfl⟩ | ⟨vs, evs', e', m', hexec, hrun⟩
  · obtain ⟨e', m', hexec, -⟩ := h vs
    exact .inr ⟨_, .own hexec⟩
  · obtain ⟨e'', m'', hexec', hprog⟩ := h vs
    cases hexec.symm.trans hexec'
    exact hprog evs' t' hrun

theorem runs_others (t : Thread ι σ) (vs : List (BitVec w)) :
    Runs W a t (others vs) ⟨t.code, t.env, t.m.writes a vs⟩ := by
  induction vs generalizing t with
  | nil => exact .nil t
  | cons v vs ih => exact .cons (.other t v) (ih _)

/-- A run passes through the beginnings of the instructions on its way. -/
theorem Runs.passes {pre rest : List (Instr ι σ)} {e : Env σ}
    (h : Runs W a ⟨pre ++ rest, e, m⟩ evs t') (hlen : t'.code.length ≤ rest.length) :
    ∃ evs₁ evs₂ e₁ m₁, evs = evs₁ ++ evs₂ ∧ Runs W a ⟨pre ++ rest, e, m⟩ evs₁ ⟨rest, e₁, m₁⟩ ∧
      Runs W a ⟨rest, e₁, m₁⟩ evs₂ t' := by
  induction pre generalizing e m evs with
  | nil => exact ⟨[], evs, e, m, rfl, .nil _, h⟩
  | cons i pre ih =>
    have hle : t'.code.length ≤ (pre ++ rest).length := by
      rw [List.length_append]
      omega
    obtain ⟨vs, evs', e', m', rfl, hexec, hrun⟩ := h.own hle
    obtain ⟨evs₁, evs₂, e₁, m₁, rfl, h₁, h₂⟩ := ih hrun
    refine ⟨others vs ++ .own :: evs₁, evs₂, e₁, m₁, by simp, ?_, h₂⟩
    exact (runs_others _ vs).append (.cons (.own hexec) h₁)

end Ir
