import EbpfJit.Compiler

/-!
# The blocks

What the first two passes over the instructions compute, in closed form: the
instructions that begin a block (`Begins`), in order, and the program with its
blocks created (`prepared`).

* `prepare_eq`: with fewer than `65536` instructions, the passes end with it;
* `prepare_eq_none`: with more, the second one does not end;
* `begins_zero`, `begins_after_jmp`, `begins_target`: what begins a block.
-/

namespace EbpfJit

variable {insns : List EbpfInst} {t : ℕ}

/-- The instruction at `pc`. -/
abbrev insnAt (insns : List EbpfInst) (pc : ℕ) : EbpfInst := insns.getD pc default

/-- The instruction `t` begins a block. -/
def Begins (insns : List EbpfInst) (t : ℕ) : Prop :=
  t < insns.length ∧ (t = 0 ∨ ∃ i < insns.length, t ∈ splitWrites insns i)

instance (insns : List EbpfInst) : DecidablePred (Begins insns) := fun _ =>
  inferInstanceAs (Decidable (_ ∧ (_ ∨ _)))

/-- A local function may return to the block beginning at `t`. -/
def ReturnsTo (insns : List EbpfInst) (t : ℕ) : Prop :=
  1 < t ∧ (insnAt insns (t - 1)).code = EBPF_OP_CALL ∧ (insnAt insns (t - 1)).src_reg = 1

instance (insns : List EbpfInst) : DecidablePred (ReturnsTo insns) := fun _ =>
  inferInstanceAs (Decidable (_ ∧ _))

/-- The instructions that begin a block, in order. -/
def beginList (insns : List EbpfInst) : List ℕ :=
  (List.range insns.length).filter fun t => Begins insns t

/-- The blocks of the instructions `l`, by instruction. -/
def blocksOf (l : List ℕ) : List (ℕ × Lbl) := l.map fun t => (t, .inst t)

/-- The program with its blocks split and created. -/
def prepared (x : CompilerXDP) (extFuncNames lddwHelpers : List String) : Program where
  insns := x.insts
  blockBegin := (List.range x.insts.length).map fun t => decide (Begins x.insts t)
  allBlocks := .setupBlock :: (beginList x.insts).map .inst
  instBlocks := blocksOf (beginList x.insts)
  localFuncRetBlks := blocksOf ((beginList x.insts).filter fun t => ReturnsTo x.insts t)
  lddwHelper := lddwHelpers
  extFunc := extFuncNames

/-! ## What begins a block -/

theorem mem_beginList : t ∈ beginList insns ↔ Begins insns t := by
  rw [beginList, List.mem_filter, List.mem_range, decide_eq_true_iff]
  exact ⟨fun h => h.2, fun h => ⟨h.1, h⟩⟩

theorem begins_zero (h : insns ≠ []) : Begins insns 0 :=
  ⟨List.length_pos_iff.2 h, .inl rfl⟩

/-- The instruction after a jump begins a block. -/
theorem begins_after_jmp (ht : t + 1 < insns.length)
    (h : isJmp (insnAt insns t) = true) : Begins insns (t + 1) := by
  refine ⟨ht, .inr ⟨t + 1, ht, ?_⟩⟩
  simp only [splitWrites, Nat.add_sub_cancel, h]
  simp

/-- The target of a jump begins a block. -/
theorem begins_target {pc : ℕ} (hpc : pc < insns.length)
    (h : isJmp (insnAt insns pc) = true) (ht : t < insns.length)
    (htgt : ((pc + (insnAt insns pc).off.toInt + 1) % 2 ^ 32).toNat = t) :
    Begins insns t := by
  refine ⟨ht, .inr ⟨pc, hpc, ?_⟩⟩
  simp only [splitWrites, h, htgt]
  simp

theorem lookup_blocksOf (l : List ℕ) (t : ℕ) :
    (blocksOf l).lookup t = if t ∈ l then some (.inst t) else none := by
  induction l with
  | nil => rfl
  | cons i l ih =>
    by_cases hti : t = i
    · subst hti
      simp [blocksOf]
    · have hne : (t == i) = false := beq_false_of_ne hti
      have e : (blocksOf (i :: l)).lookup t = (blocksOf l).lookup t := by
        rw [blocksOf, List.map_cons, List.lookup_cons, hne]
        rfl
      rw [e, ih]
      simp [hti]

/-- The blocks a jump may go to are the ones that are begun. -/
theorem lookup_instBlocks (x : CompilerXDP) (extFuncNames lddwHelpers : List String) (t : ℕ) :
    (prepared x extFuncNames lddwHelpers).instBlocks.lookup t =
      if Begins x.insts t then some (.inst t) else none := by
  simp only [prepared, lookup_blocksOf, mem_beginList]

theorem lookup_localFuncRetBlks (x : CompilerXDP) (extFuncNames lddwHelpers : List String)
    (t : ℕ) :
    (prepared x extFuncNames lddwHelpers).localFuncRetBlks.lookup t =
      if Begins x.insts t ∧ ReturnsTo x.insts t then some (.inst t) else none := by
  simp only [prepared, lookup_blocksOf, List.mem_filter, mem_beginList, decide_eq_true_iff]

theorem getD_blockBegin (x : CompilerXDP) (extFuncNames lddwHelpers : List String) {t : ℕ}
    (ht : t < x.insts.length) :
    (prepared x extFuncNames lddwHelpers).blockBegin.getD t false =
      decide (Begins x.insts t) := by
  simp [prepared, List.getD_eq_getElem?_getD, ht]

/-! ## The passes -/

/-- The marks after writing at the indices `l`. -/
theorem getD_foldl_set (l : List ℕ) (b : List Bool) :
    (l.foldl (fun b j => b.set j true) b).getD t false =
      (b.getD t false || (decide (t < b.length) && decide (t ∈ l))) := by
  induction l generalizing b with
  | nil => simp
  | cons j l ih =>
    rw [List.foldl_cons, ih, List.length_set]
    by_cases hjt : j = t
    · subst hjt
      by_cases hlt : j < b.length <;> simp [List.getD_eq_getElem?_getD, hlt]
    · simp [List.getD_eq_getElem?_getD, hjt, Ne.symm hjt]

theorem length_foldl_set (l : List ℕ) (b : List Bool) :
    (l.foldl (fun b j => b.set j true) b).length = b.length := by
  induction l generalizing b with
  | nil => rfl
  | cons j l ih => rw [List.foldl_cons, ih, List.length_set]

/-- The marks of the first pass. -/
theorem splitBlocks_eq {fuel : ℕ} (h : insns.length < 2 ^ 32) (hfuel : insns.length < fuel) :
    splitBlocks insns fuel =
      some (.ok ((List.range insns.length).map fun t => decide (Begins insns t))) := by
  have hfold : (fun (b : List Bool) i => (splitWrites insns i).foldl (fun b j => b.set j true) b) =
      fun b i => ((fun i => splitWrites insns i) i).foldl (fun b j => b.set j true) b := rfl
  rw [splitBlocks, CountedLoop.run_total (w := 32) h (by omega), hfold,
    ← List.foldl_flatMap]
  refine congrArg (fun b => some (Except.ok b)) (List.ext_getElem ?_ fun t h₁ h₂ => ?_)
  · simp [length_foldl_set]
  · have ht : t < insns.length := by simpa using h₂
    have e := getD_foldl_set (t := t)
      ((List.range' 0 (insns.length - 0)).flatMap fun i => splitWrites insns i)
      ((List.replicate insns.length false).set 0 true)
    rw [List.getD_eq_getElem?_getD, List.getElem?_eq_getElem h₁, Option.getD_some] at e
    rw [e]
    rcases Nat.eq_zero_or_pos t with rfl | hpos
    · simp [List.getD_eq_getElem?_getD, ht, Begins]
    · simp [List.getD_eq_getElem?_getD, ht, hpos.ne, hpos.ne', Begins]

/-- The blocks after the second pass over the instructions `l`. -/
theorem foldl_createBlock (l : List ℕ) (p : Program) :
    l.foldl (fun p i => createBlock i p) p =
      { p with
        instBlocks := p.instBlocks ++ blocksOf (l.filter fun i => p.blockBegin.getD i false)
        allBlocks := p.allBlocks ++ (l.filter fun i => p.blockBegin.getD i false).map .inst
        localFuncRetBlks := p.localFuncRetBlks ++
          blocksOf ((l.filter fun i => p.blockBegin.getD i false).filter
            fun i => ReturnsTo p.insns i) } := by
  induction l generalizing p with
  | nil => simp [blocksOf]
  | cons i l ih =>
    rw [List.foldl_cons, ih, createBlock]
    by_cases hb : p.blockBegin.getD i false = true
    · have hf : (i :: l).filter (fun i => p.blockBegin.getD i false) =
          i :: l.filter fun i => p.blockBegin.getD i false :=
        List.filter_cons_of_pos hb
      rw [if_pos hb, hf, List.filter_cons]
      -- The new block is also one to return to if a call comes before it.
      by_cases hr : ReturnsTo p.insns i
      · rw [decide_eq_true hr, if_pos rfl]
        have hr' : 1 < i ∧ (p.insn (i - 1)).code = EBPF_OP_CALL ∧ (p.insn (i - 1)).src_reg = 1 := hr
        simp only [blocksOf, if_pos hr', List.map_cons, List.append_assoc, List.singleton_append]
      · rw [decide_eq_false hr, if_neg Bool.false_ne_true]
        have hr' : ¬(1 < i ∧ (p.insn (i - 1)).code = EBPF_OP_CALL ∧
            (p.insn (i - 1)).src_reg = 1) := hr
        simp only [blocksOf, if_neg hr', List.map_cons, List.append_assoc, List.singleton_append]
    · -- No block is created here.
      have hf : (i :: l).filter (fun i => p.blockBegin.getD i false) =
          l.filter fun i => p.blockBegin.getD i false :=
        List.filter_cons_of_neg hb
      rw [if_neg hb, hf]

theorem prepare_eq {x : CompilerXDP} {extFuncNames lddwHelpers : List String} {fuel : ℕ}
    (h : x.insts.length < 65536) (hfuel : x.insts.length < fuel) :
    prepare x extFuncNames lddwHelpers fuel = some (.ok (prepared x extFuncNames lddwHelpers)) := by
  rw [prepare, splitBlocks_eq (by omega) hfuel]
  simp only [createBlocks]
  rw [CountedLoop.run_total (w := 16) h (by simpa using hfuel), foldl_createBlock]
  have hl : ((List.range' 0 (x.insts.length - 0)).filter fun i =>
      ((List.range x.insts.length).map fun t => decide (Begins x.insts t)).getD i false) =
        beginList x.insts := by
    rw [Nat.sub_zero, ← List.range_eq_range', beginList]
    refine List.filter_congr ?_
    intro i hi
    rw [List.mem_range] at hi
    simp [List.getD_eq_getElem?_getD, hi]
  simp only [hl, prepared, List.nil_append, List.singleton_append]

/-- More fuel does not change the outcome. -/
theorem prepare_mono {x : CompilerXDP} {extFuncNames lddwHelpers : List String} {fuel fuel' : ℕ}
    {r : Except Failure Program} (h : prepare x extFuncNames lddwHelpers fuel = some r)
    (hle : fuel ≤ fuel') : prepare x extFuncNames lddwHelpers fuel' = some r := by
  rw [prepare] at h ⊢
  cases hs : splitBlocks x.insts fuel with
  | none => rw [hs] at h; cases h
  | some b =>
    rw [hs] at h
    rw [splitBlocks] at hs ⊢
    rw [CountedLoop.run_mono hs hle]
    cases b with
    | error e => exact h
    | ok b => exact CountedLoop.run_mono h hle

theorem prepare_eq_none {x : CompilerXDP} {extFuncNames lddwHelpers : List String} {fuel : ℕ}
    (h : 65536 ≤ x.insts.length) : prepare x extFuncNames lddwHelpers fuel = none := by
  rw [prepare]
  cases hs : splitBlocks x.insts fuel with
  | none => rfl
  | some r =>
    cases r with
    | error e => exact absurd hs CountedLoop.run_total_ne_error
    | ok b => exact CountedLoop.run_eq_none (w := 16) h (by decide)

end EbpfJit
