import EbpfJit.Targets

/-!
# The bounds of the block marks

`split_blocks` marks the instructions that begin a block in a vector with an entry for
each instruction. It does so at the offset of every instruction of the two jump
classes, exits and calls included, and checks no index. That the target of a jump is an
instruction is only checked later, when the jump is emitted.

* `splitsInBounds_iff`: when the marks are all within the vector.
-/

namespace EbpfJit

open CountedLoop

/-- The body of the loop of `split_blocks`. -/
def splitBody (insns : List EbpfInst) (i : ℕ) (begins : List Bool) :
    Except Failure (ℕ × List Bool) :=
  .ok (i, (splitWrites insns i).foldl (fun b j => b.set j true) begins)

/-- The indices at which `split_blocks` writes the marks, in order, within the fuel. -/
def markWrites (insns : List EbpfInst) (fuel : ℕ) : List ℕ :=
  0 :: (visited 32 insns.length (splitBody insns) fuel 0
    ((List.replicate insns.length false).set 0 true)).flatMap (splitWrites insns)

/-- Some jump, when taken, goes out of the program. -/
def JumpsOutside (insns : List EbpfInst) : Prop :=
  ∃ pc < insns.length, ∃ t, target pc (insnAt insns pc) = some t ∧
    switchCase (insnAt insns pc).code ≠ some .call ∧ (t < 0 ∨ (insns.length : ℤ) ≤ t)

/-- The blocks are split within bounds: every mark is that of an instruction, and a program
    with a jump out of it is rejected with an error. -/
structure SplitsInBounds (V : Verifier) (x : CompilerXDP) (extFuncNames lddwHelpers : List String)
    (patch : Bool) : Prop where
  marks : ∀ fuel, ∀ j ∈ markWrites x.insts fuel, j < x.insts.length
  rejects : JumpsOutside x.insts → Rejects V x extFuncNames lddwHelpers patch

/-- Every instruction of a jump class, an exit or a call as well, has an instruction at
    its offset, in 32 bits. -/
def OffsetsInBounds (insns : List EbpfInst) : Prop :=
  ∀ i < insns.length, isJmp (insnAt insns i) = true →
    ((i + (insnAt insns i).off.toInt + 1) % 2 ^ 32).toNat < insns.length

variable {insns : List EbpfInst} {V : Verifier} {x : CompilerXDP}
  {extFuncNames lddwHelpers : List String} {patch : Bool} {fuel : ℕ}

theorem mem_splitWrites {i j : ℕ} : j ∈ splitWrites insns i ↔
    ((0 < i ∧ isJmp (insnAt insns (i - 1)) = true) ∧ j = i) ∨
      isJmp (insnAt insns i) = true ∧
        j = ((i + (insnAt insns i).off.toInt + 1) % 2 ^ 32).toNat := by
  rw [splitWrites, List.mem_append, List.mem_ite_nil_right, List.mem_ite_nil_right,
    List.mem_singleton, List.mem_singleton]

/-- Offsets within bounds are enough for the marks, however far the loop goes. -/
theorem marks_of_offsetsInBounds (hne : insns ≠ []) (h : OffsetsInBounds insns) {j : ℕ}
    (hj : j ∈ markWrites insns fuel) : j < insns.length := by
  rcases List.mem_cons.1 hj with rfl | hj
  · exact List.length_pos_iff.2 hne
  obtain ⟨i, hi, hj⟩ := List.mem_flatMap.1 hj
  have hlt := lt_of_mem_visited hi
  rcases mem_splitWrites.1 hj with ⟨-, rfl⟩ | ⟨hjmp, rfl⟩
  · exact hlt
  · exact h i hlt hjmp

/-- A loop with fewer than `2 ^ 32` instructions comes to each of them. -/
theorem mem_markWrites {i : ℕ} (hn : insns.length < 2 ^ 32) (hi : i < insns.length)
    (hjmp : isJmp (insnAt insns i) = true) :
    ((i + (insnAt insns i).off.toInt + 1) % 2 ^ 32).toNat ∈ markWrites insns insns.length := by
  refine List.mem_cons_of_mem _ (List.mem_flatMap.2 ⟨i, ?_, mem_splitWrites.2 (.inr ⟨hjmp, rfl⟩)⟩)
  have hv := visited_total (ε := Failure) (i := 0)
    (f := fun i begins => (splitWrites insns i).foldl (fun b j => b.set j true) begins)
    (s := (List.replicate insns.length false).set 0 true) hn (le_refl (insns.length - 0))
  exact hv ▸ List.mem_range'_1.2 ⟨Nat.zero_le i, by omega⟩

/-- The marks of larger programs are within bounds whatever the offsets are. -/
theorem offsetsInBounds_of_le (hn : 2 ^ 32 ≤ insns.length) : OffsetsInBounds insns := by
  intro i _ _
  omega

/-- No jump goes outside if all offsets are within bounds: in 32 bits, the ones before the
    first instruction are far behind the last one. -/
theorem OffsetsInBounds.not_jumpsOutside (h : OffsetsInBounds insns)
    (hn : insns.length ≤ 2 ^ 32 - 2 ^ 15) : ¬JumpsOutside insns := by
  rintro ⟨pc, hpc, t, ht, hcall, hout⟩
  have htgt : t = pc + 1 + (insnAt insns pc).off.toInt ∧ isJmp (insnAt insns pc) = true := by
    rw [target] at ht
    split at ht
    · next hc => exact ⟨(Option.some.inj ht).symm, isJmp_of_switchCase hc rfl⟩
    · next hc => exact ⟨(Option.some.inj ht).symm, isJmp_of_switchCase hc rfl⟩
    · next hc => exact ⟨(Option.some.inj ht).symm, isJmp_of_switchCase hc rfl⟩
    · next hc => exact absurd hc hcall
    · cases ht
  have hlt := h pc hpc htgt.2
  have hoff := BitVec.le_toInt (insnAt insns pc).off
  have hoff' := BitVec.toInt_lt (x := (insnAt insns pc).off)
  omega

/-- The blocks of a program are split within bounds exactly if its offsets are. In a program
    so large that offsets wrap around to it, there must be no jump outside as well, as such
    a program is never rejected. -/
theorem splitsInBounds_iff (V : Verifier) (x : CompilerXDP)
    (extFuncNames lddwHelpers : List String) (patch : Bool) (hne : x.insts ≠ []) :
    SplitsInBounds V x extFuncNames lddwHelpers patch ↔
      OffsetsInBounds x.insts ∧ (2 ^ 32 - 2 ^ 15 < x.insts.length → ¬JumpsOutside x.insts) := by
  constructor
  · rintro ⟨hmarks, hrej⟩
    refine ⟨fun i hi hjmp => ?_, fun hn hout => ?_⟩
    · by_cases hn : x.insts.length < 2 ^ 32
      · exact hmarks _ _ (mem_markWrites hn hi hjmp)
      · exact offsetsInBounds_of_le (Nat.not_lt.1 hn) i hi hjmp
    · have hlt := (rejects_iff.1 (hrej hout)).1
      omega
  · rintro ⟨h, hlarge⟩
    refine ⟨fun fuel j hj => marks_of_offsetsInBounds hne h hj, fun hout => absurd hout ?_⟩
    by_cases hn : x.insts.length ≤ 2 ^ 32 - 2 ^ 15
    · exact h.not_jumpsOutside hn
    · exact hlarge (Nat.not_le.1 hn)

/-- An exit whose offset, which it does not use, points at itself. -/
def exitBack : EbpfInst := ⟨EBPF_OP_EXIT, 0, 0, -1, 0⟩

/-- The exit marks itself. -/
theorem splitsInBounds_exitBack : [exitBack] ≠ [] ∧
    SplitsInBounds Verifier.shape { insts := [exitBack] } [] [] false := by
  refine ⟨List.cons_ne_nil _ _, (splitsInBounds_iff _ _ _ _ _ (List.cons_ne_nil _ _)).2 ⟨?_, ?_⟩⟩
  · show ∀ i < [exitBack].length, _
    decide +kernel
  · exact fun hn => absurd hn (by decide)

/-- A single exit is accepted, and marks the instruction after it, which is none. -/
theorem not_splitsInBounds_exit :
    (∃ M, Accepts Verifier.shape { insts := [⟨EBPF_OP_EXIT, 0, 0, 0, 0⟩] } [] [] false M) ∧
      1 ∈ markWrites [⟨EBPF_OP_EXIT, 0, 0, 0, 0⟩] 1 ∧
      ¬SplitsInBounds Verifier.shape { insts := [⟨EBPF_OP_EXIT, 0, 0, 0, 0⟩] } [] [] false := by
  obtain ⟨M, hM, -⟩ := exists_accepts Verifier.shape { insts := [⟨EBPF_OP_EXIT, 0, 0, 0, 0⟩] }
    [] [] false 2 (fun _ => true) (by decide +kernel)
  have hmem : 1 ∈ markWrites [⟨EBPF_OP_EXIT, 0, 0, 0, 0⟩] 1 := by decide +kernel
  refine ⟨⟨M, hM⟩, hmem, ?_⟩
  intro h
  exact absurd (h.marks 1 1 hmem) (by decide)

end EbpfJit
