import EbpfJit.Failures

/-!
# The blocks that local calls return to

The blocks that a local function may return to are registered when the blocks are
created, after a `call` that is not the first instruction. The calls are emitted later,
with two opcodes and wherever they are, and assert that the block after them has been
registered.

* `hasReturnBlocks_iff`: when they are right.
-/

namespace EbpfJit

open Ir Ir.Builder CountedLoop

/-- Every local call has its return block: wherever the emission comes to one, the block
    after it is registered, and in no case the assertion fails. A program that ends with a
    local call, so that there is no block after it, is rejected with an error. -/
structure HasReturnBlocks (V : Verifier) (x : CompilerXDP)
    (extFuncNames lddwHelpers : List String) (patch : Bool) : Prop where
  registered : ∀ p pc, Reaches x extFuncNames lddwHelpers patch p pc →
    isLocalCall (p.insn pc) = true → pc + 1 < p.insns.length →
      ∃ blk, p.localFuncRetBlks.lookup (toUInt16 (pc + 1)) = some blk
  rejected : isLocalCall (insnAt x.insts (x.insts.length - 1)) = true →
    Rejects V x extFuncNames lddwHelpers patch
  asserted : ∀ fuel, generateModule V x extFuncNames lddwHelpers patch fuel ≠
    some (.error .assertion)

/-- What makes a local call at `pc` right: it is a plain `call`, and not the first
    instruction. The last instruction can only be one if its registers are illegal. -/
def CallPlaced (insns : List EbpfInst) (pc : ℕ) : Prop :=
  if pc + 1 < insns.length then (insnAt insns pc).code = EBPF_OP_CALL ∧ 0 < pc
  else 10 < (insnAt insns pc).dst_reg

variable {x : CompilerXDP} {extFuncNames lddwHelpers : List String} {patch : Bool} {pc : ℕ}

theorem CallPlaced.not_unregistered {insns : List EbpfInst} (h : CallPlaced insns pc) :
    ¬UnregisteredCall insns pc := by
  rintro ⟨-, hd, hno⟩
  rw [CallPlaced] at h
  split at h
  · next hpc =>
    rcases hno with hcode | hzero | hlast
    · exact hcode h.1
    · omega
    · omega
  · exact absurd h (BitVec.not_lt.2 hd)

/-- A program that ends with a local call breaks a requirement. -/
theorem not_inputOk_of_isLocalCall
    (h : isLocalCall (insnAt x.insts (x.insts.length - 1)) = true) :
    ¬InputOk x extFuncNames lddwHelpers patch := by
  intro hok
  have hpos := List.length_pos_iff.2 hok.nonempty
  have hn := hok.length_lt
  obtain ⟨hsc, hsrc⟩ := of_decide_eq_true h
  obtain ⟨-, -, c, hc, hl⟩ := hok.legal _ (Nat.sub_one_lt_of_lt hpos) hok.last.2.1
  rw [hsc] at hc
  cases hc
  rw [CaseLegal, if_pos hsrc] at hl
  -- The block that it returns to would begin after the program.
  have hlt := hl.1.1.1
  rw [toUInt16_succ (by omega)] at hlt
  omega

/-- Every local call has its return block exactly if all of the calls that the emission
    comes to, after legal instructions only, are rightly placed, and no program too large to
    be compiled ends with one. -/
theorem hasReturnBlocks_iff (V : Verifier) (x : CompilerXDP)
    (extFuncNames lddwHelpers : List String) (patch : Bool) :
    HasReturnBlocks V x extFuncNames lddwHelpers patch ↔
      (x.insts.length < 65536 → ∀ pc, LegalUpTo x extFuncNames lddwHelpers patch pc →
        isLocalCall (insnAt x.insts pc) = true → CallPlaced x.insts pc) ∧
      (65536 ≤ x.insts.length →
        isLocalCall (insnAt x.insts (x.insts.length - 1)) = false) := by
  constructor
  · intro h
    refine ⟨fun hn pc hup hcall => ?_, fun hn => ?_⟩
    · rw [CallPlaced]
      split
      · next hpc =>
        have hr := reaches_iff.2 ⟨hn, rfl, hup⟩
        obtain ⟨blk, hblk⟩ := h.registered _ pc hr hcall hpc
        refine (registered_iff hn hcall hpc).1 ?_
        rw [lookup_localFuncRetBlks] at hblk
        by_contra hno
        rw [if_neg hno] at hblk
        cases hblk
      · next hpc =>
        -- Otherwise, the assertion fails.
        by_contra hd
        obtain ⟨fuel, hassert⟩ := (asserts_iff (V := V)).2
          ⟨hn, pc, hup, hcall, BitVec.not_lt.1 hd, .inr (.inr (Nat.not_lt.1 hpc))⟩
        exact h.asserted fuel hassert
    · by_contra hlast
      have hlt := (rejects_iff.1 (h.rejected (Bool.not_eq_false _ ▸ hlast))).1
      omega
  · rintro ⟨hplaced, hlarge⟩
    have hno (hn : x.insts.length < 65536) : ¬Asserts x extFuncNames lddwHelpers patch := by
      rintro ⟨pc, hup, hcall⟩
      exact (hplaced hn pc hup hcall.1).not_unregistered hcall
    refine ⟨fun p pc hr hcall hpc => ?_, fun hlast => ?_, fun fuel hgen => ?_⟩
    · obtain ⟨hn, rfl, hup⟩ := reaches_iff.1 hr
      have hpc : pc + 1 < x.insts.length := hpc
      have hcall' := hplaced hn pc hup hcall
      rw [CallPlaced, if_pos hpc] at hcall'
      rw [lookup_localFuncRetBlks, if_pos ((registered_iff hn hcall hpc).2 hcall')]
      exact ⟨_, rfl⟩
    · have hn : x.insts.length < 65536 := by
        by_contra hn
        rw [hlarge (Nat.not_lt.1 hn)] at hlast
        cases hlast
      exact rejects_iff.2 ⟨hn, not_inputOk_of_isLocalCall hlast, hno hn⟩
    · obtain ⟨hn, hasserts⟩ := asserts_iff.1 ⟨fuel, hgen⟩
      exact hno hn hasserts

/-- A program with a local call that has its block. -/
def callSecond : List EbpfInst :=
  [⟨EBPF_OP_JA, 0, 0, 0, 0⟩, ⟨EBPF_OP_CALL, 0, 1, 0, 0⟩, ⟨EBPF_OP_EXIT, 0, 0, 0, 0⟩]

theorem hasReturnBlocks_callSecond :
    HasReturnBlocks Verifier.shape { insts := callSecond } [] [] false := by
  have hcalls : ∀ pc < callSecond.length, isLocalCall (insnAt callSecond pc) = true →
      pc + 1 < callSecond.length ∧ (insnAt callSecond pc).code = EBPF_OP_CALL ∧ 0 < pc := by
    decide +kernel
  refine (hasReturnBlocks_iff _ _ _ _ _).2 ⟨fun _ pc hup hcall => ?_, fun hn => ?_⟩
  · obtain ⟨hpc, hplaced⟩ := hcalls pc hup.lt hcall
    rwa [CallPlaced, if_pos hpc]
  · exact absurd hn (by decide)

/-- A program that starts with a local call, of the exit after it. -/
def callFirst : List EbpfInst := [⟨EBPF_OP_CALL, 0, 1, 0, 0⟩, ⟨EBPF_OP_EXIT, 0, 0, 0, 0⟩]

/-- The program is compiled until the assertion fails. -/
theorem not_hasReturnBlocks_callFirst :
    (∃ fuel, generateModule Verifier.shape { insts := callFirst } [] [] false fuel =
        some (.error .assertion)) ∧
      ¬HasReturnBlocks Verifier.shape { insts := callFirst } [] [] false := by
  have hup : LegalUpTo { insts := callFirst } [] [] false 0 :=
    legalUpTo_zero (show 0 < callFirst.length by decide)
  obtain ⟨fuel, hassert⟩ := (asserts_iff (V := Verifier.shape)).2
    ⟨show callFirst.length < 65536 by decide, 0, hup, by decide, by decide, .inr (.inl rfl)⟩
  exact ⟨⟨fuel, hassert⟩, fun h => h.asserted fuel hassert⟩

end EbpfJit
