import EbpfJit.Emitted
import EbpfJit.Failures
import EbpfJit.Lib.Bytes

/-!
# Byte-order conversions

A conversion to big endian reverses the low bytes of its register. A conversion to
little endian, on a little-endian machine, should clear the other bytes; its code does
nothing at all, whatever the size it is asked for.

* `convertsByteOrder_iff`: which conversions are right, and on which values.
-/

namespace EbpfJit

open Ir Ir.Builder Bytes

/-- The sizes that can be converted, in bits. -/
def endianSizes : List (BitVec 32) := [16, 32, 64]

/-- What a conversion should make of `v`. -/
def Converted (inst : EbpfInst) (v u : BitVec 64) : Prop :=
  if inst.code = EBPF_OP_BE then IsReverse (inst.imm.toNat / 8) v u
  else u = BitVec.ofNat 64 (v.toNat % 2 ^ inst.imm.toNat)

/-- The conversion does what it should to a register that holds `v`: its code converts the
    value, doing so twice clears all but its low bytes, and a program that asks for another
    size is rejected. -/
structure ConvertsByteOrder (inst : EbpfInst) (v : BitVec 64) : Prop where
  emits : inst.imm ∈ endianSizes → ∀ x extFuncNames lddwHelpers patch pc n, ∃ n' code,
    emitInst x (prepared x extFuncNames lddwHelpers) patch pc inst n = .ok (pc, n', code)
  converts : inst.imm ∈ endianSizes → ∀ x extFuncNames lddwHelpers patch pc code W e m,
    IsCodeOf x extFuncNames lddwHelpers patch pc inst code → Allocated m →
      (coreOf m).reg inst.dst_reg = v → ∃ u, Converted inst v u ∧
        runCode W code e m = some (.fall, withCore m ((coreOf m).setReg inst.dst_reg u))
  twice : inst.imm ∈ endianSizes → ∀ x extFuncNames lddwHelpers patch pc pc' code code' W e e' m m',
    IsCodeOf x extFuncNames lddwHelpers patch pc inst code →
      IsCodeOf x extFuncNames lddwHelpers patch pc' inst code' → Allocated m →
      (coreOf m).reg inst.dst_reg = v → runCode W code e m = some (.fall, m') →
        runCode W code' e' m' = some (.fall, withCore m ((coreOf m).setReg inst.dst_reg
          (BitVec.ofNat 64 (v.toNat % 2 ^ inst.imm.toNat))))
  rejects : inst.imm ∉ endianSizes → ∀ V x extFuncNames lddwHelpers patch p pc,
    Reaches x extFuncNames lddwHelpers patch p pc → p.insn pc = inst →
      Rejects V x extFuncNames lddwHelpers patch

variable {x : CompilerXDP} {extFuncNames lddwHelpers : List String} {patch : Bool} {pc : ℕ}
  {inst : EbpfInst} {code : List (Instr Lbl Slot)} {v : BitVec 64}

/-! ## Values -/

theorem mem_endianSizes {imm : BitVec 32} :
    imm ∈ endianSizes ↔ imm = 16 ∨ imm = 32 ∨ imm = 64 := by
  simp [endianSizes]

/-- The sizes are numbers of whole bytes, and fit into a register. -/
theorem eight_mul_of_mem {imm : BitVec 32} (h : imm ∈ endianSizes) :
    8 * (imm.toNat / 8) = imm.toNat ∧ 0 < imm.toNat / 8 ∧ imm.toNat ≤ 64 := by
  rcases mem_endianSizes.1 h with rfl | rfl | rfl <;> decide

/-- The bytes that the code splits a value into. -/
theorem bytes_eq (v : BitVec 64) (k : ℕ) :
    Core.bytes v k = ((List.range k).map (byteAt v)).map (BitVec.setWidth 64) := by
  rw [Core.bytes, List.map_map]
  refine List.map_congr_left fun i _ => BitVec.eq_of_toNat_eq ?_
  have hmod : (v >>> (8 * i)).toNat % 2 ^ 8 < 2 ^ 64 :=
    Nat.lt_trans (Nat.mod_lt _ (by decide)) (by decide)
  have hand := Nat.and_two_pow_sub_one_eq_mod (v >>> (8 * i)).toNat 8
  rw [BitVec.toNat_and, Function.comp_apply, byteAt, BitVec.toNat_setWidth, BitVec.toNat_setWidth,
    Nat.mod_eq_of_lt hmod, ← hand]
  rfl

/-- Merging the bytes starts with the first one. -/
theorem endian_eq_merge (hbe : inst.code = EBPF_OP_BE) (hpos : 0 < inst.imm.toNat / 8)
    (v : BitVec 64) : Core.endian inst v =
      merge 0 ((List.range (inst.imm.toNat / 8)).map (byteAt v)) := by
  obtain ⟨k, hk⟩ : ∃ k, inst.imm.toNat / 8 = k + 1 := ⟨inst.imm.toNat / 8 - 1, by omega⟩
  have hcode : inst.code &&& 0x08 = 0x08 := by
    rw [hbe]
    decide
  rw [Core.endian, if_pos hcode, bytes_eq, hk, List.range_succ_eq_map, List.map_cons,
    List.map_cons, merge, List.foldl_cons]
  simp [List.foldl_map]

/-- The code for big endian reverses the bytes. -/
theorem isReverse_endian (hbe : inst.code = EBPF_OP_BE) (himm : inst.imm ∈ endianSizes)
    (v : BitVec 64) : IsReverse (inst.imm.toNat / 8) v (Core.endian inst v) := by
  obtain ⟨hmul, hpos, hle⟩ := eight_mul_of_mem himm
  rw [endian_eq_merge hbe hpos]
  exact isReverse_merge v (by omega) (by decide)

/-- The code for little endian does nothing. -/
theorem endian_of_le (hle : inst.code = EBPF_OP_LE) (v : BitVec 64) : Core.endian inst v = v := by
  have hcode : ¬inst.code &&& 0x08 = 0x08 := by
    rw [hle]
    decide
  rw [Core.endian, if_neg hcode]

/-- It is right on the values that it need not change. -/
theorem eq_ofNat_mod_iff {n : ℕ} : v = BitVec.ofNat 64 (v.toNat % 2 ^ n) ↔ v.toNat < 2 ^ n := by
  constructor
  · intro h
    have hv := congrArg BitVec.toNat h
    rw [BitVec.toNat_ofNat] at hv
    rw [hv]
    exact Nat.lt_of_le_of_lt (Nat.mod_le _ _) (Nat.mod_lt _ (Nat.two_pow_pos n))
  · intro h
    rw [Nat.mod_eq_of_lt h, BitVec.ofNat_toNat, BitVec.setWidth_eq]

/-- What the code makes of a value, and what it makes of that again. -/
theorem converted_endian (hcode : inst.code = EBPF_OP_LE ∨ inst.code = EBPF_OP_BE)
    (himm : inst.imm ∈ endianSizes)
    (h : inst.code = EBPF_OP_BE ∨ v.toNat < 2 ^ inst.imm.toNat) :
    Converted inst v (Core.endian inst v) ∧
      Core.endian inst (Core.endian inst v) = BitVec.ofNat 64 (v.toNat % 2 ^ inst.imm.toNat) := by
  rcases hcode with hle | hbe
  · -- The value fits into the size, so that there is nothing to clear.
    have hne : inst.code ≠ EBPF_OP_BE := by
      rw [hle]
      decide
    have hv := eq_ofNat_mod_iff.2 (h.resolve_left hne)
    rw [endian_of_le hle, endian_of_le hle, Converted, if_neg hne]
    exact ⟨hv, hv⟩
  · rw [Converted, if_pos hbe]
    refine ⟨isReverse_endian hbe himm v, ?_⟩
    rw [(isReverse_endian hbe himm v).eq_of_isReverse (isReverse_endian hbe himm _),
      (eight_mul_of_mem himm).1]

/-! ## The code -/

theorem switchCase_endian (hcode : inst.code = EBPF_OP_LE ∨ inst.code = EBPF_OP_BE) :
    switchCase inst.code = some .endian := by
  rcases hcode with h | h
  · rw [h]
    decide
  · rw [h]
    decide

theorem runCode_endian (hcode : inst.code = EBPF_OP_LE ∨ inst.code = EBPF_OP_BE)
    (h : IsCodeOf x extFuncNames lddwHelpers patch pc inst code) {W : World Lbl} {e : Env Slot}
    {m : Machine Slot} (hm : Allocated m) :
    runCode W code e m = some (.fall, withCore m ((coreOf m).setReg inst.dst_reg
      (Core.endian inst ((coreOf m).reg inst.dst_reg)))) :=
  h.runCode (switchCase_endian hcode) rfl hm

theorem emitInst_endian (hcode : inst.code = EBPF_OP_LE ∨ inst.code = EBPF_OP_BE)
    (himm : inst.imm ∈ endianSizes) (n : ℕ) : ∃ n' code,
      emitInst x (prepared x extFuncNames lddwHelpers) patch pc inst n = .ok (pc, n', code) := by
  have hlegal : CaseLegal x extFuncNames lddwHelpers patch pc inst .endian :=
    fun _ => mem_endianSizes.1 himm
  obtain ⟨n', code, he, -⟩ := emitInst_ok ⟨.endian, switchCase_endian hcode, hlegal⟩ n
  have hne : inst.code ≠ EBPF_OP_LDDW := by
    rcases hcode with h | h
    · rw [h]
      decide
    · rw [h]
      decide
  rw [nextPc, if_neg hne] at he
  exact ⟨n', code, he⟩

/-- A conversion to big endian is not emitted for other sizes. -/
theorem failsWith_emitInst_be (hbe : inst.code = EBPF_OP_BE) (himm : inst.imm ∉ endianSizes) :
    FailsWith (.error ("Unexpected endian size: " ++ toString inst.imm.toInt))
      (emitInst x (prepared x extFuncNames lddwHelpers) patch pc inst) := by
  have hbit : inst.code &&& 0x08 = 0x08 := by
    rw [hbe]
    decide
  have hsize : inst.imm ≠ 16 ∧ inst.imm ≠ 32 ∧ inst.imm ≠ 64 := by
    rw [mem_endianSizes] at himm
    tauto
  rw [emitInst, switchCase_endian (.inr hbe)]
  refine FailsWith.bind ((straight_emitLoadALUDest true).bind_failsWith fun v => FailsWith.bind ?_)
  unfold emitALUEndianConversion
  rw [if_pos hbit, if_pos hsize]
  exact failsWith_fail _

theorem emitBody_of_be (hpc : pc < x.insts.length) (hinst : insnAt x.insts pc = inst)
    (hbe : inst.code = EBPF_OP_BE) (himm : inst.imm ∉ endianSizes) (hd : inst.dst_reg ≤ 10)
    (hs : inst.src_reg ≤ 10) (s : EmitState) :
    emitBody x (prepared x extFuncNames lddwHelpers) patch pc s =
      .error (.error ("Unexpected endian size: " ++ toString inst.imm.toInt)) := by
  have hregs : ¬(10 < inst.dst_reg ∨ 10 < inst.src_reg) := by
    rw [not_or, BitVec.not_lt, BitVec.not_lt]
    exact ⟨hd, hs⟩
  rw [emitBody_eq s hpc, hinst, if_neg hregs, failsWith_emitInst_be hbe himm]

/-- The program that exits after the instruction. -/
def thenExit (inst : EbpfInst) : List EbpfInst := [inst, ⟨EBPF_OP_EXIT, 0, 0, 0, 0⟩]

/-- A program that converts to little endian is accepted whatever the size is. -/
theorem accepts_le (hle : inst.code = EBPF_OP_LE) (hd : inst.dst_reg ≤ 10)
    (hs : inst.src_reg ≤ 10) (V : Verifier) :
    ∃ M, Accepts V { insts := thenExit inst } [] [] false M := by
  have hnl : inst.code ≠ EBPF_OP_LDDW := by
    rw [hle]
    decide
  have hslot (t : ℕ) (ht : t < 2) : ¬IsSlot (thenExit inst) t := by
    rintro ⟨hpos, hcode⟩
    obtain rfl : t = 1 := by omega
    exact hnl hcode
  have hlen : (thenExit inst).length < 65536 := show 2 < 65536 by decide
  refine accepts_iff.2 ⟨List.cons_ne_nil _ _, hlen, ?_, ?_, hslot 1 (by decide), ?_⟩
  · intro t ht _
    have ht : t < 2 := ht
    rcases (show t = 0 ∨ t = 1 by omega) with rfl | rfl
    · refine ⟨hd, hs, .endian, switchCase_endian (.inl hle), fun h => ?_⟩
      change inst.code &&& 0x08 = 0x08 at h
      rw [hle] at h
      exact absurd h (by decide)
    · have hregs : (0 : BitVec 4) ≤ 10 := by decide
      exact ⟨hregs, hregs, .exit, switchCase_exit, trivial⟩
  · intro t ht hs'
    exact absurd hs' (hslot t ht.1)
  · exact ⟨.exit, switchCase_exit, rfl⟩

/-- The conversions to little endian that are right are of a size that can be converted,
    and of a value that fits into it. -/
theorem ConvertsByteOrder.fits (h : ConvertsByteOrder inst v) (hle : inst.code = EBPF_OP_LE)
    (hd : inst.dst_reg ≤ 10) (hs : inst.src_reg ≤ 10) :
    inst.imm ∈ endianSizes ∧ v.toNat < 2 ^ inst.imm.toNat := by
  have hne : inst.code ≠ EBPF_OP_BE := by
    rw [hle]
    decide
  by_cases himm : inst.imm ∈ endianSizes
  · -- Run the code on a machine with the value in the register.
    have hm := allocated_allocated.withCore
      ((coreOf Machine.allocated).setReg inst.dst_reg v)
    obtain ⟨n', code, he⟩ := h.emits himm { insts := [inst] } [] [] false 0 0
    have hc : IsCodeOf { insts := [inst] } [] [] false 0 inst code := ⟨hd, hs, 0, 0, n', he⟩
    obtain ⟨u, hu, hrun⟩ := h.converts himm _ _ _ _ _ _ World.numbered Env.zero _ hc hm
      (by rw [coreOf_withCore, Core.reg_setReg_self])
    rw [runCode_endian (.inl hle) hc hm, endian_of_le hle] at hrun
    have hcore := withCore_inj.1 (Prod.mk.inj (Option.some.inj hrun)).2
    have huv := Core.setReg_inj.1 hcore
    rw [coreOf_withCore, Core.reg_setReg_self] at huv
    rw [Converted, if_neg hne, ← huv] at hu
    exact ⟨himm, eq_ofNat_mod_iff.1 hu⟩
  · -- The program should be rejected, and is not.
    have hok := accepts_iff.1 (accepts_le hle hd hs Verifier.shape)
    have hr : Reaches { insts := thenExit inst } [] [] false
        (prepared { insts := thenExit inst } [] []) 0 :=
      reaches_zero (show 0 < 2 by decide) (show 2 < 65536 by decide)
    exact absurd hok (rejects_iff.1 (h.rejects himm Verifier.shape _ _ _ _ _ _ hr rfl)).2.1

/-- The conversions to big endian are right; the ones to little endian are right on the
    values that fit into a size that can be converted. -/
theorem convertsByteOrder_iff (inst : EbpfInst)
    (hcode : inst.code = EBPF_OP_LE ∨ inst.code = EBPF_OP_BE) (hd : inst.dst_reg ≤ 10)
    (hs : inst.src_reg ≤ 10) (v : BitVec 64) :
    ConvertsByteOrder inst v ↔
      inst.code = EBPF_OP_BE ∨ inst.imm ∈ endianSizes ∧ v.toNat < 2 ^ inst.imm.toNat := by
  constructor
  · intro h
    rcases hcode with hle | hbe
    · exact .inr (h.fits hle hd hs)
    · exact .inl hbe
  · intro h
    constructor
    · exact fun himm x extFuncNames lddwHelpers patch pc n => emitInst_endian hcode himm n
    · intro himm x extFuncNames lddwHelpers patch pc code W e m hc hm hv
      obtain ⟨hu, -⟩ := converted_endian hcode himm (h.imp_right And.right)
      refine ⟨Core.endian inst v, hu, ?_⟩
      rw [runCode_endian hcode hc hm, hv]
    · intro himm x extFuncNames lddwHelpers patch pc pc' code code' W e e' m m' hc hc' hm hv hrun
      obtain ⟨-, htwice⟩ := converted_endian hcode himm (h.imp_right And.right)
      rw [runCode_endian hcode hc hm, hv] at hrun
      cases hrun
      rw [runCode_endian hcode hc' (hm.withCore _), coreOf_withCore, Core.reg_setReg_self, htwice,
        withCore_withCore, Core.setReg_setReg]
    · intro himm V x extFuncNames lddwHelpers patch p pc hr hinst
      have hbe : inst.code = EBPF_OP_BE := h.resolve_right fun h => himm h.1
      obtain ⟨-, rfl, hup⟩ := reaches_iff.1 hr
      exact .of_reaches hr (emitBody_of_be hup.lt hinst hbe himm hd hs)

/-- A conversion of 16 bits to big endian. -/
def be16 : EbpfInst := ⟨EBPF_OP_BE, 1, 0, 0, 16⟩

theorem convertsByteOrder_be16 : ConvertsByteOrder be16 0x1234 ↔
    be16.code = EBPF_OP_BE ∨ be16.imm ∈ endianSizes ∧ (0x1234 : BitVec 64).toNat < 2 ^ 16 :=
  convertsByteOrder_iff be16 (.inr rfl) (by decide) (by decide) 0x1234

/-- A conversion of 16 bits to little endian. -/
def le16 : EbpfInst := ⟨EBPF_OP_LE, 1, 0, 0, 16⟩

/-- The conversion leaves the bits above the low 16 ones, which it should clear. -/
theorem not_convertsByteOrder_le16 :
    (runCode World.numbered (codeOf le16) Env.zero (withCore Machine.allocated
      ((coreOf Machine.allocated).setReg 1 0x12345))).map (fun r => (coreOf r.2).reg 1) =
        some 0x12345 ∧
      ¬ConvertsByteOrder le16 0x12345 := by
  refine ⟨?_, fun h => ?_⟩
  · have hc := isCodeOf_codeOf le16 (by decide) (by decide) rfl
    rw [runCode_endian (.inl rfl) hc (allocated_allocated.withCore _), Option.map_some,
      endian_of_le rfl]
    rfl
  · exact absurd (h.fits rfl (by decide) (by decide)).2 (by decide)

end EbpfJit
