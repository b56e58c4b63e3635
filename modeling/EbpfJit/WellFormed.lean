import EbpfJit.Ssa

/-!
# Well-formed programs

The programs an assembler or a compiler of eBPF gives: supported instructions,
branches to instructions, and an end (`WellFormed`). The compiler accepts them,
and what it makes of them is well terminated and closed (`accepts_of_wellFormed`).
-/

namespace EbpfJit

open Ir

/-- The supported opcodes, the list at the end of `compiler.cpp`, and the atomic
    operations. -/
def supportedOpcodes : List (BitVec 8) :=
  [EBPF_OP_ADD_IMM, EBPF_OP_ADD_REG, EBPF_OP_SUB_IMM, EBPF_OP_SUB_REG, EBPF_OP_MUL_IMM,
    EBPF_OP_MUL_REG, EBPF_OP_DIV_IMM, EBPF_OP_DIV_REG, EBPF_OP_OR_IMM, EBPF_OP_OR_REG,
    EBPF_OP_AND_IMM, EBPF_OP_AND_REG, EBPF_OP_LSH_IMM, EBPF_OP_LSH_REG, EBPF_OP_RSH_IMM,
    EBPF_OP_RSH_REG, EBPF_OP_NEG, EBPF_OP_MOD_IMM, EBPF_OP_MOD_REG, EBPF_OP_XOR_IMM,
    EBPF_OP_XOR_REG, EBPF_OP_MOV_IMM, EBPF_OP_MOV_REG, EBPF_OP_ARSH_IMM, EBPF_OP_ARSH_REG,
    EBPF_OP_LE, EBPF_OP_BE, EBPF_OP_ADD64_IMM, EBPF_OP_ADD64_REG, EBPF_OP_SUB64_IMM,
    EBPF_OP_SUB64_REG, EBPF_OP_MUL64_IMM, EBPF_OP_MUL64_REG, EBPF_OP_DIV64_IMM, EBPF_OP_DIV64_REG,
    EBPF_OP_OR64_IMM, EBPF_OP_OR64_REG, EBPF_OP_AND64_IMM, EBPF_OP_AND64_REG, EBPF_OP_LSH64_IMM,
    EBPF_OP_LSH64_REG, EBPF_OP_RSH64_IMM, EBPF_OP_RSH64_REG, EBPF_OP_NEG64, EBPF_OP_MOD64_IMM,
    EBPF_OP_MOD64_REG, EBPF_OP_XOR64_IMM, EBPF_OP_XOR64_REG, EBPF_OP_MOV64_IMM, EBPF_OP_MOV64_REG,
    EBPF_OP_ARSH64_IMM, EBPF_OP_ARSH64_REG, EBPF_OP_LDXW, EBPF_OP_LDXH, EBPF_OP_LDXB,
    EBPF_OP_LDXDW, EBPF_OP_STW, EBPF_OP_STH, EBPF_OP_STB, EBPF_OP_STDW, EBPF_OP_STXW,
    EBPF_OP_STXH, EBPF_OP_STXB, EBPF_OP_STXDW, EBPF_OP_LDDW, EBPF_OP_JA, EBPF_OP_JEQ_IMM,
    EBPF_OP_JEQ_REG, EBPF_OP_JEQ32_IMM, EBPF_OP_JEQ32_REG, EBPF_OP_JGT_IMM, EBPF_OP_JGT_REG,
    EBPF_OP_JGT32_IMM, EBPF_OP_JGT32_REG, EBPF_OP_JGE_IMM, EBPF_OP_JGE_REG, EBPF_OP_JGE32_IMM,
    EBPF_OP_JGE32_REG, EBPF_OP_JLT_IMM, EBPF_OP_JLT_REG, EBPF_OP_JLT32_IMM, EBPF_OP_JLT32_REG,
    EBPF_OP_JLE_IMM, EBPF_OP_JLE_REG, EBPF_OP_JLE32_IMM, EBPF_OP_JLE32_REG, EBPF_OP_JSET_IMM,
    EBPF_OP_JSET_REG, EBPF_OP_JSET32_IMM, EBPF_OP_JSET32_REG, EBPF_OP_JNE_IMM, EBPF_OP_JNE_REG,
    EBPF_OP_JNE32_IMM, EBPF_OP_JNE32_REG, EBPF_OP_JSGT_IMM, EBPF_OP_JSGT_REG, EBPF_OP_JSGT32_IMM,
    EBPF_OP_JSGT32_REG, EBPF_OP_JSGE_IMM, EBPF_OP_JSGE_REG, EBPF_OP_JSGE32_IMM,
    EBPF_OP_JSGE32_REG, EBPF_OP_JSLT_IMM, EBPF_OP_JSLT_REG, EBPF_OP_JSLT32_IMM,
    EBPF_OP_JSLT32_REG, EBPF_OP_JSLE_IMM, EBPF_OP_JSLE_REG, EBPF_OP_JSLE32_IMM,
    EBPF_OP_JSLE32_REG, EBPF_OP_EXIT, EBPF_OP_CALL,
    EBPF_ATOMIC_OPCODE_32, EBPF_ATOMIC_OPCODE_64]

/-- What is required of the instruction `inst` at `pc`, which is not a slot. -/
structure WellFormedAt (insns : List EbpfInst) (extFuncNames : List String) (pc : ℕ)
    (inst : EbpfInst) : Prop where
  opcode : inst.code ∈ supportedOpcodes
  dst_reg : inst.dst_reg ≤ 10
  src_reg : inst.src_reg ≤ 10
  endian : inst.code = EBPF_OP_BE ∨ inst.code = EBPF_OP_LE →
    inst.imm = 16 ∨ inst.imm = 32 ∨ inst.imm = 64
  atomic : inst.code = EBPF_ATOMIC_OPCODE_32 ∨ inst.code = EBPF_ATOMIC_OPCODE_64 →
    inst.imm ∈ atomicImms
  lddw : inst.code = EBPF_OP_LDDW →
    (inst.src_reg = 0 ∨ inst.src_reg = 1 ∨ inst.src_reg = 5) ∧ pc + 1 < insns.length ∧
      IsLddwSlot (insnAt insns (pc + 1))
  jump : isJmp inst = true → inst.code ≠ EBPF_OP_CALL → inst.code ≠ EBPF_OP_EXIT →
    IsTarget insns (pc + 1 + inst.off.toInt)
  off : inst.code = EBPF_OP_CALL ∨ inst.code = EBPF_OP_EXIT → inst.off = 0
  helper : inst.code = EBPF_OP_CALL → inst.src_reg ≠ 1 → extFuncSym inst.imm ∈ extFuncNames
  localCall : inst.code = EBPF_OP_CALL → inst.src_reg = 1 →
    1 ≤ pc ∧ IsTarget insns (pc + 1 + inst.imm.toInt) ∧
      (pc + 1 + inst.imm.toInt = 0 ∨
        isJmp (insnAt insns ((pc + 1 + inst.imm.toInt).toNat - 1)) = true)

/-- The conditions on an instruction, one after the other. -/
theorem wellFormedAt_iff {insns : List EbpfInst} {extFuncNames : List String} {pc : ℕ}
    {inst : EbpfInst} :
    (inst.code ∈ supportedOpcodes ∧ inst.dst_reg ≤ 10 ∧ inst.src_reg ≤ 10 ∧
      (inst.code = EBPF_OP_BE ∨ inst.code = EBPF_OP_LE →
        inst.imm = 16 ∨ inst.imm = 32 ∨ inst.imm = 64) ∧
      (inst.code = EBPF_ATOMIC_OPCODE_32 ∨ inst.code = EBPF_ATOMIC_OPCODE_64 →
        inst.imm ∈ atomicImms) ∧
      (inst.code = EBPF_OP_LDDW →
        (inst.src_reg = 0 ∨ inst.src_reg = 1 ∨ inst.src_reg = 5) ∧ pc + 1 < insns.length ∧
          IsLddwSlot (insnAt insns (pc + 1))) ∧
      (isJmp inst = true → inst.code ≠ EBPF_OP_CALL → inst.code ≠ EBPF_OP_EXIT →
        IsTarget insns (pc + 1 + inst.off.toInt)) ∧
      (inst.code = EBPF_OP_CALL ∨ inst.code = EBPF_OP_EXIT → inst.off = 0) ∧
      (inst.code = EBPF_OP_CALL → inst.src_reg ≠ 1 → extFuncSym inst.imm ∈ extFuncNames) ∧
      (inst.code = EBPF_OP_CALL → inst.src_reg = 1 →
        1 ≤ pc ∧ IsTarget insns (pc + 1 + inst.imm.toInt) ∧
          (pc + 1 + inst.imm.toInt = 0 ∨
            isJmp (insnAt insns ((pc + 1 + inst.imm.toInt).toNat - 1)) = true))) ↔
      WellFormedAt insns extFuncNames pc inst := by
  constructor
  · rintro ⟨h₁, h₂, h₃, h₄, h₅, h₆, h₇, h₈, h₉, h₁₀⟩
    exact ⟨h₁, h₂, h₃, h₄, h₅, h₆, h₇, h₈, h₉, h₁₀⟩
  · intro h
    exact ⟨h.opcode, h.dst_reg, h.src_reg, h.endian, h.atomic, h.lddw, h.jump, h.off, h.helper,
      h.localCall⟩

set_option synthInstance.maxSize 1000 in
instance (insns : List EbpfInst) (extFuncNames : List String) (pc : ℕ) (inst : EbpfInst) :
    Decidable (WellFormedAt insns extFuncNames pc inst) :=
  decidable_of_iff _ wellFormedAt_iff

/-- A well-formed program. -/
structure WellFormed (insns : List EbpfInst) (extFuncNames : List String) : Prop where
  length_pos : 0 < insns.length
  length_lt : insns.length < 65536
  insn : ∀ pc < insns.length, ¬IsSlot insns pc →
    WellFormedAt insns extFuncNames pc (insnAt insns pc)
  last : (insnAt insns (insns.length - 1)).code = EBPF_OP_EXIT ∨
    (insnAt insns (insns.length - 1)).code = EBPF_OP_JA

/-! ## Opcodes -/

theorem isSome_switchCase {code : BitVec 8} (h : code ∈ supportedOpcodes) :
    (switchCase code).isSome = true := by
  have hall : (supportedOpcodes.map BitVec.toNat).all (fun n =>
      ((switchCases.flatMap (·.1)).map BitVec.toNat).any (Nat.beq n)) = true := by decide +kernel
  have hcode := List.all_eq_true.1 hall _ (List.mem_map_of_mem h)
  exact isSome_switchCase_of_mem (mem_of_any_toNat hcode)

/-- A case of the jump classes other than a call and an exit is a jump. -/
theorem ne_of_switchCase {code : BitVec 8} {c : SwitchCase} (h : switchCase code = some c)
    (hcall : c ≠ .call) (hexit : c ≠ .exit) : code ≠ EBPF_OP_CALL ∧ code ≠ EBPF_OP_EXIT := by
  refine ⟨?_, ?_⟩
  · rintro rfl
    rw [switchCase_call] at h
    exact hcall (Option.some.inj h).symm
  · rintro rfl
    rw [switchCase_exit] at h
    exact hexit (Option.some.inj h).symm

/-! ## Targets -/

section

variable {insns : List EbpfInst} {extFuncNames : List String} {pc : ℕ}

/-- The target of a jump begins a block. -/
theorem begins_of_isTarget (hn : insns.length < 65536) (hpc : pc < insns.length)
    (hj : isJmp (insnAt insns pc) = true)
    (ht : IsTarget insns (pc + 1 + (insnAt insns pc).off.toInt)) :
    Begins insns (jmpDst pc (insnAt insns pc)) := by
  obtain ⟨h₀, h₁, _⟩ := ht
  rw [jmpDst, toUInt16_of_lt h₀ (by omega)]
  refine begins_target hpc hj (by omega) ?_
  rw [Int.emod_eq_of_lt (by omega) (by omega)]
  omega

/-- The instruction after a jump is there, and begins a block. -/
theorem begins_succ (hn : insns.length < 65536) (hlt : pc + 1 < insns.length)
    (hj : isJmp (insnAt insns pc) = true) : Begins insns (toUInt16 (pc + 1)) := by
  rw [toUInt16_succ (by omega)]
  exact begins_after_jmp hlt hj

namespace WellFormed

/-- Only the last instruction does not have another one after it. -/
theorem succ_lt (h : WellFormed insns extFuncNames) (hpc : pc < insns.length)
    (hexit : (insnAt insns pc).code ≠ EBPF_OP_EXIT) (hja : (insnAt insns pc).code ≠ EBPF_OP_JA) :
    pc + 1 < insns.length := by
  by_contra hge
  have hlast := h.last
  rw [show insns.length - 1 = pc by omega] at hlast
  exact hlast.elim hexit hja

variable {x : CompilerXDP} {lddwHelpers : List String} {patch : Bool}

/-- The instructions of a well-formed program are legal. -/
theorem legalAt (h : WellFormed x.insts extFuncNames) (hpc : pc < x.insts.length)
    (hs : ¬IsSlot x.insts pc) : LegalAt x extFuncNames lddwHelpers patch pc := by
  have hw := h.insn pc hpc hs
  have hn := h.length_lt
  obtain ⟨c, hc⟩ := Option.isSome_iff_exists.1 (isSome_switchCase hw.opcode)
  refine ⟨hw.dst_reg, hw.src_reg, c, hc, ?_⟩
  -- Both blocks that a conditional jump goes to are begun.
  have hcond (hj : c.isJump = true) (hcall : c ≠ .call) (hexit : c ≠ .exit) (hja : c ≠ .ja) :
      Begins x.insts (jmpDst pc (insnAt x.insts pc)) ∧ Begins x.insts (toUInt16 (pc + 1)) := by
    have hjmp := isJmp_of_switchCase hc hj
    obtain ⟨hne, hne'⟩ := ne_of_switchCase hc hcall hexit
    have hneja : (insnAt x.insts pc).code ≠ EBPF_OP_JA := by
      intro he
      rw [he, switchCase_ja] at hc
      exact hja (Option.some.inj hc).symm
    exact ⟨begins_of_isTarget hn hpc hjmp (hw.jump hjmp hne hne'),
      begins_succ hn (h.succ_lt hpc hne' hneja) hjmp⟩
  cases c with
  | endian => exact fun _ => hw.endian (code_of_endian hc).symm
  | lddw =>
    obtain ⟨hsrc, hlt, hslot⟩ := hw.lddw (code_of_lddw hc)
    refine ⟨hlt, hslot, fun hm => ?_, fun h3 => ?_, fun h4 => ?_⟩
    · rcases hsrc with hsrc | hsrc | hsrc <;> rw [hsrc] at hm <;> exact absurd hm (by decide)
    · rcases hsrc with hsrc | hsrc | hsrc <;> rw [hsrc] at h3 <;> exact absurd h3 (by decide)
    · rcases hsrc with hsrc | hsrc | hsrc <;> rw [hsrc] at h4 <;> exact absurd h4 (by decide)
  | ja =>
    have hjmp := isJmp_of_switchCase hc rfl
    obtain ⟨hne, hne'⟩ := ne_of_switchCase hc (by simp) (by simp)
    exact begins_of_isTarget hn hpc hjmp (hw.jump hjmp hne hne')
  | jcond p => exact hcond rfl (by simp) (by simp) (by simp)
  | jset => exact hcond rfl (by simp) (by simp) (by simp)
  | call =>
    have hcode : (insnAt x.insts pc).code = EBPF_OP_CALL := by
      rcases code_of_call hc with he | he
      · exact he
      · have := hw.opcode
        rw [he] at this
        exact absurd this (by decide)
    have hjmp := isJmp_of_switchCase hc rfl
    have hlt := h.succ_lt hpc (by rw [hcode]; decide) (by rw [hcode]; decide)
    rw [CaseLegal]
    by_cases hsrc : (insnAt x.insts pc).src_reg = 1
    · obtain ⟨hpos, ⟨h₀, h₁, _⟩, htgt⟩ := hw.localCall hcode hsrc
      rw [if_pos hsrc]
      refine ⟨⟨begins_succ hn hlt hjmp, ?_⟩, ?_⟩
      · rw [toUInt16_succ (by omega)]
        exact ⟨by omega, hcode, hsrc⟩
      · -- The function starts the program, or a block after a jump.
        rw [callDst, toUInt16_of_lt h₀ (by omega)]
        rcases htgt with ht | ht
        · rw [ht]
          exact begins_zero (List.ne_nil_of_length_pos h.length_pos)
        · rcases Nat.eq_zero_or_pos (pc + 1 + (insnAt x.insts pc).imm.toInt).toNat with hz | hp
          · rw [hz]
            exact begins_zero (List.ne_nil_of_length_pos h.length_pos)
          · have hbeg : Begins x.insts ((pc + 1 + (insnAt x.insts pc).imm.toInt).toNat - 1 + 1) :=
              begins_after_jmp (by omega) ht
            rwa [Nat.sub_add_cancel hp] at hbeg
    · rw [if_neg hsrc]
      exact hw.helper hcode hsrc
  | atomic => exact hw.atomic (code_of_atomic hc)
  | _ => trivial

theorem isLddwSlot (h : WellFormed insns extFuncNames) {t : ℕ} (ht : t < insns.length)
    (hs : IsSlot insns t) : IsLddwSlot (insnAt insns t) :=
  isLddwSlot_of_isSlot (fun pc hpc hns hcode => ((h.insn pc hpc hns).lddw hcode).2.2) ht hs

/-- No block begins at a slot: it is neither after a jump nor the target of one. -/
theorem not_begins_of_isSlot (h : WellFormed insns extFuncNames) {t : ℕ}
    (hs : IsSlot insns t) : ¬Begins insns t := by
  rintro ⟨ht, rfl | ⟨i, hi, hmem⟩⟩
  · exact absurd hs.1 (Nat.lt_irrefl 0)
  -- The instruction after a jump is not after an `lddw`.
  have hslot {j : ℕ} (hj : isJmp (insnAt insns j) = true) : ¬IsSlot insns (j + 1) := by
    rintro ⟨_, hcode⟩
    rw [Nat.add_sub_cancel] at hcode
    rw [isJmp, hcode] at hj
    exact absurd hj (by decide)
  rw [splitWrites, List.mem_append] at hmem
  rcases hmem with hmem | hmem
  · split at hmem
    · next hj =>
      rw [List.mem_singleton] at hmem
      subst hmem
      refine hslot hj.2 ?_
      rwa [Nat.sub_add_cancel hj.1]
    · cases hmem
  · split at hmem
    · next hj =>
      change isJmp (insnAt insns i) = true at hj
      rw [List.mem_singleton] at hmem
      have hns : ¬IsSlot insns i := fun hs' => by
        rw [not_isJmp_of_isLddwSlot (h.isLddwSlot hi hs')] at hj
        cases hj
      have hw := h.insn i hi hns
      by_cases hce : (insnAt insns i).code = EBPF_OP_CALL ∨ (insnAt insns i).code = EBPF_OP_EXIT
      · -- Without an offset, the block begun is the one after.
        have hoff : (insnAt insns i).off.toInt = 0 := by
          rw [hw.off hce]
          rfl
        change t = ((i + (insnAt insns i).off.toInt + 1) % 2 ^ 32).toNat at hmem
        rw [hoff] at hmem
        have hlt := h.length_lt
        obtain rfl : t = i + 1 := by omega
        exact hslot hj hs
      · rw [not_or] at hce
        obtain ⟨h₀, h₁, hns'⟩ := hw.jump hj hce.1 hce.2
        change t = ((i + (insnAt insns i).off.toInt + 1) % 2 ^ 32).toNat at hmem
        have hlt := h.length_lt
        rw [Int.emod_eq_of_lt (by omega) (by omega)] at hmem
        rw [show i + 1 + (insnAt insns i).off.toInt = i + (insnAt insns i).off.toInt + 1 by omega,
          ← hmem] at hns'
        exact hns' hs
    · cases hmem

/-- The last block is left at its end. -/
theorem lastOk (h : WellFormed insns extFuncNames) : LastOk insns := by
  have hpos := h.length_pos
  refine ⟨fun t ht hs => absurd ht (h.not_begins_of_isSlot hs), fun hs => ?_, ?_⟩
  · have hz := (h.isLddwSlot (by omega) hs).1
    rcases h.last with he | he <;> rw [hz] at he <;> exact absurd he (by decide)
  · rcases h.last with he | he
    · exact ⟨.exit, by rw [he, switchCase_exit], rfl⟩
    · exact ⟨.ja, by rw [he, switchCase_ja], rfl⟩

theorem inputOk (h : WellFormed x.insts extFuncNames) :
    InputOk x extFuncNames lddwHelpers patch where
  nonempty := List.ne_nil_of_length_pos h.length_pos
  length_lt := h.length_lt
  legal := fun _ ht hs => h.legalAt ht hs
  last := h.lastOk

end WellFormed

end

/-- Well-formed programs are accepted. The emission ends without an error, every
    block then has exactly one terminator, which is its last instruction, and only
    branches to blocks of the function. -/
theorem accepts_of_wellFormed (V : Verifier) (x : CompilerXDP)
    (extFuncNames lddwHelpers : List String) (patch : Bool)
    (h : WellFormed x.insts extFuncNames) :
    ∃ M, Accepts V x extFuncNames lddwHelpers patch M ∧
      (∃ fuel, emitModule x extFuncNames lddwHelpers patch fuel = some (.ok M)) ∧
      M.fn.WellTerminated ∧ M.fn.Closed := by
  have hok : InputOk x extFuncNames lddwHelpers patch := h.inputOk
  obtain ⟨M, hM⟩ := accepts_iff.2 hok
  obtain ⟨base, hc, hwt⟩ := hM.exists_compiled
  exact ⟨M, hM, hM.exists_emitModule, hwt, hc.closed⟩

/-- A program with a local call, to a function after the end of its main one. -/
def callProgram : List EbpfInst :=
  [⟨EBPF_OP_MOV64_IMM, 1, 0, 0, 5⟩, ⟨EBPF_OP_CALL, 0, 1, 0, 3⟩, ⟨EBPF_OP_LDDW, 2, 0, 0, 7⟩,
    ⟨0, 0, 0, 0, 1⟩, ⟨EBPF_OP_EXIT, 0, 0, 0, 0⟩, ⟨EBPF_OP_ADD64_REG, 0, 1, 0, 0⟩,
    ⟨EBPF_OP_EXIT, 0, 0, 0, 0⟩]

theorem accepts_callProgram :
    ∃ M, Accepts Verifier.shape { insts := callProgram } [] [] false M ∧
      (∃ fuel, emitModule { insts := callProgram } [] [] false fuel = some (.ok M)) ∧
      M.fn.WellTerminated ∧ M.fn.Closed :=
  accepts_of_wellFormed _ _ _ _ _ ⟨by decide, by decide, by decide, by decide⟩

end EbpfJit
