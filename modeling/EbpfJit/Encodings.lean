import EbpfJit.Failures
import EbpfJit.WellFormed

/-!
# Encodings

What the compiler makes of the fields of an instruction. It rejects unsupported
opcodes, registers, sizes and atomic operations, but it does not look at the `off`
of an ALU operation, nor at the source register of a call, other than to tell local
calls from the other ones: it emits the code of the instruction with these fields
cleared (`canonical`).

* `emitInst_canonical`: clearing the fields does not change the code;
* `encoded_of_accepts`: what is emitted, then, is supported.
-/

namespace EbpfJit

open Ir Ir.Builder

/-- The instruction is in one of the two ALU classes. -/
def isAlu (inst : EbpfInst) : Bool :=
  inst.code &&& 0x07 == EBPF_CLS_ALU || inst.code &&& 0x07 == EBPF_CLS_ALU64

/-- The instruction is a call, but not a local one. -/
def isHelperCall (inst : EbpfInst) : Bool :=
  switchCase inst.code == some .call && inst.src_reg != 1

/-- The instruction with the fields that the compiler does not look at cleared. -/
def canonical (inst : EbpfInst) : EbpfInst :=
  if isAlu inst then { inst with off := 0 }
  else if isHelperCall inst then { inst with src_reg := 0 }
  else inst

/-- The cases of the ALU classes. -/
def SwitchCase.isAlu : SwitchCase → Bool
  | .add | .sub | .mul | .div | .or | .and | .lsh | .rsh | .neg | .mod | .xor | .mov | .arsh
  | .endian => true
  | _ => false

theorem isAlu_of_switchCase {inst : EbpfInst} {c : SwitchCase} (h : switchCase inst.code = some c)
    (hi : isAlu inst = true) : c.isAlu = true := by
  have hcls := of_switchCase (P := fun c n => c.isAlu || !(Nat.beq n 4 || Nat.beq n 7))
    (by decide +kernel) h
  rw [isAlu, Bool.or_eq_true, beq_iff_eq, beq_iff_eq] at hi
  rcases hi with hi | hi
  · rwa [hi, show (!_) = false from rfl, Bool.or_false] at hcls
  · rwa [hi, show (!_) = false from rfl, Bool.or_false] at hcls

/-- The opcodes of the switch are the supported ones, and the one that clang gives
    some calls. -/
theorem mem_supportedOpcodes {code : BitVec 8} {c : SwitchCase} (h : switchCase code = some c) :
    code ∈ supportedOpcodes ∨ code = EBPF_OP_CALL ||| 0x8 := by
  obtain ⟨labels, hmem, hcode⟩ := mem_of_switchCase h
  have hall : ((switchCases.flatMap (·.1)).map BitVec.toNat).all (fun n =>
      ((supportedOpcodes ++ [EBPF_OP_CALL ||| 0x8]).map BitVec.toNat).any (Nat.beq n)) = true := by
    decide +kernel
  have hlabel : code ∈ switchCases.flatMap (·.1) := List.mem_flatMap.2 ⟨_, hmem, hcode⟩
  have hcode' := mem_of_any_toNat (List.all_eq_true.1 hall _ (List.mem_map_of_mem hlabel))
  rwa [List.mem_append, List.mem_singleton] at hcode'

/-- The code of an instruction does not depend on the cleared fields. -/
theorem emitInst_canonical (x : CompilerXDP) (p : Program) (patch : Bool) (pc : ℕ)
    (inst : EbpfInst) : emitInst x p patch pc (canonical inst) = emitInst x p patch pc inst := by
  rw [canonical]
  cases halu : isAlu inst with
  | true =>
    rw [if_pos rfl, emitInst, emitInst]
    cases hc : switchCase inst.code with
    | none => rfl
    | some c =>
      have hcalu := isAlu_of_switchCase hc halu
      cases c <;> first | rfl | cases hcalu
  | false =>
    rw [if_neg Bool.false_ne_true]
    cases hcall : isHelperCall inst with
    | true =>
      rw [isHelperCall, Bool.and_eq_true, beq_iff_eq, bne_iff_ne] at hcall
      rw [if_pos rfl, emitInst, emitInst, hcall.1]
      simp only [emitCase, if_neg hcall.2]
      rfl
    | false => rw [if_neg Bool.false_ne_true]

/-! ## Emitted instructions -/

/-- What is required of the fields of an emitted instruction. -/
structure Encoded (extFuncNames : List String) (next inst : EbpfInst) : Prop where
  opcode : inst.code ∈ supportedOpcodes ∨ inst.code = EBPF_OP_CALL ||| 0x8
  dst_reg : inst.dst_reg ≤ 10
  src_reg : inst.src_reg ≤ 10
  bigEndian : inst.code = EBPF_OP_BE → inst.imm = 16 ∨ inst.imm = 32 ∨ inst.imm = 64
  atomic : inst.code = EBPF_ATOMIC_OPCODE_32 ∨ inst.code = EBPF_ATOMIC_OPCODE_64 →
    inst.imm ∈ atomicImms
  lddw : inst.code = EBPF_OP_LDDW → IsLddwSlot next
  call : isHelperCall inst = true → extFuncSym inst.imm ∈ extFuncNames
  localCall : switchCase inst.code = some .call → inst.src_reg = 1 → inst.code = EBPF_OP_CALL

/-- The code ends with storing into the register `r`. -/
def StoresTo (r : BitVec 4) (code : List (Instr Lbl Slot)) : Prop :=
  ∃ body, ∃ v : Value (.int 64), code = body ++ [.store v (regs r)]

variable {x : CompilerXDP} {extFuncNames lddwHelpers : List String} {patch : Bool} {pc : ℕ}

/-- A legal instruction is encoded. -/
theorem encoded_of_legalAt (hn : x.insts.length < 65536) (hpc : pc < x.insts.length)
    (h : LegalAt x extFuncNames lddwHelpers patch pc) :
    Encoded extFuncNames (insnAt x.insts (pc + 1)) (insnAt x.insts pc) := by
  obtain ⟨hdst, hsrc, c, hc, hl⟩ := h
  refine ⟨mem_supportedOpcodes hc, hdst, hsrc, fun he => ?_, fun he => ?_, fun he => ?_,
    fun he => ?_, fun he hs => ?_⟩
  · rw [he, show switchCase EBPF_OP_BE = some .endian by decide] at hc
    cases hc
    exact hl (by rw [he]; decide)
  · obtain rfl : c = .atomic := by
      rcases he with he | he
      · rw [he, show switchCase EBPF_ATOMIC_OPCODE_32 = some .atomic by decide] at hc
        exact (Option.some.inj hc).symm
      · rw [he, show switchCase EBPF_ATOMIC_OPCODE_64 = some .atomic by decide] at hc
        exact (Option.some.inj hc).symm
    exact hl
  · rw [he, switchCase_lddw] at hc
    cases hc
    exact hl.2.1
  · rw [isHelperCall, Bool.and_eq_true, beq_iff_eq, bne_iff_ne] at he
    rw [he.1] at hc
    cases hc
    rw [CaseLegal, if_neg he.2] at hl
    exact hl
  · rw [he] at hc
    cases hc
    rw [CaseLegal, if_pos hs] at hl
    -- The return block is only registered after a call with the plain opcode.
    have hr := hl.1.2
    rw [toUInt16_succ (by omega)] at hr
    exact hr.2.1

/-- The code of an `lddw` that uses a helper ends with storing into its destination. -/
theorem storesTo_of_emitInst {inst : EbpfInst} {n k n' : ℕ} {code : List (Instr Lbl Slot)}
    (hcode : inst.code = EBPF_OP_LDDW) (hsrc : inst.src_reg ≤ 6)
    (hl : CaseLegal x extFuncNames lddwHelpers patch pc inst .lddw)
    (h : emitInst x (prepared x extFuncNames lddwHelpers) patch pc inst n = .ok (k, n', code)) :
    StoresTo inst.dst_reg code := by
  obtain ⟨hlen, hslot, hh⟩ := hl
  have hends : EndsWith (fun i => ∃ w : Value (.int 64), i = .store w (regs inst.dst_reg))
      (emitLddwHelper x (prepared x extFuncNames lddwHelpers) patch inst
        (insnAt x.insts (pc + 1))) :=
    endsWith_emitLddwHelper (fun w => ⟨w, rfl⟩) (BitVec.not_lt.2 hsrc) hh
  obtain ⟨_, n₁, body, t, hb, _, w, rfl⟩ := hends n
  rw [← emitLddw_of_slot hcode hlen hslot] at hb
  rw [emitInst, hcode, switchCase_lddw] at h
  simp only [Builder.bind_of_ok hb] at h
  have heq : k = pc + 1 ∧ n' = n₁ ∧ code = body ++ [.store w (regs inst.dst_reg)] := by
    simpa using h.symm
  exact ⟨body, w, heq.2.2⟩

/-- Nothing that is emitted is outside of the supported operations: in an accepted
    program, every instruction but the slots of an `lddw` is encoded, its code is
    the one of the instruction without the fields that are not looked at, and an
    `lddw` that uses a helper writes its destination. A program with any other
    instruction is rejected with an error, unless the assertion fails at a local call before. -/
theorem encoded_of_accepts (V : Verifier) (x : CompilerXDP)
    (extFuncNames lddwHelpers : List String) (patch : Bool) :
    (∀ M, Accepts V x extFuncNames lddwHelpers patch M →
      ∀ pc < x.insts.length, ¬IsSlot x.insts pc →
        Encoded extFuncNames (insnAt x.insts (pc + 1)) (insnAt x.insts pc) ∧
        ∃ v ∈ M.log, v.pc = pc ∧
          (∃ n r, emitInst x M.prog patch pc (canonical (insnAt x.insts pc)) n = .ok r ∧
            r.2.2 = v.code) ∧
          ((insnAt x.insts pc).code = EBPF_OP_LDDW → (insnAt x.insts pc).src_reg ≤ 6 →
            StoresTo (insnAt x.insts pc).dst_reg v.code)) ∧
    ((∃ pc < x.insts.length, ¬IsSlot x.insts pc ∧
        ¬Encoded extFuncNames (insnAt x.insts (pc + 1)) (insnAt x.insts pc)) →
      x.insts.length < 65536 → ¬Asserts x extFuncNames lddwHelpers patch →
        Rejects V x extFuncNames lddwHelpers patch) := by
  constructor
  · intro M hM pc hpc hs
    obtain ⟨base, hc, -⟩ := hM.exists_compiled
    obtain ⟨v, hv, rfl⟩ := hc.exists_visit hpc hs
    have hl := hc.log.legal hv
    obtain ⟨pre, he⟩ := hc.log.extends_of_mem hv
    obtain ⟨n, k, n', hemit⟩ := he.emitted
    refine ⟨encoded_of_legalAt hc.length_lt hpc hl, v, hv, rfl, ?_, fun hcode hsrc => ?_⟩
    · refine ⟨n, (k, n', v.code), ?_, rfl⟩
      rw [emitInst_canonical, hc.prog_eq, hemit]
    · obtain ⟨_, _, c, hsc, hcl⟩ := hl
      rw [hcode, switchCase_lddw] at hsc
      cases hsc
      exact storesTo_of_emitInst hcode hsrc hcl hemit
  · rintro ⟨pc, hpc, hs, hno⟩ hn hasserts
    refine rejects_iff.2 ⟨hn, fun hok => hno ?_, hasserts⟩
    exact encoded_of_legalAt hn hpc (hok.legal pc hpc hs)

/-- A program all of whose fields mean something in the supported operations. -/
def FieldsMeant (insns : List EbpfInst) : Prop :=
  ∀ pc < insns.length, ¬IsSlot insns pc →
    (isAlu (insnAt insns pc) = true → (insnAt insns pc).off = 0) ∧
    (switchCase (insnAt insns pc).code = some .call →
      (insnAt insns pc).src_reg = 0 ∨ (insnAt insns pc).src_reg = 1) ∧
    ((insnAt insns pc).code = EBPF_OP_LDDW → (insnAt insns pc).src_reg ≤ 6)

instance (insns : List EbpfInst) : Decidable (FieldsMeant insns) :=
  inferInstanceAs (Decidable (∀ pc < insns.length, _))

/-- A signed division, for those who know that `off` makes it one. -/
def signedDivision : List EbpfInst :=
  [⟨EBPF_OP_DIV64_IMM, 0, 0, 1, 2⟩, ⟨EBPF_OP_EXIT, 0, 0, 0, 0⟩]

/-- It is accepted, as an unsigned division. -/
theorem accepts_signedDivision :
    (∃ M, Accepts Verifier.shape { insts := signedDivision } [] [] false M) ∧
      ¬FieldsMeant signedDivision := by
  obtain ⟨M, hM, -⟩ := exists_accepts Verifier.shape { insts := signedDivision } [] [] false 3
    (fun _ => true) (by decide +kernel)
  exact ⟨⟨M, hM⟩, by decide⟩

/-- A program with an unknown instruction. -/
def unknownOpcode : List EbpfInst := [⟨0xff, 0, 0, 0, 0⟩, ⟨EBPF_OP_EXIT, 0, 0, 0, 0⟩]

/-- The division is encoded, and the unknown instruction is rejected. -/
theorem encoded_signedDivision :
    (∃ M, Accepts Verifier.shape { insts := signedDivision } [] [] false M ∧
      Encoded [] ⟨EBPF_OP_EXIT, 0, 0, 0, 0⟩ ⟨EBPF_OP_DIV64_IMM, 0, 0, 1, 2⟩) ∧
    Rejects Verifier.shape { insts := unknownOpcode } [] [] false := by
  constructor
  · obtain ⟨M, hM, -⟩ := exists_accepts Verifier.shape { insts := signedDivision } [] [] false 3
      (fun _ => true) (by decide +kernel)
    exact ⟨M, hM, ((encoded_of_accepts _ _ _ _ _).1 M hM 0 (by decide) (by decide)).1⟩
  · refine (encoded_of_accepts _ _ _ _ _).2 ⟨0, by decide, by decide, fun h => ?_⟩
      (show unknownOpcode.length < 65536 by decide) ?_
    · rcases h.opcode with hop | hop
      · exact absurd hop (by decide)
      · exact absurd hop (by decide)
    · refine not_asserts_of_forall (?_ : ∀ pc < unknownOpcode.length, _ = false)
      decide +kernel

end EbpfJit
