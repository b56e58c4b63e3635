import EbpfJit.Split

/-!
# The shape of the code

When the code of an instruction is emitted, and what it looks like then. The
compiler accepts the instructions that are `Legal`, on the other ones it fails.
The code of a jump, of a local call, of an exit and of a tail call ends with a
branch (`branches`), the code of any other instruction falls through.

* `emitInst_fails`: on an instruction that is not legal, the emission fails;
* `emitInst_ok`: otherwise, the code has at most one terminator, at its end.
-/

namespace EbpfJit

open Ir Ir.Builder

/-! ## Facts about opcodes -/

/-- The opcode of an instruction is among the labels of its case. -/
theorem mem_of_switchCase {code : BitVec 8} {c : SwitchCase} (h : switchCase code = some c) :
    ∃ labels, (labels, c) ∈ switchCases ∧ code ∈ labels := by
  rw [switchCase, Option.map_eq_some_iff] at h
  obtain ⟨⟨labels, c'⟩, hf, rfl⟩ := h
  have hp := List.find?_some hf
  exact ⟨labels, List.mem_of_find?_eq_some hf, by simpa using hp⟩

/-- An opcode that is among some labels has a case. -/
theorem isSome_switchCase_of_mem {code : BitVec 8} (h : code ∈ switchCases.flatMap (·.1)) :
    (switchCase code).isSome = true := by
  obtain ⟨e, he, hcode⟩ := List.mem_flatMap.1 h
  rw [switchCase, Option.isSome_map, List.find?_isSome]
  exact ⟨e, he, by simpa using hcode⟩

/-- Opcodes are looked up as numbers, which is faster to evaluate. -/
theorem mem_of_any_toNat {codes : List (BitVec 8)} {code : BitVec 8}
    (h : (codes.map BitVec.toNat).any (Nat.beq code.toNat) = true) : code ∈ codes := by
  obtain ⟨n, hn, heq⟩ := List.any_eq_true.1 h
  obtain ⟨code', hmem, rfl⟩ := List.mem_map.1 hn
  rwa [BitVec.eq_of_toNat_eq (Nat.eq_of_beq_eq_true heq)]

/-- What holds of the class of every label and its case holds of an opcode with the case. -/
theorem of_switchCase {P : SwitchCase → ℕ → Bool} {code : BitVec 8} {c : SwitchCase}
    (hall : (switchCases.all fun e => (e.1.map BitVec.toNat).all fun n => P e.2 (n &&& 7)) = true)
    (h : switchCase code = some c) : P c (code &&& 0x07).toNat = true := by
  obtain ⟨labels, hmem, hcode⟩ := mem_of_switchCase h
  have hlabels := List.all_eq_true.1 hall _ hmem
  rw [BitVec.toNat_and]
  exact List.all_eq_true.1 hlabels _ (List.mem_map_of_mem hcode)

theorem code_of_lddw {code : BitVec 8} (h : switchCase code = some .lddw) :
    code = EBPF_OP_LDDW := by
  obtain ⟨labels, hc, hl⟩ := mem_of_switchCase h
  simp [switchCases] at hc
  simpa [hc] using hl

theorem switchCase_lddw : switchCase EBPF_OP_LDDW = some .lddw := by decide

theorem code_of_endian {code : BitVec 8} (h : switchCase code = some .endian) :
    code = EBPF_OP_LE ∨ code = EBPF_OP_BE := by
  obtain ⟨labels, hc, hl⟩ := mem_of_switchCase h
  simp [switchCases] at hc
  simpa [hc] using hl

theorem code_of_atomic {code : BitVec 8} (h : switchCase code = some .atomic) :
    code = EBPF_ATOMIC_OPCODE_32 ∨ code = EBPF_ATOMIC_OPCODE_64 := by
  obtain ⟨labels, hc, hl⟩ := mem_of_switchCase h
  simp [switchCases] at hc
  simpa [hc] using hl

theorem code_of_call {code : BitVec 8} (h : switchCase code = some .call) :
    code = EBPF_OP_CALL ∨ code = EBPF_OP_CALL ||| 0x8 := by
  obtain ⟨labels, hc, hl⟩ := mem_of_switchCase h
  simp [switchCases] at hc
  simpa [hc] using hl

theorem switchCase_call : switchCase EBPF_OP_CALL = some .call := by decide

theorem switchCase_exit : switchCase EBPF_OP_EXIT = some .exit := by decide

theorem switchCase_ja : switchCase EBPF_OP_JA = some .ja := by decide

/-! ## Legal instructions -/

/-- The conversion of a small number to `uint16_t` does not change it. -/
theorem toUInt16_of_lt {t : ℤ} (h : 0 ≤ t) (h' : t < 65536) : toUInt16 t = t.toNat := by
  rw [toUInt16, Int.emod_eq_of_lt h h']

theorem toUInt16_succ {pc : ℕ} (h : pc + 1 < 65536) : toUInt16 (pc + 1) = pc + 1 := by
  rw [toUInt16_of_lt (by omega) (by omega)]
  rfl


/-- The index of the block that the jump at `pc` goes to. -/
def jmpDst (pc : ℕ) (inst : EbpfInst) : ℕ := toUInt16 (pc + 1 + inst.off.toInt)

/-- The index of the block that the local call at `pc` goes to. -/
def callDst (pc : ℕ) (inst : EbpfInst) : ℕ := toUInt16 (pc + 1 + inst.imm.toInt)

/-- The `imm` of an atomic operation that is supported. -/
def atomicImms : List (BitVec 32) :=
  [EBPF_ATOMIC_ADD, EBPF_ATOMIC_ADD ||| EBPF_FETCH, EBPF_ATOMIC_AND,
    EBPF_ATOMIC_AND ||| EBPF_FETCH, EBPF_ATOMIC_OR, EBPF_ATOMIC_OR ||| EBPF_FETCH,
    EBPF_ATOMIC_XOR, EBPF_ATOMIC_XOR ||| EBPF_FETCH, EBPF_XCHG, EBPF_CMPXCHG]

variable (x : CompilerXDP) (extFuncNames lddwHelpers : List String) (patch : Bool)

/-- The helper an `lddw` with the source register `src_reg` uses is there. -/
def LddwHelperOk (src_reg : BitVec 4) : Prop :=
  (src_reg = 2 ∨ src_reg = 6 →
    if patch then x.map_val.isSome = true else LDDW_HELPER_MAP_VAL ∈ lddwHelpers) ∧
  (src_reg = 3 → x.var_addr.isSome = true) ∧
  (src_reg = 4 → x.code_addr.isSome = true)

/-- The second slot of an `lddw`: all zero but for its `imm`. -/
def IsLddwSlot (inst : EbpfInst) : Prop :=
  inst.code = 0 ∧ inst.dst_reg = 0 ∧ inst.src_reg = 0 ∧ inst.off = 0

instance : DecidablePred IsLddwSlot := fun _ => inferInstanceAs (Decidable (_ ∧ _))

/-- What the case `c` of the switch requires of the instruction `inst` at `pc`. -/
def CaseLegal (pc : ℕ) (inst : EbpfInst) : SwitchCase → Prop
  | .endian => inst.code &&& 0x08 = 0x08 → inst.imm = 16 ∨ inst.imm = 32 ∨ inst.imm = 64
  | .lddw =>
    pc + 1 < x.insts.length ∧ IsLddwSlot (insnAt x.insts (pc + 1)) ∧
      LddwHelperOk x lddwHelpers patch inst.src_reg
  | .ja => Begins x.insts (jmpDst pc inst)
  | .jcond _ | .jset =>
    Begins x.insts (jmpDst pc inst) ∧ Begins x.insts (toUInt16 (pc + 1))
  | .call =>
    if inst.src_reg = 1 then
      (Begins x.insts (toUInt16 (pc + 1)) ∧ ReturnsTo x.insts (toUInt16 (pc + 1))) ∧
        Begins x.insts (callDst pc inst)
    else extFuncSym inst.imm ∈ extFuncNames
  | .atomic => inst.imm ∈ atomicImms
  | _ => True

/-- The compiler accepts the instruction `inst` at `pc`. -/
def Legal (pc : ℕ) (inst : EbpfInst) : Prop :=
  inst.dst_reg ≤ 10 ∧ inst.src_reg ≤ 10 ∧
    ∃ c, switchCase inst.code = some c ∧ CaseLegal x extFuncNames lddwHelpers patch pc inst c

/-- An `lddw` that no helper is defined for has no code at all. -/
def Quiet (inst : EbpfInst) : Prop := inst.code = EBPF_OP_LDDW ∧ 6 < inst.src_reg

instance : DecidablePred Quiet := fun _ => inferInstanceAs (Decidable (_ ∧ _))

/-- The blocks that the code of an instruction branches to, unless it falls through. -/
def branches (pc : ℕ) (inst : EbpfInst) : SwitchCase → Option (List Lbl)
  | .ja => some [.inst (jmpDst pc inst)]
  | .jcond _ | .jset => some [.inst (jmpDst pc inst), .inst (toUInt16 (pc + 1))]
  | .exit => some [.exitBlock, .localRetBlock]
  | .call =>
    if inst.src_reg = 1 then some [.inst (callDst pc inst)]
    else if inst.imm = 12 then some [.exitBlock]
    else none
  | _ => none

/-- The last instruction of code branching to `succs`, or falling through. -/
def IsLast : Option (List Lbl) → Instr Lbl Slot → Prop
  | none, i => i.isTerminator = false
  | some succs, i => i.isTerminator = true ∧ i.successors = succs

/-! ## The emitters -/

variable {x extFuncNames lddwHelpers patch} {pc : ℕ} {inst : EbpfInst}

theorem straight_emitLoadALUSource (is64 : Bool) : Straight (emitLoadALUSource inst is64) := by
  cases is64 with
  | true => exact straight_ite (fun _ => straight_pure _) fun _ => straight_emit fun _ => rfl
  | false =>
    exact straight_ite (fun _ => straight_pure _) fun _ =>
      Straight.bind (straight_emit fun _ => rfl) fun _ => straight_createTrunc _ _

theorem straight_emitLoadALUDest (b : Bool) : Straight (emitLoadALUDest inst b) :=
  straight_emit fun _ => rfl

theorem endsWith_emitStoreALUResult {w : ℕ} (v : Value (.int w)) :
    EndsWith (IsLast none) (emitStoreALUResult inst v) :=
  endsWith_ite (fun _ => endsWith_emitVoid rfl) fun _ =>
    (straight_createZExt 64 v).bind_endsWith fun _ => endsWith_emitVoid rfl

theorem endsWith_emitALUWithDstAndSrc
    {func : {w : ℕ} → Value (.int w) → Value (.int w) → Emit (Value (.int w))}
    (hf : ∀ {w : ℕ} (a b : Value (.int w)), Straight (func a b)) :
    EndsWith (IsLast none) (emitALUWithDstAndSrc inst func) :=
  (straight_emitLoadALUDest false).bind_endsWith fun _ =>
    (straight_emitLoadALUSource _).bind_endsWith fun _ =>
      (hf _ _).bind_endsWith fun _ => endsWith_emitStoreALUResult _

theorem straight_createBinOp {w : ℕ} (op : BinOp) (a b : Value (.int w)) :
    Straight (createBinOp op a b : Emit _) := straight_emit fun _ => rfl

theorem straight_emitDiv {w : ℕ} (a b : Value (.int w)) : Straight (emitDiv a b) :=
  Straight.bind (straight_emit fun _ => rfl) fun _ =>
    (straight_createBinOp _ _ _).bind fun _ => straight_emit fun _ => rfl

theorem straight_emitMod {w : ℕ} (a b : Value (.int w)) : Straight (emitMod a b) :=
  Straight.bind (straight_emit fun _ => rfl) fun _ =>
    (straight_createBinOp _ _ _).bind fun _ => straight_emit fun _ => rfl

theorem straight_emitShift {w : ℕ} (op : BinOp) (a b : Value (.int w)) :
    Straight (do
      let count ← emitShiftCount inst b
      createBinOp op a count : Emit (Value (.int w))) :=
  Straight.bind (straight_createBinOp _ _ _) fun _ => straight_createBinOp _ _ _

/-- Splitting at some offsets gives as many bytes. -/
theorem emitSplitBytes_ok (v : Value (.int 64)) (l : List ℕ) (n : ℕ) :
    ∃ bytes n' code, emitSplitBytes v l n = .ok (bytes, n', code) ∧ NoTerminator code ∧
      bytes.length = l.length := by
  induction l generalizing n with
  | nil => exact ⟨[], n, [], rfl, noTerminator_nil, rfl⟩
  | cons i l ih =>
    obtain ⟨shifted, n₁, c₁, h₁, hc₁⟩ := straight_createBinOp .lshr v
      (getInt64 (BitVec.ofNat 64 i)) n
    obtain ⟨byte, n₂, c₂, h₂, hc₂⟩ := straight_createBinOp .and shifted (getInt64 0xff) n₁
    obtain ⟨bytes, n₃, c₃, h₃, hc₃, hlen⟩ := ih n₂
    refine ⟨byte :: bytes, n₃, c₁ ++ (c₂ ++ (c₃ ++ [])), ?_, ?_, by simp [hlen]⟩
    · rw [emitSplitBytes, bind_of_ok h₁, bind_of_ok h₂, bind_of_ok h₃]
      rfl
    · exact hc₁.append (hc₂.append (hc₃.append noTerminator_nil))

theorem straight_emitMergeBytes (last : Value (.int 64)) (bytes : List (Value (.int 64))) :
    Straight (emitMergeBytes last bytes) := by
  induction bytes generalizing last with
  | nil => exact straight_pure _
  | cons val bytes ih =>
    exact (straight_createBinOp _ _ _).bind fun _ =>
      (straight_createBinOp _ _ _).bind fun _ => ih _

theorem straight_emitALUEndianConversion (v : Value (.int 64))
    (h : inst.code &&& 0x08 = 0x08 → inst.imm = 16 ∨ inst.imm = 32 ∨ inst.imm = 64) :
    Straight (emitALUEndianConversion inst v) := by
  refine straight_ite (fun hbe => ?_) fun _ => straight_pure _
  have himm := h hbe
  have hpos : 0 < inst.imm.toNat / 8 := by
    rcases himm with h | h | h <;> rw [h] <;> decide
  rw [if_neg (by tauto)]
  intro n
  obtain ⟨bytes, n₁, c₁, h₁, hc₁, hlen⟩ :=
    emitSplitBytes_ok v ((List.range (inst.imm.toNat / 8)).map (8 * ·)) n
  rw [bind_of_ok h₁]
  cases bytes with
  | nil =>
    rw [List.length_nil, List.length_map, List.length_range] at hlen
    omega
  | cons val bytes =>
    obtain ⟨r, n₂, c₂, h₂, hc₂⟩ := straight_emitMergeBytes val bytes n₁
    exact ⟨r, n₂, c₁ ++ c₂, by simp only [h₂, map_ok], hc₁.append hc₂⟩

theorem endsWith_emitStore (w : ℕ) : EndsWith (IsLast none) (emitStore inst w) := by
  have hsrc : Straight (emitStoreLoadingSrc inst) :=
    straight_ite (fun _ => straight_emit fun _ => rfl) fun _ => straight_pure _
  refine hsrc.bind_endsWith fun _ => (straight_createTrunc w _).bind_endsWith fun _ => ?_
  exact (straight_emit fun _ => rfl).bind_endsWith fun _ =>
    (straight_emit fun _ => rfl).bind_endsWith fun _ => endsWith_emitVoid rfl

theorem endsWith_emitLoadX (w : ℕ) : EndsWith (IsLast none) (emitLoadX inst w) := by
  have haddr : Straight (emitLDXLoadingAddr inst) :=
    Straight.bind (straight_emit fun _ => rfl) fun _ => straight_emit fun _ => rfl
  refine haddr.bind_endsWith fun _ => (straight_emit fun _ => rfl).bind_endsWith fun _ => ?_
  exact (straight_createZExt 64 _).bind_endsWith fun _ => endsWith_emitVoid rfl

/-! ### Jumps and calls -/

/-- A block of the program is found if it begins somewhere. -/
theorem loadBlock_ok {t : ℕ} (h : Begins x.insts t) :
    loadBlock pc t (prepared x extFuncNames lddwHelpers).instBlocks = .ok (.inst t) := by
  rw [loadBlock, lookup_instBlocks, if_pos h]

theorem loadBlock_error {t : ℕ} (h : ¬Begins x.insts t) :
    ∃ e, loadBlock pc t (prepared x extFuncNames lddwHelpers).instBlocks = .error e := by
  rw [loadBlock, lookup_instBlocks, if_neg h]
  exact ⟨_, rfl⟩

theorem localJmpDstAndNextBlk_ok (h : Begins x.insts (jmpDst pc inst))
    (h' : Begins x.insts (toUInt16 (pc + 1))) :
    localJmpDstAndNextBlk pc inst (prepared x extFuncNames lddwHelpers).instBlocks =
      .ok (.inst (jmpDst pc inst), .inst (toUInt16 (pc + 1))) := by
  have e : loadJmpDstBlock pc inst (prepared x extFuncNames lddwHelpers).instBlocks =
      .ok (.inst (jmpDst pc inst)) := loadBlock_ok h
  have e' : loadJmpNextBlock pc (prepared x extFuncNames lddwHelpers).instBlocks =
      .ok (.inst (toUInt16 (pc + 1))) := loadBlock_ok h'
  rw [localJmpDstAndNextBlk, e]
  simp only [bind, Except.bind, e']
  rfl

theorem localJmpDstAndNextBlk_error
    (h : ¬(Begins x.insts (jmpDst pc inst) ∧ Begins x.insts (toUInt16 (pc + 1)))) :
    ∃ e, localJmpDstAndNextBlk pc inst (prepared x extFuncNames lddwHelpers).instBlocks =
      .error e := by
  rw [localJmpDstAndNextBlk]
  by_cases hd : Begins x.insts (jmpDst pc inst)
  · have e : loadJmpDstBlock pc inst (prepared x extFuncNames lddwHelpers).instBlocks =
        .ok (.inst (jmpDst pc inst)) := loadBlock_ok hd
    obtain ⟨e', he'⟩ : ∃ e, loadJmpNextBlock pc
        (prepared x extFuncNames lddwHelpers).instBlocks = .error e :=
      loadBlock_error fun h' => h ⟨hd, h'⟩
    exact ⟨e', by rw [e]; simp only [bind, Except.bind, he']⟩
  · obtain ⟨e, he⟩ : ∃ e, loadJmpDstBlock pc inst
        (prepared x extFuncNames lddwHelpers).instBlocks = .error e := loadBlock_error hd
    exact ⟨e, by rw [he]; rfl⟩

theorem straight_emitJmpLoadSrcAndDstAndZero : Straight (emitJmpLoadSrcAndDstAndZero inst) := by
  rw [emitJmpLoadSrcAndDstAndZero]
  refine straight_ite (fun _ => ?_) fun _ => ?_
  · exact Straight.bind (straight_emit fun _ => rfl) fun _ =>
      Straight.bind (straight_emit fun _ => rfl) fun _ => straight_pure _
  · exact Straight.bind (straight_pure _) fun _ =>
      Straight.bind (straight_emit fun _ => rfl) fun _ => straight_pure _

theorem fails_ofExcept {α : Type} {r : Except Failure α} (h : ∃ e, r = .error e) :
    Fails (ofExcept r : Emit α) := by
  obtain ⟨e, rfl⟩ := h
  exact fails_fail e

theorem endsWith_emitExtFuncCall {l : List String} (h : extFuncSym inst.imm ∈ l) :
    EndsWith (IsLast (if inst.imm = 12 then some [.exitBlock] else none))
      (emitExtFuncCall inst l .exitBlock) := by
  rw [emitExtFuncCall]
  simp only [if_pos h]
  refine (straight_emit fun _ => rfl).bind_endsWith fun _ =>
    (straight_emit fun _ => rfl).bind_endsWith fun _ =>
    (straight_emit fun _ => rfl).bind_endsWith fun _ =>
    (straight_emit fun _ => rfl).bind_endsWith fun _ =>
    (straight_emit fun _ => rfl).bind_endsWith fun _ =>
    (straight_emit fun _ => rfl).bind_endsWith fun _ => ?_
  by_cases h12 : inst.imm = 12
  · simp only [if_pos h12]
    exact (straight_emitVoid rfl).bind_endsWith fun _ => endsWith_emitVoid ⟨rfl, rfl⟩
  · simp only [if_neg h12]
    refine EndsWith.bind_pure (P := IsLast none) ?_ fun _ => ()
    exact endsWith_emitVoid rfl

theorem endsWith_emitAtomicBinOp (op : RmwOp) (is64 is_fetch : Bool) :
    EndsWith (IsLast none) (emitAtomicBinOp op inst is64 is_fetch) := by
  rw [emitAtomicBinOp]
  refine (straight_emit fun _ => rfl).bind_endsWith fun _ =>
    (straight_emit fun _ => rfl).bind_endsWith fun _ =>
    (straight_emit fun _ => rfl).bind_endsWith fun _ => endsWith_ite (fun _ => ?_) fun _ =>
      (straight_createTrunc 32 _).bind_endsWith fun _ => ?_
  all_goals
    cases is_fetch with
    | true => exact (straight_emit fun _ => rfl).bind_endsWith fun _ => endsWith_emitVoid rfl
    | false =>
      refine EndsWith.bind_pure (P := IsLast none) ?_ fun _ => ()
      exact endsWith_emit fun _ => rfl

theorem endsWith_emitCmpXchg : EndsWith (IsLast none) (emitCmpXchg inst) := by
  rw [emitCmpXchg]
  exact (straight_emit fun _ => rfl).bind_endsWith fun _ =>
    (straight_emit fun _ => rfl).bind_endsWith fun _ =>
    (straight_emit fun _ => rfl).bind_endsWith fun _ =>
    (straight_emit fun _ => rfl).bind_endsWith fun _ =>
    (straight_emit fun _ => rfl).bind_endsWith fun _ =>
    (straight_emitVoid rfl).bind_endsWith fun _ =>
    (straight_createZExt 64 _).bind_endsWith fun _ => endsWith_emitVoid rfl

theorem endsWith_emitAtomic (h : inst.imm ∈ atomicImms) :
    EndsWith (IsLast none) (emitAtomic inst) := by
  refine endsWith_ite (fun _ => endsWith_emitAtomicBinOp _ _ _) fun h₁ =>
    endsWith_ite (fun _ => endsWith_emitAtomicBinOp _ _ _) fun h₂ =>
    endsWith_ite (fun _ => endsWith_emitAtomicBinOp _ _ _) fun h₃ =>
    endsWith_ite (fun _ => endsWith_emitAtomicBinOp _ _ _) fun h₄ =>
    endsWith_ite (fun _ => endsWith_emitAtomicBinOp _ _ _) fun h₅ =>
    endsWith_ite (fun _ => endsWith_emitCmpXchg) fun h₆ => ?_
  simp only [atomicImms, List.mem_cons, List.not_mem_nil] at h
  tauto

theorem fails_emitAtomic (h : inst.imm ∉ atomicImms) : Fails (emitAtomic inst) := by
  simp only [atomicImms, List.mem_cons, List.not_mem_nil, not_or] at h
  rw [emitAtomic]
  simp only [h, or_self, if_false]
  exact fails_fail _

theorem straight_emitCallStackItem (pos : Value (.int 64)) (i : ℕ) :
    Straight (emitCallStackItem pos i) :=
  Straight.bind (straight_createBinOp _ _ _) fun _ => straight_emit fun _ => rfl

theorem endsWith_emitLocalCall (hr : Begins x.insts (toUInt16 (pc + 1)))
    (hr' : ReturnsTo x.insts (toUInt16 (pc + 1))) (h : Begins x.insts (callDst pc inst)) :
    EndsWith (IsLast (some [.inst (callDst pc inst)]))
      (emitLocalCall (prepared x extFuncNames lddwHelpers) pc inst) := by
  have e : loadCallDstBlock pc inst (prepared x extFuncNames lddwHelpers).instBlocks =
      .ok (.inst (callDst pc inst)) := loadBlock_ok h
  simp only [emitLocalCall, lookup_localFuncRetBlks, if_pos (And.intro hr hr'), e]
  refine (straight_emit fun _ => rfl).bind_endsWith fun _ =>
    (straight_createBinOp _ _ _).bind_endsWith fun _ =>
    (straight_emitVoid rfl).bind_endsWith fun _ =>
    (straight_pure _).bind_endsWith fun _ =>
    (straight_emitCallStackItem _ _).bind_endsWith fun _ =>
    (straight_emitVoid rfl).bind_endsWith fun _ =>
    (Straight.forM fun _ => ?_).bind_endsWith fun _ =>
    (straight_emit fun _ => rfl).bind_endsWith fun _ =>
    (straight_createBinOp _ _ _).bind_endsWith fun _ =>
    (straight_emitVoid rfl).bind_endsWith fun _ => ?_
  · exact Straight.bind (straight_emit fun _ => rfl) fun _ =>
      (straight_emitCallStackItem _ _).bind fun _ => straight_emitVoid rfl
  · rw [ofExcept_ok_bind]
    exact endsWith_emitVoid ⟨rfl, rfl⟩

theorem fails_emitLocalCall
    (h : ¬((Begins x.insts (toUInt16 (pc + 1)) ∧ ReturnsTo x.insts (toUInt16 (pc + 1))) ∧
      Begins x.insts (callDst pc inst))) :
    Fails (emitLocalCall (prepared x extFuncNames lddwHelpers) pc inst) := by
  simp only [emitLocalCall, lookup_localFuncRetBlks]
  refine Straight.bind_fails (straight_emit fun _ => rfl) fun _ =>
    (straight_createBinOp _ _ _).bind_fails fun _ =>
    (straight_emitVoid rfl).bind_fails fun _ => ?_
  by_cases hr : Begins x.insts (toUInt16 (pc + 1)) ∧ ReturnsTo x.insts (toUInt16 (pc + 1))
  · have hd : ∃ e, loadCallDstBlock pc inst (prepared x extFuncNames lddwHelpers).instBlocks =
        .error e := loadBlock_error fun hd => h ⟨hr, hd⟩
    simp only [if_pos hr]
    refine (straight_pure _).bind_fails fun _ =>
      (straight_emitCallStackItem _ _).bind_fails fun _ =>
      (straight_emitVoid rfl).bind_fails fun _ =>
      (Straight.forM fun _ => ?_).bind_fails fun _ =>
      Straight.bind_fails (straight_emit fun _ => rfl) fun _ =>
      (straight_createBinOp _ _ _).bind_fails fun _ =>
      (straight_emitVoid rfl).bind_fails fun _ => (fails_ofExcept hd).bind
    exact Straight.bind (straight_emit fun _ => rfl) fun _ =>
      (straight_emitCallStackItem _ _).bind fun _ => straight_emitVoid rfl
  · simp only [if_neg hr]
    exact (fails_fail _).bind

/-! ### Loads of double words -/

theorem endsWith_emitLddwMapVal {P : Instr Lbl Slot → Prop} {nextInst : EbpfInst}
    {mapPtr : BitVec 64} {missing : String}
    (hP : ∀ v : Value (.int 64), P (.store v (regs inst.dst_reg)))
    (h : if patch then x.map_val.isSome = true else LDDW_HELPER_MAP_VAL ∈ lddwHelpers) :
    EndsWith P (emitLddwMapVal x (prepared x extFuncNames lddwHelpers) patch inst nextInst mapPtr
      missing) := by
  rw [emitLddwMapVal]
  cases patch with
  | true =>
    obtain ⟨f, hf⟩ := Option.isSome_iff_exists.1 (by simpa using h)
    simp only [if_true, hf]
    exact endsWith_emitVoid (hP _)
  | false =>
    rw [if_neg Bool.false_ne_true] at h
    have hm : LDDW_HELPER_MAP_VAL ∈ (prepared x extFuncNames lddwHelpers).lddwHelper := h
    simp only [Bool.false_eq_true, if_false, if_pos hm]
    exact (straight_emit fun _ => rfl).bind_endsWith fun _ =>
      (straight_createBinOp _ _ _).bind_endsWith fun _ => endsWith_emitVoid (hP _)

theorem fails_emitLddwMapVal {nextInst : EbpfInst} {mapPtr : BitVec 64} {missing : String}
    (h : ¬if patch then x.map_val.isSome = true else LDDW_HELPER_MAP_VAL ∈ lddwHelpers) :
    Fails (emitLddwMapVal x (prepared x extFuncNames lddwHelpers) patch inst nextInst mapPtr
      missing) := by
  rw [emitLddwMapVal]
  cases patch with
  | true =>
    have hf : x.map_val = none := by simpa using h
    simp only [if_true, hf]
    exact fails_fail _
  | false =>
    rw [if_neg Bool.false_ne_true] at h
    have hm : LDDW_HELPER_MAP_VAL ∉ (prepared x extFuncNames lddwHelpers).lddwHelper := h
    simp only [Bool.false_eq_true, if_false, if_neg hm]
    exact fails_fail _

/-- An `lddw` that uses a helper ends with storing into its destination. -/
theorem endsWith_emitLddwHelper {P : Instr Lbl Slot → Prop} {nextInst : EbpfInst}
    (hP : ∀ v : Value (.int 64), P (.store v (regs inst.dst_reg))) (hq : ¬6 < inst.src_reg)
    (h : LddwHelperOk x lddwHelpers patch inst.src_reg) :
    EndsWith P (emitLddwHelper x (prepared x extFuncNames lddwHelpers) patch inst nextInst) := by
  obtain ⟨hm, hv, hc⟩ := h
  refine endsWith_ite (fun _ => endsWith_emitVoid (hP _)) fun h₀ =>
    endsWith_ite (fun _ => endsWith_emitVoid (hP _)) fun h₁ =>
    endsWith_ite (fun h₂ => endsWith_emitLddwMapVal hP (hm (.inl h₂))) fun h₂ =>
    endsWith_ite (fun h₃ => ?_) fun h₃ => endsWith_ite (fun h₄ => ?_) fun h₄ =>
    endsWith_ite (fun _ => endsWith_emitVoid (hP _)) fun h₅ =>
    endsWith_ite (fun h₆ => endsWith_emitLddwMapVal hP (hm (.inr h₆))) fun h₆ => ?_
  · obtain ⟨f, hf⟩ := Option.isSome_iff_exists.1 (hv h₃)
    simp only [hf]
    exact endsWith_emitVoid (hP _)
  · obtain ⟨f, hf⟩ := Option.isSome_iff_exists.1 (hc h₄)
    simp only [hf]
    exact endsWith_emitVoid (hP _)
  · have hall : ∀ r : BitVec 4,
        6 < r ∨ r = 0 ∨ r = 1 ∨ r = 2 ∨ r = 3 ∨ r = 4 ∨ r = 5 ∨ r = 6 := by
      decide
    have := hall inst.src_reg
    tauto

theorem fails_emitLddwHelper {nextInst : EbpfInst}
    (h : ¬LddwHelperOk x lddwHelpers patch inst.src_reg) :
    Fails (emitLddwHelper x (prepared x extFuncNames lddwHelpers) patch inst nextInst) := by
  by_cases hm : inst.src_reg = 2 ∨ inst.src_reg = 6
  · by_cases hmv : if patch then x.map_val.isSome = true else LDDW_HELPER_MAP_VAL ∈ lddwHelpers
    · refine absurd ⟨fun _ => hmv, fun h₃ => ?_, fun h₄ => ?_⟩ h
      · rcases hm with hm | hm <;> rw [h₃] at hm <;> exact absurd hm (by decide)
      · rcases hm with hm | hm <;> rw [h₄] at hm <;> exact absurd hm (by decide)
    · rcases hm with hm | hm <;> simp only [emitLddwHelper, hm] <;>
        exact fails_emitLddwMapVal hmv
  · by_cases h₃ : inst.src_reg = 3
    · cases hv : x.var_addr with
      | none =>
        simp only [emitLddwHelper, h₃, hv]
        exact fails_fail _
      | some f =>
        refine absurd ⟨fun h' => absurd h' hm, fun _ => by rw [hv]; rfl, fun h₄ => ?_⟩ h
        rw [h₃] at h₄
        exact absurd h₄ (by decide)
    · by_cases h₄ : inst.src_reg = 4
      · cases hc : x.code_addr with
        | none =>
          simp only [emitLddwHelper, h₄, hc]
          exact fails_fail _
        | some f =>
          exact absurd ⟨fun h' => absurd h' hm, fun h' => absurd h' h₃,
            fun _ => by rw [hc]; rfl⟩ h
      · exact absurd ⟨fun h' => absurd h' hm, fun h' => absurd h' h₃,
          fun h' => absurd h' h₄⟩ h

/-- A legal `lddw` without a helper has no code. -/
theorem emitLddwHelper_quiet {nextInst : EbpfInst} (hq : 6 < inst.src_reg) :
    emitLddwHelper x (prepared x extFuncNames lddwHelpers) patch inst nextInst = pure () := by
  have h : ∀ r ≤ 6, inst.src_reg ≠ r := by
    generalize inst.src_reg = s at hq
    revert s
    decide
  simp only [emitLddwHelper, h 0 (by decide), h 1 (by decide), h 2 (by decide), h 3 (by decide),
    h 4 (by decide), h 5 (by decide), h 6 (by decide), if_false]

theorem emitLddw_of_slot (hcode : inst.code = EBPF_OP_LDDW) (hlen : pc + 1 < x.insts.length)
    (hslot : IsLddwSlot (insnAt x.insts (pc + 1))) :
    emitLddw x (prepared x extFuncNames lddwHelpers) patch pc inst =
      emitLddwHelper x (prepared x extFuncNames lddwHelpers) patch inst
        (insnAt x.insts (pc + 1)) := by
  have hsz : ¬(inst.code &&& 0x18 ≠ 0x18 ∨ inst.code &&& 0xe0 ≠ 0x00) := by
    rw [hcode]
    decide
  have hlt : ¬(prepared x extFuncNames lddwHelpers).insns.length ≤ pc + 1 := Nat.not_le.2 hlen
  have hnext : IsLddwSlot ((prepared x extFuncNames lddwHelpers).insn (pc + 1)) := hslot
  obtain ⟨h₁, h₂, h₃, h₄⟩ := hnext
  simp only [emitLddw, if_neg hsz, if_neg hlt, h₁, h₂, h₃, h₄]
  rfl

theorem fails_emitLddw (hcode : inst.code = EBPF_OP_LDDW)
    (h : ¬CaseLegal x extFuncNames lddwHelpers patch pc inst .lddw) :
    Fails (emitLddw x (prepared x extFuncNames lddwHelpers) patch pc inst) := by
  by_cases hlen : pc + 1 < x.insts.length
  · by_cases hslot : IsLddwSlot (insnAt x.insts (pc + 1))
    · rw [emitLddw_of_slot hcode hlen hslot]
      exact fails_emitLddwHelper fun hh => h ⟨hlen, hslot, hh⟩
    · have hsz : ¬(inst.code &&& 0x18 ≠ 0x18 ∨ inst.code &&& 0xe0 ≠ 0x00) := by
        rw [hcode]
        decide
      have hlt : ¬(prepared x extFuncNames lddwHelpers).insns.length ≤ pc + 1 :=
        Nat.not_le.2 hlen
      have hnext : ¬IsLddwSlot ((prepared x extFuncNames lddwHelpers).insn (pc + 1)) := hslot
      rw [IsLddwSlot, Classical.not_and_iff_not_or_not, Classical.not_and_iff_not_or_not,
        Classical.not_and_iff_not_or_not] at hnext
      simp only [emitLddw, if_neg hsz, if_neg hlt]
      rw [if_pos hnext]
      exact fails_fail _
  · have hsz : ¬(inst.code &&& 0x18 ≠ 0x18 ∨ inst.code &&& 0xe0 ≠ 0x00) := by
      rw [hcode]
      decide
    have hle : (prepared x extFuncNames lddwHelpers).insns.length ≤ pc + 1 := Nat.not_lt.1 hlen
    simp only [emitLddw, if_neg hsz, if_pos hle]
    exact fails_fail _

/-! ## Instructions -/

/-- The index after the instruction `inst` at `pc`. -/
def nextPc (pc : ℕ) (inst : EbpfInst) : ℕ :=
  if inst.code = EBPF_OP_LDDW then pc + 2 else pc + 1

/-- The code of a legal instruction. -/
theorem endsWith_emitCase {c : SwitchCase} (hc : switchCase inst.code = some c)
    (hl : CaseLegal x extFuncNames lddwHelpers patch pc inst c) (hq : ¬Quiet inst) :
    EndsWith (IsLast (branches pc inst c))
      (emitCase x (prepared x extFuncNames lddwHelpers) patch pc inst c) := by
  cases c with
  | add => exact endsWith_emitALUWithDstAndSrc (straight_createBinOp _)
  | sub => exact endsWith_emitALUWithDstAndSrc (straight_createBinOp _)
  | mul => exact endsWith_emitALUWithDstAndSrc (straight_createBinOp _)
  | div => exact endsWith_emitALUWithDstAndSrc straight_emitDiv
  | or => exact endsWith_emitALUWithDstAndSrc (straight_createBinOp _)
  | and => exact endsWith_emitALUWithDstAndSrc (straight_createBinOp _)
  | lsh => exact endsWith_emitALUWithDstAndSrc (straight_emitShift _)
  | rsh => exact endsWith_emitALUWithDstAndSrc (straight_emitShift _)
  | neg =>
    exact (straight_emitLoadALUDest false).bind_endsWith fun _ =>
      (straight_createBinOp _ _ _).bind_endsWith fun _ => endsWith_emitStoreALUResult _
  | mod => exact endsWith_emitALUWithDstAndSrc straight_emitMod
  | xor => exact endsWith_emitALUWithDstAndSrc (straight_createBinOp _)
  | mov =>
    exact (straight_emitLoadALUSource _).bind_endsWith fun _ => endsWith_emitStoreALUResult _
  | arsh => exact endsWith_emitALUWithDstAndSrc (straight_emitShift _)
  | endian =>
    exact (straight_emitLoadALUDest true).bind_endsWith fun _ =>
      (straight_emitALUEndianConversion _ hl).bind_endsWith fun _ =>
        endsWith_emitStoreALUResult _
  | store w => exact endsWith_emitStore w
  | loadX w => exact endsWith_emitLoadX w
  | lddw =>
    have hcode := code_of_lddw hc
    obtain ⟨hlen, hslot, hh⟩ := hl
    rw [emitCase, emitLddw_of_slot hcode hlen hslot]
    exact endsWith_emitLddwHelper (fun _ => rfl) (fun h => hq ⟨hcode, h⟩) hh
  | ja =>
    have e : loadJmpDstBlock pc inst (prepared x extFuncNames lddwHelpers).instBlocks =
        .ok (.inst (jmpDst pc inst)) := loadBlock_ok hl
    rw [emitCase, e, ofExcept_ok_bind]
    exact endsWith_emitVoid ⟨rfl, rfl⟩
  | call =>
    rw [CaseLegal] at hl
    rw [emitCase, branches]
    by_cases hs : inst.src_reg = 1
    · rw [if_pos hs] at hl
      rw [if_pos hs, if_pos hs]
      exact endsWith_emitLocalCall hl.1.1 hl.1.2 hl.2
    · rw [if_neg hs] at hl
      rw [if_neg hs, if_neg hs]
      exact endsWith_emitExtFuncCall hl
  | exit =>
    exact (straight_emit fun _ => rfl).bind_endsWith fun _ =>
      (straight_emit fun _ => rfl).bind_endsWith fun _ => endsWith_emitVoid ⟨rfl, rfl⟩
  | jcond p =>
    rw [emitCase, emitCondJmpWithDstAndSrc, localJmpDstAndNextBlk_ok hl.1 hl.2,
      ofExcept_ok_bind]
    exact straight_emitJmpLoadSrcAndDstAndZero.bind_endsWith fun _ =>
      (straight_emit fun _ => rfl).bind_endsWith fun _ => endsWith_emitVoid ⟨rfl, rfl⟩
  | jset =>
    rw [emitCase, localJmpDstAndNextBlk_ok hl.1 hl.2, ofExcept_ok_bind]
    exact straight_emitJmpLoadSrcAndDstAndZero.bind_endsWith fun _ =>
      (straight_createBinOp _ _ _).bind_endsWith fun _ =>
      (straight_emit fun _ => rfl).bind_endsWith fun _ => endsWith_emitVoid ⟨rfl, rfl⟩
  | atomic => exact endsWith_emitAtomic hl

/-- On an instruction that is not legal, the emission of its case fails. -/
theorem fails_emitCase {c : SwitchCase} (hc : switchCase inst.code = some c)
    (hl : ¬CaseLegal x extFuncNames lddwHelpers patch pc inst c) :
    Fails (emitCase x (prepared x extFuncNames lddwHelpers) patch pc inst c) := by
  cases c with
  | endian =>
    refine (straight_emitLoadALUDest true).bind_fails fun _ => Fails.bind ?_
    rw [CaseLegal, Classical.not_imp] at hl
    have himm : inst.imm ≠ 16 ∧ inst.imm ≠ 32 ∧ inst.imm ≠ 64 := by tauto
    unfold emitALUEndianConversion
    rw [if_pos hl.1, if_pos himm]
    exact fails_fail _
  | lddw => exact fails_emitLddw (code_of_lddw hc) hl
  | ja =>
    have e : ∃ e, loadJmpDstBlock pc inst (prepared x extFuncNames lddwHelpers).instBlocks =
        .error e := loadBlock_error hl
    exact (fails_ofExcept e).bind
  | call =>
    rw [CaseLegal] at hl
    rw [emitCase]
    by_cases hs : inst.src_reg = 1
    · rw [if_pos hs] at hl ⊢
      exact fails_emitLocalCall hl
    · rw [if_neg hs] at hl ⊢
      have hl' : extFuncSym inst.imm ∉ (prepared x extFuncNames lddwHelpers).extFunc := hl
      simp only [emitExtFuncCall, if_neg hl']
      exact fails_fail _
  | jcond p => exact (fails_ofExcept (localJmpDstAndNextBlk_error hl)).bind
  | jset => exact (fails_ofExcept (localJmpDstAndNextBlk_error hl)).bind
  | atomic => exact fails_emitAtomic hl
  | _ => exact absurd trivial hl

/-- An instruction that is not legal is not emitted. -/
theorem emitInst_fails
    (h : ¬∃ c, switchCase inst.code = some c ∧
      CaseLegal x extFuncNames lddwHelpers patch pc inst c) :
    Fails (emitInst x (prepared x extFuncNames lddwHelpers) patch pc inst) := by
  cases hc : switchCase inst.code with
  | none =>
    rw [emitInst, hc]
    exact fails_fail _
  | some c =>
    have hf := fails_emitCase hc fun hl => h ⟨c, hc, hl⟩
    cases c <;> rw [emitInst, hc] <;> exact hf.bind

/-- The code of an instruction: it is empty if the instruction is quiet, and its
    last instruction is the only one that may be a terminator. -/
structure CodeShape (pc : ℕ) (inst : EbpfInst) (code : List (Instr Lbl Slot)) : Prop where
  nil_of_quiet : Quiet inst → code = []
  of_not_quiet : ¬Quiet inst → ∃ c body t, switchCase inst.code = some c ∧ code = body ++ [t] ∧
    NoTerminator body ∧ IsLast (branches pc inst c) t

/-- The emission of a legal instruction succeeds. -/
theorem emitInst_ok
    (h : ∃ c, switchCase inst.code = some c ∧
      CaseLegal x extFuncNames lddwHelpers patch pc inst c) (n : ℕ) :
    ∃ n' code, emitInst x (prepared x extFuncNames lddwHelpers) patch pc inst n =
      .ok (nextPc pc inst - 1, n', code) ∧ CodeShape pc inst code := by
  obtain ⟨c, hc, hl⟩ := h
  by_cases hq : Quiet inst
  · obtain rfl : c = .lddw := by
      rw [hq.1, switchCase_lddw] at hc
      exact (Option.some.inj hc).symm
    obtain ⟨hlen, hslot, _⟩ := hl
    refine ⟨n, [], ?_, fun _ => rfl, fun h => absurd hq h⟩
    rw [emitInst, hc]
    simp only [emitLddw_of_slot hq.1 hlen hslot, emitLddwHelper_quiet hq.2, nextPc, if_pos hq.1]
    rfl
  · obtain ⟨_, n', body, t, he, hbody, ht⟩ := endsWith_emitCase hc hl hq n
    -- Only the case of an `lddw` changes `pc`.
    refine ⟨n', body ++ [t], ?_, fun h => absurd h hq, fun _ => ⟨c, body, t, hc, rfl, hbody, ht⟩⟩
    by_cases hcode : inst.code = EBPF_OP_LDDW
    · obtain rfl : c = .lddw := by
        rw [hcode, switchCase_lddw] at hc
        exact (Option.some.inj hc).symm
      rw [emitInst, hc, nextPc, if_pos hcode]
      simp only
      rw [emitCase] at he
      rw [bind_of_ok he]
      simp
    · have hne : c ≠ .lddw := fun h => hcode (code_of_lddw (h ▸ hc))
      have e : emitInst x (prepared x extFuncNames lddwHelpers) patch pc inst = (do
          emitCase x (prepared x extFuncNames lddwHelpers) patch pc inst c
          pure pc) := by
        cases c <;> first | exact absurd rfl hne | rw [emitInst, hc]
      rw [e, bind_of_ok he, nextPc, if_neg hcode]
      simp

end EbpfJit
