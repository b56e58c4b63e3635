import EbpfJit.Accept
import EbpfJit.Lib.IrSsa

/-!
# Emitted functions are in SSA form

Whatever is compiled, every name of `bpf_main` is given to one result, every operand
refers to an earlier result of its block, a slot of the setup block, an argument or a
block, every call is one of a declared function, and no branch goes to the setup block.

* `scoped_emitInst`: what the code of an instruction refers to is in scope;
* `EmitState.Ssa`: the invariant of the emission loop;
* `accepts_iff`: so the compiler accepts the programs of fewer than `65536` instructions, all
  legal, the last one leaving its block;
* `emitsSsa`: the shape of the blocks is all that the verifier is left to reject, and runs do
  not depend on the results they start with.
-/

namespace EbpfJit

open Ir Ir.Builder

/-- The slots of `bpf_main`. -/
def mainSlots : List Slot := (List.range 11).map .reg ++ [.callStack, .callItemCnt]

/-- What is in scope in the blocks of `bpf_main`, but for the setup block. -/
def Program.scope (p : Program) : Set (Ref Lbl Slot) :=
  p.sig.scope (p.allBlocks ++ [.exitBlock, .localRetBlock]) .setupBlock ∪ slotScope mainSlots

variable {x : CompilerXDP} {extFuncNames lddwHelpers : List String} {patch : Bool}

theorem slot_mem_scope {p : Program} {s : Slot} (hs : s ∈ mainSlots) : Ref.slot s ∈ p.scope :=
  .inr ⟨s, hs, rfl⟩

theorem extFunc_mem_scope {p : Program} {f : String} (hf : f ∈ p.extFunc) :
    Ref.func f 5 ∈ p.scope :=
  .inl (List.mem_append_left _ (List.mem_map_of_mem hf))

theorem lddwHelper_mem_scope {p : Program} (h : LDDW_HELPER_MAP_VAL ∈ p.lddwHelper) :
    Ref.func LDDW_HELPER_MAP_VAL 1 ∈ p.scope :=
  .inl (List.mem_append_right _ (List.mem_map_of_mem (List.mem_filter.2 ⟨h, by simp⟩)))

theorem fixed_mem_scope {p : Program} :
    Ref.block .exitBlock ∈ p.scope ∧ Ref.block .localRetBlock ∈ p.scope :=
  ⟨.inl ⟨by simp, by simp⟩, .inl ⟨by simp, by simp⟩⟩

theorem inst_mem_scope {t : ℕ} (ht : Begins x.insts t) :
    Ref.block (.inst t) ∈ (prepared x extFuncNames lddwHelpers).scope := by
  refine .inl ⟨?_, by simp⟩
  simp [prepared, mem_beginList.2 ht]

/-! ## The emitters -/

section

variable {p : Program} {Γ : Set (Ref Lbl Slot)} {inst : EbpfInst} {w : ℕ}

theorem in_regs {r : BitVec 4} (hΓ : p.scope ⊆ Γ) (hr : r ≤ 10) : (regs r).In Γ := by
  refine Operand.in_of_ref rfl (hΓ (slot_mem_scope (List.mem_append_left _ ?_)))
  have hlt : r.toNat < 11 := Nat.lt_succ_of_le (BitVec.le_def.1 hr)
  exact List.mem_map_of_mem (List.mem_range.2 hlt)

theorem in_callItemCnt (hΓ : p.scope ⊆ Γ) :
    (.slot .callItemCnt : Value .ptr).In Γ :=
  Operand.in_of_ref rfl (hΓ (slot_mem_scope (by decide)))

theorem in_callStack (hΓ : p.scope ⊆ Γ) : (.slot .callStack : Value .ptr).In Γ :=
  Operand.in_of_ref rfl (hΓ (slot_mem_scope (by decide)))

theorem scoped_emitDiv {a b : Value (.int w)} (ha : a.In Γ) (hb : b.In Γ) :
    ScopedOp Γ (emitDiv a b) :=
  (scopedOp_icmp _ hb (Operand.in_const _)).bind fun _ _ h₁ hz =>
    (scopedOp_binop _ (ha.mono h₁) (hb.mono h₁)).bind fun _ _ h₂ hq =>
      scopedOp_select (hz.mono h₂) (Operand.in_const _) hq

theorem scoped_emitMod {a b : Value (.int w)} (ha : a.In Γ) (hb : b.In Γ) :
    ScopedOp Γ (emitMod a b) :=
  (scopedOp_icmp _ hb (Operand.in_const _)).bind fun _ _ h₁ hz =>
    (scopedOp_binop _ (ha.mono h₁) (hb.mono h₁)).bind fun _ _ h₂ hq =>
      scopedOp_select (hz.mono h₂) ((ha.mono h₁).mono h₂) hq

theorem scoped_emitShift (op : BinOp) {a b : Value (.int w)} (ha : a.In Γ) (hb : b.In Γ) :
    ScopedOp Γ (do
      let count ← emitShiftCount inst b
      createBinOp op a count : Emit (Value (.int w))) :=
  (scopedOp_binop _ hb (Operand.in_const _)).bind fun _ _ h₁ hc =>
    scopedOp_binop _ (ha.mono h₁) hc

theorem scoped_emitSplitBytes {v : Value (.int 64)} (hv : v.In Γ) (l : List ℕ) :
    Scoped Γ (emitSplitBytes v l) fun Γ' bytes => ∀ b ∈ bytes, b.In Γ' := by
  induction l generalizing Γ with
  | nil => exact scoped_pure fun _ hb => by cases hb
  | cons i l ih =>
    refine (scopedOp_binop _ hv (Operand.in_const _)).bind fun _ _ h₁ hs =>
      (scopedOp_binop _ hs (Operand.in_const _)).bind fun _ _ h₂ hb =>
      (ih ((hv.mono h₁).mono h₂)).bind fun _ _ h₃ hbs => scoped_pure ?_
    intro b hmem
    rcases List.mem_cons.1 hmem with rfl | hmem
    · exact hb.mono h₃
    · exact hbs b hmem

theorem scoped_emitMergeBytes {last : Value (.int 64)} {bytes : List (Value (.int 64))}
    (hl : last.In Γ) (hb : ∀ b ∈ bytes, b.In Γ) : ScopedOp Γ (emitMergeBytes last bytes) := by
  induction bytes generalizing Γ last with
  | nil => exact scoped_pure hl
  | cons b bytes ih =>
    exact (scopedOp_binop _ hl (Operand.in_const _)).bind fun _ _ h₁ hs =>
      (scopedOp_binop _ hs ((hb b List.mem_cons_self).mono h₁)).bind fun _ _ h₂ hm =>
        ih hm fun b' hb' => ((hb b' (List.mem_cons_of_mem _ hb')).mono h₁).mono h₂

theorem scoped_emitALUEndianConversion {v : Value (.int 64)} (hv : v.In Γ) :
    ScopedOp Γ (emitALUEndianConversion inst v) := by
  refine Scoped.ite (fun _ => Scoped.ite (fun _ => scoped_fail) fun _ => ?_)
    fun _ => scoped_pure hv
  refine (scoped_emitSplitBytes hv _).bind fun Γ₁ bytes _ hbytes => ?_
  cases bytes with
  | nil => exact scoped_fail
  | cons b bytes =>
    exact scoped_emitMergeBytes (hbytes b List.mem_cons_self) fun b' hb' =>
      hbytes b' (List.mem_cons_of_mem _ hb')

variable (hΓ : p.scope ⊆ Γ)
include hΓ

theorem scoped_emitCallStackItem {pos : Value (.int 64)} (hpos : pos.In Γ) (i : ℕ) :
    ScopedOp Γ (emitCallStackItem pos i) :=
  (scopedOp_binop _ hpos (Operand.in_const _)).bind fun _ _ h₁ hi =>
    scopedOp_gep (in_callStack (hΓ.trans h₁)) hi

section

variable (hs : inst.src_reg ≤ 10)
include hs

theorem scoped_emitLoadALUSource (is64 : Bool) : ScopedOp Γ (emitLoadALUSource inst is64) := by
  cases is64 with
  | true =>
    exact Scoped.ite (fun _ => scoped_pure (Operand.in_const _))
      fun _ => scopedOp_load _ (in_regs hΓ hs)
  | false =>
    exact Scoped.ite (fun _ => scoped_pure (Operand.in_const _)) fun _ =>
      (scopedOp_load _ (in_regs hΓ hs)).bind fun _ _ _ hv => scopedOp_trunc (by decide) hv

theorem scoped_emitStoreLoadingSrc : ScopedOp Γ (emitStoreLoadingSrc inst) :=
  Scoped.ite (fun _ => scopedOp_load _ (in_regs hΓ hs))
    fun _ => scoped_pure (Operand.in_const _)

theorem scoped_emitLDXLoadingAddr : ScopedOp Γ (emitLDXLoadingAddr inst) :=
  (scopedOp_load _ (in_regs hΓ hs)).bind fun _ _ _ hb => scopedOp_gep hb (Operand.in_const _)

end

variable (hd : inst.dst_reg ≤ 10)
include hd

theorem scoped_emitLoadALUDest (b : Bool) : ScopedOp Γ (emitLoadALUDest inst b) :=
  scopedOp_load _ (in_regs hΓ hd)

theorem scoped_emitStoreALUResult {v : Value (.int w)} (hw : w ≤ 64) (hv : v.In Γ) :
    ScopedVoid Γ (emitStoreALUResult inst v) :=
  Scoped.ite (fun _ => scopedVoid_store hv (in_regs hΓ hd)) fun _ =>
    (scopedOp_zext hw hv).bind fun _ _ h₁ hz => scopedVoid_store hz (in_regs (hΓ.trans h₁) hd)

theorem scoped_emitStoreWritingResult {v : Value (.int w)} (hv : v.In Γ) :
    ScopedVoid Γ (emitStoreWritingResult inst v) :=
  (scopedOp_load _ (in_regs hΓ hd)).bind fun _ _ h₁ hb =>
    (scopedOp_gep hb (Operand.in_const _)).bind fun _ _ h₂ ha =>
      scopedVoid_store ((hv.mono h₁).mono h₂) ha

theorem scoped_emitLDXStoringResult {v : Value (.int w)} (hw : w ≤ 64) (hv : v.In Γ) :
    ScopedVoid Γ (emitLDXStoringResult inst v) :=
  (scopedOp_zext hw hv).bind fun _ _ h₁ hz => scopedVoid_store hz (in_regs (hΓ.trans h₁) hd)

variable (hs : inst.src_reg ≤ 10)
include hs

theorem scoped_emitALUWithDstAndSrc
    {func : {w : ℕ} → Value (.int w) → Value (.int w) → Emit (Value (.int w))}
    (hf : ∀ {w : ℕ} {Γ' : Set (Ref Lbl Slot)} {a b : Value (.int w)}, a.In Γ' → b.In Γ' →
      ScopedOp Γ' (func a b)) : ScopedVoid Γ (emitALUWithDstAndSrc inst func) := by
  have hw : aluWidth (isAlu64 inst) ≤ 64 := by cases isAlu64 inst <;> decide
  exact (scoped_emitLoadALUDest hΓ hd false).bind fun _ _ h₁ ha =>
    (scoped_emitLoadALUSource (hΓ.trans h₁) hs _).bind fun _ _ h₂ hb =>
      (hf (ha.mono h₂) hb).bind fun _ _ h₃ hv =>
        scoped_emitStoreALUResult (((hΓ.trans h₁).trans h₂).trans h₃) hd hw hv

theorem scoped_emitStore (hw : w ≤ 64) : ScopedVoid Γ (emitStore inst w) :=
  (scoped_emitStoreLoadingSrc hΓ hs).bind fun _ _ h₁ hv =>
    (scopedOp_trunc hw hv).bind fun _ _ h₂ hr =>
      scoped_emitStoreWritingResult ((hΓ.trans h₁).trans h₂) hd hr

theorem scoped_emitLoadX (hw : w ≤ 64) : ScopedVoid Γ (emitLoadX inst w) :=
  (scoped_emitLDXLoadingAddr hΓ hs).bind fun _ _ h₁ ha =>
    (scopedOp_load _ ha).bind fun _ _ h₂ hv =>
      scoped_emitLDXStoringResult ((hΓ.trans h₁).trans h₂) hd hw hv

theorem scoped_emitJmpLoadSrcAndDstAndZero :
    Scoped Γ (emitJmpLoadSrcAndDstAndZero inst) fun Γ' v =>
      v.1.In Γ' ∧ v.2.1.In Γ' ∧ v.2.2.In Γ' := by
  have hrest {Γ' : Set (Ref Lbl Slot)} {src : Value (.int (jmpWidth inst))} (h : Γ ⊆ Γ')
      (hsrc : src.In Γ') : Scoped Γ'
        ((createLoad (.int (jmpWidth inst)) (regs inst.dst_reg) : Emit _) >>= fun dst =>
          pure (src, dst, (.const 0 : Value (.int (jmpWidth inst)))))
        fun Γ' v => v.1.In Γ' ∧ v.2.1.In Γ' ∧ v.2.2.In Γ' :=
    (scopedOp_load _ (in_regs (hΓ.trans h) hd)).bind fun _ _ h₂ hdst =>
      scoped_pure ⟨hsrc.mono h₂, hdst, Operand.in_const _⟩
  exact Scoped.ite (fun _ => (scopedOp_load _ (in_regs hΓ hs)).bind fun _ _ => hrest)
    fun _ => (scoped_pure (Q := Operand.In) (Operand.in_const _)).bind fun _ _ => hrest

theorem scoped_emitAtomicBinOp (op : RmwOp) (is64 is_fetch : Bool) :
    ScopedVoid Γ (emitAtomicBinOp op inst is64 is_fetch) := by
  refine (scopedOp_load _ (in_regs hΓ hd)).bind fun _ _ h₁ hb =>
    (scopedOp_gep hb (Operand.in_const _)).bind fun _ _ h₂ ha =>
    (scopedOp_load _ (in_regs ((hΓ.trans h₁).trans h₂) hs)).bind fun Γ₃ _ h₃ hv => ?_
  have hΓ₃ : p.scope ⊆ Γ₃ := ((hΓ.trans h₁).trans h₂).trans h₃
  refine Scoped.ite (fun _ => ?_) fun _ => ?_
  · refine (scopedOp_atomicRMW (by decide) (ha.mono h₃) hv).bind fun _ _ h₄ ho => ?_
    exact Scoped.ite (fun _ => scopedVoid_store ho (in_regs (hΓ₃.trans h₄) hs))
      fun _ => scoped_pure trivial
  · refine (scopedOp_trunc (by decide) hv).bind fun _ _ h₄ ht =>
      (scopedOp_atomicRMW (by decide) ((ha.mono h₃).mono h₄) ht).bind fun _ _ h₅ ho => ?_
    exact Scoped.ite (fun _ => scopedVoid_store ho (in_regs ((hΓ₃.trans h₄).trans h₅) hs))
      fun _ => scoped_pure trivial

theorem scoped_emitCmpXchg : ScopedVoid Γ (emitCmpXchg inst) := by
  have hw : (if inst.code = EBPF_ATOMIC_OPCODE_64 then 64 else 32) ∈ atomicWidths ∧
      (if inst.code = EBPF_ATOMIC_OPCODE_64 then 64 else 32) ≤ 64 := by
    split <;> decide
  exact (scopedOp_load _ (in_regs hΓ hd)).bind fun _ _ h₁ hb =>
    (scopedOp_gep hb (Operand.in_const _)).bind fun _ _ h₂ ha =>
    (scopedOp_load _ ha).bind fun _ _ h₃ hv =>
    (scopedOp_load _ (in_regs (((hΓ.trans h₁).trans h₂).trans h₃) (by decide))).bind
      fun _ _ h₄ hr =>
    (scopedOp_load _ (in_regs ((((hΓ.trans h₁).trans h₂).trans h₃).trans h₄) hs)).bind
      fun _ _ h₅ hsrc =>
    (scopedVoid_cmpXchg hw.1 (((ha.mono h₃).mono h₄).mono h₅) (hr.mono h₅) hsrc).bind
      fun _ _ h₆ _ =>
    (scopedOp_zext hw.2 (((hv.mono h₄).mono h₅).mono h₆)).bind fun _ _ h₇ hz =>
      scopedVoid_store hz (in_regs
        ((((((hΓ.trans h₁).trans h₂).trans h₃).trans h₄).trans h₅).trans h₆ |>.trans h₇)
        (by decide))

theorem scoped_emitAtomic : ScopedVoid Γ (emitAtomic inst) := by
  have hop (op : RmwOp) (is64 is_fetch : Bool) := scoped_emitAtomicBinOp hΓ hd hs op is64 is_fetch
  exact Scoped.ite (fun _ => hop _ _ _) fun _ => Scoped.ite (fun _ => hop _ _ _) fun _ =>
    Scoped.ite (fun _ => hop _ _ _) fun _ => Scoped.ite (fun _ => hop _ _ _) fun _ =>
    Scoped.ite (fun _ => hop _ _ _) fun _ =>
    Scoped.ite (fun _ => scoped_emitCmpXchg hΓ hd hs) fun _ => scoped_fail

omit hd hs in
theorem scoped_emitExtFuncCall : ScopedVoid Γ (emitExtFuncCall inst p.extFunc .exitBlock) := by
  refine Scoped.ite (fun hf => ?_) fun _ => scoped_fail
  have hreg (Γ' : Set (Ref Lbl Slot)) (h : Γ ⊆ Γ') (r : BitVec 4) (hr : r ≤ 10) :
      ScopedOp Γ' (createLoad (.int 64) (regs r) : Emit _) :=
    scopedOp_load _ (in_regs (hΓ.trans h) hr)
  refine (hreg Γ subset_rfl 1 (by decide)).bind fun Γ₁ _ h₁ hr₁ =>
    (hreg Γ₁ h₁ 2 (by decide)).bind fun Γ₂ _ h₂ hr₂ =>
    (hreg Γ₂ (h₁.trans h₂) 3 (by decide)).bind fun Γ₃ _ h₃ hr₃ =>
    (hreg Γ₃ ((h₁.trans h₂).trans h₃) 4 (by decide)).bind fun Γ₄ _ h₄ hr₄ =>
    (hreg Γ₄ (((h₁.trans h₂).trans h₃).trans h₄) 5 (by decide)).bind fun Γ₅ _ h₅ hr₅ => ?_
  have hΓ₅ : p.scope ⊆ Γ₅ := ((((hΓ.trans h₁).trans h₂).trans h₃).trans h₄).trans h₅
  refine (scopedOp_call (hΓ₅ (extFunc_mem_scope hf)) ?_).bind fun Γ₆ _ h₆ hc =>
    (scopedVoid_store hc (in_regs (hΓ₅.trans h₆) (by decide))).bind fun Γ₇ _ h₇ _ =>
    Scoped.ite (fun _ => scopedVoid_br (((hΓ₅.trans h₆).trans h₇) fixed_mem_scope.1))
      fun _ => scoped_pure trivial
  simp only [List.mem_cons, List.not_mem_nil, or_false, forall_eq_or_imp, forall_eq]
  exact ⟨(((hr₁.mono h₂).mono h₃).mono h₄).mono h₅, ((hr₂.mono h₃).mono h₄).mono h₅,
    (hr₃.mono h₄).mono h₅, hr₄.mono h₅, hr₅⟩

omit hs in
theorem scoped_emitLddwMapVal {nextInst : EbpfInst} {mapPtr : BitVec 64} {missing : String} :
    ScopedVoid Γ (emitLddwMapVal x p patch inst nextInst mapPtr missing) := by
  refine Scoped.ite (fun _ => ?_) fun _ => Scoped.ite (fun hf => ?_) fun _ => scoped_fail
  · cases x.map_val with
    | some map_val => exact scopedVoid_store (Operand.in_const _) (in_regs hΓ hd)
    | none => exact scoped_fail
  · refine (scopedOp_call (hΓ (lddwHelper_mem_scope hf)) ?_).bind fun _ _ h₁ hc =>
      (scopedOp_binop _ hc (Operand.in_const _)).bind fun _ _ h₂ hv =>
      scopedVoid_store hv (in_regs ((hΓ.trans h₁).trans h₂) hd)
    intro a ha
    rw [List.mem_singleton.1 ha]
    exact Operand.in_const _

omit hs in
theorem scoped_emitLddw {pc : ℕ} : ScopedVoid Γ (emitLddw x p patch pc inst) := by
  have hstore (v : BitVec 64) :
      ScopedVoid Γ (createStore (getInt64 v) (regs inst.dst_reg) : Emit Unit) :=
    scopedVoid_store (Operand.in_const _) (in_regs hΓ hd)
  refine Scoped.ite (fun _ => scoped_fail) fun _ => Scoped.ite (fun _ => scoped_fail) fun _ =>
    Scoped.ite (fun _ => scoped_fail) fun _ => ?_
  unfold emitLddwHelper
  refine Scoped.ite (fun _ => hstore _) fun _ => Scoped.ite (fun _ => hstore _) fun _ =>
    Scoped.ite (fun _ => scoped_emitLddwMapVal hΓ hd) fun _ =>
    Scoped.ite (fun _ => ?_) fun _ => Scoped.ite (fun _ => ?_) fun _ =>
    Scoped.ite (fun _ => hstore _) fun _ =>
    Scoped.ite (fun _ => scoped_emitLddwMapVal hΓ hd) fun _ => scoped_pure trivial
  · cases x.var_addr with
    | some var_addr => exact hstore _
    | none => exact scoped_fail
  · cases x.code_addr with
    | some code_addr => exact hstore _
    | none => exact scoped_fail

end

/-! ## Instructions -/

/-- The memory is accessed at a register's width at most. -/
theorem width_le {code : BitVec 8} {sc : SwitchCase} {w : ℕ} (h : switchCase code = some sc)
    (hw : sc = .store w ∨ sc = .loadX w) : w ≤ 64 := by
  have hall := of_switchCase (P := fun sc _ => match sc with
    | .store w | .loadX w => decide (w ≤ 64)
    | _ => true) (by decide) h
  rcases hw with rfl | rfl <;> exact of_decide_eq_true hall

section

variable {Γ : Set (Ref Lbl Slot)} {inst : EbpfInst} {pc : ℕ}

theorem loadBlock_mem_scope {t : ℕ} {l : Lbl}
    (h : loadBlock pc t (prepared x extFuncNames lddwHelpers).instBlocks = .ok l) :
    Ref.block l ∈ (prepared x extFuncNames lddwHelpers).scope := by
  by_cases ht : Begins x.insts t
  · rw [loadBlock_ok ht] at h
    cases h
    exact inst_mem_scope ht
  · obtain ⟨e, he⟩ : ∃ e, loadBlock pc t (prepared x extFuncNames lddwHelpers).instBlocks =
      .error e := loadBlock_error ht
    rw [he] at h
    cases h

theorem jmpBlocks_mem_scope {blks : Lbl × Lbl}
    (h : localJmpDstAndNextBlk pc inst (prepared x extFuncNames lddwHelpers).instBlocks =
      .ok blks) : Ref.block blks.1 ∈ (prepared x extFuncNames lddwHelpers).scope ∧
        Ref.block blks.2 ∈ (prepared x extFuncNames lddwHelpers).scope := by
  by_cases hb : Begins x.insts (jmpDst pc inst) ∧ Begins x.insts (toUInt16 (pc + 1))
  · rw [localJmpDstAndNextBlk_ok hb.1 hb.2] at h
    cases h
    exact ⟨inst_mem_scope hb.1, inst_mem_scope hb.2⟩
  · obtain ⟨e, he⟩ : ∃ e, localJmpDstAndNextBlk pc inst
      (prepared x extFuncNames lddwHelpers).instBlocks = .error e := localJmpDstAndNextBlk_error hb
    rw [he] at h
    cases h

theorem retBlk_mem_scope {t : ℕ} {l : Lbl}
    (h : (prepared x extFuncNames lddwHelpers).localFuncRetBlks.lookup t = some l) :
    Ref.block l ∈ (prepared x extFuncNames lddwHelpers).scope := by
  rw [lookup_localFuncRetBlks] at h
  split at h
  · next ht =>
    cases h
    exact inst_mem_scope ht.1
  · cases h

variable (hΓ : (prepared x extFuncNames lddwHelpers).scope ⊆ Γ)
include hΓ

theorem scoped_emitLocalCall :
    ScopedVoid Γ (emitLocalCall (prepared x extFuncNames lddwHelpers) pc inst) := by
  have hrest {Γ' : Set (Ref Lbl Slot)} {nextPos : Value (.int 64)} {retBlk : Lbl}
      (h : Γ ⊆ Γ') (hpos : nextPos.In Γ') (hblk : Ref.block retBlk ∈ Γ') : ScopedVoid Γ' (do
        let addr ← emitCallStackItem nextPos 1
        createStore (.blockAddress retBlk) addr
        [6, 7, 8, 9].forM fun i => do
          let v ← createLoad (.int 64) (.slot (.reg i))
          let item ← emitCallStackItem nextPos (i - 4)
          createStore v item
        let r10 ← createLoad (.int 64) (regs 10)
        let r10' ← createBinOp .sub r10 (getInt64 (BitVec.ofNat 64 STACK_SIZE))
        createStore r10' (regs 10)
        let dstBlk ← ofExcept
          (loadCallDstBlock pc inst (prepared x extFuncNames lddwHelpers).instBlocks)
        createBr dstBlk : Emit Unit) := by
    refine (scoped_emitCallStackItem (hΓ.trans h) hpos 1).bind fun Γ₁ _ h₁ ha =>
      (scopedVoid_store (Operand.in_of_ref rfl (h₁ hblk)) ha).bind fun Γ₂ _ h₂ _ =>
      (Scoped.forM fun Γ₃ h₃ i hi => ?_).bind fun Γ₃ _ h₃ _ => ?_
    · have hΓ₃ := ((((hΓ.trans h).trans h₁).trans h₂).trans h₃)
      have hreg : (.slot (.reg i) : Value .ptr).In Γ₃ := by
        refine Operand.in_of_ref rfl (hΓ₃ (slot_mem_scope ?_))
        simp only [List.mem_cons, List.not_mem_nil, or_false] at hi
        rcases hi with rfl | rfl | rfl | rfl <;> decide
      exact (scopedOp_load _ hreg).bind fun Γ₄ _ h₄ hv =>
        (scoped_emitCallStackItem (hΓ₃.trans h₄)
          (((((hpos.mono h₁).mono h₂).mono h₃)).mono h₄) _).bind fun Γ₅ _ h₅ hitem =>
        scopedVoid_store (hv.mono h₅) hitem
    · have hΓ₃ := ((((hΓ.trans h).trans h₁).trans h₂).trans h₃)
      exact (scopedOp_load _ (in_regs hΓ₃ (by decide))).bind fun Γ₄ _ h₄ hv =>
        (scopedOp_binop _ hv (Operand.in_const _)).bind fun Γ₅ _ h₅ hv' =>
        (scopedVoid_store hv' (in_regs ((hΓ₃.trans h₄).trans h₅) (by decide))).bind
          fun Γ₆ _ h₆ _ =>
        (scoped_ofExcept (Q := fun Γ' l => Ref.block l ∈ Γ') fun l hl =>
          (((hΓ₃.trans h₄).trans h₅).trans h₆) (loadBlock_mem_scope hl)).bind
          fun Γ₇ _ _ hl => scopedVoid_br hl
  refine (scopedOp_load _ (in_callItemCnt hΓ)).bind fun Γ₁ _ h₁ hc =>
    (scopedOp_binop _ hc (Operand.in_const _)).bind fun Γ₂ nextPos h₂ hpos =>
    (scopedVoid_store hpos (in_callItemCnt ((hΓ.trans h₁).trans h₂))).bind fun Γ₃ _ h₃ _ => ?_
  have h := (h₁.trans h₂).trans h₃
  cases hblk : (prepared x extFuncNames lddwHelpers).localFuncRetBlks.lookup
      (toUInt16 (pc + 1)) with
  | none => exact Scoped.bind (Q := fun _ _ => False) scoped_fail fun _ _ _ hf => hf.elim
  | some blk =>
    exact (scoped_pure (Q := fun Γ' l => Ref.block l ∈ Γ')
      ((hΓ.trans h) (retBlk_mem_scope hblk))).bind fun Γ₄ _ h₄ hl =>
        hrest (h.trans h₄) ((hpos.mono h₃).mono h₄) hl

variable (hd : inst.dst_reg ≤ 10) (hs : inst.src_reg ≤ 10)
include hd hs

/-- The code of an instruction is in scope. -/
theorem scoped_emitCase {sc : SwitchCase} (hsc : switchCase inst.code = some sc) :
    ScopedVoid Γ (emitCase x (prepared x extFuncNames lddwHelpers) patch pc inst sc) := by
  cases sc with
  | add | sub | mul | or | and | xor =>
    exact scoped_emitALUWithDstAndSrc hΓ hd hs fun ha hb => scopedOp_binop _ ha hb
  | div => exact scoped_emitALUWithDstAndSrc hΓ hd hs scoped_emitDiv
  | mod => exact scoped_emitALUWithDstAndSrc hΓ hd hs scoped_emitMod
  | lsh | rsh | arsh => exact scoped_emitALUWithDstAndSrc hΓ hd hs (scoped_emitShift _)
  | neg =>
    have hw : aluWidth (false || isAlu64 inst) ≤ 64 := by cases isAlu64 inst <;> decide
    exact (scoped_emitLoadALUDest hΓ hd false).bind fun _ _ h₁ hv =>
      (scopedOp_binop _ (Operand.in_const _) hv).bind fun _ _ h₂ hr =>
        scoped_emitStoreALUResult ((hΓ.trans h₁).trans h₂) hd hw hr
  | mov =>
    have hw : aluWidth (isAlu64 inst) ≤ 64 := by cases isAlu64 inst <;> decide
    exact (scoped_emitLoadALUSource hΓ hs _).bind fun _ _ h₁ hv =>
      scoped_emitStoreALUResult (hΓ.trans h₁) hd hw hv
  | endian =>
    exact (scoped_emitLoadALUDest hΓ hd true).bind fun _ _ h₁ hv =>
      (scoped_emitALUEndianConversion hv).bind fun _ _ h₂ hr =>
        scoped_emitStoreALUResult ((hΓ.trans h₁).trans h₂) hd (le_refl 64) hr
  | store w =>
    exact scoped_emitStore hΓ hd hs (width_le hsc (.inl rfl))
  | loadX w =>
    exact scoped_emitLoadX hΓ hd hs (width_le hsc (.inr rfl))
  | lddw => exact scoped_emitLddw hΓ hd
  | ja =>
    exact (scoped_ofExcept (Q := fun Γ' l => Ref.block l ∈ Γ') fun l hl =>
      hΓ (loadBlock_mem_scope hl)).bind fun _ _ _ hl => scopedVoid_br hl
  | call =>
    exact Scoped.ite (fun _ => scoped_emitLocalCall hΓ) fun _ => scoped_emitExtFuncCall hΓ
  | exit =>
    exact (scopedOp_load _ (in_callItemCnt hΓ)).bind fun _ _ h₁ hc =>
      (scopedOp_icmp _ hc (Operand.in_const _)).bind fun _ _ h₂ hz =>
        scopedVoid_condBr hz (((hΓ.trans h₁).trans h₂) fixed_mem_scope.1)
          (((hΓ.trans h₁).trans h₂) fixed_mem_scope.2)
  | jcond q =>
    exact (scoped_ofExcept (Q := fun Γ' l => Ref.block l.1 ∈ Γ' ∧ Ref.block l.2 ∈ Γ') fun l hl =>
      ⟨hΓ (jmpBlocks_mem_scope hl).1, hΓ (jmpBlocks_mem_scope hl).2⟩).bind fun _ _ h₁ hl =>
      (scoped_emitJmpLoadSrcAndDstAndZero (hΓ.trans h₁) hd hs).bind fun _ _ h₂ hv =>
      (scopedOp_icmp _ hv.2.1 hv.1).bind fun _ _ h₃ hc =>
        scopedVoid_condBr hc (h₃ (h₂ hl.1)) (h₃ (h₂ hl.2))
  | jset =>
    exact (scoped_ofExcept (Q := fun Γ' l => Ref.block l.1 ∈ Γ' ∧ Ref.block l.2 ∈ Γ') fun l hl =>
      ⟨hΓ (jmpBlocks_mem_scope hl).1, hΓ (jmpBlocks_mem_scope hl).2⟩).bind fun _ _ h₁ hl =>
      (scoped_emitJmpLoadSrcAndDstAndZero (hΓ.trans h₁) hd hs).bind fun _ _ h₂ hv =>
      (scopedOp_binop _ hv.2.1 hv.1).bind fun _ _ h₃ hb =>
      (scopedOp_icmp _ hb (hv.2.2.mono h₃)).bind fun _ _ h₄ hc =>
        scopedVoid_condBr hc (h₄ (h₃ (h₂ hl.1))) (h₄ (h₃ (h₂ hl.2)))
  | atomic => exact scoped_emitAtomic hΓ hd hs

theorem scoped_emitInst :
    Scoped Γ (emitInst x (prepared x extFuncNames lddwHelpers) patch pc inst) fun _ _ => True := by
  cases hsc : switchCase inst.code with
  | none =>
    rw [emitInst, hsc]
    exact scoped_fail
  | some sc =>
    have hcase : ScopedVoid Γ
        (emitCase x (prepared x extFuncNames lddwHelpers) patch pc inst sc) :=
      scoped_emitCase hΓ hd hs hsc
    cases sc <;> rw [emitInst, hsc] <;> exact hcase.bind fun _ _ _ _ => scoped_pure trivial

end

/-! ## The blocks that are not for instructions -/

theorem scoped_emitExitBlock {p : Program} : ScopedVoid p.scope emitExitBlock :=
  (scopedOp_load _ (in_regs (p := p) subset_rfl (by decide))).bind fun _ _ _ hv =>
    scopedVoid_emitVoid hv rfl

theorem scoped_emitLocalRetBlock {p : Program} {dests : List Lbl}
    (hdests : ∀ l ∈ dests, Ref.block l ∈ p.scope) :
    ScopedVoid p.scope (emitLocalRetBlock dests) := by
  refine (scopedOp_load _ (in_callItemCnt subset_rfl)).bind fun Γ₁ _ h₁ hc =>
    (scoped_emitCallStackItem h₁ hc 1).bind fun Γ₂ _ h₂ ha =>
    (scopedOp_load _ ha).bind fun Γ₃ _ h₃ ht =>
    (Scoped.forM fun Γ₄ h₄ i hi => ?_).bind fun Γ₄ _ h₄ _ => ?_
  · have hΓ₄ := ((h₁.trans h₂).trans h₃).trans h₄
    have hreg : Ref.slot (.reg i) ∈ p.scope := by
      refine slot_mem_scope ?_
      simp only [List.mem_cons, List.not_mem_nil, or_false] at hi
      rcases hi with rfl | rfl | rfl | rfl <;> decide
    exact (scoped_emitCallStackItem hΓ₄ (((hc.mono h₂).mono h₃).mono h₄) _).bind
      fun Γ₅ _ h₅ hitem => (scopedOp_load _ hitem).bind fun Γ₆ _ h₆ hv =>
        scopedVoid_store hv (Operand.in_of_ref rfl (h₆ (h₅ (hΓ₄ hreg))))
  · have hΓ₄ := ((h₁.trans h₂).trans h₃).trans h₄
    exact (scopedOp_binop _ (((hc.mono h₂).mono h₃).mono h₄) (Operand.in_const _)).bind
      fun Γ₅ _ h₅ hc' =>
      (scopedVoid_store hc' (in_callItemCnt (hΓ₄.trans h₅))).bind fun Γ₆ _ h₆ _ =>
      (scopedOp_load _ (in_regs ((hΓ₄.trans h₅).trans h₆) (by decide))).bind fun Γ₇ _ h₇ hr =>
      (scopedOp_binop _ hr (Operand.in_const _)).bind fun Γ₈ _ h₈ hr' =>
      (scopedVoid_store hr' (in_regs ((((hΓ₄.trans h₅).trans h₆).trans h₇).trans h₈)
        (by decide))).bind fun Γ₉ _ h₉ _ =>
      have hΓ₉ := (((hΓ₄.trans h₅).trans h₆).trans h₇).trans h₈ |>.trans h₉
      scopedVoid_emitVoid ⟨((((((ht.mono h₄).mono h₅).mono h₆).mono h₇).mono h₈).mono h₉),
        fun l hl => hΓ₉ (hdests l hl)⟩ rfl

/-- The setup block allocates the slots, and refers to these and to the arguments. -/
theorem setup_spec {p : Program} {blocks : List Lbl} {n : ℕ} {code : List (Instr Lbl Slot)}
    (h : emitSetupBlock 0 = .ok ((), n, code)) :
    InScope (p.sig.scope blocks .setupBlock) code ∧ resultIds code = List.range' 0 (n - 0) ∧
      allocated code = mainSlots := by
  have hcode : emitSetupBlock 0 = .ok ((), 2, (List.range 11).map (fun i => .alloca (.reg i) 1) ++
      [.allocaMem 0 (STACK_SIZE * MAX_LOCAL_FUNC_DEPTH + 10),
        .gep 1 8 (.tmp 0) (getInt32 (BitVec.ofNat 32 (STACK_SIZE * MAX_LOCAL_FUNC_DEPTH))),
        .store (.tmp 1 : Value .ptr) (regs 10), .store (.argPtr 0 : Value .ptr) (regs 1),
        .store (.argInt 1 : Value (.int 64)) (regs 2), .alloca .callStack (CALL_STACK_SIZE * 5),
        .alloca .callItemCnt 1, .store (getInt64 0) (.slot .callItemCnt)]) := rfl
  rw [hcode] at h
  cases h
  refine ⟨inScope_append.2 ⟨?_, ?_⟩, by decide, by decide⟩
  · exact inScope_of_forall fun i hi => by
      obtain ⟨r, -, rfl⟩ := List.mem_map.1 hi
      trivial
  · have hptr : (Ref.arg .ptr 0 : Ref Lbl Slot) ∈ p.sig.scope blocks .setupBlock := rfl
    have hint : (Ref.arg (.int 64) 1 : Ref Lbl Slot) ∈ p.sig.scope blocks .setupBlock := rfl
    have hreg {r : ℕ} (hr : r < 11) : (Ref.slot (.reg r) : Ref Lbl Slot) ∈
        defs ((List.range 11).map fun i => .alloca (Slot.reg i) 1) :=
      ⟨_, List.mem_map_of_mem (List.mem_range.2 hr), rfl⟩
    simp only [InScope, Instr.In, Operand.In, Operand.ref, mem_defs_singleton, Instr.result,
      Set.mem_union, Option.mem_def, Option.some.injEq, forall_eq', reduceCtorEq, or_false,
      or_true, and_true, true_and, IsEmpty.forall_iff, implies_true, regs]
    exact ⟨.inr (hreg (by decide)), ⟨.inl hptr, .inr (hreg (by decide))⟩, .inl hint,
      .inr (hreg (by decide))⟩

/-! ## The emission -/

/-- The blocks emitted so far are in SSA form. -/
structure EmitState.Ssa (p : Program) (s : EmitState) : Prop where
  named : Named s.code s.next
  setup : allocated (s.code .setupBlock) = mainSlots
  inScope_setup : InScope (p.sig.scope (p.allBlocks ++ [.exitBlock, .localRetBlock]) .setupBlock)
    (s.code .setupBlock)
  /-- The current block is the one of an instruction. -/
  currBB : s.currBB ≠ .setupBlock
  alloc : ∀ l, l ≠ .setupBlock → allocated (s.code l) = []
  inScope : ∀ l, l ≠ .setupBlock → InScope p.scope (s.code l)

/-- The blocks emitted first are. -/
theorem ssa_emitFixedBlocks {p : Program} {s : EmitState}
    (hdests : ∀ l ∈ p.localFuncRetBlks.map (·.2), Ref.block l ∈ p.scope)
    (h : emitFixedBlocks p = .ok s) : s.Ssa p := by
  obtain ⟨_, n₁, setup, h₁, -⟩ := straight_emitSetupBlock 0
  obtain ⟨_, n₂, b₂, t₂, h₂, -⟩ := endsWith_emitExitBlock n₁
  obtain ⟨_, n₃, b₃, t₃, h₃, -⟩ := endsWith_emitLocalRetBlock (p.localFuncRetBlks.map (·.2)) n₂
  rw [emitFixedBlocks, h₁] at h
  simp only [bind, Except.bind, h₂, h₃] at h
  cases h
  obtain ⟨hsetup, hids, halloc⟩ := setup_spec (p := p) h₁
  obtain ⟨hexit, -⟩ := scoped_emitExitBlock (p := p) _ _ _ _ h₂
  obtain ⟨hret, -⟩ := scoped_emitLocalRetBlock hdests _ _ _ _ h₃
  refine ⟨?_, halloc, hsetup, by simp, fun l hl => ?_, fun l hl => ?_⟩
  · have hnamed := ((Named.empty.append (Nat.zero_le _) hids .setupBlock).append hexit.le hexit.ids
      .exitBlock).append hret.le hret.ids .localRetBlock
    convert hnamed using 1
    funext l
    cases l <;> simp
  · cases l with
    | setupBlock => exact absurd rfl hl
    | inst i => rfl
    | exitBlock => exact hexit.alloc
    | localRetBlock => exact hret.alloc
  · cases l with
    | setupBlock => exact absurd rfl hl
    | inst i => trivial
    | exitBlock => exact hexit.inScope
    | localRetBlock => exact hret.inScope

/-- An iteration of the loop keeps to it. -/
theorem EmitState.Ssa.step {pc pc' : ℕ} {s s' : EmitState}
    (hs : s.Ssa (prepared x extFuncNames lddwHelpers)) (hpc : pc < x.insts.length)
    (h : emitBody x (prepared x extFuncNames lddwHelpers) patch pc s = .ok (pc', s')) :
    s'.Ssa (prepared x extFuncNames lddwHelpers) := by
  rw [emitBody_eq s hpc] at h
  split at h
  · cases h
  next hregs =>
  rw [not_or, BitVec.not_lt, BitVec.not_lt] at hregs
  split at h
  · cases h
  next pc₁ n' code he =>
  cases h
  obtain ⟨happ, -⟩ := scoped_emitInst subset_rfl hregs.1 hregs.2 _ _ _ _ he
  generalize hblk : (if Begins x.insts pc then Lbl.inst pc else s.currBB) = blk
  have hne : blk ≠ .setupBlock := by
    rw [← hblk]
    split
    · simp
    · exact hs.currBB
  refine ⟨hs.named.append happ.le happ.ids blk, ?_, ?_, hne, fun l hl => ?_, fun l hl => ?_⟩
  · simpa [EmitState.visit, Function.update_of_ne hne.symm] using hs.setup
  · simpa [EmitState.visit, Function.update_of_ne hne.symm] using hs.inScope_setup
  · by_cases hlb : l = blk
    · subst hlb
      simp only [EmitState.visit, Function.update_self, allocated_append, hs.alloc l hl, happ.alloc,
        List.append_nil]
    · simpa [EmitState.visit, Function.update_of_ne hlb] using hs.alloc l hl
  · by_cases hlb : l = blk
    · subst hlb
      simp only [EmitState.visit, Function.update_self]
      exact inScope_append.2 ⟨hs.inScope l hl, happ.inScope.mono Set.subset_union_left⟩
    · simpa [EmitState.visit, Function.update_of_ne hlb] using hs.inScope l hl

theorem nextIn_mem_tail {l l' a : Lbl} {ls : List Lbl} (h : nextIn (a :: ls) l = some l') :
    l' ∈ ls := by
  induction ls generalizing a with
  | nil => cases h
  | cons b ls ih =>
    rw [nextIn] at h
    split at h
    · cases h
      exact List.mem_cons_self
    · exact List.mem_cons_of_mem _ (ih h)

/-- Closing a block adds a branch to a block of an instruction, or nothing. -/
theorem closeBlocks_cases (insns : List EbpfInst) (code : Lbl → List (Instr Lbl Slot)) (l : Lbl) :
    closeBlocks (.setupBlock :: (beginList insns).map .inst) code l = code l ∨
      ∃ t, Begins insns t ∧ closeBlocks (.setupBlock :: (beginList insns).map .inst) code l =
        code l ++ [.br (.inst t)] := by
  rw [closeBlocks_apply (nodup_allBlocks insns)]
  cases hnext : nextIn (.setupBlock :: (beginList insns).map .inst) l with
  | none => exact .inl rfl
  | some l' =>
    obtain ⟨t, ht, rfl⟩ := List.mem_map.1 (nextIn_mem_tail hnext)
    dsimp only
    split
    · exact .inr ⟨t, mem_beginList.1 ht, rfl⟩
    · exact .inl rfl

variable {M : Module} {fuel : ℕ}

/-- What a successful emission leaves. -/
theorem emitModule_eq_ok (h : emitModule x extFuncNames lddwHelpers patch fuel = some (.ok M)) :
    ∃ s : EmitState, s.Ssa (prepared x extFuncNames lddwHelpers) ∧
      M.fn.blocks = (prepared x extFuncNames lddwHelpers).allBlocks ++
        [.exitBlock, .localRetBlock] ∧
      M.fn.code = closeBlocks (.setupBlock :: (beginList x.insts).map .inst) s.code := by
  obtain ⟨_, hc⟩ := exists_compiled h
  rw [emitModule, if_neg (by simpa using hc.nonempty)] at h
  have hp {r : Except Failure Program} (hr : prepare x extFuncNames lddwHelpers fuel = some r) :
      r = .ok (prepared x extFuncNames lddwHelpers) := by
    have hr' := prepare_mono hr (Nat.le_max_left fuel (x.insts.length + 1))
    rw [prepare_eq hc.length_lt (by omega)] at hr'
    exact (Option.some.inj hr').symm
  split at h
  · cases h
  · cases h
  next p hprep =>
  cases hp hprep
  simp only [emitInsns] at h
  cases hfixed : emitFixedBlocks (prepared x extFuncNames lddwHelpers) with
  | error e =>
    rw [hfixed] at h
    cases h
  | ok s₀ =>
    rw [hfixed] at h
    dsimp only at h
    split at h
    · cases h
    · cases h
    next s hrun =>
    cases h
    have hdests (l : Lbl) (hl : l ∈ (prepared x extFuncNames lddwHelpers).localFuncRetBlks.map
        (·.2)) : Ref.block l ∈ (prepared x extFuncNames lddwHelpers).scope := by
      simp only [prepared, blocksOf, List.map_map, List.mem_map, List.mem_filter] at hl
      obtain ⟨t, ⟨ht, -⟩, rfl⟩ := hl
      exact inst_mem_scope (mem_beginList.1 ht)
    obtain ⟨_, -, hs⟩ := CountedLoop.run_induction
      (P := fun _ s => s.Ssa (prepared x extFuncNames lddwHelpers))
      (fun _ _ _ _ hpc hs hb => hs.step hpc hb) (ssa_emitFixedBlocks hdests hfixed) hrun
    exact ⟨s, hs, rfl, rfl⟩

/-- A function that is emitted is in SSA form. -/
theorem ssa_of_emitModule
    (h : emitModule x extFuncNames lddwHelpers patch fuel = some (.ok M)) :
    M.fn.Ssa .setupBlock (prepared x extFuncNames lddwHelpers).sig := by
  obtain ⟨s, hs, hblocks, hcode⟩ := emitModule_eq_ok h
  have hbr (t : ℕ) : (Instr.br (.inst t) : Instr Lbl Slot).result = none := rfl
  have hids (l : Lbl) : resultIds (M.fn.code l) = resultIds (s.code l) := by
    rw [hcode]
    rcases closeBlocks_cases x.insts s.code l with hl | ⟨t, -, hl⟩
    · rw [hl]
    · rw [hl, resultIds_append, resultIds_of_result_eq_none (hbr t), List.append_nil]
  have halloc (l : Lbl) : allocated (M.fn.code l) = allocated (s.code l) := by
    rw [hcode]
    rcases closeBlocks_cases x.insts s.code l with hl | ⟨t, -, hl⟩
    · rw [hl]
    · rw [hl, allocated_append, allocated_of_result_eq_none (hbr t), List.append_nil]
  have hnodup : M.fn.blocks.Nodup := by
    rw [hblocks]
    refine (nodup_allBlocks x.insts).append (by simp) ?_
    simp [List.disjoint_left]
  have hclose {Γ : Set (Ref Lbl Slot)} (l : Lbl) (hin : InScope Γ (s.code l))
      (hΓ : ∀ t, Begins x.insts t → Ref.block (.inst t) ∈ Γ) : InScope Γ (M.fn.code l) := by
    rw [hcode]
    rcases closeBlocks_cases x.insts s.code l with hl | ⟨t, ht, hl⟩
    · rwa [hl]
    · rw [hl]
      exact inScope_append.2 ⟨hin, .inl (hΓ t ht), trivial⟩
  refine ⟨?_, ?_, fun l _ hl => ?_, ?_, fun l _ hl => ?_⟩
  · simp only [hids]
    exact hs.named.nodup_flatMap hnodup
  · rw [halloc, hs.setup]
    decide
  · rw [halloc, hs.alloc l hl]
  · rw [hblocks]
    refine hclose _ hs.inScope_setup fun t ht => ⟨?_, by simp⟩
    simp [prepared, mem_beginList.2 ht]
  · rw [halloc, hs.setup, hblocks]
    exact hclose l (hs.inScope l hl) fun t ht => inst_mem_scope ht

/-- The compiler accepts exactly the programs it requires. -/
theorem accepts_iff {V : Verifier} : (∃ M, Accepts V x extFuncNames lddwHelpers patch M) ↔
    InputOk x extFuncNames lddwHelpers patch := by
  refine ⟨fun ⟨M, h⟩ => h.inputOk, fun h => ?_⟩
  obtain ⟨M, hM⟩ := emitModule_ok h.nonempty h.length_lt h.legal (Nat.lt_succ_self _)
  obtain ⟨base, hc⟩ := exists_compiled hM
  have hssa := ssa_of_emitModule hM
  rw [← hc.prog_eq] at hssa
  exact ⟨M, x.insts.length + 1, generateModule_eq_ok.2
    ⟨hM, V.not_broken (hc.wellTerminated_iff.2 h.last) hc.closed hssa⟩⟩

/-- What SSA form gives. -/
structure EmitsSsa (V : Verifier) (p : Program) (F : Fn Lbl Slot) : Prop where
  ssa : F.Ssa .setupBlock p.sig
  closed : F.Closed
  /-- The verifier only rejects a block that has no terminator at its end, or another one. -/
  rejects_iff : V.verifyModule p.sig F = true ↔ ¬F.WellTerminated
  /-- Runs that start with different results stay at the same instructions, on the same
      machine, and end alike. -/
  runs : ∀ W e e' m k, Transition.Res.Rel (SameUpTo F) Eq
    (Transition.iter (step F W) k ⟨.setupBlock, 0, e, m⟩)
    (Transition.iter (step F W) k ⟨.setupBlock, 0, e', m⟩)

/-- What is emitted is in SSA form, whether the verifier lets it through or not. -/
theorem emitsSsa (V : Verifier)
    (h : emitModule x extFuncNames lddwHelpers patch fuel = some (.ok M)) :
    EmitsSsa V (prepared x extFuncNames lddwHelpers) M.fn := by
  have hssa := ssa_of_emitModule h
  obtain ⟨_, hc⟩ := exists_compiled h
  have hentry : Lbl.setupBlock ∈ M.fn.blocks := by simp [hc.blocks_eq]
  refine ⟨hssa, hssa.closed, ⟨fun hv hwt => ?_, fun hwt => ?_⟩, hssa.iter_rel hentry⟩
  · rw [V.not_broken hwt hssa.closed hssa] at hv
    cases hv
  · by_contra hv
    exact hwt (V.wellTerminated (Bool.not_eq_true _ ▸ hv))

/-- A program that divides what a helper gives back. -/
def halfProgram : List EbpfInst :=
  [⟨EBPF_OP_MOV64_IMM, 1, 0, 0, 5⟩, ⟨EBPF_OP_CALL, 0, 0, 0, 6⟩, ⟨EBPF_OP_DIV64_IMM, 0, 0, 0, 2⟩,
    ⟨EBPF_OP_EXIT, 0, 0, 0, 0⟩]

theorem emitsSsa_halfProgram :
    ∃ M, Accepts Verifier.shape { insts := halfProgram } [extFuncSym 6] [] false M ∧
      EmitsSsa Verifier.shape (prepared { insts := halfProgram } [extFuncSym 6] []) M.fn := by
  obtain ⟨M, hM, -⟩ := exists_accepts Verifier.shape { insts := halfProgram } [extFuncSym 6] []
    false 5 (fun _ => true) (by decide +kernel)
  obtain ⟨fuel, he⟩ := hM.exists_emitModule
  exact ⟨M, hM, emitsSsa _ he⟩

end EbpfJit
