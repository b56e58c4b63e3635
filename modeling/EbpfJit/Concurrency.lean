import EbpfJit.Emitted
import EbpfJit.Lib.Threads

/-!
# Programs side by side

Compiled programs may run at the same time and work on the same memory. Between any two
steps of the code of an instruction, others may work on it, too.

* `sharesAtMost_emitCase`: the code of an instruction works on the memory once at most,
  unless it is a compare-and-exchange, which loads the cell a second time;
* `Compiled.length_trace_shares`: so does a run from one boundary to the next;
* `exists_interleaves_vm`: programs side by side do what their machines do, with every
  instruction taking place at once.
-/

namespace EbpfJit

open Ir Ir.Builder Transition

variable {x : CompilerXDP} {p : Program} {patch : Bool} {pc : ℕ} {inst : EbpfInst}
  {ids : List ℕ}

/-- The instruction is a compare-and-exchange. -/
def IsCmpXchg (inst : EbpfInst) : Prop :=
  switchCase inst.code = some .atomic ∧ inst.imm = EBPF_CMPXCHG

instance : DecidablePred IsCmpXchg := fun _ => inferInstanceAs (Decidable (_ ∧ _))

/-! ## The emitters -/

theorem private_emitLoadALUSource (is64 : Bool) : Private ids (emitLoadALUSource inst is64) := by
  cases is64 with
  | true => exact sharesAtMost_ite (fun _ => private_pure _) fun _ => private_loadSlot _ _
  | false =>
    exact sharesAtMost_ite (fun _ => private_pure _) fun _ =>
      (private_loadSlot _ _).bind fun _ => private_createTrunc _ _

theorem private_emitStoreALUResult {w : ℕ} (v : Value (.int w)) :
    Private ids (emitStoreALUResult inst v) :=
  sharesAtMost_ite (fun _ => private_storeSlot _ _) fun _ =>
    (private_createZExt 64 v).bind fun _ => private_storeSlot _ _

theorem private_emitALUWithDstAndSrc
    {func : {w : ℕ} → Value (.int w) → Value (.int w) → Emit (Value (.int w))}
    (hf : ∀ {w : ℕ} (a b : Value (.int w)), Private [] (func a b)) :
    Private ids (emitALUWithDstAndSrc inst func) :=
  (private_loadSlot _ _).bind fun _ => (private_emitLoadALUSource _).bind fun _ =>
    (hf _ _).bind fun _ => private_emitStoreALUResult _

theorem private_emitDiv {w : ℕ} (a b : Value (.int w)) : Private ids (emitDiv a b) :=
  (private_emit fun _ _ _ => rfl).bind fun _ => (private_createBinOp _ _ _).bind fun _ =>
    private_emit fun _ _ _ => rfl

theorem private_emitMod {w : ℕ} (a b : Value (.int w)) : Private ids (emitMod a b) :=
  (private_emit fun _ _ _ => rfl).bind fun _ => (private_createBinOp _ _ _).bind fun _ =>
    private_emit fun _ _ _ => rfl

theorem private_emitShift {w : ℕ} (op : BinOp) (a b : Value (.int w)) :
    Private ids (do
      let count ← emitShiftCount inst b
      createBinOp op a count : Emit (Value (.int w))) :=
  (private_createBinOp _ _ _).bind fun _ => private_createBinOp _ _ _

theorem private_emitSplitBytes (v : Value (.int 64)) (l : List ℕ) :
    Private ids (emitSplitBytes v l) := by
  induction l generalizing ids with
  | nil => exact private_pure _
  | cons i l ih =>
    exact (private_createBinOp _ _ _).bind fun _ => (private_createBinOp _ _ _).bind fun _ =>
      ih.bind fun _ => private_pure _

theorem private_emitMergeBytes (last : Value (.int 64)) (bytes : List (Value (.int 64))) :
    Private ids (emitMergeBytes last bytes) := by
  induction bytes generalizing last ids with
  | nil => exact private_pure _
  | cons val bytes ih =>
    exact (private_createBinOp _ _ _).bind fun _ => (private_createBinOp _ _ _).bind fun _ => ih _

theorem private_emitALUEndianConversion (v : Value (.int 64)) :
    Private ids (emitALUEndianConversion inst v) := by
  refine sharesAtMost_ite (fun _ => sharesAtMost_ite (fun _ => sharesAtMost_fail _) fun _ => ?_)
    fun _ => private_pure _
  refine (private_emitSplitBytes _ _).bind fun bytes => ?_
  cases bytes with
  | nil => exact sharesAtMost_fail _
  | cons val bytes => exact private_emitMergeBytes _ _

theorem sharesAtMost_emitStore (w : ℕ) : SharesAtMost ids 1 (emitStore inst w) := by
  have hsrc : Private ids (emitStoreLoadingSrc inst) :=
    sharesAtMost_ite (fun _ => private_loadSlot _ _) fun _ => private_pure _
  exact hsrc.bind fun _ => (private_createTrunc w _).bind fun _ =>
    (private_loadSlot _ _).bind fun _ => Private.bind (private_emit fun _ _ _ => rfl) fun _ =>
    sharesAtMost_emitVoid _

theorem sharesAtMost_emitLoadX (w : ℕ) : SharesAtMost ids 1 (emitLoadX inst w) := by
  have haddr : Private ids (emitLDXLoadingAddr inst) :=
    (private_loadSlot _ _).bind fun _ => private_emit fun _ _ _ => rfl
  exact haddr.bind fun _ => (sharesAtMost_emit _).bind fun _ =>
    (private_createZExt 64 _).bind fun _ => private_storeSlot _ _

theorem private_emitJmpLoadSrcAndDstAndZero :
    Private ids (emitJmpLoadSrcAndDstAndZero inst) := by
  rw [emitJmpLoadSrcAndDstAndZero]
  refine sharesAtMost_ite (fun _ => ?_) fun _ => ?_
  · exact (private_loadSlot _ _).bind fun _ => (private_loadSlot _ _).bind fun _ => private_pure _
  · exact (private_pure _).bind fun _ => (private_loadSlot _ _).bind fun _ => private_pure _

theorem sharesAtMost_emitExtFuncCall (l : List String) (exitBlk : Lbl) :
    SharesAtMost ids 1 (emitExtFuncCall inst l exitBlk) := by
  refine sharesAtMost_ite (fun _ => ?_) fun _ => sharesAtMost_fail _
  exact (private_loadSlot _ _).bind fun _ => (private_loadSlot _ _).bind fun _ =>
    (private_loadSlot _ _).bind fun _ => (private_loadSlot _ _).bind fun _ =>
    (private_loadSlot _ _).bind fun _ => (sharesAtMost_emit _).bind fun _ =>
    (private_storeSlot _ _).bind fun _ =>
      sharesAtMost_ite (fun _ => private_emitVoid fun _ _ => rfl) fun _ => private_pure _

theorem sharesAtMost_emitAtomicBinOp (op : RmwOp) (is64 is_fetch : Bool) :
    SharesAtMost ids 1 (emitAtomicBinOp op inst is64 is_fetch) := by
  have hfetch {w : ℕ} (v : Value (.int w)) :
      Private [] (if is_fetch then createStore v (regs inst.src_reg) else pure () : Emit Unit) :=
    sharesAtMost_ite (fun _ => private_storeSlot _ _) fun _ => private_pure _
  refine (private_loadSlot _ _).bind fun _ => Private.bind (private_emit fun _ _ _ => rfl) fun _ =>
    (private_loadSlot _ _).bind fun _ => sharesAtMost_ite (fun _ => ?_) fun _ => ?_
  · exact (sharesAtMost_emit _).bind fun _ => hfetch _
  · exact (private_createTrunc 32 _).bind fun _ => (sharesAtMost_emit _).bind fun _ => hfetch _

theorem sharesAtMost_emitAtomic (h : inst.imm ≠ EBPF_CMPXCHG) :
    SharesAtMost ids 1 (emitAtomic inst) := by
  refine sharesAtMost_ite (fun _ => sharesAtMost_emitAtomicBinOp _ _ _) fun _ =>
    sharesAtMost_ite (fun _ => sharesAtMost_emitAtomicBinOp _ _ _) fun _ =>
    sharesAtMost_ite (fun _ => sharesAtMost_emitAtomicBinOp _ _ _) fun _ =>
    sharesAtMost_ite (fun _ => sharesAtMost_emitAtomicBinOp _ _ _) fun _ =>
    sharesAtMost_ite (fun _ => sharesAtMost_emitAtomicBinOp _ _ _) fun _ =>
    sharesAtMost_ite (fun h' => absurd h' h) fun _ => sharesAtMost_fail _

/-- The value of a map is looked up by one call at most: the map is found when compiling. -/
theorem sharesAtMost_emitLddwMapVal (nextInst : EbpfInst) (mapPtr : BitVec 64)
    (missing : String) :
    SharesAtMost ids 1 (emitLddwMapVal x p patch inst nextInst mapPtr missing) := by
  refine sharesAtMost_ite (fun _ => ?_) fun _ => sharesAtMost_ite (fun _ => ?_) fun _ =>
    sharesAtMost_fail _
  · cases x.map_val with
    | some map_val => exact (private_storeSlot _ _).mono (Nat.zero_le 1)
    | none => exact sharesAtMost_fail _
  · exact (sharesAtMost_emit _).bind fun _ => (private_createBinOp _ _ _).bind fun _ =>
      private_storeSlot _ _

theorem sharesAtMost_emitLddw : SharesAtMost ids 1 (emitLddw x p patch pc inst) := by
  have hstore (v : BitVec 64) :
      SharesAtMost ids 1 (createStore (getInt64 v) (regs inst.dst_reg) : Emit Unit) :=
    (private_storeSlot _ _).mono (Nat.zero_le 1)
  refine sharesAtMost_ite (fun _ => sharesAtMost_fail _) fun _ =>
    sharesAtMost_ite (fun _ => sharesAtMost_fail _) fun _ =>
    sharesAtMost_ite (fun _ => sharesAtMost_fail _) fun _ => ?_
  refine sharesAtMost_ite (fun _ => hstore _) fun _ => sharesAtMost_ite (fun _ => hstore _) fun _ =>
    sharesAtMost_ite (fun _ => sharesAtMost_emitLddwMapVal _ _ _) fun _ =>
    sharesAtMost_ite (fun _ => ?_) fun _ => sharesAtMost_ite (fun _ => ?_) fun _ =>
    sharesAtMost_ite (fun _ => hstore _) fun _ =>
    sharesAtMost_ite (fun _ => sharesAtMost_emitLddwMapVal _ _ _) fun _ =>
      (private_pure _).mono (Nat.zero_le 1)
  · cases x.var_addr with
    | some var_addr => exact hstore _
    | none => exact sharesAtMost_fail _
  · cases x.code_addr with
    | some code_addr => exact hstore _
    | none => exact sharesAtMost_fail _

/-- An item of the call stack is in a slot. -/
theorem sharesAtMost_callStackItem {α : Type} {n : ℕ} {pos : Value (.int 64)} {i : ℕ}
    {f : Value .ptr → Emit α} (hf : ∀ id, SharesAtMost [id] n (f (.tmp id))) :
    SharesAtMost ids n (emitCallStackItem pos i >>= f) := by
  intro m r m' code ids' hids h
  obtain ⟨a, m₁, c₁, c₂, h₁, h₂, rfl⟩ := bind_eq_ok h
  obtain ⟨idx, m₂, c₃, c₄, h₃, h₄, rfl⟩ := bind_eq_ok h₁
  have hgep : (createGEP 8 (.slot .callStack) idx >>= f : Emit α) m₂ = .ok (r, m', c₄ ++ c₂) := by
    rw [bind_of_ok h₄, h₂]
    rfl
  rw [List.append_assoc, sharings_append]
  exact Nat.add_le_add (private_createBinOp _ _ _ _ _ _ _ _ hids h₃)
    (SharesAtMost.gep hf _ _ _ _ _ (List.nil_subset _) hgep) |>.trans_eq (Nat.zero_add n)

/-- The code of a local call does not work on the memory. -/
theorem private_emitLocalCall : Private ids (emitLocalCall p pc inst) := by
  have hitem {t : Ty} (v : Value t) {id : ℕ} :
      Private [id] (createStore v (.tmp id) : Emit Unit) :=
    private_emitVoid fun ids' hids => decide_eq_true (hids List.mem_cons_self)
  have hrest (nextPos : Value (.int 64)) (retBlk : Lbl) : Private [] (do
      let addr ← emitCallStackItem nextPos 1
      createStore (.blockAddress retBlk) addr
      [6, 7, 8, 9].forM fun i => do
        let v ← createLoad (.int 64) (.slot (.reg i))
        let item ← emitCallStackItem nextPos (i - 4)
        createStore v item
      let r10 ← createLoad (.int 64) (regs 10)
      let r10' ← createBinOp .sub r10 (getInt64 (BitVec.ofNat 64 STACK_SIZE))
      createStore r10' (regs 10)
      let dstBlk ← ofExcept (loadCallDstBlock pc inst p.instBlocks)
      createBr dstBlk : Emit Unit) := by
    refine sharesAtMost_callStackItem fun id => (hitem _).bind fun _ =>
      Private.bind (private_forM fun i => ?_) fun _ => (private_loadSlot _ _).bind fun _ =>
      (private_createBinOp _ _ _).bind fun _ => (private_storeSlot _ _).bind fun _ =>
      (private_ofExcept _).bind fun _ => private_emitVoid fun _ _ => rfl
    exact (private_loadSlot _ _).bind fun _ => sharesAtMost_callStackItem fun id => hitem _
  refine (private_loadSlot _ _).bind fun _ => (private_createBinOp _ _ _).bind fun nextPos =>
    (private_storeSlot _ _).bind fun _ => ?_
  cases p.localFuncRetBlks.lookup (toUInt16 (pc + 1)) with
  | none => exact Private.bind (sharesAtMost_fail _) fun _ => hrest _ _
  | some blk => exact Private.bind (private_pure blk) fun _ => hrest _ _

/-- The code of an instruction works on the memory once at most, unless it is a
    compare-and-exchange. -/
theorem sharesAtMost_emitCase {sc : SwitchCase} (h : sc = .atomic → inst.imm ≠ EBPF_CMPXCHG) :
    SharesAtMost ids 1 (emitCase x p patch pc inst sc) := by
  have hle {b : Emit Unit} (h : Private ids b) : SharesAtMost ids 1 b := h.mono (Nat.zero_le 1)
  have halu {func : {w : ℕ} → Value (.int w) → Value (.int w) → Emit (Value (.int w))}
      (hf : ∀ {w : ℕ} (a b : Value (.int w)), Private [] (func a b)) :
      SharesAtMost ids 1 (emitALUWithDstAndSrc inst func) :=
    hle (private_emitALUWithDstAndSrc fun a b => hf a b)
  cases sc with
  | add | sub | mul | or | and | xor => exact halu fun a b => private_createBinOp _ a b
  | lsh | rsh | arsh => exact halu fun a b => private_emitShift _ a b
  | div => exact halu fun a b => private_emitDiv a b
  | mod => exact halu fun a b => private_emitMod a b
  | neg =>
    exact hle ((private_loadSlot _ _).bind fun _ => (private_createBinOp _ _ _).bind fun _ =>
      private_emitStoreALUResult _)
  | mov => exact hle ((private_emitLoadALUSource _).bind fun _ => private_emitStoreALUResult _)
  | endian =>
    exact hle ((private_loadSlot _ _).bind fun _ =>
      (private_emitALUEndianConversion _).bind fun _ => private_emitStoreALUResult _)
  | store w => exact sharesAtMost_emitStore w
  | loadX w => exact sharesAtMost_emitLoadX w
  | lddw => exact sharesAtMost_emitLddw
  | ja => exact hle ((private_ofExcept _).bind fun _ => private_emitVoid fun _ _ => rfl)
  | call =>
    exact sharesAtMost_ite (fun _ => hle private_emitLocalCall) fun _ =>
      sharesAtMost_emitExtFuncCall _ _
  | exit =>
    exact hle ((private_loadSlot _ _).bind fun _ =>
      Private.bind (private_emit fun _ _ _ => rfl) fun _ => private_emitVoid fun _ _ => rfl)
  | jcond pred =>
    exact hle ((private_ofExcept _).bind fun _ => private_emitJmpLoadSrcAndDstAndZero.bind fun _ =>
      Private.bind (private_emit fun _ _ _ => rfl) fun _ => private_emitVoid fun _ _ => rfl)
  | jset =>
    exact hle ((private_ofExcept _).bind fun _ => private_emitJmpLoadSrcAndDstAndZero.bind fun _ =>
      (private_createBinOp _ _ _).bind fun _ =>
      Private.bind (private_emit fun _ _ _ => rfl) fun _ => private_emitVoid fun _ _ => rfl)
  | atomic => exact sharesAtMost_emitAtomic (h rfl)

/-! ## The blocks that are not for instructions -/

theorem private_emitSetupBlock : Private ids emitSetupBlock := by
  have hrange : Private [] ((List.range 11).forM fun i => createAlloca (.reg i) 1 : Emit Unit) :=
    private_forM fun _ => private_emitVoid fun _ _ => rfl
  refine Private.bind (fun m a m' code ids' _ h => hrange m a m' code ids' (List.nil_subset _) h)
    fun _ => Private.bind (private_emit fun _ _ _ => rfl) fun _ =>
    Private.bind (private_emit fun _ _ _ => rfl) fun _ => (private_storeSlot _ _).bind fun _ =>
    (private_storeSlot _ _).bind fun _ => (private_storeSlot _ _).bind fun _ =>
    Private.bind (private_emitVoid fun _ _ => rfl) fun _ =>
    Private.bind (private_emitVoid fun _ _ => rfl) fun _ => private_storeSlot _ _

theorem private_emitExitBlock : Private ids emitExitBlock :=
  (private_loadSlot _ _).bind fun _ => private_emitVoid fun _ _ => rfl

theorem private_emitLocalRetBlock (dests : List Lbl) : Private ids (emitLocalRetBlock dests) := by
  have hitem {t : Ty} {id : ℕ} : Private [id] (createLoad t (.tmp id) : Emit (Value t)) :=
    private_emit fun n ids' hids => decide_eq_true (hids List.mem_cons_self)
  refine (private_loadSlot _ _).bind fun _ => sharesAtMost_callStackItem fun id =>
    hitem.bind fun _ => Private.bind (private_forM fun i => ?_) fun _ =>
    (private_createBinOp _ _ _).bind fun _ => (private_storeSlot _ _).bind fun _ =>
    (private_loadSlot _ _).bind fun _ => (private_createBinOp _ _ _).bind fun _ =>
    (private_storeSlot _ _).bind fun _ => private_emitVoid fun _ _ => rfl
  exact sharesAtMost_callStackItem fun id => hitem.bind fun _ => private_storeSlot _ _

/-! ## Between two boundaries -/

/-- The configuration is inside of the code of an instruction. -/
def Module.InCode (M : Module) (c : Config Lbl Slot) : Prop :=
  ∃ v ∈ M.log, v.block = c.block ∧ v.start ≤ c.ip ∧ c.ip < v.start + v.code.length

section

variable {extFuncNames lddwHelpers : List String} {base : Lbl → List (Instr Lbl Slot)}
  {log : List Visit} {M : Module} {W : World Lbl} {v w : Visit} {c d : Config Lbl Slot}
  {i : Instr Lbl Slot} {j k : ℕ}

/-- All the code of a block comes from visits. -/
theorem IsLog.exists_visit_at (h : IsLog x extFuncNames lddwHelpers patch base log) {l : Lbl}
    {ip : ℕ} (hbase : base l = []) (hip : ip < (contents base log l).length) :
    ∃ v ∈ log, v.block = l ∧ v.start ≤ ip ∧ ip < v.start + v.code.length := by
  induction h with
  | nil =>
    rw [contents, hbase] at hip
    exact absurd hip (Nat.not_lt_zero ip)
  | @concat log v hlog hv ih =>
    by_cases hlt : ip < (contents base log l).length
    · obtain ⟨w, hw, hspec⟩ := ih hlt
      exact ⟨w, List.mem_append_left _ hw, hspec⟩
    · rw [contents_append, List.length_append] at hip
      by_cases hvl : v.block = l
      · subst hvl
        refine ⟨v, by simp, rfl, ?_, ?_⟩
        · rw [hv.start_eq]
          exact Nat.not_lt.1 hlt
        · rw [hv.start_eq]
          simpa using hip
      · simp [hvl] at hip
        exact absurd hip hlt

namespace Compiled

variable (h : Compiled x extFuncNames lddwHelpers patch base M)
include h

/-- The code of an instruction works on the memory once at most. -/
theorem sharings_le (hx : ∀ inst ∈ x.insts, ¬IsCmpXchg inst) (hv : v ∈ M.log) :
    sharings [] v.code ≤ 1 := by
  obtain ⟨pre, he⟩ := h.log.extends_of_mem hv
  obtain ⟨hd, hs, -⟩ := h.log.legal hv
  obtain ⟨n, k, n', hemit⟩ := he.emitted
  have hcode : IsCodeOf x extFuncNames lddwHelpers patch v.pc (insnAt x.insts v.pc) v.code :=
    ⟨hd, hs, n, k, n', hemit⟩
  obtain ⟨sc, hsc⟩ := hcode.exists_switchCase
  obtain ⟨n, n', hcase⟩ := hcode.emitCase hsc
  refine sharesAtMost_emitCase (fun hat himm => ?_) _ _ _ _ _ (List.Subset.refl []) hcase
  subst hat
  refine hx (insnAt x.insts v.pc) ?_ ⟨hsc, himm⟩
  have hlt := h.log.pc_lt hv
  rw [insnAt, List.getD_eq_getElem?_getD, List.getElem?_eq_getElem hlt]
  exact List.getElem_mem hlt

/-- The blocks that are not for instructions do not work on the memory. -/
theorem sharings_other {l : Lbl} (hl : ∀ t, l ≠ .inst t) : sharings [] (M.fn.code l) = 0 := by
  cases l with
  | inst t => exact absurd rfl (hl t)
  | setupBlock =>
    obtain ⟨n, hsetup⟩ := h.fixed.setup
    rw [h.code_setupBlock, sharings_append]
    have hle : sharings [] (base .setupBlock) ≤ 0 :=
      private_emitSetupBlock _ _ _ _ _ (List.Subset.refl []) hsetup
    rw [Nat.le_zero.1 hle]
    rfl
  | exitBlock =>
    obtain ⟨n, n', hexit⟩ := h.fixed.exit
    rw [h.code_other (by simp) hl]
    exact Nat.le_zero.1 (private_emitExitBlock _ _ _ _ _ (List.Subset.refl []) hexit)
  | localRetBlock =>
    obtain ⟨n, n', hret⟩ := h.fixed.localRet
    rw [h.code_other (by simp) hl]
    exact Nat.le_zero.1 (private_emitLocalRetBlock _ _ _ _ _ _ (List.Subset.refl []) hret)

/-- Outside of the code of instructions, blocks only go on to other ones. -/
theorem eq_br_of_not_inCode {t : ℕ} (hc : c.block = .inst t) (hout : ¬M.InCode c)
    (hi : (M.fn.code c.block)[c.ip]? = some i) : ∃ l, i = .br l := by
  have hge : (contents base M.log c.block).length ≤ c.ip := by
    by_contra hlt
    exact hout (h.log.exists_visit_at (by rw [hc, h.fixed.inst]) (Nat.not_le.1 hlt))
  rw [h.code_eq, closeBlocks_apply (nodup_allBlocks _)] at hi
  split at hi
  · rw [List.getElem?_eq_none hge] at hi
    cases hi
  · next l _ =>
    split at hi
    · rw [List.getElem?_append_right hge, List.getElem?_singleton] at hi
      split at hi
      · cases hi
        exact ⟨l, rfl⟩
      · cases hi
    · rw [List.getElem?_eq_none hge] at hi
      cases hi

/-- A step outside of the code of instructions does not work on the memory, and goes to the
    start of a block. -/
theorem step_of_not_inCode {t : ℕ} (hc : c.block = .inst t) (hout : ¬M.InCode c) :
    c.shares M.fn W = false ∧
      ∀ d, step M.fn W c = .cont d → ∃ l, d = ⟨l, 0, c.env, c.m⟩ := by
  cases hi : (M.fn.code c.block)[c.ip]? with
  | none =>
    refine ⟨by rw [Config.shares, hi]; rfl, fun d hd => ?_⟩
    rw [step, hi] at hd
    cases hd
  | some i =>
    obtain ⟨l, rfl⟩ := h.eq_br_of_not_inCode hc hout hi
    refine ⟨by rw [Config.shares, hi]; rfl, fun d hd => ?_⟩
    rw [step, hi] at hd
    cases hd
    exact ⟨l, rfl⟩

/-- Blocks that are not for instructions do not work on the memory, and go to the start of
    another block if they go on. -/
theorem iter_other_block {l : Lbl} (hl : ∀ t, l ≠ .inst t) (e : Env Slot) (m : Machine Slot) :
    ∃ k, 0 < k ∧
      (∀ j < k, ∀ d, iter (step M.fn W) j ⟨l, 0, e, m⟩ = .cont d → d.shares M.fn W = false) ∧
      ∀ d, iter (step M.fn W) k ⟨l, 0, e, m⟩ = .cont d → d.ip = 0 := by
  have hcode : CodeAt M.fn l 0 (M.fn.code l) := codeAt_zero (List.append_nil _).symm
  obtain ⟨k, hk, hpos, hrun, hin⟩ := iter_execList (W := W) (e := e) (m := m) hcode
  have htrace : trace (step M.fn W) (Config.shares M.fn W) k ⟨l, 0, e, m⟩ = [] := by
    have hle := length_trace_shares_le hcode (Env.inSlots_nil e) hin hk
    rw [h.sharings_other hl] at hle
    exact List.length_eq_zero_iff.1 (Nat.le_zero.1 hle)
  have hprivate (j : ℕ) (hj : j < k) (d : Config Lbl Slot)
      (hd : iter (step M.fn W) j ⟨l, 0, e, m⟩ = .cont d) : d.shares M.fn W = false := by
    by_contra hsh
    have hmem := mem_trace_of_iter hj hd (by simpa using hsh)
    rw [htrace] at hmem
    cases hmem
  have hne (hx : execList W (M.fn.code l) e m ≠ some (.fall, e, m)) : 0 < k := by
    refine hpos fun hnil => hx ?_
    rw [hnil]
    rfl
  rcases hx : execList W (M.fn.code l) e m with _ | ⟨_ | l' | v, e', m'⟩
  · rw [hx] at hrun
    refine ⟨k, hne (by simp [hx]), hprivate, fun d hd => ?_⟩
    rw [hrun] at hd
    cases hd
  · -- The end of the block is reached, which is undefined.
    rw [hx, afterCode, Nat.zero_add] at hrun
    have hnone : (M.fn.code l)[(M.fn.code l).length]? = none :=
      List.getElem?_eq_none (le_refl _)
    refine ⟨k + 1, k.succ_pos, fun j hj d hd => ?_, fun d hd => ?_⟩
    · rcases Nat.lt_or_ge j k with hlt | hge
      · exact hprivate j hlt d hd
      · obtain rfl : j = k := by omega
        rw [hrun] at hd
        cases hd
        rw [Config.shares, hnone]
        rfl
    · rw [iter_succ_right hrun, step, hnone] at hd
      cases hd
  · rw [hx] at hrun
    refine ⟨k, hne (by simp [hx]), hprivate, fun d hd => ?_⟩
    rw [hrun] at hd
    cases hd
    rfl
  · rw [hx] at hrun
    refine ⟨k, hne (by simp [hx]), hprivate, fun d hd => ?_⟩
    rw [hrun] at hd
    cases hd

/-- Between two boundaries, nothing outside of the code of instructions works on the
    memory. -/
theorem not_shares_of_unmarked (hc : c.ip = 0 ∨ ∃ t, c.block = .inst t ∧ ¬M.InCode c)
    (hun : ∀ j < k, ∀ d, iter (step M.fn W) j c = .cont d → M.boundary d = false) :
    ∀ j < k, ∀ d, iter (step M.fn W) j c = .cont d → d.shares M.fn W = false := by
  induction k using Nat.strongRecOn generalizing c with
  | ind k ih =>
    intro j hj d hd
    by_cases hblk : ∃ t, c.block = .inst t
    · obtain ⟨t, ht⟩ := hblk
      -- At the start of its block, the configuration is not inside of code, being no boundary.
      have hout : ¬M.InCode c := by
        rcases hc with h0 | ⟨_, _, hout⟩
        · rintro ⟨v, hv, hvb, hle, -⟩
          have hb : M.boundary c = true := boundary_iff.2 ⟨v, hv, hvb, by omega⟩
          rw [hun 0 (by omega) c rfl] at hb
          cases hb
        · exact hout
      obtain ⟨hsh, hnext⟩ := h.step_of_not_inCode (W := W) ht hout
      cases j with
      | zero =>
        cases hd
        exact hsh
      | succ j =>
        cases hs : step M.fn W c with
        | done r =>
          rw [iter_succ_of_done hs] at hd
          cases hd
        | cont c' =>
          obtain ⟨l, rfl⟩ := hnext c' hs
          rw [iter_succ_of_cont hs] at hd
          refine ih (k - 1) (by omega) (.inl rfl) (fun i hi d hd => ?_) j (by omega) d hd
          exact hun (i + 1) (by omega) d (by rwa [iter_succ_of_cont hs])
    · rcases hc with h0 | ⟨t, ht, -⟩
      · rcases c with ⟨l, ip, e, m⟩
        subst h0
        obtain ⟨k', hpos, hin, hend⟩ := h.iter_other_block (W := W) (fun t ht => hblk ⟨t, ht⟩) e m
        rcases Nat.lt_or_ge j k' with hlt | hge
        · exact hin j hlt d hd
        · obtain ⟨c', hc', hd'⟩ := iter_cont_of_le hd hge
          refine ih (k - k') (by omega) (.inl (hend c' hc')) (fun i hi d hd => ?_) (j - k')
            (by omega) d hd'
          exact hun (k' + i) (by omega) d (by rwa [iter_add hc'])
      · exact absurd ⟨t, ht⟩ hblk

/-- The code of a visit is followed by a boundary, or by something outside of the code of
    instructions. -/
theorem not_inCode_end (hv : v ∈ M.log) (e : Env Slot) (m : Machine Slot)
    (hb : M.boundary ⟨v.block, v.start + v.code.length, e, m⟩ = false) :
    ¬M.InCode ⟨v.block, v.start + v.code.length, e, m⟩ := by
  rintro ⟨w, hw, hblk, hle, hlt⟩
  change w.start ≤ v.start + v.code.length at hle
  change v.start + v.code.length < w.start + w.code.length at hlt
  have hne : w.start ≠ v.start + v.code.length := by
    intro heq
    rw [boundary_iff.2 ⟨w, hw, hblk, heq⟩] at hb
    cases hb
  rcases lt_trichotomy w.pc v.pc with hpc | hpc | hpc
  · have := h.log.start_add_le hw hv hblk hpc
    omega
  · obtain rfl := h.log.eq_of_pc_eq hw hv hpc
    omega
  · have := h.log.start_add_le hv hw hblk.symm hpc
    omega

/-- Where all the visits have no code, there is none. -/
theorem not_inCode_of_nil (hv : v ∈ M.log)
    (hnil : ∀ w ∈ M.log, w.block = v.block → w.start = v.start → w.code = [])
    (e : Env Slot) (m : Machine Slot) : ¬M.InCode ⟨v.block, v.start, e, m⟩ := by
  rintro ⟨w, hw, hblk, hle, hlt⟩
  change w.start ≤ v.start at hle
  change v.start < w.start + w.code.length at hlt
  rcases lt_trichotomy w.pc v.pc with hpc | hpc | hpc
  · have := h.log.start_add_le hw hv hblk hpc
    omega
  · obtain rfl := h.log.eq_of_pc_eq hw hv hpc
    rw [hnil w hw rfl rfl, List.length_nil] at hlt
    omega
  · have := h.log.start_add_le hv hw hblk.symm hpc
    rw [hnil w hw hblk (by omega), List.length_nil] at hlt
    omega

/-- From the start of a visit with code to the next boundary. -/
theorem length_trace_shares_code (hx : ∀ inst ∈ x.insts, ¬IsCmpXchg inst) (hv : v ∈ M.log)
    (hne : v.code ≠ []) {e : Env Slot} {m : Machine Slot}
    (hun : Unmarked (step M.fn W) M.boundary k ⟨v.block, v.start, e, m⟩) :
    (trace (step M.fn W) (Config.shares M.fn W) k ⟨v.block, v.start, e, m⟩).length ≤ 1 := by
  obtain ⟨K, hK, hpos, hrun, hin⟩ := iter_execList (W := W) (e := e) (m := m) (h.codeAt hv)
  have hle (k : ℕ) (hk : k ≤ K) :
      (trace (step M.fn W) (Config.shares M.fn W) k ⟨v.block, v.start, e, m⟩).length ≤ 1 := by
    refine (length_trace_shares_le (h.codeAt hv) (Env.inSlots_nil e)
      (fun j hj => hin j (by omega))
      (by omega)).trans (h.sharings_le hx hv)
  rcases Nat.lt_or_ge K k with hlt | hge
  swap
  · exact hle k hge
  obtain ⟨j, rfl⟩ := Nat.exists_eq_add_of_lt hlt
  rw [Nat.add_assoc]
  have hKpos := hpos hne
  cases hc' : iter (step M.fn W) K ⟨v.block, v.start, e, m⟩ with
  | done r =>
    rw [trace_add_of_done hc']
    exact hle K (le_refl K)
  | cont c' =>
    have hun' (i : ℕ) (hi : i < j + 1) (d : Config Lbl Slot)
        (hd : iter (step M.fn W) i c' = .cont d) : M.boundary d = false :=
      hun (K + i) (by omega) (by omega) d (by rwa [iter_add hc'])
    have hout : c'.ip = 0 ∨ ∃ t, c'.block = .inst t ∧ ¬M.InCode c' := by
      obtain ⟨b, -, hb, -⟩ := h.log.block_spec hv
      rw [hc'] at hrun
      rcases hx' : execList W v.code e m with _ | ⟨_ | l | v', e', m'⟩
      · rw [hx'] at hrun
        cases hrun
      · rw [hx'] at hrun
        cases hrun
        exact .inr ⟨b.pc, hb, h.not_inCode_end hv e' m' (hun' 0 (by omega) _ rfl)⟩
      · rw [hx'] at hrun
        cases hrun
        exact .inl rfl
      · rw [hx'] at hrun
        cases hrun
    rw [trace_add hc', trace_eq_nil (h.not_shares_of_unmarked hout hun'), List.append_nil]
    exact hle K (le_refl K)

/-- Where there is nothing but the end of a block, the memory is not worked on. -/
theorem trace_shares_end (hv : v ∈ M.log)
    (hnil : ∀ w ∈ M.log, w.block = v.block → w.start = v.start → w.code = [])
    {e : Env Slot} {m : Machine Slot}
    (hun : Unmarked (step M.fn W) M.boundary k ⟨v.block, v.start, e, m⟩) :
    trace (step M.fn W) (Config.shares M.fn W) k ⟨v.block, v.start, e, m⟩ = [] := by
  obtain ⟨b, -, hb, -⟩ := h.log.block_spec hv
  obtain ⟨hsh, hnext⟩ := h.step_of_not_inCode (W := W) hb (h.not_inCode_of_nil hv hnil e m)
  cases k with
  | zero => rfl
  | succ k =>
    rw [trace, hsh]
    cases hs : step M.fn W ⟨v.block, v.start, e, m⟩ with
    | done r => rfl
    | cont c' =>
      obtain ⟨l, rfl⟩ := hnext c' hs
      have hprivate := h.not_shares_of_unmarked (W := W) (c := ⟨l, 0, e, m⟩) (k := k) (.inl rfl)
        fun j hj d hd => hun (j + 1) (by omega) (by omega) d (by rwa [iter_succ_of_cont hs])
      simp only [trace_eq_nil hprivate]
      rfl

/-- From a boundary to the next one, the memory is worked on once at most. -/
theorem length_trace_shares (hx : ∀ inst ∈ x.insts, ¬IsCmpXchg inst)
    (hc : M.boundary c = true) (hun : Unmarked (step M.fn W) M.boundary k c) :
    (trace (step M.fn W) (Config.shares M.fn W) k c).length ≤ 1 := by
  rcases c with ⟨l, ip, e, m⟩
  obtain ⟨v₀, hv₀, hblk₀, hstart₀⟩ := boundary_iff.1 hc
  change v₀.block = l at hblk₀
  change v₀.start = ip at hstart₀
  subst hblk₀ hstart₀
  by_cases hcode : ∃ v ∈ M.log, v.block = v₀.block ∧ v.start = v₀.start ∧ v.code ≠ []
  · obtain ⟨v, hv, hblk, hstart, hne⟩ := hcode
    rw [← hblk, ← hstart] at hun ⊢
    exact h.length_trace_shares_code hx hv hne hun
  · have hnil (w : Visit) (hw : w ∈ M.log) (hblk : w.block = v₀.block)
        (hstart : w.start = v₀.start) : w.code = [] :=
      not_not.1 fun hne => hcode ⟨w, hw, hblk, hstart, hne⟩
    rw [h.trace_shares_end hv₀ hnil hun]
    exact Nat.zero_le 1

end Compiled

end

/-! ## The machines side by side -/

namespace Vm

/-- The memory. -/
def State.memory : Part State (ByteMemory.Mem 64) where
  get s := s.core.mem
  put mem s := { s with core := s.core.setMem mem }
  get_put _ _ := rfl
  put_put _ _ _ := rfl
  put_get _ := rfl

/-- What a run leaves of the memory: after undefined behaviour, it may be anything. -/
def Halt.Left : Halt → ByteMemory.Mem 64 → ByteMemory.Mem 64 → Prop
  | .exited c, _, mem => mem = c.mem
  | .undefined, _, _ => True

end Vm

section

variable {extFuncNames lddwHelpers : List String} {base : Lbl → List (Instr Lbl Slot)}
  {M : Module} {W : World Lbl} {s : Vm.State} {c : Config Lbl Slot} {r : Vm.Halt}
  {r' : Ir.Halt Slot} {mem mem' : ByteMemory.Mem 64}

theorem Matches.put {insns : List EbpfInst} (h : Matches M insns W s c)
    (mem : ByteMemory.Mem 64) :
    Matches M insns W (Vm.State.memory.put mem s) (Config.flat.put mem c) := by
  refine ⟨h.visit, ⟨⟨h.represents.allocated.reg, h.represents.allocated.callStack,
    h.represents.allocated.callItemCnt⟩, ?_, h.represents.count, h.represents.saved,
    h.represents.depth⟩, h.returns⟩
  exact congrArg (Core.setMem · mem) h.represents.core

theorem MatchesHalt.left (h : MatchesHalt r r') (hr : r'.Left mem mem') (mem₀ : ByteMemory.Mem 64) :
    r.Left mem₀ mem' := by
  cases r with
  | undefined => trivial
  | exited c =>
    cases r' with
    | ret v m => exact hr.trans (congrArg Core.mem h.2)
    | ub => cases h

/-- The code of an instruction works on the memory once. -/
def Compiled.sharesOnce (h : Compiled x extFuncNames lddwHelpers patch base M)
    (hlast : LastOk x.insts) (hW : W.Separates M.fn.blocks)
    (hx : ∀ inst ∈ x.insts, ¬IsCmpXchg inst) :
    (simulation h hlast hW).SharesOnce Vm.State.memory Config.flat Vm.Halt.Left Ir.Halt.Left where
  shares := Config.shares M.fn W
  relabel := Ir.Halt.withMem
  rel_put hm mem := hm.put mem
  get_eq hm := (congrArg Core.mem hm.represents.core).symm
  quiet_put _ _ := rfl
  mark_put _ _ := rfl
  shares_put _ _ := rfl
  step_put := step_put
  relabel_self := Ir.Halt.exists_withMem
  relabel_relabel := Ir.Halt.withMem_withMem
  left_relabel mem r mem' := Ir.Halt.left_withMem mem r mem'
  left_of_relDone hm hr := hm.left hr
  once := h.length_trace_shares hx

/-- The code is where its machine is: at a boundary, they match, on the memory as the code
    has seen it last; in the end, both have returned the same value, or have undefined
    behaviour. -/
structure Follows (M : Module) (insns : List EbpfInst) (W : World Lbl)
    (s : Res Vm.State Vm.Halt) (c : Res (Config Lbl Slot) (Ir.Halt Slot)) : Prop where
  boundary : ∀ d, c = .cont d → M.boundary d = true →
    ∃ t, s = .cont t ∧ Matches M insns W (Vm.State.memory.put d.m.mem t) d
  returned : ∀ v m, c = .done (.ret v m) → ∃ core, s = .done (.exited core) ∧ v = core.reg 0
  undefined : c = .done .ub → s = .done .undefined

theorem follows_of_agree (h : Compiled x extFuncNames lddwHelpers patch base M)
    (hlast : LastOk x.insts) (hW : W.Separates M.fn.blocks)
    (hx : ∀ inst ∈ x.insts, ¬IsCmpXchg inst) {s : Res Vm.State Vm.Halt}
    {c : Res (Config Lbl Slot) (Ir.Halt Slot)}
    (hagree : (h.sharesOnce hlast hW hx).Agree s c) : Follows M x.insts W s c where
  boundary := by
    rintro d rfl hd
    exact hagree.of_mark hd
  returned := by
    rintro v m rfl
    obtain ⟨r, mem, r', rfl, hd, hr⟩ := hagree.of_done
    cases r' with
    | ub => cases hr
    | ret v' m' =>
      cases hr
      cases r with
      | undefined => cases hd
      | exited core => exact ⟨core, rfl, hd.1⟩
  undefined := by
    rintro rfl
    obtain ⟨r, mem, r', rfl, hd, hr⟩ := hagree.of_done
    cases r' with
    | ret v m => cases hr
    | ub =>
      cases r with
      | undefined => rfl
      | exited core => cases hd

/-- At the start, the code is on its way to the first instruction. -/
theorem agree_entry (h : Compiled x extFuncNames lddwHelpers patch base M)
    (hlast : LastOk x.insts) (hW : W.Separates M.fn.blocks)
    (hx : ∀ inst ∈ x.insts, ¬IsCmpXchg inst) (e : Env Slot) (m : Machine Slot) :
    (h.sharesOnce hlast hW hx).Agree (.cont (Vm.start (startCore W m))) (.cont (entry e m)) := by
  obtain ⟨k, c, hrun, hm, hun⟩ := iter_setup h hlast W e m
  exact .arriving (n := m.mem) hm hrun ⟨h.not_shares_of_unmarked (.inl rfl) hun, hun⟩

end

section

variable {I : Type*} [DecidableEq I] {V : I → Verifier} {x : I → CompilerXDP}
  {extFuncNames lddwHelpers : I → List String} {patch : I → Bool} {M : I → Module}
  {W : I → World Lbl} {e : I → Env Slot} {m : I → Machine Slot}
  {mem mem' : ByteMemory.Mem 64} {cs : I → Res (Config Lbl Slot) (Ir.Halt Slot)}

/-- Compiled programs side by side. -/
abbrev CodeInterleaves (M : I → Module) (W : I → World Lbl) :
    (I → Res (Config Lbl Slot) (Ir.Halt Slot)) → ByteMemory.Mem 64 →
      (I → Res (Config Lbl Slot) (Ir.Halt Slot)) → ByteMemory.Mem 64 → Prop :=
  Interleaves Config.flat Ir.Halt.Left fun i => step (M i).fn (W i)

/-- Their machines side by side: every instruction takes place at once. -/
abbrev Vm.Interleaves (F : I → Funcs) (x : I → CompilerXDP) (patch : I → Bool) :
    (I → Res Vm.State Vm.Halt) → ByteMemory.Mem 64 → (I → Res Vm.State Vm.Halt) →
      ByteMemory.Mem 64 → Prop :=
  Transition.Interleaves Vm.State.memory Vm.Halt.Left fun i => Vm.step (F i) (x i) (patch i)

/-- Programs without compare-and-exchange that run side by side on the same memory do what
    their machines do, one instruction after the other in some order. -/
theorem exists_interleaves_vm
    (h : ∀ i, Accepts (V i) (x i) (extFuncNames i) (lddwHelpers i) (patch i) (M i))
    (hW : ∀ i, (W i).Separates (M i).fn.blocks)
    (hx : ∀ i, ∀ inst ∈ (x i).insts, ¬IsCmpXchg inst)
    (hrun : CodeInterleaves M W (fun i => .cont (entry (e i) (m i))) mem cs mem') :
    ∃ ss, Vm.Interleaves (fun i => (W i).func) x patch
        (fun i => .cont (Vm.start (startCore (W i) (m i)))) mem ss mem' ∧
      ∀ i, Follows (M i) (x i).insts (W i) (ss i) (cs i) := by
  choose base hc _ using fun i => (h i).exists_compiled
  obtain ⟨ss, hss, hagree⟩ := exists_interleaves
    (fun i => (hc i).sharesOnce (h i).inputOk.last (hW i) (hx i)) hrun
    fun i => agree_entry (hc i) (h i).inputOk.last (hW i) (hx i) (e i) (m i)
  exact ⟨ss, hss, fun i => follows_of_agree (hc i) (h i).inputOk.last (hW i) (hx i) (hagree i)⟩

/-! ### Running programs side by side -/

/-- Steps of the programs, in the order of the list, none of which gets to the end. -/
def runAlong (M : I → Module) (W : I → World Lbl) : List I → (I → Config Lbl Slot) →
    ByteMemory.Mem 64 → Option ((I → Config Lbl Slot) × ByteMemory.Mem 64)
  | [], cs, mem => some (cs, mem)
  | i :: is, cs, mem =>
    match step (M i).fn (W i) (Config.flat.put mem (cs i)) with
    | .cont c => runAlong M W is (Function.update cs i c) (Config.flat.get c)
    | .done _ => none

theorem codeInterleaves_of_runAlong {cs₀ cs₁ cs₂ : I → Config Lbl Slot} {is : List I}
    {mem₀ : ByteMemory.Mem 64} (h : runAlong M W is cs₁ mem = some (cs₂, mem'))
    (hi : CodeInterleaves M W (fun i => .cont (cs₀ i)) mem₀ (fun i => .cont (cs₁ i)) mem) :
    CodeInterleaves M W (fun i => .cont (cs₀ i)) mem₀ (fun i => .cont (cs₂ i)) mem' := by
  induction is generalizing cs₁ mem with
  | nil =>
    cases h
    exact hi
  | cons i is ih =>
    rw [runAlong] at h
    cases hs : step (M i).fn (W i) (Config.flat.put mem (cs₁ i)) with
    | done r =>
      rw [hs] at h
      cases h
    | cont c =>
      rw [hs] at h
      refine ih h ?_
      have hupd : (fun j => Res.cont (Function.update cs₁ i c j)) =
          Function.update (fun j => (.cont (cs₁ j) : Res (Config Lbl Slot) (Ir.Halt Slot))) i
            (.cont c) := by
        funext j
        by_cases hj : j = i
        · subst hj
          simp
        · simp [hj]
      rw [hupd]
      exact hi.tail (.cont hs)

end

/-- A program that adds its second argument to the cell at its first one. -/
def counter : List EbpfInst :=
  [⟨EBPF_ATOMIC_OPCODE_32, 1, 2, 0, EBPF_ATOMIC_ADD⟩, ⟨EBPF_OP_EXIT, 0, 0, 0, 0⟩]

/-- A world in which the cell is at 0, and 1 is added to it. -/
def World.counting : World Lbl := { World.numbered with args := fun n => BitVec.ofNat 64 n }

/-- Two agents that take turns. -/
def turns : ℕ → List Bool
  | 0 => []
  | n + 1 => true :: false :: turns n

/-- Two of them, step by step side by side, count to 2. -/
theorem exists_interleaves_vm_counter :
    ∃ (M : Module) (cs : Bool → Config Lbl Slot) (mem : ByteMemory.Mem 64),
      CodeInterleaves (fun _ => M) (fun _ => World.counting)
        (fun _ => .cont (entry Env.zero Machine.zero)) (fun _ => 0) (fun i => .cont (cs i)) mem ∧
      ByteMemory.load mem 0 32 = 2 ∧
      ∃ ss, Vm.Interleaves (fun _ => World.counting.func) (fun _ => { insts := counter })
          (fun _ => false)
          (fun _ => .cont (Vm.start (startCore World.counting Machine.zero))) (fun _ => 0) ss mem ∧
        ∀ i, Follows M counter World.counting (ss i) (.cont (cs i)) := by
  obtain ⟨M, hM, hp⟩ := exists_accepts Verifier.shape { insts := counter } [] [] false 3
    (fun M => decide (World.counting.Separates M.fn.blocks) &&
      (runAlong (fun _ => M) (fun _ => World.counting) (turns 26)
        (fun _ : Bool => entry Env.zero Machine.zero) fun _ => 0).any
        fun r => ByteMemory.load r.2 0 32 == 2) (by decide +kernel)
  rw [Bool.and_eq_true, decide_eq_true_iff, Option.any_eq_true] at hp
  obtain ⟨hW, ⟨cs, mem⟩, hrun, hcell⟩ := hp
  have hi := codeInterleaves_of_runAlong hrun .refl
  refine ⟨M, cs, mem, hi, beq_iff_eq.1 hcell, ?_⟩
  exact exists_interleaves_vm (fun _ => hM) (fun _ => hW) (fun _ => by decide) hi

end EbpfJit
