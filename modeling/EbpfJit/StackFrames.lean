import EbpfJit.FramePointer

/-!
# Stack frames

The frame of a function is the `EBPF_STACK_SIZE` bytes below `r10`. But a local
call moves `r10` down by `STACK_SIZE`, which is that size in words: the frames of a
function and of its caller overlap.

* `framesSeparate_iff`: the frames of the active functions are only disjoint if there
  is a single one;
* `callFits_iff`: a local call stays within the call stack as long as less than
  `CALL_STACK_SIZE` calls are active, which nothing checks.
-/

namespace EbpfJit

open Ir Transition

/-- The frame of a function with the frame pointer `r10`. -/
def stackFrame (r10 : BitVec 64) : Set (BitVec 64) :=
  ByteMemory.span (r10 - BitVec.ofNat 64 EBPF_STACK_SIZE) EBPF_STACK_SIZE

/-- The frame pointer at a configuration. -/
abbrev r10At (c : Config Lbl Slot) : BitVec 64 := c.m.slot (.reg 10) 0

/-- The frames of a function and of its callers are disjoint, so that a store to the
    one of the function does not change the ones of the callers. -/
structure FramesSeparate (r10 : BitVec 64) (callers : List (BitVec 64)) : Prop where
  disjoint : (r10 :: callers).Pairwise fun p q => Disjoint (stackFrame p) (stackFrame q)
  store : ∀ (mem : ByteMemory.Mem 64) (a : BitVec 64) (w : ℕ) (v : BitVec w),
    ByteMemory.span a (w / 8) ⊆ stackFrame r10 → ∀ p ∈ callers, ∀ b ∈ stackFrame p,
      ByteMemory.store mem a v b = mem b

/-- A frame that is `STACK_SIZE` bytes below another one overlaps with it. -/
theorem not_framesSeparate {r10 p : BitVec 64} {ps : List (BitVec 64)}
    (h : r10 = p - BitVec.ofNat 64 STACK_SIZE) : ¬FramesSeparate r10 (p :: ps) := by
  intro hsep
  have hdis := (List.pairwise_cons.1 hsep.disjoint).1 p List.mem_cons_self
  have hframe : stackFrame r10 = ByteMemory.span
      (p - BitVec.ofNat 64 EBPF_STACK_SIZE - BitVec.ofNat 64 STACK_SIZE) EBPF_STACK_SIZE := by
    rw [stackFrame, h, BitVec.sub_sub, BitVec.sub_sub, BitVec.add_comm]
  rw [hframe, disjoint_comm, stackFrame,
    ByteMemory.disjoint_span_iff (by decide) (by decide)] at hdis
  exact absurd hdis (by decide)

theorem framesSeparate_nil (r10 : BitVec 64) : FramesSeparate r10 [] where
  disjoint := List.pairwise_singleton _ _
  store _ _ _ _ _ _ hp := absurd hp List.not_mem_nil

variable {x : CompilerXDP} {extFuncNames lddwHelpers : List String} {patch : Bool}
  {base : Lbl → List (Instr Lbl Slot)} {M : Module} {W : World Lbl} {V : Verifier}
  {e : Env Slot} {m : Machine Slot} {k : ℕ} {c : Config Lbl Slot}

/-- In a run that does not write the frame pointer, the frames of the active
    functions are disjoint exactly when no local call is active. -/
theorem framesSeparate_iff (h : Accepts V x extFuncNames lddwHelpers patch M)
    (hW : W.Separates M.fn.blocks) (hrun : iter (step M.fn W) k (entry e m) = .cont c)
    (hc : M.boundary c = true) (hkeeps : M.KeepsFramePointer (M.executed W k (entry e m))) :
    FramesSeparate (r10At c) ((M.activeCalls (M.executed W k (entry e m))).map r10At) ↔
      M.activeCalls (M.executed W k (entry e m)) = [] := by
  obtain ⟨s, -, -, hcalls, hstacked⟩ := h.backward_stacked hW hrun hc hkeeps
  cases hactive : M.activeCalls (M.executed W k (entry e m)) with
  | nil => exact ⟨fun _ => rfl, fun _ => framesSeparate_nil _⟩
  | cons call calls =>
    rw [hactive] at hcalls
    refine ⟨fun hsep => absurd hsep (not_framesSeparate ?_), fun hnil => by cases hnil⟩
    exact hstacked.head hcalls rfl

/-- The program comes to its first local call. -/
theorem exists_call_returnProgram :
    ∃ M c, Accepts Verifier.shape { insts := returnProgram } [] [] false M ∧
      World.numbered.Separates M.fn.blocks ∧
      iter (step M.fn World.numbered) 21 (entry Env.zero Machine.zero) = .cont c ∧
      M.boundary c = true ∧ (M.instAt c).any isLocalCall = true ∧
      M.activeCalls (M.executed World.numbered 21 (entry Env.zero Machine.zero)) = [] ∧
      M.KeepsFramePointer (M.executed World.numbered 21 (entry Env.zero Machine.zero)) := by
  obtain ⟨M, c, hM, hW, hrun, hc, hp⟩ := exists_boundary returnProgram 21
    (fun M c => (M.instAt c).any isLocalCall &&
      ((M.activeCalls (M.executed World.numbered 21 (entry Env.zero Machine.zero))).isEmpty &&
      decide (M.KeepsFramePointer (M.executed World.numbered 21 (entry Env.zero Machine.zero)))))
    (by decide +kernel)
  rw [Bool.and_eq_true, Bool.and_eq_true, List.isEmpty_iff, decide_eq_true_iff] at hp
  exact ⟨M, c, hM, hW, hrun, hc, hp⟩

theorem framesSeparate_returnProgram :
    ∃ (M : Module) (c : Config Lbl Slot), (M.instAt c).any isLocalCall = true ∧
      FramesSeparate (r10At c) ((M.activeCalls
        (M.executed World.numbered 21 (entry Env.zero Machine.zero))).map r10At) := by
  obtain ⟨M, c, hM, hW, hrun, hc, hcall, hactive, hkeeps⟩ := exists_call_returnProgram
  exact ⟨M, c, hcall, (framesSeparate_iff hM hW hrun hc hkeeps).2 hactive⟩

/-- After a local call, they are not. -/
theorem not_framesSeparate_returnProgram :
    ∃ M c, Accepts Verifier.shape { insts := returnProgram } [] [] false M ∧
      World.numbered.Separates M.fn.blocks ∧
      iter (step M.fn World.numbered) 47 (entry Env.zero Machine.zero) = .cont c ∧
      M.boundary c = true ∧
      M.KeepsFramePointer (M.executed World.numbered 47 (entry Env.zero Machine.zero)) ∧
      ¬FramesSeparate (r10At c) ((M.activeCalls
        (M.executed World.numbered 47 (entry Env.zero Machine.zero))).map r10At) := by
  obtain ⟨M, c, hM, hW, hrun, hc, hp⟩ := exists_boundary returnProgram 47
    (fun M c => decide (r10At c = 81856) && (decide
      ((M.activeCalls (M.executed World.numbered 47 (entry Env.zero Machine.zero))).map r10At =
        [81920]) &&
      decide (M.KeepsFramePointer (M.executed World.numbered 47 (entry Env.zero Machine.zero)))))
    (by decide +kernel)
  rw [Bool.and_eq_true, Bool.and_eq_true, decide_eq_true_iff, decide_eq_true_iff,
    decide_eq_true_iff] at hp
  refine ⟨M, c, hM, hW, hrun, hc, hp.2.2, ?_⟩
  rw [hp.1, hp.2.1]
  exact not_framesSeparate (by decide)

/-! ## Overflow -/

/-- The data stack, all that is allocated at `stackBegin`: there are 10 words behind
    `stackEnd`. -/
def dataStack (W : World Lbl) : Set (BitVec 64) :=
  ByteMemory.span (W.place 0) (8 * (STACK_SIZE * MAX_LOCAL_FUNC_DEPTH + 10))

/-- A local call at `c` gets to the function, having written five items of the call
    stack, and the frame of the function is in the data stack. -/
def CallFits (M : Module) (W : World Lbl) (c : Config Lbl Slot) : Prop :=
  ∃ j d, 0 < j ∧ iter (step M.fn W) j c = .cont d ∧ M.boundary d = true ∧
    Unmarked (step M.fn W) M.boundary j c ∧
    (d.m.slot .callItemCnt 0).toNat = (c.m.slot .callItemCnt 0).toNat + 5 ∧
    (c.m.slot .callItemCnt 0).toNat + 5 ≤ CALL_STACK_SIZE * 5 ∧
    (∀ i, i < (c.m.slot .callItemCnt 0).toNat ∨ (c.m.slot .callItemCnt 0).toNat + 5 ≤ i →
      d.m.slot .callStack i = c.m.slot .callStack i) ∧
    stackFrame (r10At d) ⊆ dataStack W

theorem slot_pushItems (m : Machine Slot) (n : ℕ) (a : BitVec 64) (c : Core) {i : ℕ}
    (hi : i < 5 * n ∨ 5 * n + 5 ≤ i) :
    (pushItems m n a c).slot .callStack i = m.slot .callStack i := by
  have hne (j : ℕ) (hj : j < 5) : i ≠ 5 * n + j := by omega
  have h₀ : i ≠ 5 * n := hne 0 (by decide)
  simp [pushItems, h₀, hne 1 (by decide), hne 2 (by decide), hne 3 (by decide),
    hne 4 (by decide)]

theorem slot_callItemCnt_pushItems (m : Machine Slot) (n : ℕ) (a : BitVec 64) (c : Core) :
    (pushItems m n a c).slot .callItemCnt 0 = BitVec.ofNat 64 (5 * n + 5) := by
  simp [pushItems]

/-- A local call gets to the function if there is a place for its frame. -/
theorem Compiled.enters (h : Compiled x extFuncNames lddwHelpers patch base M)
    (hlast : LastOk x.insts) {s : Vm.State} (hm : Matches M x.insts W s c)
    (hcall : isLocalCall (insnAt x.insts s.pc) = true)
    (hlt : s.frames.length < CALL_STACK_SIZE) :
    ∃ j d a, 0 < j ∧ iter (step M.fn W) j c = .cont d ∧ M.boundary d = true ∧
      Unmarked (step M.fn W) M.boundary j c ∧
      d.m = withCore (pushItems c.m s.frames.length a s.core) s.core.enter := by
  obtain ⟨pc, core, frames⟩ := s
  obtain ⟨block, ip, e, m⟩ := c
  obtain ⟨⟨v, hv, rfl, rfl, rfl⟩, hrep, hrets⟩ := hm
  obtain ⟨hsc, hsrc⟩ := of_decide_eq_true hcall
  obtain ⟨_, _, sc, hsc', hl⟩ := h.log.legal hv
  rw [hsc, Option.some.injEq] at hsc'
  subst hsc'
  rw [CaseLegal, if_pos hsrc] at hl
  have hcode := h.log.runCode_eq (W := W) (e := e) (m := m) hv hsc fun s => by
    rw [emitCase, if_pos hsrc]
    exact acts_emitLocalCall (s := s) hrep hlt hl.1 hl.2
  obtain ⟨w, hw, _, j, hj, ⟨e', hrun⟩, hun⟩ := h.iter_goto hlast.1 hv hl.2 hcode
  exact ⟨j, _, _, hj, hrun, boundary_iff.2 ⟨w, hw, rfl, rfl⟩, hun, rfl⟩

/-- A local call with a full call stack stores outside of it. -/
theorem Compiled.overflows (h : Compiled x extFuncNames lddwHelpers patch base M)
    (hlast : LastOk x.insts) (hW : W.Separates M.fn.blocks) {s : Vm.State}
    (hm : Matches M x.insts W s c) (hcall : isLocalCall (insnAt x.insts s.pc) = true)
    (hfull : ¬s.frames.length < CALL_STACK_SIZE) :
    ∃ j, iter (step M.fn W) j c = .done .ub := by
  obtain ⟨hsc, hsrc⟩ := of_decide_eq_true hcall
  have hmatch := matched_step h hlast hW hm
  rw [Vm.step_eq hsc, Vm.exec, if_pos hsrc, Vm.enter, if_neg hfull] at hmatch
  -- The machine is stuck, and so the code is undefined.
  obtain ⟨j, r, _, hrun, hr, _⟩ := hmatch
  cases r with
  | ub => exact ⟨j, hrun⟩
  | ret => cases hr

/-- There is room on the data stack for the frame of a function that the one with
    the frame pointer `r10` calls. -/
def HasRoom (W : World Lbl) (r10 : BitVec 64) : Prop :=
  STACK_SIZE + EBPF_STACK_SIZE ≤ (r10 - W.place 0).toNat ∧
    (r10 - W.place 0).toNat ≤ 8 * (STACK_SIZE * MAX_LOCAL_FUNC_DEPTH + 10) + STACK_SIZE

theorem stackFrame_subset_iff {r10 : BitVec 64} :
    stackFrame (r10 - BitVec.ofNat 64 STACK_SIZE) ⊆ dataStack W ↔ HasRoom W r10 := by
  have hoff : r10 - BitVec.ofNat 64 STACK_SIZE - BitVec.ofNat 64 EBPF_STACK_SIZE - W.place 0 =
      (r10 - W.place 0) - BitVec.ofNat 64 (STACK_SIZE + EBPF_STACK_SIZE) := by
    rw [BitVec.ofNat_add]
    generalize BitVec.ofNat 64 STACK_SIZE = a, BitVec.ofNat 64 EBPF_STACK_SIZE = b
    simp only [BitVec.sub_sub]
    congr 1
    ac_rfl
  rw [stackFrame, dataStack, ByteMemory.span_subset_iff (by decide) (by decide) (by decide), hoff,
    BitVec.toNat_sub, BitVec.toNat_ofNat, HasRoom]
  have hlt := (r10 - W.place 0).isLt
  simp only [STACK_SIZE, EBPF_STACK_SIZE, MAX_LOCAL_FUNC_DEPTH]
  omega

/-- There is room for more frames than there is place for on the call stack. -/
theorem hasRoom_of_stacked {r10 : BitVec 64} {fs : List Frame}
    (h : Vm.Stacked (stackEnd W) r10 fs) (hfs : fs.length < CALL_STACK_SIZE) : HasRoom W r10 := by
  have hlt : fs.length < 64 := hfs
  have hoff : r10 - W.place 0 = BitVec.ofNat 64 (8 * (STACK_SIZE * MAX_LOCAL_FUNC_DEPTH)) -
      BitVec.ofNat 64 (STACK_SIZE * fs.length) := by
    rw [h.eq, stackEnd, BitVec.sub_sub, BitVec.add_comm (BitVec.ofNat 64 _) (W.place 0),
      ← BitVec.sub_sub, BitVec.add_comm, BitVec.add_sub_cancel]
  rw [HasRoom, hoff, BitVec.toNat_sub, BitVec.toNat_ofNat, BitVec.toNat_ofNat]
  simp only [STACK_SIZE, EBPF_STACK_SIZE, MAX_LOCAL_FUNC_DEPTH]
  omega

/-- A local call in a state that `c` matches stays within the stacks exactly when there is
    a place for its frame on both. -/
theorem Compiled.fits_iff_of_matches (h : Compiled x extFuncNames lddwHelpers patch base M)
    (hlast : LastOk x.insts) (hW : W.Separates M.fn.blocks) {s : Vm.State}
    (hm : Matches M x.insts W s c) (hq : isQuiet x.insts s = false)
    (hcall : isLocalCall (insnAt x.insts s.pc) = true) :
    CallFits M W c ↔ s.frames.length < CALL_STACK_SIZE ∧ HasRoom W (r10At c) := by
  have hcount := toNat_count hm.represents
  have hr10 : s.core.regs 10 = r10At c := by
    rw [← hm.represents.core]
    rfl
  rw [← stackFrame_subset_iff, ← hr10, ← Core.regs_enter_ten]
  constructor
  · rintro ⟨j, d, hj, hrun, hd, hun, -, hle, -, hsub⟩
    rw [hcount, CALL_STACK_SIZE] at hle
    obtain ⟨s', hs, hm'⟩ := h.next_boundary hlast hW hm hq hj hrun hd hun
    -- The next state is the one after the call.
    have hcore : s'.core = s.core.enter := by
      rcases Vm.step_cases hs with ⟨-, hcore, -⟩ | ⟨hno, -⟩ | ⟨hno, -⟩
      · exact hcore
      · rw [hcall] at hno
        cases hno
      · rw [hcall] at hno
        cases hno
    refine ⟨by rw [CALL_STACK_SIZE]; omega, ?_⟩
    rw [← hcore, ← hm'.represents.core]
    exact hsub
  · rintro ⟨hlt, hsub⟩
    obtain ⟨j, d, a, hj, hrun, hd, hun, hdm⟩ := h.enters hlast hm hcall hlt
    have hlt' : s.frames.length < 64 := hlt
    refine ⟨j, d, hj, hrun, hd, hun, ?_, ?_, fun i hi => ?_, ?_⟩
    · rw [hdm, withCore_slot_callItemCnt, slot_callItemCnt_pushItems, hcount, BitVec.toNat_ofNat]
      omega
    · rw [hcount, CALL_STACK_SIZE]
      omega
    · rw [hcount] at hi
      rw [hdm, withCore_slot_callStack, slot_pushItems _ _ _ _ hi]
    · rw [r10At, hdm]
      exact hsub

/-- A local call stays within the stacks exactly when less than `CALL_STACK_SIZE` calls
    are active and there is room for a frame, as there is unless the frame pointer is
    written; with more active calls, it is undefined. -/
theorem callFits_iff (h : Accepts V x extFuncNames lddwHelpers patch M)
    (hW : W.Separates M.fn.blocks) (hrun : iter (step M.fn W) k (entry e m) = .cont c)
    (hc : M.boundary c = true) {inst : EbpfInst} (hinst : M.instAt c = some inst)
    (hcall : isLocalCall inst = true) :
    (CallFits M W c ↔
      (M.activeCalls (M.executed W k (entry e m))).length < CALL_STACK_SIZE ∧
        HasRoom W (r10At c)) ∧
    (M.KeepsFramePointer (M.executed W k (entry e m)) →
      (CallFits M W c ↔
        (M.activeCalls (M.executed W k (entry e m))).length < CALL_STACK_SIZE)) ∧
    ((M.activeCalls (M.executed W k (entry e m))).length = CALL_STACK_SIZE →
      ∃ j, iter (step M.fn W) j c = .done .ub) := by
  obtain ⟨base, hcomp, -⟩ := h.exists_compiled
  obtain ⟨n, s, -, hm, hq, -, hcalls⟩ := h.backward_calls hW hrun hc
  have hinst' : isLocalCall (insnAt x.insts s.pc) = true := by
    rw [hcomp.instAt_of_matches hm hq] at hinst
    split at hinst
    · cases hinst
    · rwa [Option.some.inj hinst]
  have hiff := hcomp.fits_iff_of_matches h.inputOk.last hW hm hq hinst'
  rw [hcalls.length_eq] at hiff
  refine ⟨hiff, fun hkeeps => ?_, fun hfull => ?_⟩
  · rw [hiff]
    refine ⟨fun hfits => hfits.1, fun hlt => ⟨hlt, ?_⟩⟩
    obtain ⟨s', -, -, hcalls', hstacked⟩ := h.backward_stacked hW hrun hc hkeeps
    rw [← hcalls'.length_eq] at hlt
    exact hasRoom_of_stacked hstacked hlt
  · rw [← hcalls.length_eq] at hfull
    exact hcomp.overflows h.inputOk.last hW hm hinst' (by rw [hfull]; exact lt_irrefl _)

theorem callFits_returnProgram :
    ∃ (M : Module) (c : Config Lbl Slot), (M.instAt c).any isLocalCall = true ∧
      CallFits M World.numbered c := by
  obtain ⟨M, c, hM, hW, hrun, hc, hp, hactive, hkeeps⟩ := exists_call_returnProgram
  obtain ⟨inst, hinst, hcall⟩ := (Option.any_eq_true _ _).1 hp
  refine ⟨M, c, hp, ((callFits_iff hM hW hrun hc hinst hcall).2.1 hkeeps).2 ?_⟩
  rw [hactive]
  decide

/-- A function that calls itself, without an end. -/
def recursion : List EbpfInst :=
  [⟨EBPF_OP_JA, 0, 0, 0, 0⟩, ⟨EBPF_OP_CALL, 0, 1, 0, -2⟩, ⟨EBPF_OP_EXIT, 0, 0, 0, 0⟩]

/-- It calls itself again and again, until the call stack is full. -/
theorem iter_recursion {F : Funcs} (c : Core) {n : ℕ} (hn : n ≤ CALL_STACK_SIZE) :
    ∃ c' fs, iter (Vm.step F { insts := recursion } false) (2 * n + 1) (Vm.start c) =
      .cont ⟨1, c', fs⟩ ∧ fs.length = n := by
  have hjump (c' : Core) (fs : List Frame) :
      Vm.step F { insts := recursion } false ⟨0, c', fs⟩ = .cont ⟨1, c', fs⟩ := rfl
  induction n with
  | zero => exact ⟨c, [], by rw [iter_one, Vm.start, hjump], rfl⟩
  | succ n ih =>
    obtain ⟨c', fs, hrun, hfs⟩ := ih (by omega)
    have hlt : fs.length < CALL_STACK_SIZE := by omega
    have hcall : Vm.step F { insts := recursion } false ⟨1, c', fs⟩ =
        .cont ⟨0, c'.enter, ⟨2, c'.regs⟩ :: fs⟩ := if_pos hlt
    refine ⟨c'.enter, ⟨2, c'.regs⟩ :: fs, ?_, by rw [List.length_cons, hfs]⟩
    rw [show 2 * (n + 1) + 1 = (2 * n + 1) + 2 by omega, iter_add hrun, iter_succ_of_cont hcall,
      iter_one, hjump]

/-- The call after that does not fit. -/
theorem not_callFits_recursion :
    ∃ M k c, Accepts Verifier.shape { insts := recursion } [] [] false M ∧
      World.numbered.Separates M.fn.blocks ∧
      iter (step M.fn World.numbered) k (entry Env.zero Machine.zero) = .cont c ∧
      M.boundary c = true ∧ (M.instAt c).any isLocalCall = true ∧
      ¬CallFits M World.numbered c ∧ ∃ j, iter (step M.fn World.numbered) j c = .done .ub := by
  obtain ⟨M, hM, hW⟩ := exists_accepts Verifier.shape { insts := recursion } [] [] false 4
    (fun M => decide (World.numbered.Separates M.fn.blocks)) (by decide +kernel)
  rw [decide_eq_true_iff] at hW
  obtain ⟨base, hcomp, -⟩ := hM.exists_compiled
  obtain ⟨c', fs, hn, hfs⟩ := iter_recursion (startCore World.numbered Machine.zero) (le_refl _)
  obtain ⟨k, c, hrun, hm⟩ := hM.forward hW hn
  have hany : (M.instAt c).any isLocalCall = true :=
    hcomp.any_instAt hm rfl fun _ => isLocalCall_of_quiet
  refine ⟨M, k, c, hM, hW, hrun, hm.boundary, hany, ?_, ?_⟩
  · rintro ⟨j, d, -, -, -, -, -, hle, -⟩
    rw [toNat_count hm.represents, hfs, CALL_STACK_SIZE] at hle
    omega
  · exact hcomp.overflows hM.inputOk.last hW hm rfl (by rw [hfs]; exact lt_irrefl _)

end EbpfJit
