import EbpfJit.CallReturn

/-!
# The frame pointer

Nothing keeps an instruction from writing `r10`: the compiler only checks that a
register is there. If no executed instruction does, `r10` goes down by
`STACK_SIZE` at a local call, and up again at the return, so that it tells the
number of active calls.

* `writes`: the registers that an instruction writes;
* `framePointer_of_accepts`: the value of `r10` at every instruction boundary, and after
  returns;
* `not_framePointer_movesTen`: a program that writes `r10` is compiled.
-/

namespace EbpfJit

open Ir Transition

/-- The `imm` of the atomic operations that keep the old value. -/
def fetchingImms : List (BitVec 32) :=
  [EBPF_ATOMIC_ADD ||| EBPF_FETCH, EBPF_ATOMIC_AND ||| EBPF_FETCH,
    EBPF_ATOMIC_OR ||| EBPF_FETCH, EBPF_ATOMIC_XOR ||| EBPF_FETCH]

/-- The register that an instruction writes, if it does not call a local function. -/
def written (inst : EbpfInst) : SwitchCase → Option (BitVec 4)
  | .store _ | .ja | .jcond _ | .jset | .exit => none
  | .lddw => if 6 < inst.src_reg then none else some inst.dst_reg
  | .call => some 0
  | .atomic =>
    if inst.imm ∈ fetchingImms then some inst.src_reg
    -- The old value of an exchange is dropped.
    else if inst.imm ∈ [EBPF_ATOMIC_ADD, EBPF_ATOMIC_AND, EBPF_ATOMIC_OR, EBPF_ATOMIC_XOR,
      EBPF_XCHG] then none
    else some 0
  | _ => some inst.dst_reg

/-- The instruction writes the register `r`. -/
def writes (inst : EbpfInst) (r : BitVec 4) : Bool :=
  decide ((switchCase inst.code).bind (written inst) = some r)

/-- None of the executed instructions writes `r10`. -/
def Module.KeepsFramePointer (M : Module) (cs : List (Config Lbl Slot)) : Prop :=
  ∀ c ∈ cs, ∀ inst ∈ M.instAt c, writes inst 10 = false

instance (M : Module) (cs : List (Config Lbl Slot)) : Decidable (M.KeepsFramePointer cs) :=
  inferInstanceAs (Decidable (∀ c ∈ cs, ∀ inst ∈ M.instAt c, writes inst 10 = false))

/-! ## Registers that are not written -/

namespace Core

variable {inst : EbpfInst} {c c' : Core} {F : Funcs} {x : CompilerXDP} {patch : Bool}
  {nextInst : EbpfInst} {r d : BitVec 4}

theorem reg_setReg_of_ne (c : Core) (v : BitVec 64) (h : some d ≠ some r) :
    (c.setReg d v).reg r = c.reg r := by
  refine c.regs_setReg_of_ne d v fun heq => h ?_
  rw [BitVec.eq_of_toNat_eq heq]

theorem reg_lddwMapVal (mapPtr : BitVec 64) (hr : some inst.dst_reg ≠ some r) :
    (c.lddwMapVal inst F x patch nextInst mapPtr).reg r = c.reg r := by
  rw [lddwMapVal]
  split
  · split
    · exact c.reg_setReg_of_ne _ hr
    · rfl
  · exact reg_setReg_of_ne _ _ hr

theorem reg_lddw (hr : written inst .lddw ≠ some r) :
    (c.lddw inst F x patch nextInst).reg r = c.reg r := by
  by_cases hquiet : 6 < inst.src_reg
  · rw [lddw_of_lt hquiet]
  rw [written, if_neg hquiet] at hr
  unfold lddw
  extract_lets mapByFd mapByIdx
  split
  · exact c.reg_setReg_of_ne _ hr
  split
  · exact c.reg_setReg_of_ne _ hr
  split
  · exact reg_lddwMapVal _ hr
  split
  · split
    · exact c.reg_setReg_of_ne _ hr
    · rfl
  split
  · split
    · exact c.reg_setReg_of_ne _ hr
    · rfl
  split
  · exact c.reg_setReg_of_ne _ hr
  split
  · exact reg_lddwMapVal _ hr
  · rfl

theorem reg_of_atomicBinOp {op : RmwOp} {is64 is_fetch : Bool}
    (h : c.atomicBinOp inst op is64 is_fetch = some c')
    (hr : is_fetch = true → some inst.src_reg ≠ some r) : c'.reg r = c.reg r := by
  rw [atomicBinOp, atomicRmw] at h
  split at h
  · cases h
    split
    · next hf => exact reg_setReg_of_ne _ _ (hr hf)
    · rfl
  · cases h

theorem reg_of_atomic (h : c.atomic inst = some c') (hr : written inst .atomic ≠ some r) :
    c'.reg r = c.reg r := by
  -- A fetching operation writes the source register.
  have hfetch {op : BitVec 32} (himm : inst.imm = op ∨ inst.imm = op ||| EBPF_FETCH)
      (hplain : (op &&& EBPF_FETCH == EBPF_FETCH) = false) (hop : op ||| EBPF_FETCH ∈ fetchingImms)
      (hf : (inst.imm &&& EBPF_FETCH == EBPF_FETCH) = true) : some inst.src_reg ≠ some r := by
    rcases himm with himm | himm
    · rw [himm, hplain] at hf
      cases hf
    · rwa [written, if_pos (himm ▸ hop)] at hr
  unfold atomic at h
  extract_lets is64 is_fetch at h
  split at h
  · next himm => exact reg_of_atomicBinOp h (hfetch himm (by decide) (by decide))
  split at h
  · next himm => exact reg_of_atomicBinOp h (hfetch himm (by decide) (by decide))
  split at h
  · next himm => exact reg_of_atomicBinOp h (hfetch himm (by decide) (by decide))
  split at h
  · next himm => exact reg_of_atomicBinOp h (hfetch himm (by decide) (by decide))
  split at h
  · exact reg_of_atomicBinOp h (by simp)
  · next h₁ h₂ h₃ h₄ h₅ =>
    -- What is left is a compare-and-exchange.
    cases h
    push Not at h₁ h₂ h₃ h₄
    rw [written, if_neg (by simp [fetchingImms, h₁, h₂, h₃, h₄]),
      if_neg (by simp [h₁, h₂, h₃, h₄, h₅])] at hr
    rw [cmpXchg]
    refine (reg_setReg_of_ne _ _ hr).trans ((apply_ite (fun c : Core => c.reg r) _ _ _).trans ?_)
    exact ite_self _

/-- An instruction only changes the register it writes. -/
theorem reg_of_effect {sc : SwitchCase}
    (h : c.effect inst F x patch nextInst sc = some c') (hr : written inst sc ≠ some r) :
    c'.reg r = c.reg r := by
  cases sc with
  | endian | loadX =>
    cases h
    exact c.reg_setReg_of_ne _ hr
  | store | ja | exit | jcond | jset =>
    cases h
    rfl
  | call =>
    cases h
    exact reg_setReg_of_ne _ _ hr
  | lddw =>
    cases h
    exact reg_lddw hr
  | atomic => exact reg_of_atomic h hr
  | _ =>
    rw [effect, alu, Option.map_eq_some_iff] at h
    obtain ⟨v, -, rfl⟩ := h
    exact c.reg_setReg_of_ne _ hr

end Core

theorem writes_of_quiet {inst : EbpfInst} (h : Quiet inst) (r : BitVec 4) :
    writes inst r = false := by
  rw [writes, h.1, switchCase_lddw, Option.bind_some, written, if_pos h.2]
  rfl

/-! ## Runs -/

namespace Vm

variable {F : Funcs} {x : CompilerXDP} {patch : Bool} {s s' : State} {r10 base : BitVec 64}
  {fs : List Frame}

/-- The frame pointer went down by `STACK_SIZE` at each of the calls. -/
def Stacked (base : BitVec 64) : BitVec 64 → List Frame → Prop
  | r10, [] => r10 = base
  | r10, f :: fs => r10 = f.regs 10 - BitVec.ofNat 64 STACK_SIZE ∧ Stacked base (f.regs 10) fs

theorem Stacked.eq (h : Stacked base r10 fs) :
    r10 = base - BitVec.ofNat 64 (STACK_SIZE * fs.length) := by
  induction fs generalizing r10 with
  | nil =>
    rw [Stacked] at h
    rw [h, List.length_nil, Nat.mul_zero]
    exact (BitVec.sub_zero base).symm
  | cons f fs ih =>
    obtain ⟨hr10, hrest⟩ := h
    rw [hr10, ih hrest, List.length_cons, Nat.mul_succ, BitVec.ofNat_add, BitVec.sub_sub]

/-- Only calls, returns and instructions that write it change a register. -/
theorem reg_step (h : step F x patch s = .cont s') {r : BitVec 4}
    (hw : writes (insnAt x.insts s.pc) r = false)
    (hcall : isLocalCall (insnAt x.insts s.pc) = false)
    (hexit : isExit (insnAt x.insts s.pc) = false) : s'.core.reg r = s.core.reg r := by
  rcases step_cases h with ⟨h₁, -⟩ | ⟨-, h₁, -⟩ | ⟨-, -, -, sc, hsc, heff⟩
  · rw [hcall] at h₁
    cases h₁
  · rw [hexit] at h₁
    cases h₁
  · rw [writes, hsc, Option.bind_some, decide_eq_false_iff_not] at hw
    exact Core.reg_of_effect heff hw

theorem stacked_step (hs : Stacked base (s.core.regs 10) s.frames)
    (h : step F x patch s = .cont s') (hw : writes (insnAt x.insts s.pc) 10 = false) :
    Stacked base (s'.core.regs 10) s'.frames := by
  rcases step_cases h with ⟨-, hc, hf⟩ | ⟨-, -, f, hf, hc⟩ | ⟨hcall, hexit, hf, -⟩
  · rw [hc, hf]
    exact ⟨Core.regs_enter_ten _, hs⟩
  · rw [hf] at hs
    obtain ⟨hr10, hrest⟩ := hs
    rwa [hc, Core.regs_leave_ten, hr10, BitVec.sub_add_cancel]
  · rw [hf]
    rwa [show s'.core.regs 10 = s.core.regs 10 from reg_step h hw hcall hexit]

/-- In a run that does not write the frame pointer, it went down by `STACK_SIZE` at
    each of the active calls. -/
theorem stacked {n : ℕ} {c : Core} (h : iter (step F x patch) n (start c) = .cont s)
    (hw : ∀ t ∈ trace (step F x patch) (fun t => !isQuiet x.insts t) n (start c),
      writes (insnAt x.insts t.pc) 10 = false) :
    Stacked (c.regs 10) (s.core.regs 10) s.frames := by
  induction n generalizing s with
  | zero =>
    cases h
    rfl
  | succ n ih =>
    obtain ⟨t, hn, ht⟩ := iter_cont_of_le h n.le_succ
    rw [Nat.succ_sub (le_refl n), Nat.sub_self, iter_one] at ht
    rw [trace_add hn] at hw
    refine stacked_step (ih hn fun u hu => hw u (List.mem_append_left _ hu)) ht ?_
    cases hq : isQuiet x.insts t with
    | true =>
      simp only [isQuiet, Bool.and_eq_true, decide_eq_true_eq] at hq
      exact writes_of_quiet hq.1 10
    | false => exact hw t (List.mem_append_right _ (by simp [trace, hq]))

end Vm

section

variable {x : CompilerXDP} {extFuncNames lddwHelpers : List String} {patch : Bool}
  {base : Lbl → List (Instr Lbl Slot)} {M : Module} {W : World Lbl} {s : Vm.State}
  {e : Env Slot} {m : Machine Slot} {k : ℕ} {c d : Config Lbl Slot}

/-- The boundary after the one of a state is the one of the next state. -/
theorem Compiled.next_boundary (h : Compiled x extFuncNames lddwHelpers patch base M)
    (hlast : LastOk x.insts) (hW : W.Separates M.fn.blocks) (hm : Matches M x.insts W s c)
    (hq : isQuiet x.insts s = false) {j : ℕ} (hj : 0 < j)
    (hrun : iter (step M.fn W) j c = .cont d) (hd : M.boundary d = true)
    (hun : Unmarked (step M.fn W) M.boundary j c) :
    ∃ s', Vm.step W.func x patch s = .cont s' ∧ Matches M x.insts W s' d := by
  have hmatch := matched_step h hlast hW hm
  cases hs : Vm.step W.func x patch s with
  | cont s' =>
    rw [hs] at hmatch
    obtain ⟨i, c', hi, hrun', hm', hun'⟩ := hmatch
    -- Both are the first boundary from there on.
    have hij : j = i := by
      rcases lt_trichotomy j i with hlt | heq | hgt
      · rw [hun' j hj hlt d hrun] at hd
        cases hd
      · exact heq
      · have hc' := hun i (hi hq) hgt c' hrun'
        rw [hm'.boundary] at hc'
        cases hc'
    rw [hij, hrun'] at hrun
    cases hrun
    exact ⟨s', rfl, hm'⟩
  | done r =>
    rw [hs] at hmatch
    obtain ⟨i, r', _, hrun', _, hun'⟩ := hmatch
    rcases Nat.lt_or_ge j i with hlt | hge
    · rw [hun' j hj hlt d hrun] at hd
      cases hd
    · rw [iter_done_of_le hrun' hge] at hrun
      cases hrun

/-- A run of the machine writes what the run of the compiled code does. -/
theorem Compiled.keeps (h : Compiled x extFuncNames lddwHelpers patch base M)
    {ts : List Vm.State} {cs : List (Config Lbl Slot)}
    (hts : ∀ t ∈ ts, isQuiet x.insts t = false)
    (htr : List.Forall₂ (Matches M x.insts W) ts cs) (hcs : M.KeepsFramePointer cs) :
    ∀ t ∈ ts, writes (insnAt x.insts t.pc) 10 = false := by
  refine forall_mem_of_forall₂ ((List.forall₂_and_left _ _).2 ⟨hts, htr⟩) ?_ hcs
  rintro t d ⟨hq, hm⟩ hd
  rw [h.instAt_of_matches hm hq] at hd
  split at hd
  · next hquiet => exact writes_of_quiet hquiet 10
  · exact hd _ rfl

/-- In a run that does not write the frame pointer, it tells the frames. -/
theorem Accepts.backward_stacked {V : Verifier} (h : Accepts V x extFuncNames lddwHelpers patch M)
    (hW : W.Separates M.fn.blocks) (hrun : iter (step M.fn W) k (entry e m) = .cont c)
    (hc : M.boundary c = true) (hkeeps : M.KeepsFramePointer (M.executed W k (entry e m))) :
    ∃ s, Matches M x.insts W s c ∧ isQuiet x.insts s = false ∧
      List.Forall₂ (IsFrame M) s.frames (M.activeCalls (M.executed W k (entry e m))) ∧
      Vm.Stacked (stackEnd W) (c.m.slot (.reg 10) 0) s.frames := by
  obtain ⟨base, hcomp, -⟩ := h.exists_compiled
  obtain ⟨n, s, hn, hm, hq, htr, hcalls⟩ := h.backward_calls hW hrun hc
  refine ⟨s, hm, hq, hcalls, ?_⟩
  have hts : ∀ t ∈ trace (Vm.step W.func x patch) (fun t => !isQuiet x.insts t) n
      (Vm.start (startCore W m)), isQuiet x.insts t = false := fun t ht => by
    simpa using (mem_trace ht).1
  have hstacked := Vm.stacked hn (hcomp.keeps hts htr hkeeps)
  rw [← hm.represents.core] at hstacked
  exact hstacked

/-- The frame pointer at the boundary `c`, where the local calls `calls` are active. -/
structure FramePointer (M : Module) (W : World Lbl) (calls : List (Config Lbl Slot))
    (c : Config Lbl Slot) : Prop where
  value : c.m.slot (.reg 10) 0 =
    stackEnd W - BitVec.ofNat 64 (STACK_SIZE * ((c.m.slot .callItemCnt 0).toNat / 5))
  returned : ∀ inst, M.instAt c = some inst → isExit inst = true → ∀ call ∈ calls.head?,
    ∃ j d pc, 0 < j ∧ iter (step M.fn W) j c = .cont d ∧
      Unmarked (step M.fn W) M.boundary j c ∧ M.pcAt call = some pc ∧ d.block = .inst (pc + 1) ∧
      d.ip = 0 ∧ d.m.slot (.reg 10) 0 = call.m.slot (.reg 10) 0

/-- The frame pointer has moved since the last active call. -/
theorem Vm.Stacked.head {base r10 : BitVec 64} {fs : List Frame}
    {calls : List (Config Lbl Slot)} (h : Vm.Stacked base r10 fs)
    (hcalls : List.Forall₂ (IsFrame M) fs calls) {call : Config Lbl Slot}
    (hcall : call ∈ calls.head?) :
    r10 = call.m.slot (.reg 10) 0 - BitVec.ofNat 64 STACK_SIZE := by
  rcases hcalls with _ | ⟨hf, _⟩
  · cases hcall
  · cases hcall
    rw [h.1, hf.regs]
    rfl

/-- A return moves the frame pointer back to where it was before the call. -/
theorem Exits.framePointer {call : Config Lbl Slot} {calls : List (Config Lbl Slot)}
    (h : Exits M W calls c) (hcall : call ∈ calls.head?)
    (hr10 : c.m.slot (.reg 10) 0 = call.m.slot (.reg 10) 0 - BitVec.ofNat 64 STACK_SIZE) :
    ∃ j d pc, 0 < j ∧ iter (step M.fn W) j c = .cont d ∧
      Unmarked (step M.fn W) M.boundary j c ∧ M.pcAt call = some pc ∧ d.block = .inst (pc + 1) ∧
      d.ip = 0 ∧ d.m.slot (.reg 10) 0 = call.m.slot (.reg 10) 0 := by
  obtain ⟨tl, rfl⟩ := List.head?_eq_some_iff.1 hcall
  obtain ⟨j, d, hj, hrun, -, -, hun, -, d', ⟨i, hrun', hun'⟩, hret⟩ := h
  obtain ⟨pc, hpc, hblk, hip⟩ := hret.dest
  refine ⟨j + i, d', pc, by omega, by rw [iter_add hrun, hrun'],
    hun.add hrun fun n hn _ => hun' n hn, hpc, hblk, hip, ?_⟩
  rw [hret.framePointer, hr10, BitVec.sub_add_cancel]

/-- At a boundary of a run of an accepted program that does not write the frame
    pointer, this tells the number of active calls. In any run, only local calls,
    returns and instructions that write it change it. -/
theorem framePointer_of_accepts {V : Verifier} (h : Accepts V x extFuncNames lddwHelpers patch M)
    (hW : W.Separates M.fn.blocks) (hrun : iter (step M.fn W) k (entry e m) = .cont c)
    (hc : M.boundary c = true) :
    (M.KeepsFramePointer (M.executed W k (entry e m)) →
      FramePointer M W (M.activeCalls (M.executed W k (entry e m))) c) ∧
    ∀ j d, 0 < j → iter (step M.fn W) j c = .cont d → M.boundary d = true →
      Unmarked (step M.fn W) M.boundary j c → d.m.slot (.reg 10) 0 ≠ c.m.slot (.reg 10) 0 →
      ∃ inst, M.instAt c = some inst ∧
        (isLocalCall inst = true ∨ isExit inst = true ∨ writes inst 10 = true) := by
  obtain ⟨base, hcomp, -⟩ := h.exists_compiled
  refine ⟨fun hkeeps => ?_, fun j d hj hrun' hd hun hne => ?_⟩
  · obtain ⟨s, hm, hq, hcalls, hstacked⟩ := h.backward_stacked hW hrun hc hkeeps
    constructor
    case value =>
      rw [toNat_count hm.represents, Nat.mul_div_cancel_left _ (by decide), hstacked.eq]
    case returned =>
      intro inst hinst hexit call hcall
      rw [hcomp.instAt_of_matches hm hq] at hinst
      split at hinst
      · cases hinst
      · rw [← Option.some.inj hinst] at hexit
        exact (hcomp.exits h.inputOk.last hW hm hexit hcalls).framePointer hcall
          (hstacked.head hcalls hcall)
  · obtain ⟨n, s, -, hm, hq, -⟩ := h.backward_calls hW hrun hc
    obtain ⟨s', hs, hm'⟩ := hcomp.next_boundary h.inputOk.last hW hm hq hj hrun' hd hun
    rw [hcomp.instAt_of_matches hm hq]
    by_contra hno
    push Not at hno
    -- The machine keeps the register at an instruction of any other kind.
    have hreg : s'.core.reg 10 = s.core.reg 10 := by
      by_cases hquiet : Quiet (insnAt x.insts s.pc)
      · exact Vm.reg_step hs (writes_of_quiet hquiet 10) (isLocalCall_of_quiet hquiet)
          (isExit_of_quiet hquiet)
      · obtain ⟨hcall, hexit, hw⟩ := hno _ (if_neg hquiet)
        exact Vm.reg_step hs (eq_false_of_ne_true hw) (eq_false_of_ne_true hcall)
          (eq_false_of_ne_true hexit)
    rw [← hm.represents.core, ← hm'.represents.core] at hreg
    exact hne hreg

end

theorem framePointer_returnProgram :
    ∃ M c, (M.instAt c).any isExit = true ∧
      (M.activeCalls (M.executed World.numbered 48 (entry Env.zero Machine.zero))).length = 1 ∧
      FramePointer M World.numbered
        (M.activeCalls (M.executed World.numbered 48 (entry Env.zero Machine.zero))) c := by
  obtain ⟨M, c, hM, hW, hrun, hc, hp⟩ := exists_boundary returnProgram 48
    (fun M c => (M.instAt c).any isExit && (decide
      ((M.activeCalls (M.executed World.numbered 48 (entry Env.zero Machine.zero))).length = 1) &&
      decide (M.KeepsFramePointer (M.executed World.numbered 48 (entry Env.zero Machine.zero)))))
    (by decide +kernel)
  rw [Bool.and_eq_true, Bool.and_eq_true, decide_eq_true_iff, decide_eq_true_iff] at hp
  exact ⟨M, c, hp.1, hp.2.1, (framePointer_of_accepts hM hW hrun hc).1 hp.2.2⟩

/-- A program that writes the frame pointer. -/
def movesTen : List EbpfInst := [⟨EBPF_OP_MOV64_IMM, 10, 0, 0, 0⟩, ⟨EBPF_OP_EXIT, 0, 0, 0, 0⟩]

/-- It is compiled, and does write it. -/
theorem not_framePointer_movesTen :
    ∃ M c, Accepts Verifier.shape { insts := movesTen } [] [] false M ∧
      World.numbered.Separates M.fn.blocks ∧
      iter (step M.fn World.numbered) 21 (entry Env.zero Machine.zero) = .cont c ∧
      M.boundary c = true ∧ c.m.slot (.reg 10) 0 ≠ stackEnd World.numbered -
        BitVec.ofNat 64 (STACK_SIZE * ((c.m.slot .callItemCnt 0).toNat / 5)) := by
  obtain ⟨M, c, hM, hW, hrun, hc, hp⟩ := exists_boundary movesTen 21
    (fun _ c => decide (c.m.slot (.reg 10) 0 ≠ stackEnd World.numbered -
      BitVec.ofNat 64 (STACK_SIZE * ((c.m.slot .callItemCnt 0).toNat / 5)))) (by decide +kernel)
  exact ⟨M, c, hM, hW, hrun, hc, of_decide_eq_true hp⟩

end EbpfJit
