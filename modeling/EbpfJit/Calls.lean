import EbpfJit.Refinement

/-!
# Active local calls

The instruction boundaries of a run tell which local calls are active: a call is
from when it is executed on until an exit returns from it, which is from the last
one of those (`Module.activeCalls`). The frames of the machine, and hence the items
on the call stack of the compiled code, are the ones of the active calls.

* `Module.instAt`: the instruction whose code is at a configuration;
* `Accepts.backward_calls`: the state of the machine at a boundary, with a frame for
  every active call.
-/

namespace EbpfJit

open Ir Transition

/-- The instruction is a call of a local function. -/
def isLocalCall (inst : EbpfInst) : Bool :=
  decide (switchCase inst.code = some .call ∧ inst.src_reg = 1)

/-- The instruction is an exit. -/
def isExit (inst : EbpfInst) : Bool := decide (switchCase inst.code = some .exit)

namespace Module

variable (M : Module)

/-- The index of the instruction whose code starts at the configuration. -/
def pcAt (c : Config Lbl Slot) : Option ℕ :=
  (M.log.find? fun v => decide (v.block = c.block) && decide (v.start = c.ip) &&
    !v.code.isEmpty).map (·.pc)

/-- The instruction whose code starts at the configuration. -/
def instAt (c : Config Lbl Slot) : Option EbpfInst := (M.pcAt c).map (insnAt M.prog.insns)

/-- The instruction boundaries that a run goes through in its first `k` steps. -/
def executed (W : World Lbl) (k : ℕ) (c : Config Lbl Slot) : List (Config Lbl Slot) :=
  trace (step M.fn W) M.boundary k c

/-- The local calls among the boundaries that are active after them, the last one first. -/
def activeCalls (cs : List (Config Lbl Slot)) : List (Config Lbl Slot) :=
  pending (fun c => (M.instAt c).any isLocalCall) (fun c => (M.instAt c).any isExit) cs

end Module

variable {x : CompilerXDP} {extFuncNames lddwHelpers : List String} {patch : Bool}
  {base : Lbl → List (Instr Lbl Slot)} {M : Module} {W : World Lbl} {v : Visit}

/-! ## Instructions at boundaries -/

namespace Compiled

variable (h : Compiled x extFuncNames lddwHelpers patch base M)
include h

theorem insns_eq : M.prog.insns = x.insts := by
  rw [h.prog_eq]
  rfl

/-- The code at a position is the one of a single instruction. -/
theorem eq_of_position {w : Visit} (hv : v ∈ M.log) (hw : w ∈ M.log) (hblk : v.block = w.block)
    (hstart : v.start = w.start) (hvne : v.code ≠ []) (hwne : w.code ≠ []) : v = w := by
  have hvpos := List.length_pos_iff.2 hvne
  have hwpos := List.length_pos_iff.2 hwne
  rcases lt_trichotomy v.pc w.pc with hlt | heq | hgt
  · have := h.log.start_add_le hv hw hblk hlt
    omega
  · exact h.log.eq_of_pc_eq hv hw heq
  · have := h.log.start_add_le hw hv hblk.symm hgt
    omega

theorem pcAt_of_visit (hv : v ∈ M.log) (hne : v.code ≠ []) (e : Env Slot) (m : Machine Slot) :
    M.pcAt ⟨v.block, v.start, e, m⟩ = some v.pc := by
  rw [Module.pcAt]
  cases hfind : M.log.find? fun w => decide (w.block = v.block) && decide (w.start = v.start) &&
      !w.code.isEmpty with
  | none =>
    have hno := List.find?_eq_none.1 hfind v hv
    simp [hne] at hno
  | some w =>
    have hw := List.find?_some hfind
    simp only [Bool.and_eq_true, decide_eq_true_eq, Bool.not_eq_true', List.isEmpty_eq_false_iff]
      at hw
    have := h.eq_of_position hv (List.mem_of_find?_eq_some hfind) hw.1.1.symm hw.1.2.symm hne hw.2
    rw [this]
    rfl

/-- There is no code at the end of a block. -/
theorem pcAt_of_empty (hv : v ∈ M.log) (hnil : v.code = [])
    (hbeg : Begins x.insts (nextPc v.pc (insnAt x.insts v.pc))) (e : Env Slot)
    (m : Machine Slot) : M.pcAt ⟨v.block, v.start, e, m⟩ = none := by
  rw [Module.pcAt, Option.map_eq_none_iff, List.find?_eq_none]
  intro w hw
  simp only [Bool.and_eq_true, decide_eq_true_eq, Bool.not_eq_true', List.isEmpty_eq_false_iff,
    not_and]
  rintro ⟨hblk, hstart⟩ hne
  have hpos := List.length_pos_iff.2 hne
  -- Code before it in the block ends before it.
  rcases lt_trichotomy w.pc v.pc with hlt | heq | hgt
  · have := h.log.start_add_le hw hv hblk hlt
    omega
  · rw [h.log.eq_of_pc_eq hw hv heq] at hne
    exact hne hnil
  · -- What comes after is in another block.
    have hle := h.log.nextPc_le_pc hw hgt
    obtain ⟨u, hu, hupc⟩ : ∃ u ∈ M.log, u.pc = nextPc v.pc (insnAt x.insts v.pc) := by
      rcases h.log.next hv with ⟨hend, -⟩ | ⟨u, hu, hupc, -, -⟩
      · have := h.log.pc_lt hw
        rw [h.full] at hend
        omega
      · exact ⟨u, hu, hupc⟩
    exact h.log.block_ne hv hu hw (hupc ▸ hbeg) (hupc ▸ lt_nextPc _ _) (hupc ▸ hle) hblk

theorem pcAt_of_matches {s : Vm.State} {c : Config Lbl Slot} (hm : Matches M x.insts W s c)
    (hq : ¬Quiet (insnAt x.insts s.pc)) : M.pcAt c = some s.pc := by
  obtain ⟨pc, core, frames⟩ := s
  obtain ⟨block, ip, e, m⟩ := c
  obtain ⟨⟨v, hv, rfl, rfl, rfl⟩, _, _⟩ := hm
  obtain ⟨_, body, t, _, hcode, _⟩ := (h.log.shape hv).of_not_quiet hq
  exact h.pcAt_of_visit hv (by simp [hcode]) e m

/-- The instruction at a boundary is the one of the state, if it has any code. -/
theorem instAt_of_matches {s : Vm.State} {c : Config Lbl Slot} (hm : Matches M x.insts W s c)
    (hq : isQuiet x.insts s = false) :
    M.instAt c = if Quiet (insnAt x.insts s.pc) then none else some (insnAt x.insts s.pc) := by
  by_cases hquiet : Quiet (insnAt x.insts s.pc)
  · have hbeg : Begins x.insts (nextPc s.pc (insnAt x.insts s.pc)) := by
      simpa only [isQuiet, decide_eq_true hquiet, Bool.true_and, Bool.not_eq_false',
        decide_eq_true_eq] using hq
    obtain ⟨pc, core, frames⟩ := s
    obtain ⟨block, ip, e, m⟩ := c
    obtain ⟨⟨v, hv, rfl, rfl, rfl⟩, _, _⟩ := hm
    rw [if_pos hquiet, Module.instAt,
      h.pcAt_of_empty hv ((h.log.shape hv).nil_of_quiet hquiet) hbeg]
    rfl
  · rw [if_neg hquiet, Module.instAt, h.pcAt_of_matches hm hquiet, h.insns_eq]
    rfl

/-- An instruction without code is neither a call nor an exit. -/
theorem any_instAt {s : Vm.State} {c : Config Lbl Slot} (hm : Matches M x.insts W s c)
    (hq : isQuiet x.insts s = false) {p : EbpfInst → Bool}
    (hp : ∀ inst, Quiet inst → p inst = false) :
    (M.instAt c).any p = p (insnAt x.insts s.pc) := by
  rw [h.instAt_of_matches hm hq]
  split
  · next hquiet => exact (hp _ hquiet).symm
  · rfl

end Compiled

theorem isLocalCall_of_quiet {inst : EbpfInst} (h : Quiet inst) : isLocalCall inst = false := by
  rw [isLocalCall, h.1, switchCase_lddw]
  simp

theorem isExit_of_quiet {inst : EbpfInst} (h : Quiet inst) : isExit inst = false := by
  rw [isExit, h.1, switchCase_lddw]
  simp

/-! ## Frames -/

namespace Vm

variable {F : Funcs} {s s' : State}

theorem next_cont {inst : EbpfInst} {sc : SwitchCase} (h : next F x patch inst sc s = .cont s') :
    s.core.effect inst F x patch (insnAt x.insts (s.pc + 1)) sc = some s'.core ∧
      s'.frames = s.frames := by
  rw [next] at h
  split at h
  · next c hc =>
    cases h
    exact ⟨hc, rfl⟩
  · cases h

/-- A step is a local call, a return, or has the effect of an instruction. -/
theorem step_cases (h : step F x patch s = .cont s') :
    (isLocalCall (insnAt x.insts s.pc) = true ∧ s'.core = s.core.enter ∧
      s'.frames = ⟨s.pc + 1, s.core.regs⟩ :: s.frames) ∨
    (isLocalCall (insnAt x.insts s.pc) = false ∧ isExit (insnAt x.insts s.pc) = true ∧
      ∃ f, s.frames = f :: s'.frames ∧ s'.core = s.core.leave f) ∨
    (isLocalCall (insnAt x.insts s.pc) = false ∧ isExit (insnAt x.insts s.pc) = false ∧
      s'.frames = s.frames ∧ ∃ sc, switchCase (insnAt x.insts s.pc).code = some sc ∧
        s.core.effect (insnAt x.insts s.pc) F x patch (insnAt x.insts (s.pc + 1)) sc =
          some s'.core) := by
  cases hsc : switchCase (insnAt x.insts s.pc).code with
  | none =>
    rw [step, hsc] at h
    cases h
  | some sc =>
    rw [step_eq hsc] at h
    simp only [isLocalCall, isExit, hsc, Option.some.injEq, decide_eq_true_eq,
      decide_eq_false_iff_not]
    generalize insnAt x.insts s.pc = inst at h ⊢
    cases sc with
    | exit =>
      rw [exec, leave] at h
      split at h
      · cases h
      · next f fs hfs =>
        cases h
        exact .inr (.inl ⟨by simp, rfl, f, hfs, rfl⟩)
    | call =>
      rw [exec] at h
      by_cases hsrc : inst.src_reg = 1
      · rw [if_pos hsrc, enter] at h
        split at h
        · cases h
          exact .inl ⟨⟨rfl, hsrc⟩, rfl, rfl⟩
        · cases h
      · rw [if_neg hsrc] at h
        split at h
        · cases h
        · obtain ⟨heff, hframes⟩ := next_cont h
          exact .inr (.inr ⟨fun hcall => hsrc hcall.2, by simp, hframes, _, rfl, heff⟩)
    -- Jumps have no effect but on the instruction that is next.
    | ja | jcond | jset =>
      cases h
      exact .inr (.inr ⟨by simp, by simp, rfl, _, rfl, rfl⟩)
    | _ =>
      rw [exec_of_branches rfl] at h
      obtain ⟨heff, hframes⟩ := next_cont h
      exact .inr (.inr ⟨by simp, by simp, hframes, _, rfl, heff⟩)

/-- The frames after a step: only calls and exits change them. -/
theorem frames_step (h : step F x patch s = .cont s') :
    s'.frames =
      if isLocalCall (insnAt x.insts s.pc) then ⟨s.pc + 1, s.core.regs⟩ :: s.frames
      else if isExit (insnAt x.insts s.pc) then s.frames.tail else s.frames := by
  rcases step_cases h with ⟨hcall, -, hf⟩ | ⟨hcall, hexit, f, hf, -⟩ | ⟨hcall, hexit, hf, -⟩
  · rw [if_pos hcall, hf]
  · rw [hcall, hexit, hf]
    rfl
  · rw [hcall, hexit, hf]
    rfl

/-- The local calls among the states that are active after them, the last one first. -/
def activeCalls (x : CompilerXDP) (ts : List State) : List State :=
  pending (fun t => isLocalCall (insnAt x.insts t.pc)) (fun t => isExit (insnAt x.insts t.pc)) ts

/-- The frames are the ones of the active calls. -/
theorem frames_eq {n : ℕ} {c : Core} (h : iter (step F x patch) n (start c) = .cont s) :
    s.frames = (activeCalls x
      (trace (step F x patch) (fun t => !isQuiet x.insts t) n (start c))).map
        fun t => ⟨t.pc + 1, t.core.regs⟩ := by
  induction n generalizing s with
  | zero =>
    cases h
    rfl
  | succ n ih =>
    obtain ⟨t, hn, ht⟩ := iter_cont_of_le h n.le_succ
    rw [Nat.succ_sub (le_refl n), Nat.sub_self, iter_one] at ht
    rw [trace_add hn, frames_step ht, ih hn, activeCalls, activeCalls]
    cases hq : isQuiet x.insts t with
    | true =>
      -- A quiet step is not one of a call or of an exit.
      have hquiet : Quiet (insnAt x.insts t.pc) := by
        simp only [isQuiet, Bool.and_eq_true, decide_eq_true_eq] at hq
        exact hq.1
      have htr : trace (step F x patch) (fun t => !isQuiet x.insts t) 1 t = [] := by
        simp [trace, hq, ht]
      rw [htr, List.append_nil, isLocalCall_of_quiet hquiet, isExit_of_quiet hquiet]
      rfl
    | false =>
      have htr : trace (step F x patch) (fun t => !isQuiet x.insts t) 1 t = [t] := by
        simp [trace, hq, ht]
      rw [htr, pending_append_singleton, pend]
      split
      · rfl
      split
      · rw [List.map_tail]
      · rfl

end Vm

/-- The frame of a call: it goes on after it, and has its registers. -/
structure IsFrame (M : Module) (f : Frame) (c : Config Lbl Slot) : Prop where
  call : ∃ inst, M.instAt c = some inst ∧ isLocalCall inst = true
  pcAt : ∃ pc, M.pcAt c = some pc ∧ f.ret = pc + 1
  regs : f.regs = (coreOf c.m).regs

section

variable {V : Verifier} (h : Accepts V x extFuncNames lddwHelpers patch M)
  (hW : W.Separates M.fn.blocks) {e : Env Slot} {m : Machine Slot} {k : ℕ} {c : Config Lbl Slot}
include h hW

/-- The state of the machine at a boundary has a frame for every active call. -/
theorem Accepts.backward_calls (hrun : iter (step M.fn W) k (entry e m) = .cont c)
    (hc : M.boundary c = true) :
    ∃ n s, iter (Vm.step W.func x patch) n (Vm.start (startCore W m)) = .cont s ∧
      Matches M x.insts W s c ∧ isQuiet x.insts s = false ∧
      List.Forall₂ (Matches M x.insts W)
        (trace (Vm.step W.func x patch) (fun s => !isQuiet x.insts s) n (Vm.start (startCore W m)))
        (M.executed W k (entry e m)) ∧
      List.Forall₂ (IsFrame M) s.frames (M.activeCalls (M.executed W k (entry e m))) := by
  obtain ⟨base, hcomp, -⟩ := h.exists_compiled
  obtain ⟨n, s, hn, hm, hq, htr⟩ := h.backward hW hrun hc
  refine ⟨n, s, hn, hm, hq, htr, ?_⟩
  have htr' := (List.forall₂_and_left _ _).2 ⟨fun t ht => (mem_trace ht).1, htr⟩
  -- Calls and exits are the same in both traces.
  have hcalls : List.Forall₂ _ (Vm.activeCalls x _)
      (M.activeCalls (M.executed W k (entry e m))) :=
    pending_forall₂ htr' fun t d ⟨hq, hm⟩ =>
      ⟨(hcomp.any_instAt hm (by simpa using hq) fun _ => isLocalCall_of_quiet).symm,
        (hcomp.any_instAt hm (by simpa using hq) fun _ => isExit_of_quiet).symm⟩
  have hcalls' := (List.forall₂_and_left _ _).2 ⟨fun t ht => opens_of_mem_pending ht, hcalls⟩
  rw [Vm.frames_eq hn, List.forall₂_map_left_iff]
  refine hcalls'.imp ?_
  rintro t d ⟨hcall, hq, hm⟩
  have hquiet : ¬Quiet (insnAt x.insts t.pc) := fun hquiet => by
    rw [isLocalCall_of_quiet hquiet] at hcall
    cases hcall
  refine ⟨⟨insnAt x.insts t.pc, ?_, hcall⟩, ⟨t.pc, hcomp.pcAt_of_matches hm hquiet, rfl⟩, ?_⟩
  · rw [hcomp.instAt_of_matches hm (by simpa using hq), if_neg hquiet]
  · rw [hm.represents.core]

end

end EbpfJit
