import EbpfJit.Outcomes

/-!
# Forward programs

Without a jump or a local call that goes back, a program ends, although a function of it
may be executed many times: every call is followed by fewer instructions than the calls
before. It has no more active calls than it has local calls, so that they all fit on the
call stack if there are not too many of these.

* `Forward`: the programs in question;
* `Vm.step_cases_of_forward`: where a step of their machine goes;
* `runsForward`: what holds of their runs.
-/

namespace EbpfJit

open Ir Transition

/-- The instruction does not go back. -/
def isForward (pc : ℕ) (inst : EbpfInst) : SwitchCase → Bool
  | .ja | .jcond _ | .jset => decide (pc < jmpDst pc inst)
  | .call => decide (inst.src_reg = 1 → pc < callDst pc inst)
  | _ => true

/-- No instruction of the program goes back. -/
def Forward (insns : List EbpfInst) : Prop :=
  ∀ pc < insns.length, ∀ sc ∈ switchCase (insnAt insns pc).code,
    isForward pc (insnAt insns pc) sc = true

instance : DecidablePred Forward := fun insns =>
  inferInstanceAs (Decidable (∀ pc < insns.length, ∀ sc ∈ switchCase (insnAt insns pc).code,
    isForward pc (insnAt insns pc) sc = true))

/-- The local calls before the instruction `t`. -/
def callsBefore (insns : List EbpfInst) (t : ℕ) : ℕ :=
  (List.range t).countP fun pc => isLocalCall (insnAt insns pc)

/-- How many instructions are executed from the last but `k` one on, at most: twice as many
    as from the one after it, if that comes after a call, and this one. -/
def maxExecuted : ℕ → ℕ
  | 0 => 1
  | k + 1 => 2 * maxExecuted k + 1

theorem maxExecuted_pos (k : ℕ) : 0 < maxExecuted k := by
  cases k <;> simp [maxExecuted]

theorem maxExecuted_mono {k k' : ℕ} (h : k ≤ k') : maxExecuted k ≤ maxExecuted k' := by
  induction h with
  | refl => exact le_refl _
  | step _ ih => exact ih.trans (by rw [maxExecuted]; omega)

theorem maxExecuted_lt {k k' : ℕ} (h : k < k') : maxExecuted k < maxExecuted k' := by
  refine lt_of_lt_of_le ?_ (maxExecuted_mono h)
  rw [maxExecuted]
  omega

theorem maxExecuted_succ_eq (k : ℕ) : maxExecuted k + 1 = 2 ^ (k + 1) := by
  induction k with
  | zero => rfl
  | succ k ih => rw [maxExecuted, pow_succ, ← ih]; omega

theorem callsBefore_succ (insns : List EbpfInst) (t : ℕ) :
    callsBefore insns (t + 1) =
      callsBefore insns t + if isLocalCall (insnAt insns t) then 1 else 0 := by
  rw [callsBefore, List.range_succ, List.countP_append, List.countP_singleton]
  rfl

theorem callsBefore_mono (insns : List EbpfInst) {t t' : ℕ} (h : t ≤ t') :
    callsBefore insns t ≤ callsBefore insns t' := by
  induction h with
  | refl => exact le_refl _
  | step _ ih => exact ih.trans (by rw [callsBefore_succ]; omega)

namespace Vm

variable {F : Funcs} {x : CompilerXDP} {extFuncNames lddwHelpers : List String} {patch : Bool}
  {s s' : State} {sc : SwitchCase}

/-- A step goes forward, calls a function that is forward, or returns. -/
theorem step_cases_of_forward (hlast : LastOk x.insts)
    (hsc : switchCase (insnAt x.insts s.pc).code = some sc)
    (hl : CaseLegal x extFuncNames lddwHelpers patch s.pc (insnAt x.insts s.pc) sc)
    (hf : isForward s.pc (insnAt x.insts s.pc) sc = true)
    (h : step F x patch s = .cont s') :
    (isLocalCall (insnAt x.insts s.pc) = true ∧ s.pc < s'.pc ∧
      s'.frames = ⟨s.pc + 1, s.core.regs⟩ :: s.frames) ∨
    (∃ f, s.frames = f :: s'.frames ∧ s'.pc = f.ret) ∨
    (s.pc < s'.pc ∧ s'.frames = s.frames) := by
  have hland {t : ℕ} (hb : Begins x.insts t) (ht : s.pc < t) : s.pc < land x.insts t :=
    lt_of_lt_of_le ht (land_spec (exists_not_isSlot hlast.1 hb)).1
  have hnext (h : next F x patch (insnAt x.insts s.pc) sc s = .cont s') :
      s.pc < s'.pc ∧ s'.frames = s.frames := by
    rw [next] at h
    split at h
    · cases h
      exact ⟨lt_nextPc _ _, rfl⟩
    · cases h
  rw [step_eq hsc] at h
  cases sc with
  | ja =>
    cases h
    exact .inr (.inr ⟨hland hl (of_decide_eq_true hf), rfl⟩)
  | jcond | jset =>
    cases h
    refine .inr (.inr ⟨?_, rfl⟩)
    dsimp only
    split
    · exact hland hl.1 (of_decide_eq_true hf)
    · exact Nat.lt_succ_self _
  | exit =>
    rw [exec, leave] at h
    split at h
    · cases h
    · next f fs hfs =>
      cases h
      exact .inr (.inl ⟨f, hfs, rfl⟩)
  | call =>
    rw [exec] at h
    by_cases hsrc : (insnAt x.insts s.pc).src_reg = 1
    · rw [CaseLegal, if_pos hsrc] at hl
      rw [if_pos hsrc, enter] at h
      split at h
      · cases h
        exact .inl ⟨decide_eq_true ⟨hsc, hsrc⟩, hland hl.2 (of_decide_eq_true hf hsrc), rfl⟩
      · cases h
    · rw [if_neg hsrc] at h
      split at h
      · cases h
      · exact .inr (.inr (hnext h))
  | _ => exact .inr (.inr (hnext h))

/-- How many instructions the callers execute, at most. -/
def framesRank (insns : List EbpfInst) : List Frame → ℕ
  | [] => 0
  | f :: fs => maxExecuted (insns.length - f.ret) + framesRank insns fs

/-- How many instructions are executed from the state on, at most. -/
def State.rank (insns : List EbpfInst) (s : State) : ℕ :=
  maxExecuted (insns.length - s.pc) + framesRank insns s.frames

/-- The frames of calls that are nested: at the instruction `t`, there are no more of them
    than local calls before it, and so on for the callers. -/
inductive Nested (insns : List EbpfInst) : ℕ → List Frame → Prop
  | nil (t : ℕ) : Nested insns t []
  | cons {t : ℕ} {f : Frame} {fs : List Frame} (hle : f.ret ≤ t)
    (hlt : fs.length < callsBefore insns f.ret) (h : Nested insns f.ret fs) :
    Nested insns t (f :: fs)

variable {insns : List EbpfInst} {t t' : ℕ} {fs : List Frame}

theorem Nested.mono (h : Nested insns t fs) (ht : t ≤ t') : Nested insns t' fs := by
  cases h with
  | nil => exact .nil t'
  | cons hle hlt h => exact .cons (hle.trans ht) hlt h

theorem Nested.length_le (h : Nested insns t fs) : fs.length ≤ callsBefore insns t := by
  cases h with
  | nil => exact Nat.zero_le _
  | cons hle hlt _ => exact hlt.trans_le (callsBefore_mono insns hle)

section

variable (hlast : LastOk x.insts) (hpc : s.pc < x.insts.length)
  (hsc : switchCase (insnAt x.insts s.pc).code = some sc)
  (hl : CaseLegal x extFuncNames lddwHelpers patch s.pc (insnAt x.insts s.pc) sc)
  (hf : isForward s.pc (insnAt x.insts s.pc) sc = true) (h : step F x patch s = .cont s')
include hlast hsc hl hf h

include hpc in
/-- Every step leaves less to execute. -/
theorem rank_lt_of_step : s'.rank x.insts < s.rank x.insts := by
  have hstep (t t' : ℕ) (ht : s.pc < t) (ht' : s.pc < t') :
      maxExecuted (x.insts.length - t) + maxExecuted (x.insts.length - t') <
        maxExecuted (x.insts.length - s.pc) := by
    obtain ⟨k, hk⟩ : ∃ k, x.insts.length - s.pc = k + 1 :=
      ⟨x.insts.length - s.pc - 1, by omega⟩
    have h₁ : maxExecuted (x.insts.length - t) ≤ maxExecuted k := maxExecuted_mono (by omega)
    have h₂ : maxExecuted (x.insts.length - t') ≤ maxExecuted k := maxExecuted_mono (by omega)
    rw [hk, maxExecuted]
    omega
  rcases step_cases_of_forward hlast hsc hl hf h with ⟨-, hlt, hfs⟩ | ⟨f, hfs, hret⟩ | ⟨hlt, hfs⟩
  · have := hstep s'.pc (s.pc + 1) hlt (Nat.lt_succ_self _)
    simp only [State.rank, hfs, framesRank]
    omega
  · have := maxExecuted_pos (x.insts.length - s.pc)
    simp only [State.rank, hfs, framesRank, hret]
    omega
  · have : maxExecuted (x.insts.length - s'.pc) < maxExecuted (x.insts.length - s.pc) :=
      maxExecuted_lt (by omega)
    simp only [State.rank, hfs]
    omega

theorem nested_of_step (hn : Nested x.insts s.pc s.frames) :
    Nested x.insts s'.pc s'.frames := by
  rcases step_cases_of_forward hlast hsc hl hf h with
    ⟨hcall, hlt, hfs⟩ | ⟨f, hfs, hret⟩ | ⟨hlt, hfs⟩
  · rw [hfs]
    refine .cons hlt ?_ (hn.mono (Nat.le_succ _))
    have := hn.length_le
    rw [callsBefore_succ, if_pos hcall]
    omega
  · rw [hfs] at hn
    cases hn with
    | cons _ _ hn => rwa [hret]
  · rw [hfs]
    exact hn.mono hlt.le

end

end Vm

/-! ## Runs -/

/-- The runs of a program that does not go back. -/
structure RunsForward (M : Module) (insns : List EbpfInst) (W : World Lbl) (e : Env Slot)
    (m : Machine Slot) : Prop where
  ends : ∃ k r, iter (step M.fn W) k (entry e m) = .done r
  executed : ∀ k, (M.executed W k (entry e m)).length < 2 ^ (insns.length + 1)
  /-- There are no more active calls than local calls in the program. -/
  depth : ∀ k c, iter (step M.fn W) k (entry e m) = .cont c → M.boundary c = true →
    (M.activeCalls (M.executed W k (entry e m))).length ≤ callsBefore insns insns.length
  /-- If these are not too many, only a zero divisor or an address that is not aligned is
      undefined. -/
  undefined : callsBefore insns insns.length ≤ CALL_STACK_SIZE → ∀ k,
    iter (step M.fn W) k (entry e m) = .done .ub → ∃ j < k, ∃ c inst,
      iter (step M.fn W) j (entry e m) = .cont c ∧ M.boundary c = true ∧
      M.instAt c = some inst ∧
      ((isDivision inst = true ∧ (coreOf c.m).aluSrc inst (aluWidth (isAlu64 inst)) = 0) ∨
        (isRmw inst = true ∧ ((coreOf c.m).addr inst inst.dst_reg).toNat % 32 ≠ 0))

section

variable {x : CompilerXDP} {extFuncNames lddwHelpers : List String} {patch : Bool} {M : Module}
  {W : World Lbl} {V : Verifier} {e : Env Slot} {m : Machine Slot} {n : ℕ} {s s' : Vm.State}
  (h : Accepts V x extFuncNames lddwHelpers patch M) (hW : W.Separates M.fn.blocks)
  (hf : Forward x.insts)
include h hW hf

/-- A state that a run gets to is at an instruction that does not go back. -/
theorem Accepts.isForward
    (hs : iter (Vm.step W.func x patch) n (Vm.start (startCore W m)) = .cont s) :
    s.pc < x.insts.length ∧ ∃ sc, switchCase (insnAt x.insts s.pc).code = some sc ∧
      CaseLegal x extFuncNames lddwHelpers patch s.pc (insnAt x.insts s.pc) sc ∧
      EbpfJit.isForward s.pc (insnAt x.insts s.pc) sc = true := by
  obtain ⟨base, hcomp, -⟩ := h.exists_compiled
  obtain ⟨k, c, -, hm⟩ := h.forward hW (e := Env.zero) hs
  obtain ⟨v, hv, hpc, -⟩ := hm.visit
  obtain ⟨-, -, sc, hsc, hl⟩ := hcomp.log.legal hv
  have hlt := hcomp.log.pc_lt hv
  rw [hpc] at hsc hl hlt
  exact ⟨hlt, sc, hsc, hl, hf s.pc hlt sc hsc⟩

theorem Accepts.rank_lt (hs : iter (Vm.step W.func x patch) n (Vm.start (startCore W m)) = .cont s)
    (hs' : Vm.step W.func x patch s = .cont s') : s'.rank x.insts < s.rank x.insts := by
  obtain ⟨hlt, sc, hsc, hl, hfwd⟩ := h.isForward hW hf hs
  exact Vm.rank_lt_of_step h.inputOk.last hlt hsc hl hfwd hs'

theorem Accepts.nested (hs : iter (Vm.step W.func x patch) n (Vm.start (startCore W m)) = .cont s) :
    Vm.Nested x.insts s.pc s.frames := by
  induction n generalizing s with
  | zero =>
    cases hs
    exact .nil 0
  | succ n ih =>
    obtain ⟨t, ht, -⟩ := iter_cont_of_le hs n.le_succ
    obtain ⟨-, sc, hsc, hl, hfwd⟩ := h.isForward hW hf ht
    exact Vm.nested_of_step h.inputOk.last hsc hl hfwd ((iter_succ_right ht).symm.trans hs) (ih ht)

/-- At a boundary, the active calls are nested. -/
theorem Accepts.nested_calls {k : ℕ} {c : Config Lbl Slot}
    (hrun : iter (step M.fn W) k (entry e m) = .cont c) (hc : M.boundary c = true) :
    ∃ s, Matches M x.insts W s c ∧ isQuiet x.insts s = false ∧ s.pc < x.insts.length ∧
      (M.activeCalls (M.executed W k (entry e m))).length ≤ callsBefore x.insts s.pc := by
  obtain ⟨n, s, hn, hm, hq, -⟩ := h.backward hW hrun hc
  refine ⟨s, hm, hq, (h.isForward hW hf hn).1, ?_⟩
  rw [← h.length_frames hW hrun hc hm]
  exact (h.nested hW hf hn).length_le

/-- Programs that do not go back run to their end, with calls nested no deeper than there are
    local calls. -/
theorem runsForward : RunsForward M x.insts W e m := by
  have hrank (n : ℕ) (s s' : Vm.State)
      (hs : iter (Vm.step W.func x patch) n (Vm.start (startCore W m)) = .cont s)
      (hs' : Vm.step W.func x patch s = .cont s') : s'.rank x.insts < s.rank x.insts :=
    h.rank_lt hW hf hs hs'
  refine ⟨?_, fun k => ?_, fun k c hrun hc => ?_, fun hle k hrun => ?_⟩
  · obtain ⟨r, hr⟩ := exists_done_of_rank hrank
    obtain ⟨k, r', hrun, -⟩ := h.forward_done hW (e := e) hr
    exact ⟨k, r', hrun⟩
  · rw [← maxExecuted_succ_eq]
    by_cases hnil : M.executed W k (entry e m) = []
    · rw [hnil]
      exact Nat.succ_pos _
    -- The boundary executed last is matched by a state with something left to execute.
    obtain ⟨j, -, c, hj, hc, htr⟩ := exists_last_of_trace hnil
    obtain ⟨n, s, hn, -, -, hall⟩ := h.backward hW hj hc
    have hlen := hall.length_eq
    have hn' : (trace (Vm.step W.func x patch) (fun s => !isQuiet x.insts s) n
        (Vm.start (startCore W m))).length ≤ n := length_trace_le n _
    have hle := add_rank_le hrank hn
    have hpos : 0 < s.rank x.insts := Nat.add_pos_left (maxExecuted_pos _) _
    have hstart : (Vm.start (startCore W m)).rank x.insts = maxExecuted x.insts.length := rfl
    rw [Module.executed, htr, List.length_append, List.length_singleton]
    omega
  · obtain ⟨s, -, -, hlt, hle⟩ := h.nested_calls hW hf hrun hc
    exact hle.trans (callsBefore_mono _ hlt.le)
  · obtain ⟨j, hjk, c, inst, r, hj, hc, hinst, hstops, hhalt, -⟩ := (runsEnd h hW).last k _ hrun
    refine ⟨j, hjk, c, inst, hj, hc, hinst, ?_⟩
    cases hstops with
    | exit | tailCall => cases hhalt
    | division hd hz => exact .inl ⟨hd, hz⟩
    | misaligned hr ha => exact .inr ⟨hr, ha⟩
    | overflow hcall hdepth =>
      -- A call less is active than there are up to this one.
      obtain ⟨base, hcomp, -⟩ := h.exists_compiled
      obtain ⟨s, hm, hq, hlt, hcalls⟩ := h.nested_calls hW hf hj hc
      have hsucc := callsBefore_succ x.insts s.pc
      have hmono : callsBefore x.insts (s.pc + 1) ≤ callsBefore x.insts x.insts.length :=
        callsBefore_mono x.insts (Nat.succ_le_of_lt hlt)
      rw [hcomp.instAt_of_matches hm hq] at hinst
      split at hinst
      · cases hinst
      · cases hinst
        rw [if_pos hcall] at hsucc
        omega

end

/-- A program that calls a function twice, which calls another one. -/
def twiceProgram : List EbpfInst :=
  [⟨EBPF_OP_MOV64_IMM, 0, 0, 0, 0⟩, ⟨EBPF_OP_CALL, 0, 1, 0, 2⟩, ⟨EBPF_OP_CALL, 0, 1, 0, 1⟩,
    ⟨EBPF_OP_EXIT, 0, 0, 0, 0⟩,
    ⟨EBPF_OP_CALL, 0, 1, 0, 1⟩, ⟨EBPF_OP_EXIT, 0, 0, 0, 0⟩,
    ⟨EBPF_OP_ADD64_IMM, 0, 0, 0, 1⟩, ⟨EBPF_OP_EXIT, 0, 0, 0, 0⟩]

theorem runsForward_twiceProgram :
    ∃ M, Accepts Verifier.shape { insts := twiceProgram } [] [] false M ∧
      RunsForward M twiceProgram World.numbered Env.zero Machine.zero ∧
      callsBefore twiceProgram twiceProgram.length = 3 := by
  obtain ⟨M, hM, hW⟩ := exists_accepts Verifier.shape { insts := twiceProgram } [] [] false 9
    (fun M => decide (World.numbered.Separates M.fn.blocks)) (by decide +kernel)
  exact ⟨M, hM, runsForward hM (of_decide_eq_true hW) (by decide +kernel), by decide +kernel⟩

end EbpfJit
