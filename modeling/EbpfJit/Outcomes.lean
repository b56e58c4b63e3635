import EbpfJit.Atomic
import EbpfJit.CallReturn

/-!
# How runs end

A run of the compiled code ends at an instruction boundary: it returns at an exit
outside of all local calls or after the call of the helper 12, and has undefined
behaviour at a division by zero, an atomic operation on an address that is not aligned
to 32 bytes, or a local call too many. Nothing else ends it.

* `Stops`: when an instruction ends the run, and how;
* `Vm.step_eq_done_iff`: the machine is done exactly then;
* `runsEnd`: so is the compiled code.
-/

namespace EbpfJit

open Ir Transition

/-- A division or a modulo. -/
def isDivision (inst : EbpfInst) : Bool :=
  decide (switchCase inst.code = some .div ∨ switchCase inst.code = some .mod)

/-- An atomic operation other than a compare-and-exchange. -/
def isRmw (inst : EbpfInst) : Bool :=
  decide (switchCase inst.code = some .atomic ∧ inst.imm ≠ EBPF_CMPXCHG)

/-- A call of the helper that does not return to the program. -/
def isTailCall (inst : EbpfInst) : Bool :=
  decide (switchCase inst.code = some .call ∧ inst.src_reg ≠ 1 ∧ inst.imm = 12)

/-- How the instruction ends a run, in a function with `depth` callers. -/
inductive Stops (F : Funcs) (inst : EbpfInst) (c : Core) (depth : ℕ) : Vm.Halt → Prop
  | exit (h : isExit inst = true) (hd : depth = 0) : Stops F inst c depth (.exited c)
  | tailCall (h : isTailCall inst = true) : Stops F inst c depth (.exited (c.extCall inst F))
  | division (h : isDivision inst = true) (hz : c.aluSrc inst (aluWidth (isAlu64 inst)) = 0) :
    Stops F inst c depth .undefined
  | misaligned (h : isRmw inst = true) (ha : (c.addr inst inst.dst_reg).toNat % 32 ≠ 0) :
    Stops F inst c depth .undefined
  | overflow (h : isLocalCall inst = true) (hd : CALL_STACK_SIZE ≤ depth) :
    Stops F inst c depth .undefined

variable {x : CompilerXDP} {extFuncNames lddwHelpers : List String} {patch : Bool} {M : Module}
  {W : World Lbl} {F : Funcs} {inst : EbpfInst} {c : Core} {sc : SwitchCase}

/-! ## Instructions -/

/-- The atomic operations are undefined on addresses that are not aligned. -/
theorem atomic_eq_none_iff (himm : inst.imm ∈ atomicImms) :
    c.atomic inst = none ↔
      inst.imm ≠ EBPF_CMPXCHG ∧ (c.addr inst inst.dst_reg).toNat % 32 ≠ 0 := by
  by_cases hx : inst.imm = EBPF_CMPXCHG
  · rw [Core.atomic, hx]
    exact iff_of_false (fun h => by cases h) fun h => h.1 rfl
  · have hop : ∃ op, rmwOf inst.imm = some op := by
      simp only [atomicImms, List.mem_cons, List.not_mem_nil, or_false, hx] at himm
      rcases himm with h | h | h | h | h | h | h | h | h
      all_goals
        rw [h]
        exact ⟨_, rfl⟩
    obtain ⟨op, hop⟩ := hop
    rw [atomic_eq hop, Core.atomicRmw]
    by_cases ha : (c.addr inst inst.dst_reg).toNat % 32 = 0
    · simp [ha]
    · simp [ha, hx]

/-- What has no effect is a division by zero or an atomic operation that is not aligned. -/
theorem effect_eq_none_iff {nextInst : EbpfInst} (hatomic : sc = .atomic → inst.imm ∈ atomicImms) :
    c.effect inst F x patch nextInst sc = none ↔
      ((sc = .div ∨ sc = .mod) ∧ c.aluSrc inst (aluWidth (isAlu64 inst)) = 0) ∨
        (sc = .atomic ∧ inst.imm ≠ EBPF_CMPXCHG ∧ (c.addr inst inst.dst_reg).toNat % 32 ≠ 0) := by
  have hdiv (f : {w : ℕ} → BitVec w → BitVec w → BitVec w) :
      c.alu inst (fun a b => if b = 0 then none else some (f a b)) = none ↔
        c.aluSrc inst (aluWidth (isAlu64 inst)) = 0 := by
    rw [Core.alu, Option.map_eq_none_iff]
    split
    · next hz => exact iff_of_true rfl hz
    · next hz => exact iff_of_false (fun h => by cases h) hz
  cases sc with
  | div => exact (hdiv fun a b => a / b).trans (by simp)
  | mod => exact (hdiv fun a b => a % b).trans (by simp)
  | atomic => exact (atomic_eq_none_iff (hatomic rfl)).trans (by simp)
  | _ => simp [Core.effect, Core.alu]

/-- The ends of a run, by the case of the switch. -/
theorem stops_iff {depth : ℕ} {r : Vm.Halt} (hsc : switchCase inst.code = some sc) :
    Stops F inst c depth r ↔
      (sc = .exit ∧ depth = 0 ∧ r = .exited c) ∨
      (sc = .call ∧ inst.src_reg ≠ 1 ∧ inst.imm = 12 ∧ r = .exited (c.extCall inst F)) ∨
      ((sc = .div ∨ sc = .mod) ∧ c.aluSrc inst (aluWidth (isAlu64 inst)) = 0 ∧
        r = .undefined) ∨
      (sc = .atomic ∧ inst.imm ≠ EBPF_CMPXCHG ∧ (c.addr inst inst.dst_reg).toNat % 32 ≠ 0 ∧
        r = .undefined) ∨
      (sc = .call ∧ inst.src_reg = 1 ∧ CALL_STACK_SIZE ≤ depth ∧ r = .undefined) := by
  constructor
  · rintro (⟨h, hd⟩ | h | ⟨h, hz⟩ | ⟨h, ha⟩ | ⟨h, hd⟩)
    all_goals
      have h' := of_decide_eq_true h
      simp only [hsc, Option.some.injEq] at h'
    · exact .inl ⟨h', hd, rfl⟩
    · exact .inr (.inl ⟨h'.1, h'.2.1, h'.2.2, rfl⟩)
    · exact .inr (.inr (.inl ⟨h', hz, rfl⟩))
    · exact .inr (.inr (.inr (.inl ⟨h'.1, h'.2, ha, rfl⟩)))
    · exact .inr (.inr (.inr (.inr ⟨h'.1, h'.2, hd, rfl⟩)))
  · rintro (⟨rfl, hd, rfl⟩ | ⟨rfl, hsrc, himm, rfl⟩ | ⟨hdiv, hz, rfl⟩ | ⟨rfl, himm, ha, rfl⟩ |
      ⟨rfl, hsrc, hd, rfl⟩)
    · exact .exit (decide_eq_true hsc) hd
    · exact .tailCall (decide_eq_true ⟨hsc, hsrc, himm⟩)
    · exact .division (decide_eq_true (hdiv.imp (hsc ▸ congrArg some) (hsc ▸ congrArg some))) hz
    · exact .misaligned (decide_eq_true ⟨hsc, himm⟩) ha
    · exact .overflow (decide_eq_true ⟨hsc, hsrc⟩) hd

/-- An instruction that goes on to the next one only ends a run if it has no effect. -/
theorem Vm.next_eq_done_iff {s : Vm.State} {r : Vm.Halt} :
    Vm.next F x patch inst sc s = .done r ↔
      s.core.effect inst F x patch (insnAt x.insts (s.pc + 1)) sc = none ∧ r = .undefined := by
  rw [Vm.next]
  generalize s.core.effect inst F x patch (insnAt x.insts (s.pc + 1)) sc = o
  cases o with
  | some c => simp
  | none => simp [eq_comm]

/-- The machine is done exactly at the instructions that end a run. -/
theorem Vm.step_eq_done_iff {s : Vm.State} {r : Vm.Halt}
    (hsc : switchCase (insnAt x.insts s.pc).code = some sc)
    (hl : CaseLegal x extFuncNames lddwHelpers patch s.pc (insnAt x.insts s.pc) sc) :
    Vm.step F x patch s = .done r ↔
      Stops F (insnAt x.insts s.pc) s.core s.frames.length r := by
  rw [Vm.step_eq hsc, stops_iff hsc]
  generalize insnAt x.insts s.pc = inst at hsc hl
  have hatomic : sc = .atomic → inst.imm ∈ atomicImms := by
    rintro rfl
    exact hl
  cases sc with
  | exit =>
    rw [Vm.exec, Vm.leave]
    split
    · next hf => simp [hf, eq_comm]
    · next hf => simp [hf]
  | call =>
    rw [Vm.exec]
    by_cases hsrc : inst.src_reg = 1
    · rw [if_pos hsrc, Vm.enter]
      by_cases hd : s.frames.length < CALL_STACK_SIZE
      · simp [hd, hsrc, Nat.not_le.2 hd]
      · simp [hd, hsrc, Nat.not_lt.1 hd, eq_comm]
    · rw [if_neg hsrc]
      by_cases himm : inst.imm = 12
      · have hsrc' : ¬inst.src_reg = 1#4 := hsrc
        rw [if_pos himm, Res.done.injEq, eq_comm]
        simp [hsrc', himm]
      · rw [if_neg himm, Vm.next_eq_done_iff]
        simp only [hsrc, himm, Core.effect]
        simp
  | ja | jcond | jset => simp [Vm.exec]
  | _ =>
    rw [Vm.exec_of_branches rfl, Vm.next_eq_done_iff, effect_eq_none_iff hatomic]
    simp [and_assoc]

/-! ## Runs -/

/-- The runs of the compiled code end where the instructions say. -/
structure RunsEnd (M : Module) (W : World Lbl) (e : Env Slot) (m : Machine Slot) : Prop where
  /-- A run that has ended did so at the last instruction boundary it got to. -/
  last : ∀ k r', iter (step M.fn W) k (entry e m) = .done r' → ∃ j < k, ∃ c inst r,
    iter (step M.fn W) j (entry e m) = .cont c ∧ M.boundary c = true ∧
      M.instAt c = some inst ∧
      Stops W.func inst (coreOf c.m)
        (M.activeCalls (M.executed W j (entry e m))).length r ∧
      MatchesHalt r r' ∧ Unmarked (step M.fn W) M.boundary (k - j) c
  /-- A run that gets to an instruction that ends it does end. -/
  ends : ∀ j c inst r, iter (step M.fn W) j (entry e m) = .cont c → M.boundary c = true →
    M.instAt c = some inst →
      Stops W.func inst (coreOf c.m) (M.activeCalls (M.executed W j (entry e m))).length r →
      ∃ k r', 0 < k ∧ iter (step M.fn W) k c = .done r' ∧ MatchesHalt r r' ∧
        Unmarked (step M.fn W) M.boundary k c

section

variable {V : Verifier} {e : Env Slot} {m : Machine Slot} {k : ℕ} {d : Config Lbl Slot}
  (h : Accepts V x extFuncNames lddwHelpers patch M) (hW : W.Separates M.fn.blocks)
include h hW

/-- A state at a boundary has a frame for every active call. -/
theorem Accepts.length_frames (hrun : iter (step M.fn W) k (entry e m) = .cont d)
    (hd : M.boundary d = true) {s : Vm.State} (hm : Matches M x.insts W s d) :
    s.frames.length = (M.activeCalls (M.executed W k (entry e m))).length := by
  obtain ⟨n, s', -, hm', -, -, hcalls⟩ := h.backward_calls hW hrun hd
  have hcount := toNat_count hm.represents
  rw [toNat_count hm'.represents, hcalls.length_eq] at hcount
  omega

omit hW in
/-- The machine is done at a matched state exactly if its instruction ends the run. -/
theorem Accepts.step_eq_done_iff {s : Vm.State} {r : Vm.Halt} (hm : Matches M x.insts W s d) :
    Vm.step F x patch s = .done r ↔
      Stops F (insnAt x.insts s.pc) s.core s.frames.length r := by
  obtain ⟨base, hcomp, -⟩ := h.exists_compiled
  obtain ⟨v, hv, hpc, -⟩ := hm.visit
  obtain ⟨-, -, sc, hsc, hl⟩ := hcomp.log.legal hv
  rw [hpc] at hsc hl
  exact Vm.step_eq_done_iff hsc hl

/-- Every run ends where its instructions say, and only there. -/
theorem runsEnd : RunsEnd M W e m where
  last k r' hrun := by
    obtain ⟨base, hcomp, -⟩ := h.exists_compiled
    obtain ⟨n, r, hn, -⟩ := h.backward_done hW hrun
    obtain ⟨l, -, s, hl, hs⟩ := exists_last hn
    have hnq : ¬Quiet (insnAt x.insts s.pc) := fun hquiet => by
      rw [step_of_quiet hquiet] at hs
      cases hs
    have hq : isQuiet x.insts s = false := by
      rw [isQuiet, decide_eq_false hnq]
      rfl
    -- From the last state of the machine, the code gets to its end.
    obtain ⟨j, c, hj, hm⟩ := h.forward hW (e := e) hl
    have hmatched := matched_step hcomp h.inputOk.last hW hm
    rw [hs] at hmatched
    obtain ⟨i, r'', -, hi, hhalt, hun⟩ := hmatched
    obtain rfl : r'' = r' := iter_done_unique ((iter_add hj).trans hi) hrun
    have hlt : j < k := by
      by_contra hle
      rw [iter_done_of_le hrun (Nat.not_lt.1 hle)] at hj
      cases hj
    refine ⟨j, hlt, c, insnAt x.insts s.pc, r, hj, hm.boundary, ?_, ?_, hhalt, ?_⟩
    · rw [hcomp.instAt_of_matches hm hq, if_neg hnq]
    · rw [hm.represents.core, ← h.length_frames hW hj hm.boundary hm]
      exact (h.step_eq_done_iff hm).1 hs
    · intro i' hpos _ d hd
      by_cases hii : i' < i
      · exact hun i' hpos hii d hd
      · rw [iter_done_of_le hi (Nat.not_lt.1 hii)] at hd
        cases hd
  ends j c inst r hj hc hinst hstops := by
    obtain ⟨base, hcomp, -⟩ := h.exists_compiled
    obtain ⟨n, s, -, hm, hq, -⟩ := h.backward hW hj hc
    obtain rfl : insnAt x.insts s.pc = inst := by
      rw [hcomp.instAt_of_matches hm hq] at hinst
      split at hinst
      · cases hinst
      · exact Option.some.inj hinst
    rw [hm.represents.core, ← h.length_frames hW hj hc hm, ← h.step_eq_done_iff hm] at hstops
    have hmatched := matched_step hcomp h.inputOk.last hW hm
    rw [hstops] at hmatched
    exact hmatched

end

/-- A remainder for the divisor zero. -/
def zeroDivisor : List EbpfInst :=
  [⟨EBPF_OP_MOV64_IMM, 0, 0, 0, 7⟩, ⟨EBPF_OP_MOD64_IMM, 0, 0, 0, 0⟩, ⟨EBPF_OP_EXIT, 0, 0, 0, 0⟩]

theorem runsEnd_zeroDivisor :
    ∃ M, Accepts Verifier.shape { insts := zeroDivisor } [] [] false M ∧
      RunsEnd M World.numbered Env.zero Machine.zero ∧
      Stops World.numbered.func (insnAt zeroDivisor 1) (coreOf Machine.zero) 0 .undefined := by
  obtain ⟨M, hM, hW⟩ := exists_accepts Verifier.shape { insts := zeroDivisor } [] [] false 4
    (fun M => decide (World.numbered.Separates M.fn.blocks)) (by decide +kernel)
  exact ⟨M, hM, runsEnd hM (of_decide_eq_true hW), .division (by decide) (by decide)⟩

end EbpfJit
