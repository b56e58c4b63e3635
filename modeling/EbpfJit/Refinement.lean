import EbpfJit.Vm

/-!
# The compiled code implements its machine

The runs of the compiled code, observed at instruction boundaries, are the runs of
`Vm.step`: every instruction of the machine is matched by its code, together with
the branches to the next instruction.

* `Matches`: the configurations of the compiled code at a state of the machine;
* `simulation`: the stuttering simulation;
* `iter_setup`: the compiled code gets to the first instruction.
-/

namespace EbpfJit

open Ir Ir.Builder Transition

variable {x : CompilerXDP} {extFuncNames lddwHelpers : List String} {patch : Bool}
  {base : Lbl → List (Instr Lbl Slot)} {M : Module} {W : World Lbl} {v w : Visit}
  {e : Env Slot} {m m' : Machine Slot}

/-- The run from `c` gets to where `P` holds, with no boundary on the way. -/
abbrev Module.Leads (M : Module) (W : World Lbl) (c : Config Lbl Slot)
    (P : Res (Config Lbl Slot) (Ir.Halt Slot) → Prop) : Prop :=
  ∃ k, P (iter (step M.fn W) k c) ∧
    ∀ j < k, ∀ d, iter (step M.fn W) j c = .cont d → M.boundary d = false

/-! ## The code of a visit -/

theorem IsLog.runCode_eq {log : List Visit} (h : IsLog x extFuncNames lddwHelpers patch base log)
    (hv : v ∈ log) {sc : SwitchCase} (hsc : switchCase (insnAt x.insts v.pc).code = some sc)
    {r : Option (Exit Lbl × Machine Slot)}
    (hr : ∀ s, Acts W s m (emitCase x (prepared x extFuncNames lddwHelpers) patch v.pc
      (insnAt x.insts v.pc) sc) r) :
    runCode W v.code e m = r := by
  obtain ⟨pre, he⟩ := h.extends_of_mem hv
  obtain ⟨n, k, n', hemit⟩ := he.emitted
  -- What is emitted after the case is nothing.
  have hcase : ∃ k', (do
      emitCase x (prepared x extFuncNames lddwHelpers) patch v.pc (insnAt x.insts v.pc) sc
      pure k' : Emit ℕ) n = .ok (k, n', v.code) := by
    rw [emitInst, hsc] at hemit
    cases sc <;> exact ⟨_, hemit⟩
  obtain ⟨k', hcase⟩ := hcase
  obtain ⟨a, n₁, c₁, c₂, h₁, h₂, hcode⟩ := bind_eq_ok hcase
  cases h₂
  rw [hcode, List.append_nil]
  exact hr ⟨n, e⟩ a _ c₁ h₁

namespace Compiled

variable (h : Compiled x extFuncNames lddwHelpers patch base M)
include h

/-- The index of the next instruction does not wrap around. -/
theorem toUInt16_succ (hv : v ∈ M.log) : toUInt16 (v.pc + 1) = v.pc + 1 := by
  have hlt := h.log.pc_lt hv
  have hlen := h.length_lt
  exact EbpfJit.toUInt16_succ (by omega)

/-- A run at an instruction executes its code, without a boundary inside of it. -/
theorem iter_code (hv : v ∈ M.log) :
    ∃ k ≤ v.code.length, (v.code ≠ [] → 0 < k) ∧
      iter (step M.fn W) k ⟨v.block, v.start, e, m⟩ =
        afterCode v.block (v.start + v.code.length) (execList W v.code e m) ∧
      Unmarked (step M.fn W) M.boundary k ⟨v.block, v.start, e, m⟩ := by
  obtain ⟨k, hk, hpos, hrun, hin⟩ := iter_execList (W := W) (e := e) (m := m) (h.codeAt hv)
  refine ⟨k, hk, hpos, hrun, fun j hj hjk d hd => ?_⟩
  obtain ⟨e', m', hj'⟩ := hin j hjk
  rw [hj'] at hd
  cases hd
  exact h.boundary_inside hv hj (by omega) e' m'

/-- The blocks that are not for instructions have no boundary. -/
theorem iter_other {l : Lbl} (hs : l ≠ .setupBlock) (hi : ∀ i, l ≠ .inst i) :
    M.Leads W ⟨l, 0, e, m⟩ fun r =>
      r = afterCode l (base l).length (execList W (base l) e m) := by
  have hcode : CodeAt M.fn l 0 (base l) :=
    codeAt_zero ((h.code_other hs hi).trans (List.append_nil _).symm)
  obtain ⟨k, _, _, hrun, hin⟩ := iter_execList (W := W) (e := e) (m := m) hcode
  rw [Nat.zero_add] at hrun
  refine ⟨k, hrun, fun j hj d hd => ?_⟩
  obtain ⟨e', m', hj'⟩ := hin j hj
  rw [hj'] at hd
  cases hd
  refine not_boundary ?_
  intro u hu hblk _
  obtain ⟨b, hb, _⟩ := h.block_of_boundary hu
  exact hi b (hblk.symm.trans hb)

/-- Code that branches goes to the start of a block. -/
theorem iter_branch (hv : v ∈ M.log) {l : Lbl}
    (hcode : runCode W v.code e m = some (.goto l, m')) :
    ∃ k e', 0 < k ∧ iter (step M.fn W) k ⟨v.block, v.start, e, m⟩ = .cont ⟨l, 0, e', m'⟩ ∧
      Unmarked (step M.fn W) M.boundary k ⟨v.block, v.start, e, m⟩ := by
  obtain ⟨e', hx⟩ := execList_of_runCode hcode
  obtain ⟨k, _, hpos, hrun, hun⟩ := h.iter_code (W := W) (e := e) (m := m) hv
  rw [hx, afterCode] at hrun
  have hne : v.code ≠ [] := fun hnil => by
    rw [hnil] at hcode
    cases hcode
  exact ⟨k, e', hpos hne, hrun, hun⟩

/-- What happens after code that branches is what happens from the start of the
    block on. -/
theorem iter_branch_then (hv : v ∈ M.log) {l : Lbl}
    (hcode : runCode W v.code e m = some (.goto l, m'))
    {P : Res (Config Lbl Slot) (Ir.Halt Slot) → Prop}
    (hl : ∀ e', M.Leads W ⟨l, 0, e', m'⟩ P) :
    ∃ k, 0 < k ∧ P (iter (step M.fn W) k ⟨v.block, v.start, e, m⟩) ∧
      Unmarked (step M.fn W) M.boundary k ⟨v.block, v.start, e, m⟩ := by
  obtain ⟨k₁, e', hpos, hrun₁, hun₁⟩ := h.iter_branch (W := W) (e := e) hv hcode
  obtain ⟨k₂, hP, hun₂⟩ := hl e'
  refine ⟨k₁ + k₂, by omega, ?_, hun₁.add hrun₁ fun j hj _ => hun₂ j hj⟩
  rwa [iter_add hrun₁]

/-- Code that branches to a block of an instruction. -/
theorem iter_goto (hslot : ∀ t, Begins x.insts t → IsSlot x.insts t →
      ∃ t', t < t' ∧ Begins x.insts t') (hv : v ∈ M.log) {t : ℕ} (ht : Begins x.insts t)
    (hcode : runCode W v.code e m = some (.goto (.inst t), m')) :
    ∃ w ∈ M.log, w.pc = land x.insts t ∧ ∃ k, 0 < k ∧
      (∃ e', iter (step M.fn W) k ⟨v.block, v.start, e, m⟩ = .cont ⟨w.block, w.start, e', m'⟩) ∧
      Unmarked (step M.fn W) M.boundary k ⟨v.block, v.start, e, m⟩ := by
  obtain ⟨w, hw, hpc, hblk, hstart⟩ := h.visit_of_land hslot ht
  refine ⟨w, hw, hpc, h.iter_branch_then hv hcode
    (P := fun r => ∃ e', r = .cont ⟨w.block, w.start, e', m'⟩) fun e' => ?_⟩
  obtain ⟨k, hrun, hun⟩ := h.iter_land (W := W) (e := e') (m := m') hslot ht
  exact ⟨k, ⟨e', by rw [hrun, hblk, hstart]⟩, hun⟩

/-- The exit block returns `r0`. -/
theorem iter_exitBlock {core : Core} {frames : List Frame} (hrep : Represents W m core frames) :
    M.Leads W ⟨.exitBlock, 0, e, m⟩ fun r => r = .done (.ret (core.reg 0) m) := by
  obtain ⟨k, hrun, hun⟩ := h.iter_other (W := W) (e := e) (m := m) (l := .exitBlock) (by simp)
    (by simp)
  obtain ⟨n, n', hexit⟩ := h.fixed.exit
  have hacts : Acts W ⟨n, e⟩ (withCore m core) emitExitBlock _ :=
    acts_emitExitBlock hrep.allocated
  rw [withCore_of_represents hrep] at hacts
  obtain ⟨e', hx⟩ := execList_of_runCode (hacts () n' _ hexit)
  rw [hx] at hrun
  exact ⟨k, hrun, hun⟩

/-- The return block goes to where the last caller goes on. -/
theorem iter_localRetBlock (hW : W.Separates M.fn.blocks) {core : Core} {f : Frame}
    {fs : List Frame}
    (hrep : Represents W m core (f :: fs))
    (hret : Begins x.insts f.ret ∧ ReturnsTo x.insts f.ret) :
    M.Leads W ⟨.localRetBlock, 0, e, m⟩ fun r =>
      ∃ e', r = .cont ⟨.inst f.ret, 0, e', popItems m core f fs.length⟩ := by
  obtain ⟨k, hrun, hun⟩ := h.iter_other (W := W) (e := e) (m := m) (l := .localRetBlock) (by simp)
    (by simp)
  obtain ⟨n, n', hcode⟩ := h.fixed.localRet
  have hlisted : Lbl.inst f.ret ∈
      (prepared x extFuncNames lddwHelpers).localFuncRetBlks.map (·.2) := by
    simp [prepared, blocksOf, mem_beginList, hret.1, hret.2]
  have hacts := acts_emitLocalRetBlock (s := ⟨n, e⟩) (hW.mono h.localRet_subset) hrep hlisted
    () n' _ hcode
  obtain ⟨e', hx⟩ := execList_of_runCode hacts
  rw [hx] at hrun
  exact ⟨k, ⟨e', hrun⟩, hun⟩

/-- Code that is undefined. -/
theorem iter_undefined (hv : v ∈ M.log) (hcode : runCode W v.code e m = none) :
    ∃ k, 0 < k ∧ iter (step M.fn W) k ⟨v.block, v.start, e, m⟩ = .done .ub ∧
      Unmarked (step M.fn W) M.boundary k ⟨v.block, v.start, e, m⟩ := by
  obtain ⟨k, _, hpos, hrun, hun⟩ := h.iter_code (W := W) (e := e) (m := m) hv
  have hne : v.code ≠ [] := fun hnil => by
    rw [hnil] at hcode
    cases hcode
  rw [execList_of_runCode_eq_none hcode] at hrun
  exact ⟨k, hpos hne, hrun, hun⟩

/-- Code that falls through is followed by the next instruction. -/
theorem iter_next (hlast : LastOk x.insts) (hv : v ∈ M.log)
    (hleave : ¬Leaves (insnAt x.insts v.pc)) (hcode : runCode W v.code e m = some (.fall, m')) :
    ∃ w ∈ M.log, w.pc = nextPc v.pc (insnAt x.insts v.pc) ∧ ∃ k e',
      (v.code ≠ [] ∨ Begins x.insts w.pc → 0 < k) ∧
      iter (step M.fn W) k ⟨v.block, v.start, e, m⟩ = .cont ⟨w.block, w.start, e', m'⟩ ∧
      Unmarked (step M.fn W) M.boundary k ⟨v.block, v.start, e, m⟩ := by
  obtain ⟨e', hx⟩ := execList_of_runCode hcode
  obtain ⟨k₁, hle, hpos, hrun₁, hun₁⟩ := h.iter_code (W := W) (e := e) (m := m) hv
  rw [hx, afterCode] at hrun₁
  obtain ⟨w, hw, hpc, k₂, hrun₂, hbeg, _, hun₂⟩ :=
    h.iter_fall (W := W) (e := e') (m := m') hlast hv hleave
  refine ⟨w, hw, hpc, k₁ + k₂, e', fun hor => ?_, by rw [iter_add hrun₁, hrun₂], ?_⟩
  · rcases hor with hne | hb
    · have := hpos hne
      omega
    · have := hbeg hb
      omega
  · refine hun₁.add hrun₁ fun j hj h₀ d hd => hun₂ j hj (fun hnil => h₀ ?_) d hd
    rw [hnil, List.length_nil] at hle
    omega

end Compiled

/-! ## The simulation -/

/-- The configuration is at the instruction of the state, with its registers, its
    memory and its frames, which return to where local calls do. -/
structure Matches (M : Module) (insns : List EbpfInst) (W : World Lbl) (s : Vm.State)
    (c : Config Lbl Slot) : Prop where
  visit : ∃ v ∈ M.log, v.pc = s.pc ∧ v.block = c.block ∧ v.start = c.ip
  represents : Represents W c.m s.core s.frames
  returns : ∀ f ∈ s.frames, Begins insns f.ret ∧ ReturnsTo insns f.ret

theorem Matches.boundary {insns : List EbpfInst} {s : Vm.State} {c : Config Lbl Slot}
    (h : Matches M insns W s c) : M.boundary c = true :=
  let ⟨v, hv, _, hblk, hstart⟩ := h.visit
  Compiled.boundary_iff.2 ⟨v, hv, hblk, hstart⟩

/-- A run of the machine ends as the one of the compiled code does. -/
def MatchesHalt : Vm.Halt → Ir.Halt Slot → Prop
  | .exited c, .ret v m => v = c.reg 0 ∧ coreOf m = c
  | .undefined, .ub => True
  | _, _ => False

/-- An instruction without code, followed by another one of its block. -/
def isQuiet (insns : List EbpfInst) (s : Vm.State) : Bool :=
  decide (Quiet (insnAt insns s.pc)) &&
    !decide (Begins insns (nextPc s.pc (insnAt insns s.pc)))

theorem not_isSlot_of_returnsTo {insns : List EbpfInst} {t : ℕ} (h : ReturnsTo insns t) :
    ¬IsSlot insns t := by
  rintro ⟨_, hs⟩
  rw [h.2.1] at hs
  exact absurd hs (by decide)

theorem land_of_returnsTo {insns : List EbpfInst} {t : ℕ} (hb : Begins insns t)
    (h : ReturnsTo insns t) : land insns t = t :=
  land_of_not_isSlot hb (not_isSlot_of_returnsTo h)

/-- An instruction that branches is not an `lddw`. -/
theorem land_succ {insns : List EbpfInst} {pc : ℕ} {sc : SwitchCase}
    (hsc : switchCase (insnAt insns pc).code = some sc) (hne : sc ≠ .lddw)
    (hb : Begins insns (pc + 1)) : land insns (pc + 1) = pc + 1 := by
  refine land_of_not_isSlot hb ?_
  intro hs
  have hcode : (insnAt insns pc).code = EBPF_OP_LDDW := hs.2
  rw [hcode, switchCase_lddw, Option.some.injEq] at hsc
  exact hne hsc.symm

theorem not_leaves_of_branches {pc : ℕ} {inst : EbpfInst} {sc : SwitchCase}
    (hsc : switchCase inst.code = some sc) (hb : branches pc inst sc = none) : ¬Leaves inst := by
  rintro ⟨sc', hsc', hb'⟩
  rw [hsc, Option.some.injEq] at hsc'
  rw [← hsc', isSome_branches 0 pc, hb] at hb'
  cases hb'

/-- A step of the machine with the result `r` is matched from the configuration `c`
    on, by some steps at least if it is not quiet. -/
def Matched (M : Module) (insns : List EbpfInst) (W : World Lbl) (quiet : Bool)
    (c : Config Lbl Slot) : Res Vm.State Vm.Halt → Prop
  | .cont s' => ∃ k c', (quiet = false → 0 < k) ∧ iter (step M.fn W) k c = .cont c' ∧
      Matches M insns W s' c' ∧ Unmarked (step M.fn W) M.boundary k c
  | .done r => ∃ k r', 0 < k ∧ iter (step M.fn W) k c = .done r' ∧ MatchesHalt r r' ∧
      Unmarked (step M.fn W) M.boundary k c

section

variable (h : Compiled x extFuncNames lddwHelpers patch base M) (hlast : LastOk x.insts)
  (hv : v ∈ M.log) {core core' : Core} {frames frames' : List Frame} {quiet : Bool}
  {sc : SwitchCase} (hsc : switchCase (insnAt x.insts v.pc).code = some sc)
  (hrep : Represents W m core frames)
  (hrets : ∀ f ∈ frames, Begins x.insts f.ret ∧ ReturnsTo x.insts f.ret)
include h hv

include hlast in
/-- Code that goes to the block of an instruction. -/
theorem matched_goto {t : ℕ} (ht : Begins x.insts t)
    (hcode : runCode W v.code e m = some (.goto (.inst t), m'))
    (hrep' : Represents W m' core' frames')
    (hrets' : ∀ f ∈ frames', Begins x.insts f.ret ∧ ReturnsTo x.insts f.ret) :
    Matched M x.insts W quiet ⟨v.block, v.start, e, m⟩
      (.cont ⟨land x.insts t, core', frames'⟩) := by
  obtain ⟨w, hw, hpc, k, hk, ⟨e', hrun⟩, hun⟩ := h.iter_goto hlast.1 hv ht hcode
  exact ⟨k, _, fun _ => hk, hrun, ⟨⟨w, hw, hpc, rfl, rfl⟩, hrep', hrets'⟩, hun⟩

/-- Code that goes to the exit. -/
theorem matched_exit (hcode : runCode W v.code e m = some (.goto .exitBlock, m'))
    (hrep' : Represents W m' core' frames') :
    Matched M x.insts W quiet ⟨v.block, v.start, e, m⟩ (.done (.exited core')) := by
  obtain ⟨k, hk, hrun, hun⟩ := h.iter_branch_then (e := e) hv hcode
    fun e' => h.iter_exitBlock hrep'
  exact ⟨k, _, hk, hrun, ⟨rfl, hrep'.core⟩, hun⟩

include hlast hsc hrep hrets

/-- An instruction that falls through. -/
theorem matched_next (hd : (insnAt x.insts v.pc).dst_reg ≤ 10)
    (hs : (insnAt x.insts v.pc).src_reg ≤ 10)
    (hb : branches v.pc (insnAt x.insts v.pc) sc = none)
    (hquiet : quiet = false → v.code ≠ [] ∨
      Begins x.insts (nextPc v.pc (insnAt x.insts v.pc))) :
    Matched M x.insts W quiet ⟨v.block, v.start, e, m⟩
      (Vm.next W.func x patch (insnAt x.insts v.pc) sc ⟨v.pc, core, frames⟩) := by
  have hcode : runCode W v.code e m =
      ((core.effect (insnAt x.insts v.pc) W.func x patch (insnAt x.insts (v.pc + 1)) sc).map
        fun c' => (.fall, withCore m c')) := by
    refine h.log.runCode_eq hv hsc ?_
    intro s
    have hacts : Acts W s (withCore m core) (emitCase x (prepared x extFuncNames lddwHelpers)
        patch v.pc (insnAt x.insts v.pc) sc) _ := acts_emitCase hrep.allocated hd hs hb
    rw [withCore_of_represents hrep] at hacts
    exact hacts
  rw [Vm.next]
  cases heff : core.effect (insnAt x.insts v.pc) W.func x patch (insnAt x.insts (v.pc + 1)) sc with
  | none =>
    rw [heff] at hcode
    obtain ⟨k, hk, hrun, hun⟩ := h.iter_undefined hv hcode
    exact ⟨k, .ub, hk, hrun, trivial, hun⟩
  | some c' =>
    rw [heff] at hcode
    obtain ⟨w, hw, hpc, k, e', hk, hrun, hun⟩ :=
      h.iter_next hlast hv (not_leaves_of_branches hsc hb) hcode
    refine ⟨k, _, fun hq => hk ?_, hrun,
      ⟨⟨w, hw, hpc, rfl, rfl⟩, represents_withCore hrep c', hrets⟩, hun⟩
    rw [hpc]
    exact hquiet hq

/-- A local call. -/
theorem matched_enter (hcall : sc = .call) (hsrc : (insnAt x.insts v.pc).src_reg = 1)
    (hl : CaseLegal x extFuncNames lddwHelpers patch v.pc (insnAt x.insts v.pc) sc) :
    Matched M x.insts W quiet ⟨v.block, v.start, e, m⟩
      (Vm.enter x (insnAt x.insts v.pc) ⟨v.pc, core, frames⟩) := by
  subst hcall
  rw [CaseLegal, if_pos hsrc] at hl
  obtain ⟨hr, hdst⟩ := hl
  have hpc : toUInt16 (v.pc + 1) = v.pc + 1 := h.toUInt16_succ hv
  rw [Vm.enter]
  by_cases hlt : frames.length < CALL_STACK_SIZE
  · rw [if_pos hlt]
    have hcode := h.log.runCode_eq (W := W) (e := e) (m := m) hv hsc fun s => by
      rw [emitCase, if_pos hsrc]
      exact acts_emitLocalCall (s := s) hrep hlt hr hdst
    rw [hpc] at hcode hr
    refine matched_goto h hlast hv hdst hcode (represents_pushItems hrep hlt _ _) ?_
    intro f hf
    rcases List.mem_cons.1 hf with rfl | hf
    · exact hr
    · exact hrets f hf
  · rw [if_neg hlt]
    have hcode := h.log.runCode_eq (W := W) (e := e) (m := m) hv hsc fun s => by
      rw [emitCase, if_pos hsrc]
      exact acts_emitLocalCall_none (s := s) hrep hlt hr
    obtain ⟨k, hk, hrun, hun⟩ := h.iter_undefined hv hcode
    exact ⟨k, .ub, hk, hrun, trivial, hun⟩

/-- An exit. -/
theorem matched_leave (hW : W.Separates M.fn.blocks) (hexit : sc = .exit) :
    Matched M x.insts W quiet ⟨v.block, v.start, e, m⟩ (Vm.leave ⟨v.pc, core, frames⟩) := by
  subst hexit
  have hcode := h.log.runCode_eq (W := W) (e := e) (m := m) hv hsc fun s => acts_exit (s := s) hrep
  cases frames with
  | nil => exact matched_exit h hv hcode hrep
  | cons f fs =>
    have hret := hrets f List.mem_cons_self
    obtain ⟨k, hk, ⟨e', hrun⟩, hun⟩ := h.iter_branch_then (e := e) hv hcode
      fun e' => h.iter_localRetBlock hW hrep hret
    -- Control lands where it returns to, which is no slot.
    obtain ⟨w, hw, hpc, hblk, hstart⟩ := h.visit_of_land hlast.1 hret.1
    rw [land_of_returnsTo hret.1 hret.2] at hpc hblk
    exact ⟨k, _, fun _ => hk, hrun, ⟨⟨w, hw, hpc, hblk, hstart⟩, represents_popItems hrep,
      fun g hg => hrets g (List.mem_cons_of_mem _ hg)⟩, hun⟩

/-- A jump that is always taken. -/
theorem matched_ja (hja : sc = .ja)
    (hl : CaseLegal x extFuncNames lddwHelpers patch v.pc (insnAt x.insts v.pc) sc) :
    Matched M x.insts W quiet ⟨v.block, v.start, e, m⟩
      (.cont ⟨land x.insts (jmpDst v.pc (insnAt x.insts v.pc)), core, frames⟩) := by
  subst hja
  refine matched_goto h hlast hv hl (h.log.runCode_eq hv hsc fun s => ?_) hrep hrets
  have hblk : loadJmpDstBlock v.pc (insnAt x.insts v.pc)
      (prepared x extFuncNames lddwHelpers).instBlocks =
        .ok (.inst (jmpDst v.pc (insnAt x.insts v.pc))) := loadBlock_ok hl
  rw [emitCase, hblk, ofExcept_ok_bind]
  exact acts_createBr _

/-- A conditional jump. -/
theorem matched_jump (hd : (insnAt x.insts v.pc).dst_reg ≤ 10)
    (hs : (insnAt x.insts v.pc).src_reg ≤ 10) (hjump : sc = .jset ∨ ∃ p, sc = .jcond p)
    (hl : Begins x.insts (jmpDst v.pc (insnAt x.insts v.pc)) ∧
      Begins x.insts (toUInt16 (v.pc + 1))) :
    Matched M x.insts W quiet ⟨v.block, v.start, e, m⟩
      (.cont ⟨if core.taken (insnAt x.insts v.pc) sc then
        land x.insts (jmpDst v.pc (insnAt x.insts v.pc)) else v.pc + 1, core, frames⟩) := by
  have hcode : runCode W v.code e m = some (.goto (if core.taken (insnAt x.insts v.pc) sc then
      .inst (jmpDst v.pc (insnAt x.insts v.pc)) else .inst (toUInt16 (v.pc + 1))), m) := by
    refine h.log.runCode_eq hv hsc ?_
    intro s
    have hacts : Acts W s (withCore m core) (emitCase x (prepared x extFuncNames lddwHelpers)
        patch v.pc (insnAt x.insts v.pc) sc) _ := acts_jump hrep.allocated hd hs hjump hl
    rw [withCore_of_represents hrep] at hacts
    exact hacts
  by_cases htaken : core.taken (insnAt x.insts v.pc) sc = true
  · rw [if_pos htaken] at hcode ⊢
    exact matched_goto h hlast hv hl.1 hcode hrep hrets
  · rw [if_neg htaken] at hcode ⊢
    have hpc : toUInt16 (v.pc + 1) = v.pc + 1 := h.toUInt16_succ hv
    rw [hpc] at hcode hl
    -- A jump that is not taken also lands: the next instruction begins a block.
    have hland : land x.insts (v.pc + 1) = v.pc + 1 := land_succ hsc (by
      rcases hjump with rfl | ⟨p, rfl⟩ <;> simp) hl.2
    have hmatch : Matched M x.insts W quiet ⟨v.block, v.start, e, m⟩ _ :=
      matched_goto h hlast hv hl.2 hcode hrep hrets
    rwa [hland] at hmatch

omit hlast hrets in
/-- The call of an external function that does not return. -/
theorem matched_tailCall (hcall : sc = .call) (hsrc : ¬(insnAt x.insts v.pc).src_reg = 1)
    (himm : (insnAt x.insts v.pc).imm = 12) :
    Matched M x.insts W quiet ⟨v.block, v.start, e, m⟩
      (.done (.exited (core.extCall (insnAt x.insts v.pc) W.func))) := by
  subst hcall
  refine matched_exit h hv (h.log.runCode_eq hv hsc fun s => ?_) (represents_withCore hrep _)
  rw [emitCase, if_neg hsrc]
  have hacts : Acts W s (withCore m core) (emitExtFuncCall (insnAt x.insts v.pc)
      (prepared x extFuncNames lddwHelpers).extFunc .exitBlock) _ :=
    acts_emitExtFuncCall hrep.allocated _
  rw [withCore_of_represents hrep, if_pos himm] at hacts
  exact hacts

/-- The compiled code does what an instruction does. -/
theorem matched_exec (hW : W.Separates M.fn.blocks) (hd : (insnAt x.insts v.pc).dst_reg ≤ 10)
    (hs : (insnAt x.insts v.pc).src_reg ≤ 10)
    (hl : CaseLegal x extFuncNames lddwHelpers patch v.pc (insnAt x.insts v.pc) sc)
    (hquiet : quiet = false → v.code ≠ [] ∨
      Begins x.insts (nextPc v.pc (insnAt x.insts v.pc))) :
    Matched M x.insts W quiet ⟨v.block, v.start, e, m⟩
      (Vm.exec W.func x patch (insnAt x.insts v.pc) ⟨v.pc, core, frames⟩ sc) := by
  cases hb : branches v.pc (insnAt x.insts v.pc) sc with
  | none =>
    rw [Vm.exec_of_branches hb]
    exact matched_next h hlast hv hsc hrep hrets hd hs hb hquiet
  | some succs =>
    cases sc with
    | ja => exact matched_ja h hlast hv hsc hrep hrets rfl hl
    | jcond p => exact matched_jump h hlast hv hsc hrep hrets hd hs (.inr ⟨p, rfl⟩) hl
    | jset => exact matched_jump h hlast hv hsc hrep hrets hd hs (.inl rfl) hl
    | exit => exact matched_leave h hlast hv hsc hrep hrets hW rfl
    | call =>
      rw [Vm.exec]
      rw [branches] at hb
      by_cases hsrc : (insnAt x.insts v.pc).src_reg = 1
      · rw [if_pos hsrc]
        exact matched_enter h hlast hv hsc hrep hrets rfl hsrc hl
      · by_cases himm : (insnAt x.insts v.pc).imm = 12
        · rw [if_neg hsrc, if_pos himm]
          exact matched_tailCall h hv hsc hrep rfl hsrc himm
        · -- Other calls fall through.
          rw [if_neg hsrc, if_neg himm] at hb
          cases hb
    | _ => cases hb

end

/-- An instruction without code has no effect. -/
theorem step_of_quiet {F : Funcs} {s : Vm.State} (hq : Quiet (insnAt x.insts s.pc)) :
    Vm.step F x patch s = .cont ⟨nextPc s.pc (insnAt x.insts s.pc), s.core, s.frames⟩ := by
  obtain ⟨hcode, hsrc⟩ := hq
  have hsc : switchCase (insnAt x.insts s.pc).code = some .lddw := by
    rw [hcode, switchCase_lddw]
  rw [Vm.step_eq hsc, Vm.exec_of_branches rfl, Vm.next, Core.effect, Core.lddw_of_lt hsrc]

/-- The compiled code does what the machine does. -/
theorem matched_step (h : Compiled x extFuncNames lddwHelpers patch base M)
    (hlast : LastOk x.insts) (hW : W.Separates M.fn.blocks) {s : Vm.State}
    {c : Config Lbl Slot} (hm : Matches M x.insts W s c) :
    Matched M x.insts W (isQuiet x.insts s) c (Vm.step W.func x patch s) := by
  obtain ⟨pc, core, frames⟩ := s
  obtain ⟨block, ip, e, m⟩ := c
  obtain ⟨⟨v, hv, rfl, rfl, rfl⟩, hrep, hrets⟩ := hm
  obtain ⟨hd, hs, sc, hsc, hl⟩ := h.log.legal hv
  rw [Vm.step_eq hsc]
  refine matched_exec h hlast hv hsc hrep hrets hW hd hs hl ?_
  intro hquiet
  by_cases hq : Quiet (insnAt x.insts v.pc)
  · exact .inr (by simpa only [isQuiet, decide_eq_true hq, Bool.true_and, Bool.not_eq_false',
      decide_eq_true_eq] using hquiet)
  · obtain ⟨_, body, t, _, hcode, _⟩ := (h.log.shape hv).of_not_quiet hq
    exact .inl (by simp [hcode])

/-- The step of an instruction without code does not need one. -/
theorem matches_of_quiet (h : Compiled x extFuncNames lddwHelpers patch base M)
    (hlast : LastOk x.insts) {s : Vm.State} {c : Config Lbl Slot} (hm : Matches M x.insts W s c)
    (hq : isQuiet x.insts s = true) :
    ∃ s', Vm.step W.func x patch s = .cont s' ∧ Matches M x.insts W s' c ∧
      x.insts.length - s'.pc < x.insts.length - s.pc := by
  obtain ⟨pc, core, frames⟩ := s
  obtain ⟨block, ip, e, m⟩ := c
  obtain ⟨⟨v, hv, rfl, rfl, rfl⟩, hrep, hrets⟩ := hm
  simp only [isQuiet, Bool.and_eq_true, decide_eq_true_eq, Bool.not_eq_true',
    decide_eq_false_iff_not] at hq
  obtain ⟨hq, hbeg⟩ := hq
  have hpc := h.log.pc_lt hv
  have hnext := lt_nextPc v.pc (insnAt x.insts v.pc)
  refine ⟨_, step_of_quiet hq, ⟨?_, hrep, hrets⟩, by simp only; omega⟩
  -- The next instruction is at the same place.
  rcases h.log.next hv with ⟨hend, -⟩ | ⟨w, hw, hwpc, -, hsame⟩
  · exact absurd (hend.trans h.full)
      (Compiled.nextPc_ne_length hlast (not_leaves_of_lddw hq.1))
  · obtain ⟨hblk, hstart⟩ := hsame (hwpc ▸ hbeg)
    rw [(h.log.shape hv).nil_of_quiet hq, List.length_nil, Nat.add_zero] at hstart
    exact ⟨w, hw, hwpc, hblk, hstart⟩

/-- The compiled code simulates its machine. -/
def simulation (h : Compiled x extFuncNames lddwHelpers patch base M) (hlast : LastOk x.insts)
    (hW : W.Separates M.fn.blocks) : Simulation (Vm.step W.func x patch) (step M.fn W) where
  rel := Matches M x.insts W
  relDone := MatchesHalt
  mark := M.boundary
  quiet := isQuiet x.insts
  rank s := x.insts.length - s.pc
  quiet_step := matches_of_quiet h hlast
  mark_of_rel hm _ := hm.boundary
  cont_step := by
    intro s s' c hm hq hs
    have hmatch := matched_step h hlast hW hm
    rw [hs] at hmatch
    obtain ⟨k, c', hk, hrun, hm', hun⟩ := hmatch
    exact ⟨k, c', hk hq, hrun, hm', hun⟩
  done_step := by
    intro s r c hm _ hs
    have hmatch := matched_step h hlast hW hm
    rw [hs] at hmatch
    exact hmatch

/-! ## Runs -/

/-- The configuration at the start of `bpf_main`. -/
def entry (e : Env Slot) (m : Machine Slot) : Config Lbl Slot := ⟨.setupBlock, 0, e, m⟩

/-- The compiled code gets to the first instruction. -/
theorem iter_setup (h : Compiled x extFuncNames lddwHelpers patch base M) (hlast : LastOk x.insts)
    (W : World Lbl) (e : Env Slot) (m : Machine Slot) :
    ∃ k c, iter (step M.fn W) k (entry e m) = .cont c ∧
      Matches M x.insts W (Vm.start (startCore W m)) c ∧
      ∀ j < k, ∀ d, iter (step M.fn W) j (entry e m) = .cont d → M.boundary d = false := by
  obtain ⟨n, hsetup⟩ := h.fixed.setup
  obtain ⟨m', hacts, hrep⟩ := acts_emitSetupBlock (W := W) e m
  obtain ⟨e', hx⟩ := execList_of_runCode (hacts () n _ hsetup)
  have hcode : CodeAt M.fn .setupBlock 0 (base .setupBlock) := codeAt_zero h.code_setupBlock
  obtain ⟨k, hk, _, hrun, hin⟩ := iter_execList (W := W) (e := e) (m := m) hcode
  rw [hx, afterCode, Nat.zero_add] at hrun
  -- The block goes on to the one of the first instruction.
  have hstep : step M.fn W ⟨.setupBlock, (base .setupBlock).length, e', m'⟩ =
      .cont ⟨.inst 0, 0, e', m'⟩ := by
    rw [step_eq_afterCode (i := .br (.inst 0)) (by rw [h.code_setupBlock]; simp)]
    rfl
  obtain ⟨w, hw, hpc, hblk, hstart⟩ := h.visit_of_land hlast.1 (begins_zero h.nonempty)
  have hland : land x.insts 0 = 0 :=
    land_of_not_isSlot (begins_zero h.nonempty) fun hs => absurd hs.1 (Nat.lt_irrefl 0)
  rw [hland] at hpc hblk
  refine ⟨k + 1, ⟨.inst 0, 0, e', m'⟩, ?_, ⟨⟨w, hw, hpc, hblk, hstart⟩, hrep,
    fun f hf => absurd hf List.not_mem_nil⟩, fun j hj d hd => ?_⟩
  · rw [entry, iter_succ_right hrun, hstep]
  have hd' : d.block = .setupBlock := by
    rcases Nat.lt_succ_iff_lt_or_eq.1 hj with hj | rfl
    · obtain ⟨e₁, m₁, hj'⟩ := hin j hj
      rw [entry, hj'] at hd
      cases hd
      rfl
    · rw [entry, hrun] at hd
      cases hd
      rfl
  refine Compiled.not_boundary ?_
  intro u hu hu' _
  obtain ⟨b, hb, _⟩ := h.block_of_boundary hu
  rw [hb, hd'] at hu'
  cases hu'

section

variable {V : Verifier} (h : Accepts V x extFuncNames lddwHelpers patch M)
  (hW : W.Separates M.fn.blocks)
include h hW

/-- The runs of an accepted program are the ones of its machine, and get to a
    boundary where that gets to a state. -/
theorem Accepts.run (e : Env Slot) (m : Machine Slot) :
    ∃ (S : Simulation (Vm.step W.func x patch) (step M.fn W)) (k : ℕ) (c : Config Lbl Slot),
      S.rel = Matches M x.insts W ∧ S.relDone = MatchesHalt ∧ S.mark = M.boundary ∧
      S.quiet = isQuiet x.insts ∧ iter (step M.fn W) k (entry e m) = .cont c ∧
      Matches M x.insts W (Vm.start (startCore W m)) c ∧
      ∀ j < k, ∀ d, iter (step M.fn W) j (entry e m) = .cont d → M.boundary d = false := by
  obtain ⟨base, hc, -⟩ := h.exists_compiled
  obtain ⟨k, c, hrun, hm, hun⟩ := iter_setup hc h.inputOk.last W e m
  exact ⟨simulation hc h.inputOk.last hW, k, c, rfl, rfl, rfl, rfl, hrun, hm, hun⟩

variable {k n : ℕ} {c : Config Lbl Slot}
  {s : Vm.State} {r : Vm.Halt} {r' : Ir.Halt Slot}

/-- A boundary that a run of an accepted program gets to is matched by a state of
    its machine, and so are the ones before. -/
theorem Accepts.backward (hrun : iter (step M.fn W) k (entry e m) = .cont c)
    (hc : M.boundary c = true) :
    ∃ n s, iter (Vm.step W.func x patch) n (Vm.start (startCore W m)) = .cont s ∧
      Matches M x.insts W s c ∧ isQuiet x.insts s = false ∧
      List.Forall₂ (Matches M x.insts W)
        (trace (Vm.step W.func x patch) (fun s => !isQuiet x.insts s) n (Vm.start (startCore W m)))
        (trace (step M.fn W) M.boundary k (entry e m)) := by
  obtain ⟨S, k₀, c₀, hrel, -, hmark, hquiet, hrun₀, hm, hun⟩ := h.run hW e m
  have hle : k₀ ≤ k := by
    by_contra hlt
    rw [hun k (Nat.not_le.1 hlt) c hrun] at hc
    cases hc
  obtain ⟨j, rfl⟩ := Nat.exists_eq_add_of_le hle
  rw [iter_add hrun₀] at hrun
  obtain ⟨n, s, hn, hs, hq, htr⟩ := S.backward_mark (hrel ▸ hm) hrun (hmark ▸ hc)
  rw [hrel, hmark, hquiet] at htr
  refine ⟨n, s, hn, hrel ▸ hs, hquiet ▸ hq, ?_⟩
  rwa [trace_add hrun₀, trace_eq_nil hun, List.nil_append]

/-- How a run of an accepted program ends is how the one of its machine does. -/
theorem Accepts.backward_done (hrun : iter (step M.fn W) k (entry e m) = .done r') :
    ∃ n r, iter (Vm.step W.func x patch) n (Vm.start (startCore W m)) = .done r ∧
      MatchesHalt r r' := by
  obtain ⟨S, k₀, c₀, hrel, hdone, -, -, hrun₀, hm, -⟩ := h.run hW e m
  have hrun' : iter (step M.fn W) k c₀ = .done r' := by
    have hadd := iter_add_of_done (n := k₀) hrun
    rwa [Nat.add_comm, iter_add hrun₀] at hadd
  obtain ⟨n, r, hn, hr⟩ := S.backward_done (hrel ▸ hm) hrun'
  exact ⟨n, r, hn, hdone ▸ hr⟩

/-- The runs of the machine are matched. -/
theorem Accepts.forward
    (hn : iter (Vm.step W.func x patch) n (Vm.start (startCore W m)) = .cont s) :
    ∃ k c, iter (step M.fn W) k (entry e m) = .cont c ∧ Matches M x.insts W s c := by
  obtain ⟨S, k₀, c₀, hrel, -, -, -, hrun₀, hm, -⟩ := h.run hW e m
  obtain ⟨k, c, hrun, hs⟩ := S.forward (hrel ▸ hm) hn
  exact ⟨k₀ + k, c, by rw [iter_add hrun₀, hrun], hrel ▸ hs⟩

theorem Accepts.forward_done
    (hn : iter (Vm.step W.func x patch) n (Vm.start (startCore W m)) = .done r) :
    ∃ k r', iter (step M.fn W) k (entry e m) = .done r' ∧ MatchesHalt r r' := by
  obtain ⟨S, k₀, c₀, hrel, hdone, -, -, hrun₀, hm, -⟩ := h.run hW e m
  obtain ⟨k, r', hrun, hr⟩ := S.forward_done (hrel ▸ hm) hn
  exact ⟨k₀ + k, r', by rw [iter_add hrun₀, hrun], hdone ▸ hr⟩

end

/-! ### Running a program -/

/-- A world without external functions, whose blocks are numbered. -/
def World.numbered : World Lbl where
  args _ := 0
  place _ := 65536
  blockAddr
    | .setupBlock => 1
    | .exitBlock => 2
    | .localRetBlock => 3
    | .inst i => BitVec.ofNat 64 (4 * i)
  func _ _ mem := (0, mem)

/-- The results and the machine before a run. -/
def Env.zero : Env Slot
  | .int _, _ => 0
  | .ptr, _ => .flat 0

def Machine.zero : Machine Slot where
  slot _ _ := 0
  size _ := 0
  mem _ := 0

/-- The configuration after `k` steps of a program without external functions, if it
    is a boundary. -/
def boundaryAfter (M : Module) (k : ℕ) : Option (Config Lbl Slot) :=
  match iter (step M.fn World.numbered) k (entry Env.zero Machine.zero) with
  | .cont c => if M.boundary c then some c else none
  | .done _ => none

/-- Running the compiler, and the program. -/
theorem exists_boundary (insns : List EbpfInst) (k : ℕ) (p : Module → Config Lbl Slot → Bool)
    (h : (match generateModule Verifier.shape { insts := insns } [] [] false (insns.length + 1) with
      | some (.ok M) => decide (World.numbered.Separates M.fn.blocks) &&
        (boundaryAfter M k).any (p M)
      | _ => false) = true) :
    ∃ M c, Accepts Verifier.shape { insts := insns } [] [] false M ∧
      World.numbered.Separates M.fn.blocks ∧
      iter (step M.fn World.numbered) k (entry Env.zero Machine.zero) = .cont c ∧
      M.boundary c = true ∧ p M c = true := by
  obtain ⟨M, hM, hp⟩ := exists_accepts _ _ _ _ _ _ _ h
  rw [Bool.and_eq_true, decide_eq_true_iff, Option.any_eq_true] at hp
  obtain ⟨hW, c, hc, hpc⟩ := hp
  rw [boundaryAfter] at hc
  split at hc
  · next c' hrun =>
    split at hc
    · next hb =>
      cases hc
      exact ⟨M, c, hM, hW, hrun, hb, hpc⟩
    · cases hc
  · cases hc

end EbpfJit
