import EbpfJit.Calls

/-!
# Calls and returns

An exit of the compiled code returns from the last active local call, if there is
one: the items on top of the call stack are the ones that this call has pushed.

* `call_discipline`: at every instruction boundary, the number of items is five
  times the number of active calls, and an exit returns from the last one of these,
  or from the program.
-/

namespace EbpfJit

open Ir Transition

/-- Control has returned from the exit at `c` to `d`, after the local call `call`:
    the registers `r6` to `r9` are as they were at the call, `r0` to `r5` and the
    memory as they are at the exit, and the frame pointer has moved. The address of
    the block is the one on top of the call stack, and listed by the branch that
    goes there. -/
structure Returned (M : Module) (W : World Lbl) (call c d : Config Lbl Slot) : Prop where
  dest : ∃ pc, M.pcAt call = some pc ∧ d.block = .inst (pc + 1) ∧ d.ip = 0
  boundary : M.boundary d = true
  saved : ∀ i, 6 ≤ i → i ≤ 9 → d.m.slot (.reg i) 0 = call.m.slot (.reg i) 0
  kept : ∀ i ≤ 5, d.m.slot (.reg i) 0 = c.m.slot (.reg i) 0
  framePointer : d.m.slot (.reg 10) 0 = c.m.slot (.reg 10) 0 + BitVec.ofNat 64 STACK_SIZE
  mem : d.m.mem = c.m.mem
  address : c.m.slot .callStack ((c.m.slot .callItemCnt 0).toNat - 1) = W.blockAddr d.block
  listed : ∃ i, (M.fn.code .localRetBlock).getLast? = some i ∧ d.block ∈ i.successors

/-- An exit at `c` goes to the exit block, which returns `r0`, if no call is active,
    and returns from the last active one otherwise. -/
def Exits (M : Module) (W : World Lbl) (calls : List (Config Lbl Slot)) (c : Config Lbl Slot) :
    Prop :=
  ∃ j d, 0 < j ∧ iter (step M.fn W) j c = .cont d ∧ d.ip = 0 ∧ d.m = c.m ∧
    Unmarked (step M.fn W) M.boundary j c ∧
    match calls with
    | [] => d.block = .exitBlock ∧
      ∃ i, iter (step M.fn W) i d = .done (.ret (c.m.slot (.reg 0) 0) c.m)
    | call :: _ => d.block = .localRetBlock ∧
      ∃ d', M.Leads W d (fun r => r = .cont d') ∧ Returned M W call c d'

/-- The call stack at `c` is the one of the active local calls `calls`. -/
structure CallDiscipline (M : Module) (W : World Lbl) (calls : List (Config Lbl Slot))
    (c : Config Lbl Slot) : Prop where
  count : (c.m.slot .callItemCnt 0).toNat = 5 * calls.length
  depth : calls.length ≤ CALL_STACK_SIZE
  exit : ∀ inst, M.instAt c = some inst → isExit inst = true → Exits M W calls c

variable {x : CompilerXDP} {extFuncNames lddwHelpers : List String} {patch : Bool}
  {base : Lbl → List (Instr Lbl Slot)} {M : Module} {W : World Lbl}

theorem toNat_count {c : Core} {fs : List Frame} {m : Machine Slot} (h : Represents W m c fs) :
    (m.slot .callItemCnt 0).toNat = 5 * fs.length := by
  have hdepth : fs.length ≤ 64 := h.depth
  rw [h.count, BitVec.toNat_ofNat]
  omega

theorem regs_popItems (m : Machine Slot) (c : Core) (f : Frame) (n i : ℕ) :
    (popItems m c f n).slot (.reg i) 0 = (c.leave f).regs i := rfl

/-- The branch of the return block lists the blocks it may return to. -/
theorem Compiled.listed (h : Compiled x extFuncNames lddwHelpers patch base M) {t : ℕ}
    (ht : Begins x.insts t ∧ ReturnsTo x.insts t) :
    ∃ i, (M.fn.code .localRetBlock).getLast? = some i ∧ Lbl.inst t ∈ i.successors := by
  obtain ⟨body, i, hcode, _, hi⟩ := h.fixed.localRet_eq
  refine ⟨i, ?_, ?_⟩
  · rw [h.code_other (by simp) (by simp), hcode, List.getLast?_concat]
  · rw [hi.2]
    simp [prepared, blocksOf, mem_beginList, ht.1, ht.2]

/-- The return block returns to the last caller. -/
theorem Compiled.leads_returned (h : Compiled x extFuncNames lddwHelpers patch base M)
    (hslot : ∀ t, Begins x.insts t → IsSlot x.insts t → ∃ t', t < t' ∧ Begins x.insts t')
    (hW : W.Separates M.fn.blocks) {c call : Config Lbl Slot} {core : Core} {f : Frame}
    {fs : List Frame} (hrep : Represents W c.m core (f :: fs))
    (hret : Begins x.insts f.ret ∧ ReturnsTo x.insts f.ret) (hf : IsFrame M f call)
    (e : Env Slot) :
    ∃ d, M.Leads W ⟨.localRetBlock, 0, e, c.m⟩ (fun r => r = .cont d) ∧ Returned M W call c d := by
  obtain ⟨k, ⟨e', hrun⟩, hun⟩ := h.iter_localRetBlock (e := e) hW hrep hret
  refine ⟨⟨.inst f.ret, 0, e', popItems c.m core f fs.length⟩, ⟨k, hrun, hun⟩, ?_⟩
  -- Where a function returns to, an instruction begins its block: control lands there.
  obtain ⟨w, hw, -, hblk, hstart⟩ := h.visit_of_land hslot hret.1
  rw [land_of_returnsTo hret.1 hret.2] at hblk
  obtain ⟨pc, hpc, hfret⟩ := hf.pcAt
  constructor
  case dest => exact ⟨pc, hpc, by rw [hfret], rfl⟩
  case boundary => exact Compiled.boundary_iff.2 ⟨w, hw, hblk, hstart⟩
  case saved =>
    intro i h₆ h₉
    rw [regs_popItems, core.regs_leave_saved f h₆ h₉, hf.regs]
    rfl
  case kept =>
    intro i hi
    rw [regs_popItems, core.regs_leave_of_lt f (by omega), ← hrep.core]
    rfl
  case framePointer =>
    rw [regs_popItems, Core.regs_leave_ten, ← hrep.core]
    rfl
  case mem =>
    rw [← hrep.core]
    rfl
  case address =>
    rw [toNat_count hrep, List.length_cons,
      show 5 * (fs.length + 1) - 1 = 5 * fs.length + 4 by omega]
    exact hrep.saved.1
  case listed => exact h.listed hret

theorem Compiled.exits (h : Compiled x extFuncNames lddwHelpers patch base M)
    (hlast : LastOk x.insts) (hW : W.Separates M.fn.blocks) {s : Vm.State}
    {c : Config Lbl Slot} {calls : List (Config Lbl Slot)} (hm : Matches M x.insts W s c)
    (hexit : isExit (insnAt x.insts s.pc) = true)
    (hcalls : List.Forall₂ (IsFrame M) s.frames calls) : Exits M W calls c := by
  obtain ⟨pc, core, frames⟩ := s
  obtain ⟨block, ip, e, m⟩ := c
  obtain ⟨⟨v, hv, rfl, rfl, rfl⟩, hrep, hrets⟩ := hm
  have hcode := h.log.runCode_eq (W := W) (e := e) (m := m) hv (of_decide_eq_true hexit)
    fun s => acts_exit (s := s) hrep
  obtain ⟨j, e', hj, hrun, hun⟩ := h.iter_branch hv hcode
  refine ⟨j, _, hj, hrun, rfl, rfl, hun, ?_⟩
  rcases hcalls with _ | ⟨hf, _⟩
  · obtain ⟨i, hi, -⟩ := h.iter_exitBlock (e := e') hrep
    refine ⟨rfl, i, hi.trans ?_⟩
    rw [← hrep.core]
    rfl
  · exact ⟨rfl, h.leads_returned hlast.1 hW hrep (hrets _ List.mem_cons_self) hf e'⟩

/-- At every instruction boundary of a run of an accepted program, the call stack is
    the one of the active local calls. -/
theorem call_discipline {V : Verifier} (h : Accepts V x extFuncNames lddwHelpers patch M)
    (hW : W.Separates M.fn.blocks) {e : Env Slot} {m : Machine Slot} {k : ℕ} {c : Config Lbl Slot}
    (hrun : iter (step M.fn W) k (entry e m) = .cont c) (hc : M.boundary c = true) :
    CallDiscipline M W (M.activeCalls (M.executed W k (entry e m))) c := by
  obtain ⟨base, hcomp, -⟩ := h.exists_compiled
  obtain ⟨n, s, -, hm, hq, -, hcalls⟩ := h.backward_calls hW hrun hc
  have hlen := hcalls.length_eq
  refine ⟨?_, ?_, fun inst hinst hexit => hcomp.exits h.inputOk.last hW hm ?_ hcalls⟩
  · rw [toNat_count hm.represents, hlen]
  · rw [← hlen]
    exact hm.represents.depth
  · rw [hcomp.instAt_of_matches hm hq] at hinst
    split at hinst
    · cases hinst
    · rwa [Option.some.inj hinst]

/-- A call of a function that exits. -/
def returnProgram : List EbpfInst :=
  [⟨EBPF_OP_MOV64_IMM, 6, 0, 0, 7⟩, ⟨EBPF_OP_CALL, 0, 1, 0, 1⟩, ⟨EBPF_OP_EXIT, 0, 0, 0, 0⟩,
    ⟨EBPF_OP_MOV64_IMM, 6, 0, 0, 9⟩, ⟨EBPF_OP_EXIT, 0, 0, 0, 0⟩]

/-- The last exit is executed with the call active. -/
theorem call_discipline_returnProgram :
    ∃ M c, (M.instAt c).any isExit = true ∧
      (M.activeCalls (M.executed World.numbered 48 (entry Env.zero Machine.zero))).length = 1 ∧
      CallDiscipline M World.numbered
        (M.activeCalls (M.executed World.numbered 48 (entry Env.zero Machine.zero))) c := by
  obtain ⟨M, c, hM, hW, hrun, hc, hp⟩ := exists_boundary returnProgram 48
    (fun M c => (M.instAt c).any isExit && decide
      ((M.activeCalls (M.executed World.numbered 48 (entry Env.zero Machine.zero))).length = 1))
    (by decide +kernel)
  rw [Bool.and_eq_true, decide_eq_true_iff] at hp
  exact ⟨M, c, hp.1, hp.2, call_discipline hM hW hrun hc⟩

end EbpfJit
