import EbpfJit.Concurrency
import EbpfJit.Correctness
import Mathlib.Data.BitVec

/-!
# Interpreters side by side

What compiled programs do side by side, in terms of the instruction set alone: they do what
interpreters do side by side, each of whose instructions takes place at once. Everything that
the code does not do right must be out of reach there, in whatever order the interpreters
take their steps.

* `Interp.Interleaves`: interpreters side by side;
* `Placed`: what holds of the states of a machine, whatever others do to its memory;
* `linearizes`: the code follows the interpreters;
* `counts`: code that adds to a cell side by side loses no update.
-/

namespace EbpfJit

open Ir Transition

/-- The memory. -/
def Interp.State.memory : Part Interp.State (ByteMemory.Mem 64) where
  get s := s.core.mem
  put mem s := { s with core := s.core.setMem mem }
  get_put _ _ := rfl
  put_put _ _ _ := rfl
  put_get _ := rfl

/-- What a run of the interpreter leaves of the memory. -/
def Isa.Halt.Left : Isa.Halt → ByteMemory.Mem 64 → ByteMemory.Mem 64 → Prop
  | .exited c, _, mem => mem = c.mem
  | .stuck, mem, mem' => mem' = mem

/-- Interpreters side by side, with frames of `stackSize` bytes. -/
abbrev Interp.Interleaves {I : Type*} [DecidableEq I] (stackSize : ℕ) (F : I → Funcs)
    (insns : I → List EbpfInst) :
    (I → Res Interp.State Isa.Halt) → ByteMemory.Mem 64 → (I → Res Interp.State Isa.Halt) →
      ByteMemory.Mem 64 → Prop :=
  Transition.Interleaves Interp.State.memory Isa.Halt.Left fun i => interp stackSize (F i) (insns i)

/-- The code is where the interpreter is: at a boundary, at the same instruction, with the same
    registers, on the memory as the code has seen it last; in the end, both have returned the
    same value. -/
structure FollowsInterp (M : Module) (s : Res Interp.State Isa.Halt)
    (c : Res (Config Lbl Slot) (Ir.Halt Slot)) : Prop where
  boundary : ∀ d, c = .cont d → M.boundary d = true →
    ∃ t, s = .cont t ∧ AtInterp M (Interp.State.memory.put d.m.mem t) d
  returned : ∀ r, c = .done r → ∃ core m, s = .done (.exited core) ∧ r = .ret (core.reg 0) m

/-! ## The states of a machine -/

/-- The machine is at an instruction that it can get to, and its frames are below each other.
    Nothing is said about its memory. -/
structure Placed (M : Module) (insns : List EbpfInst) (W : World Lbl) (t : Vm.State) : Prop where
  matched : ∃ c, Matches M insns W t c
  stacked : Vm.Stacked (stackEnd W) (t.core.regs 10) t.frames

theorem Placed.put {M : Module} {insns : List EbpfInst} {W : World Lbl} {t : Vm.State}
    (h : Placed M insns W t) (mem : ByteMemory.Mem 64) :
    Placed M insns W (Vm.State.memory.put mem t) := by
  obtain ⟨⟨c, hm⟩, hst⟩ := h
  exact ⟨⟨_, hm.put mem⟩, hst⟩

section

variable {V : Verifier} {x : CompilerXDP} {extFuncNames lddwHelpers : List String} {patch : Bool}
  {M : Module} {W : World Lbl} {m : Machine Slot} {t t' : Vm.State}
  (h : Accepts V x extFuncNames lddwHelpers patch M) (hW : W.Separates M.fn.blocks)
include h

theorem Accepts.isInst_of_placed (ht : Placed M x.insts W t) : IsInst x.insts t := by
  obtain ⟨base, hc, -⟩ := h.exists_compiled
  obtain ⟨⟨c, hm⟩, -⟩ := ht
  obtain ⟨v, hv, hpc, -⟩ := hm.visit
  rw [IsInst, ← hpc]
  exact ⟨hc.log.pc_lt hv, hc.log.not_isSlot hv⟩

include hW

theorem Accepts.placed_start : Placed M x.insts W (Vm.start (startCore W m)) := by
  obtain ⟨S, k, c, -, -, -, -, -, hm, -⟩ := h.run hW Env.zero m
  exact ⟨⟨c, hm⟩, rfl⟩

theorem Accepts.placed_step (hcov : Covered x.insts) (ht : Placed M x.insts W t)
    (hs : Vm.step W.func x patch t = .cont t') : Placed M x.insts W t' := by
  obtain ⟨hpc, hslot⟩ := h.isInst_of_placed ht
  obtain ⟨base, hc, -⟩ := h.exists_compiled
  obtain ⟨⟨c, hm⟩, hst⟩ := ht
  obtain ⟨k, c', -, hm'⟩ := (simulation hc h.inputOk.last hW).step_cont hm hs
  exact ⟨⟨c', hm'⟩, Vm.stacked_step hst hs (hcov t.pc hpc hslot).1⟩

end

/-! ## Lock-step -/

/-- The interpreter and the machine are at the same state, which can be got to, or have exited
    alike. -/
structure Mirrors (M : Module) (insns : List EbpfInst) (W : World Lbl)
    (s : Res Interp.State Isa.Halt) (t : Res Vm.State Vm.Halt) : Prop where
  agree : StepsAgree s t
  placed : ∀ u, t = .cont u → Placed M insns W u

section

variable {V : Verifier} {x : CompilerXDP} {extFuncNames lddwHelpers : List String} {patch : Bool}
  {M : Module} {W : World Lbl} {q : Res Interp.State Isa.Halt} {r r' : Res Vm.State Vm.Halt}
  {mem mem' : ByteMemory.Mem 64} {stackSize : ℕ}
  (h : Accepts V x extFuncNames lddwHelpers patch M)
include h

/-- The interpreter takes the step of the machine, on the memory that this finds. -/
theorem Accepts.exists_step (hW : W.Separates M.fn.blocks) (hcov : Covered x.insts)
    (hq : Mirrors M x.insts W q r)
    (hf : ∀ s, q = .cont s → FaithfulAt stackSize x.insts (Interp.State.memory.put mem s))
    (hs : Vm.State.memory.Step Vm.Halt.Left (Vm.step W.func x patch) r mem r' mem') :
    ∃ q', Interp.State.memory.Step Isa.Halt.Left (interp stackSize W.func x.insts) q mem q' mem' ∧
      Mirrors M x.insts W q' r' := by
  have hstep {s : Interp.State} (hp : Placed M x.insts W s.toVm)
      (hf : FaithfulAt stackSize x.insts (Interp.State.memory.put mem s)) :
      StepsAgree (interp stackSize W.func x.insts (Interp.State.memory.put mem s))
        (Vm.step W.func x patch (Vm.State.memory.put mem s.toVm)) := by
    have hput : Placed M x.insts W (Interp.State.memory.put mem s).toVm := hp.put mem
    exact (EbpfJit.stepsAgree_iff h.inputOk hcov (h.isInst_of_placed hput) hput.stacked).2 hf
  cases hs with
  | @cont a b _ hs =>
    obtain ⟨s, rfl, rfl⟩ := hq.agree.to_cont
    have hp := hq.placed _ rfl
    obtain ⟨s', hs', rfl⟩ := (hs ▸ hstep hp (hf s rfl)).to_cont
    refine ⟨.cont s', .cont hs', .cont rfl, ?_⟩
    rintro _ ⟨⟩
    exact h.placed_step hW hcov (hp.put mem) hs
  | @done a b _ _ hs hleft =>
    obtain ⟨s, rfl, rfl⟩ := hq.agree.to_cont
    obtain ⟨y, hs', hexit⟩ := (hs ▸ hstep (hq.placed _ rfl) (hf s rfl)).to_done
    refine ⟨.done y, .done hs' ?_, .done hexit, ?_⟩
    · cases y with
      | stuck => cases hexit
      | exited c =>
        cases b with
        | undefined => cases hexit
        | exited c' =>
          cases hexit
          exact hleft
    · rintro _ ⟨⟩

/-- Code that follows the machine follows the interpreter. -/
theorem Accepts.followsInterp (hcov : Covered x.insts) {c : Res (Config Lbl Slot) (Ir.Halt Slot)}
    (hq : Mirrors M x.insts W q r) (hc : Follows M x.insts W r c) : FollowsInterp M q c where
  boundary d hd hb := by
    obtain ⟨t, rfl, hm⟩ := hc.boundary d hd hb
    obtain ⟨s, rfl, rfl⟩ := hq.agree.to_cont
    have hi := h.isInst_of_placed ((hq.placed _ rfl).put d.m.mem)
    obtain ⟨base, hcomp, -⟩ := h.exists_compiled
    exact ⟨s, rfl, hcomp.pcAt_of_matches hm (not_quiet_of_covered hcov hi), hm.represents.core,
      toNat_count hm.represents⟩
  returned e he := by
    cases e with
    | ub =>
      -- The machine would have undefined behaviour.
      obtain rfl := hc.undefined he
      obtain ⟨y, -, hexit⟩ := hq.agree.to_done
      cases y <;> cases hexit
    | ret v m =>
      obtain ⟨core, rfl, rfl⟩ := hc.returned v m he
      obtain ⟨y, rfl, hexit⟩ := hq.agree.to_done
      cases y with
      | stuck => cases hexit
      | exited core' =>
        cases hexit
        exact ⟨core, m, rfl, rfl⟩

end

/-! ## Counting -/

/-- The interpreter is about to add `v` to the cell at `a`. -/
def Counting (a v : BitVec 64) (r : Res Interp.State Isa.Halt) : Prop :=
  ∃ s, r = .cont s ∧ s.pc = 0 ∧ s.core.reg 1 = a ∧ s.core.reg 2 = v ∧ s.frames = []

/-- The interpreter has added to the cell. -/
def Counted (r : Res Interp.State Isa.Halt) : Prop :=
  (∃ s, r = .cont s ∧ s.pc = 1 ∧ s.frames = []) ∨ ∃ c, r = .done (.exited c)

section

variable {stackSize : ℕ} {F : Funcs} {a v : BitVec 64} {s : Interp.State}
  {r r' : Res Interp.State Isa.Halt} {mem mem' : ByteMemory.Mem 64}

theorem interp_counter_zero (hpc : s.pc = 0) :
    interp stackSize F counter s = .cont ⟨1, s.core.setMem
      (ByteMemory.store s.core.mem (s.core.reg 1)
        (ByteMemory.load s.core.mem (s.core.reg 1) 32 + (s.core.reg 2).setWidth 32)),
      s.frames⟩ := by
  have haddr (c : Core) : Isa.address ⟨EBPF_ATOMIC_OPCODE_32, 1, 2, 0, EBPF_ATOMIC_ADD⟩ c 1 =
      c.reg 1 := BitVec.add_zero _
  rcases s with ⟨pc, core, frames⟩
  cases hpc
  change Res.cont (Interp.State.mk 1 (core.setMem (ByteMemory.store core.mem (Isa.address _ core 1)
    (ByteMemory.load core.mem (Isa.address _ core 1) 32 + (core.reg 2).setWidth 32))) frames) = _
  rw [haddr]

theorem interp_counter_one (hpc : s.pc = 1) (hframes : s.frames = []) :
    interp stackSize F counter s = .done (.exited s.core) := by
  rcases s with ⟨pc, core, frames⟩
  cases hpc
  cases hframes
  rfl

theorem Counting.step (h : Counting a v r)
    (hs : Interp.State.memory.Step Isa.Halt.Left (interp stackSize F counter) r mem r' mem') :
    Counted r' ∧ ByteMemory.load mem' a 32 = ByteMemory.load mem a 32 + v.setWidth 32 := by
  obtain ⟨s, rfl, hpc, rfl, rfl, hframes⟩ := h
  have hstep : interp stackSize F counter (Interp.State.memory.put mem s) = _ :=
    interp_counter_zero hpc
  cases hs with
  | cont hs =>
    cases hstep.symm.trans hs
    exact ⟨.inl ⟨_, rfl, rfl, hframes⟩, ByteMemory.load_store _ _ _ rfl (by decide)⟩
  | done hs => cases hstep.symm.trans hs

theorem Counted.step (h : Counted r)
    (hs : Interp.State.memory.Step Isa.Halt.Left (interp stackSize F counter) r mem r' mem') :
    Counted r' ∧ ByteMemory.load mem' a 32 = ByteMemory.load mem a 32 := by
  rcases h with ⟨s, rfl, hpc, hframes⟩ | ⟨c, rfl⟩
  · have hstep : interp stackSize F counter (Interp.State.memory.put mem s) = _ :=
      interp_counter_one hpc hframes
    cases hs with
    | cont hs => cases hstep.symm.trans hs
    | done hs hleft =>
      cases hstep.symm.trans hs
      cases hleft
      exact ⟨.inr ⟨_, rfl⟩, rfl⟩
  · cases hs

theorem rmwFits_counter {c : Core} (ha : (c.reg 1).toNat % 32 = 0) :
    RmwFits (insnAt counter 0) c where
  aligned := by
    have haddr : c.addr (insnAt counter 0) 1 = c.reg 1 := BitVec.add_zero _
    rwa [← haddr] at ha
  upper hfetch := absurd hfetch (by decide)
  exchange hx := absurd hx (by decide)

/-- The code of `counter` is right wherever its interpreter gets to, if the cell is at a multiple
    of 32. -/
theorem faithfulAt_counter (ha : a.toNat % 32 = 0)
    (h : Counting a v (.cont s) ∨ Counted (.cont s)) (mem : ByteMemory.Mem 64) :
    FaithfulAt stackSize counter (Interp.State.memory.put mem s) := by
  have hadd : Interp.decode (insnAt counter 0) = some (.atomic 32) := rfl
  have hexit : Interp.decode (insnAt counter 1) = some .exit := rfl
  rcases s with ⟨pc, core, frames⟩
  rcases h with ⟨_, ⟨⟩, rfl, rfl, -, -⟩ | ⟨_, ⟨⟩, rfl, -⟩ | ⟨c, ⟨⟩⟩
  · intro insn hdec
    obtain rfl := Option.some.inj (hadd.symm.trans hdec)
    exact fun _ => rmwFits_counter ha
  · intro insn hdec
    obtain rfl := Option.some.inj (hexit.symm.trans hdec)
    trivial

end

section

variable {I : Type*} [DecidableEq I] {M : I → Module} {W : I → World Lbl} {F : I → Funcs}
  {stackSize : ℕ} {a : BitVec 64} {v : I → BitVec 64} {mem mem' : ByteMemory.Mem 64}
  {rs ss : I → Res Interp.State Isa.Halt}

/-- Interpreters of `counter` side by side: the cell is the sum of what those add that have
    executed their first instruction. -/
theorem exists_sum_counter (hstart : ∀ i, Counting a (v i) (rs i))
    (h : Interp.Interleaves stackSize F (fun _ => counter) rs mem ss mem') :
    ∃ S : Finset I, (∀ i ∈ S, Counted (ss i)) ∧ (∀ i ∉ S, Counting a (v i) (ss i)) ∧
      ByteMemory.load mem' a 32 = ByteMemory.load mem a 32 + ∑ i ∈ S, (v i).setWidth 32 := by
  refine Interleaves.exists_sum (Q := fun i => Counting a (v i)) (R := fun _ => Counted)
    (g := fun mem => ByteMemory.load mem a 32) hstart ?_ ?_ h
  · exact fun hr hs => .inr (hr.step hs)
  · exact fun hr hs => hr.step hs

/-- So it is when they run side by side. -/
theorem faithfulAt_of_interleaves (hstart : ∀ i, Counting a (v i) (rs i)) (ha : a.toNat % 32 = 0)
    (h : Interp.Interleaves stackSize F (fun _ => counter) rs mem ss mem') (i : I)
    {s : Interp.State} (hs : ss i = .cont s) :
    FaithfulAt stackSize counter (Interp.State.memory.put mem' s) := by
  obtain ⟨S, hcounted, hcounting, -⟩ := exists_sum_counter hstart h
  refine faithfulAt_counter (v := v i) ha ?_ mem'
  rw [← hs]
  by_cases hi : i ∈ S
  · exact .inr (hcounted i hi)
  · exact .inl (hcounting i hi)

theorem counting_start (m : Machine Slot) : Counting 0 1
    (.cont (Interp.start (startCore World.counting m))) := ⟨_, rfl, rfl, rfl, rfl, rfl⟩

/-- The memory after the end of a run that returns in the next step. -/
def memAtEnd (M : Module) (W : World Lbl) (c : Config Lbl Slot) : Option (ByteMemory.Mem 64) :=
  match step M.fn W c with
  | .done (.ret _ m) => some m.mem
  | _ => none

theorem codeInterleaves_end {rs rs' : I → Res (Config Lbl Slot) (Ir.Halt Slot)}
    {mem₀ : ByteMemory.Mem 64} {i : I} {c : Config Lbl Slot} (hi : rs' i = .cont c)
    (hend : memAtEnd (M i) (W i) (Config.flat.put mem c) = some mem')
    (h : CodeInterleaves M W rs mem₀ rs' mem) :
    ∃ r, CodeInterleaves M W rs mem₀ (Function.update rs' i (.done r)) mem' := by
  rw [memAtEnd] at hend
  cases hs : step (M i).fn (W i) (Config.flat.put mem c) with
  | cont c' =>
    rw [hs] at hend
    cases hend
  | done r =>
    rw [hs] at hend
    cases r with
    | ub => cases hend
    | ret v m' =>
      cases hend
      exact ⟨.ret v m', h.tail (hi ▸ .done hs rfl)⟩

/-- Two of them, to the end. -/
theorem exists_end_counter :
    ∃ (M : Module) (cs : Bool → Res (Config Lbl Slot) (Ir.Halt Slot)) (mem : ByteMemory.Mem 64),
      Accepts Verifier.shape { insts := counter } [] [] false M ∧
      World.counting.Separates M.fn.blocks ∧
      CodeInterleaves (fun _ => M) (fun _ => World.counting)
        (fun _ => .cont (entry Env.zero Machine.zero)) (fun _ => 0) cs mem ∧
      ∀ i, ∃ r, cs i = .done r := by
  obtain ⟨M, hM, hp⟩ := exists_accepts Verifier.shape { insts := counter } [] [] false 3
    (fun M => decide (World.counting.Separates M.fn.blocks) &&
      (runAlong (fun _ => M) (fun _ => World.counting) (turns 29)
        (fun _ : Bool => entry Env.zero Machine.zero) fun _ => 0).any fun r =>
          (memAtEnd M World.counting (Config.flat.put r.2 (r.1 true))).any fun mem =>
            (memAtEnd M World.counting (Config.flat.put mem (r.1 false))).isSome)
    (by decide +kernel)
  rw [Bool.and_eq_true, decide_eq_true_iff, Option.any_eq_true] at hp
  obtain ⟨hW, ⟨cs, mem⟩, hrun, hend⟩ := hp
  obtain ⟨mem₁, hfst, hsnd⟩ := Option.any_eq_true _ _ |>.1 hend
  obtain ⟨mem₂, hsnd⟩ := Option.isSome_iff_exists.1 hsnd
  obtain ⟨r₁, h₁⟩ := codeInterleaves_end (i := true) rfl hfst
    (codeInterleaves_of_runAlong hrun .refl)
  obtain ⟨r₂, h₂⟩ := codeInterleaves_end (i := false) rfl hsnd h₁
  refine ⟨M, _, mem₂, hM, hW, h₂, fun i => ?_⟩
  cases i with
  | false => exact ⟨r₂, rfl⟩
  | true => exact ⟨r₁, rfl⟩

end

/-! ## Side by side -/

section

variable {I : Type*} [DecidableEq I] {V : I → Verifier} {x : I → CompilerXDP}
  {extFuncNames lddwHelpers : I → List String} {patch : I → Bool} {M : I → Module}
  {W : I → World Lbl} {e : I → Env Slot} {m : I → Machine Slot} {a : BitVec 64}
  {mem mem' : ByteMemory.Mem 64} {cs : I → Res (Config Lbl Slot) (Ir.Halt Slot)}

/-- The interpreters take the steps of the machines that the code follows. -/
theorem exists_lockstep (stackSize : ℕ)
    (h : ∀ i, Accepts (V i) (x i) (extFuncNames i) (lddwHelpers i) (patch i) (M i))
    (hW : ∀ i, (W i).Separates (M i).fn.blocks)
    (hx : ∀ i, ∀ inst ∈ (x i).insts, ¬IsCmpXchg inst) (hcov : ∀ i, Covered (x i).insts)
    (hf : ∀ ss mem₁, Interp.Interleaves stackSize (fun i => (W i).func) (fun i => (x i).insts)
        (fun i => .cont (Interp.start (startCore (W i) (m i)))) mem ss mem₁ →
      ∀ i s, ss i = .cont s → FaithfulAt stackSize (x i).insts (Interp.State.memory.put mem₁ s))
    (hrun : CodeInterleaves M W (fun i => .cont (entry (e i) (m i))) mem cs mem') :
    ∃ (ss : I → Res Interp.State Isa.Halt) (ts : I → Res Vm.State Vm.Halt),
      Interp.Interleaves stackSize (fun i => (W i).func) (fun i => (x i).insts)
        (fun i => .cont (Interp.start (startCore (W i) (m i)))) mem ss mem' ∧
      ∀ i, Mirrors (M i) (x i).insts (W i) (ss i) (ts i) ∧
        Follows (M i) (x i).insts (W i) (ts i) (cs i) := by
  choose base hc _ using fun i => (h i).exists_compiled
  obtain ⟨ts, hts, hagree⟩ := exists_interleaves
    (fun i => (hc i).sharesOnce (h i).inputOk.last (hW i) (hx i)) hrun
    fun i => agree_entry (hc i) (h i).inputOk.last (hW i) (hx i) (e i) (m i)
  have hstart (i : I) : Mirrors (M i) (x i).insts (W i)
      (.cont (Interp.start (startCore (W i) (m i))))
      (.cont (Vm.start (startCore (W i) (m i)))) := by
    refine ⟨.cont rfl, ?_⟩
    rintro _ ⟨⟩
    exact (h i).placed_start (hW i)
  obtain ⟨ss, hss, hmirror⟩ := hts.lift hstart
    fun {_ i _ _ _ _} hqs hq hs => (h i).exists_step (hW i) (hcov i) hq (hf _ _ hqs i) hs
  exact ⟨ss, ts, hss, fun i => ⟨hmirror i,
    follows_of_agree (hc i) (h i).inputOk.last (hW i) (hx i) (hagree i)⟩⟩

/-- Programs without compare-and-exchange that run side by side on the same memory do what
    interpreters do, one instruction after the other in some order, if the interpreters only get
    to states that the code is right in. -/
theorem linearizes {stackSize : ℕ}
    (h : ∀ i, Accepts (V i) (x i) (extFuncNames i) (lddwHelpers i) (patch i) (M i))
    (hW : ∀ i, (W i).Separates (M i).fn.blocks)
    (hx : ∀ i, ∀ inst ∈ (x i).insts, ¬IsCmpXchg inst) (hcov : ∀ i, Covered (x i).insts)
    (hf : ∀ ss mem₁, Interp.Interleaves stackSize (fun i => (W i).func) (fun i => (x i).insts)
        (fun i => .cont (Interp.start (startCore (W i) (m i)))) mem ss mem₁ →
      ∀ i s, ss i = .cont s → FaithfulAt stackSize (x i).insts (Interp.State.memory.put mem₁ s))
    (hrun : CodeInterleaves M W (fun i => .cont (entry (e i) (m i))) mem cs mem') :
    ∃ ss, Interp.Interleaves stackSize (fun i => (W i).func) (fun i => (x i).insts)
        (fun i => .cont (Interp.start (startCore (W i) (m i)))) mem ss mem' ∧
      ∀ i, FollowsInterp (M i) (ss i) (cs i) := by
  obtain ⟨ss, ts, hss, hagree⟩ := exists_lockstep stackSize h hW hx hcov hf hrun
  exact ⟨ss, hss, fun i => (h i).followsInterp (hcov i) (hagree i).1 (hagree i).2⟩

theorem linearizes_counter :
    ∃ (M : Module) (cs : Bool → Res (Config Lbl Slot) (Ir.Halt Slot)) (mem : ByteMemory.Mem 64),
      CodeInterleaves (fun _ => M) (fun _ => World.counting)
        (fun _ => .cont (entry Env.zero Machine.zero)) (fun _ => 0) cs mem ∧
      (∀ i, ∃ r, cs i = .done r) ∧
      ∃ ss, Interp.Interleaves EBPF_STACK_SIZE (fun _ => World.counting.func) (fun _ => counter)
          (fun _ => .cont (Interp.start (startCore World.counting Machine.zero))) (fun _ => 0) ss
          mem ∧
        ∀ i, FollowsInterp M (ss i) (cs i) := by
  obtain ⟨M, cs, mem, hM, hW, hi, hend⟩ := exists_end_counter
  refine ⟨M, cs, mem, hi, hend, ?_⟩
  exact linearizes (fun _ => hM) (fun _ => hW) (fun _ => by decide) (fun _ => by decide)
    (fun ss mem₁ hss i s hs =>
      faithfulAt_of_interleaves (fun _ => counting_start Machine.zero) rfl hss i hs) hi

/-- The code of `counter` loses no update, however its runs interleave: the cell is the sum of
    what some of them have added, among them all that have returned. -/
theorem counts (h : ∀ i, Accepts (V i) (x i) (extFuncNames i) (lddwHelpers i) (patch i) (M i))
    (hW : ∀ i, (W i).Separates (M i).fn.blocks) (hx : ∀ i, (x i).insts = counter)
    (hargs : ∀ i, (W i).args 0 = a) (ha : a.toNat % 32 = 0)
    (hrun : CodeInterleaves M W (fun i => .cont (entry (e i) (m i))) mem cs mem') :
    ∃ S : Finset I, (∀ i r, cs i = .done r → i ∈ S ∧ r ≠ .ub) ∧
      ByteMemory.load mem' a 32 =
        ByteMemory.load mem a 32 + ∑ i ∈ S, ((W i).args 1).setWidth 32 := by
  have hstart (i : I) : Counting a ((W i).args 1)
      (.cont (Interp.start (startCore (W i) (m i)))) := ⟨_, rfl, rfl, hargs i, rfl, rfl⟩
  have hcov (i : I) : Covered (x i).insts := by
    rw [hx i]
    decide
  have hne (i : I) : ∀ inst ∈ (x i).insts, ¬IsCmpXchg inst := by
    rw [hx i]
    decide
  obtain ⟨ss, ts, hss, hagree⟩ := exists_lockstep EBPF_STACK_SIZE h hW hne hcov
    (fun ss mem₁ hss i s hs => by
      rw [hx i]
      rw [funext hx] at hss
      exact faithfulAt_of_interleaves hstart ha hss i hs) hrun
  rw [funext hx] at hss
  obtain ⟨S, -, hcounting, hsum⟩ := exists_sum_counter hstart hss
  refine ⟨S, fun i r hr => ?_, hsum⟩
  obtain ⟨core, m', hs, rfl⟩ :=
    ((h i).followsInterp (hcov i) (hagree i).1 (hagree i).2).returned r hr
  refine ⟨?_, by rintro ⟨⟩⟩
  -- It has exited, so it is not about to add.
  by_contra hi
  obtain ⟨s, hs', -⟩ := hcounting i hi
  cases hs.symm.trans hs'

theorem counts_counter :
    ∃ (M : Module) (cs : Bool → Res (Config Lbl Slot) (Ir.Halt Slot)) (mem : ByteMemory.Mem 64),
      CodeInterleaves (fun _ => M) (fun _ => World.counting)
        (fun _ => .cont (entry Env.zero Machine.zero)) (fun _ => 0) cs mem ∧
      (∀ i, ∃ r, cs i = .done r) ∧ ByteMemory.load mem 0 32 = 2 := by
  obtain ⟨M, cs, mem, hM, hW, hi, hend⟩ := exists_end_counter
  refine ⟨M, cs, mem, hi, hend, ?_⟩
  obtain ⟨S, hS, hsum⟩ := counts (a := 0) (fun _ => hM) (fun _ => hW) (fun _ => rfl)
    (fun _ => rfl) rfl hi
  have huniv : S = Finset.univ := by
    refine Finset.eq_univ_of_forall fun i => ?_
    obtain ⟨r, hr⟩ := hend i
    exact (hS i r hr).1
  rw [hsum, huniv]
  decide

end

end EbpfJit
