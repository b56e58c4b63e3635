import EbpfJit.Correctness
import EbpfJit.Registry

/-!
# Values of maps

An `lddw` may load the value of a map. With `patch_map_val_at_compile_time`, the compiler
looks it up itself, and puts it into the code. Otherwise, it emits a call of a helper that
looks it up when the code runs.

Both ways accept the same programs (`inputOk_patch_iff`), and the code does the same
(`DoesSame`) if the helper gives back the value that the compiler finds.
-/

namespace EbpfJit

open Ir Transition

variable {x : CompilerXDP} {extFuncNames : List String} {inst nextInst : EbpfInst} {c : Core}
  {F : Funcs}

/-- The helper that runs gives back what the compiler finds, and leaves the memory alone. -/
def ProvidesMapVal (F : Funcs) (x : CompilerXDP) : Prop :=
  ∀ map_val ∈ x.map_val, ∀ v mem, F LDDW_HELPER_MAP_VAL [v] mem = (map_val v, mem)

/-! ## Instructions -/

/-- The helper is there when running if it is when compiling. -/
theorem lddwHelperOk_patch_iff (src_reg : BitVec 4) :
    LddwHelperOk x x.lddwHelpers true src_reg ↔ LddwHelperOk x x.lddwHelpers false src_reg := by
  have hmem : LDDW_HELPER_MAP_VAL ∈ x.lddwHelpers ↔ x.map_val.isSome = true := by
    rw [CompilerXDP.lddwHelpers]
    split
    · next h => exact iff_of_true List.mem_cons_self h
    · next h => exact iff_of_false List.not_mem_nil h
  simp only [LddwHelperOk, if_true, Bool.false_eq_true, if_false, hmem]

theorem caseLegal_patch_iff (pc : ℕ) (sc : SwitchCase) :
    CaseLegal x extFuncNames x.lddwHelpers true pc inst sc ↔
      CaseLegal x extFuncNames x.lddwHelpers false pc inst sc := by
  cases sc with
  | lddw => simp only [CaseLegal, lddwHelperOk_patch_iff]
  | _ => exact Iff.rfl

/-- The two ways accept the same programs. -/
theorem inputOk_patch_iff : InputOk x extFuncNames x.lddwHelpers true ↔
    InputOk x extFuncNames x.lddwHelpers false := by
  have hlegal (pc : ℕ) (inst : EbpfInst) : Legal x extFuncNames x.lddwHelpers true pc inst ↔
      Legal x extFuncNames x.lddwHelpers false pc inst := by
    simp only [Legal, caseLegal_patch_iff]
  constructor
  · rintro ⟨hne, hlen, hl, hlast⟩
    exact ⟨hne, hlen, fun t ht hs => (hlegal t _).1 (hl t ht hs), hlast⟩
  · rintro ⟨hne, hlen, hl, hlast⟩
    exact ⟨hne, hlen, fun t ht hs => (hlegal t _).2 (hl t ht hs), hlast⟩

/-- The value of a map is the same. -/
theorem lddwMapVal_patch (hF : ProvidesMapVal F x) (hsome : x.map_val.isSome = true)
    (mapPtr : BitVec 64) :
    c.lddwMapVal inst F x true nextInst mapPtr = c.lddwMapVal inst F x false nextInst mapPtr := by
  obtain ⟨map_val, hmap⟩ := Option.isSome_iff_exists.1 hsome
  simp only [Core.lddwMapVal, if_true, Bool.false_eq_true, if_false, hmap,
    hF map_val hmap mapPtr c.mem]
  rfl

theorem lddw_patch (hF : ProvidesMapVal F x)
    (hok : LddwHelperOk x x.lddwHelpers true inst.src_reg) :
    c.lddw inst F x true nextInst = c.lddw inst F x false nextInst := by
  by_cases hmap : inst.src_reg = 2 ∨ inst.src_reg = 6
  · have hsome : x.map_val.isSome = true := hok.1 hmap
    simp only [Core.lddw, lddwMapVal_patch hF hsome]
  · rw [not_or] at hmap
    simp only [Core.lddw, if_neg hmap.1, if_neg hmap.2]

theorem effect_patch {sc : SwitchCase} (hF : ProvidesMapVal F x)
    (hok : sc = .lddw → LddwHelperOk x x.lddwHelpers true inst.src_reg) :
    c.effect inst F x true nextInst sc = c.effect inst F x false nextInst sc := by
  cases sc with
  | lddw => rw [Core.effect, Core.effect, lddw_patch hF (hok rfl)]
  | _ => rfl

/-- What branches does not depend on the helpers. -/
theorem exec_patch_of_branches {s : Vm.State} {sc : SwitchCase}
    (hb : branches s.pc inst sc ≠ none) :
    Vm.exec F x true inst s sc = Vm.exec F x false inst s sc := by
  cases sc with
  | call =>
    rw [Vm.exec, Vm.exec]
    split
    · rfl
    · next hsrc =>
      split
      · rfl
      · next himm =>
        rw [branches, if_neg hsrc, if_neg himm] at hb
        exact absurd rfl hb
  | ja | exit | jcond | jset => rfl
  | _ => exact absurd rfl hb

/-- At an instruction that is accepted, the machines do the same. -/
theorem step_patch {s : Vm.State} (hF : ProvidesMapVal F x)
    (hok : InputOk x extFuncNames x.lddwHelpers true) (hs : IsInst x.insts s) :
    Vm.step F x true s = Vm.step F x false s := by
  obtain ⟨-, -, sc, hsc, hl⟩ := hok.legal s.pc hs.1 hs.2
  have hlddw (h : sc = .lddw) :
      LddwHelperOk x x.lddwHelpers true (insnAt x.insts s.pc).src_reg := by
    subst h
    exact hl.2.2
  rw [Vm.step_eq hsc, Vm.step_eq hsc]
  by_cases hb : branches s.pc (insnAt x.insts s.pc) sc = none
  · rw [Vm.exec_of_branches hb, Vm.exec_of_branches hb, Vm.next, Vm.next, effect_patch hF hlddw]
  · exact exec_patch_of_branches hb

/-! ## Runs -/

/-- The configurations of two modules are at the same instruction, with the same registers
    and memory, and as many active calls. -/
structure SamePoint (M M' : Module) (c c' : Config Lbl Slot) : Prop where
  pc : M.pcAt c = M'.pcAt c'
  core : coreOf c.m = coreOf c'.m
  calls : c.m.slot .callItemCnt 0 = c'.m.slot .callItemCnt 0

/-- What the first module does, the second one does, too. -/
structure DoesSame (M M' : Module) (W : World Lbl) (e : Env Slot) (m : Machine Slot) : Prop where
  /-- It gets to the same instruction boundaries, through the same ones. -/
  boundary : ∀ k c, iter (step M.fn W) k (entry e m) = .cont c → M.boundary c = true →
    ∃ k' c', iter (step M'.fn W) k' (entry e m) = .cont c' ∧ M'.boundary c' = true ∧
      SamePoint M M' c c' ∧
      List.Forall₂ (SamePoint M M') (M.executed W k (entry e m)) (M'.executed W k' (entry e m))
  /-- It returns the same value, with the same registers and memory. -/
  returns : ∀ k v m₁, iter (step M.fn W) k (entry e m) = .done (.ret v m₁) →
    ∃ k' m₂, iter (step M'.fn W) k' (entry e m) = .done (.ret v m₂) ∧ coreOf m₁ = coreOf m₂
  /-- It has undefined behaviour if the first one does. -/
  undefined : ∀ k, iter (step M.fn W) k (entry e m) = .done .ub →
    ∃ k', iter (step M'.fn W) k' (entry e m) = .done .ub

variable {V V' : Verifier} {extFuncNames' lddwHelpers lddwHelpers' : List String}
  {patch patch' : Bool} {M M' : Module} {W : World Lbl} {e : Env Slot} {m : Machine Slot}

/-- Where the module is at a state of its machine. -/
theorem Compiled.pcAt_eq {base : Lbl → List (Instr Lbl Slot)}
    (h : Compiled x extFuncNames lddwHelpers patch base M) {s : Vm.State} {c : Config Lbl Slot}
    (hm : Matches M x.insts W s c) (hq : isQuiet x.insts s = false) :
    M.pcAt c = if Quiet (insnAt x.insts s.pc) then none else some s.pc := by
  by_cases hquiet : Quiet (insnAt x.insts s.pc)
  · have hbeg : Begins x.insts (nextPc s.pc (insnAt x.insts s.pc)) := by
      simpa only [isQuiet, decide_eq_true hquiet, Bool.true_and, Bool.not_eq_false',
        decide_eq_true_eq] using hq
    obtain ⟨pc, core, frames⟩ := s
    obtain ⟨block, ip, e, m⟩ := c
    obtain ⟨⟨v, hv, rfl, rfl, rfl⟩, _, _⟩ := hm
    rw [if_pos hquiet, h.pcAt_of_empty hv ((h.log.shape hv).nil_of_quiet hquiet) hbeg]
  · rw [if_neg hquiet, h.pcAt_of_matches hm hquiet]

theorem samePoint_of_matches (h : Accepts V x extFuncNames lddwHelpers patch M)
    (h' : Accepts V' x extFuncNames' lddwHelpers' patch' M') {s : Vm.State}
    {c c' : Config Lbl Slot} (hm : Matches M x.insts W s c) (hm' : Matches M' x.insts W s c')
    (hq : isQuiet x.insts s = false) : SamePoint M M' c c' := by
  obtain ⟨base, hc, -⟩ := h.exists_compiled
  obtain ⟨base', hc', -⟩ := h'.exists_compiled
  constructor
  · rw [hc.pcAt_eq hm hq, hc'.pcAt_eq hm' hq]
  · rw [hm.represents.core, hm'.represents.core]
  · rw [hm.represents.count, hm'.represents.count]

/-- Modules whose machines have the same run do the same. -/
theorem follows_of_iter (h : Accepts V x extFuncNames lddwHelpers patch M)
    (h' : Accepts V' x extFuncNames' lddwHelpers' patch' M') (hW : W.Separates M.fn.blocks)
    (hW' : W.Separates M'.fn.blocks)
    (hiter : ∀ n, iter (Vm.step W.func x patch) n (Vm.start (startCore W m)) =
      iter (Vm.step W.func x patch') n (Vm.start (startCore W m))) : DoesSame M M' W e m where
  boundary k c hrun hc := by
    obtain ⟨n, s, hn, hm, hq, htr⟩ := h.backward hW hrun hc
    obtain ⟨k', c', hrun', hm', htr'⟩ := h'.forward_trace hW' (e := e) (hiter n ▸ hn)
    rw [← trace_congr hiter] at htr'
    refine ⟨k', c', hrun', hm'.boundary, samePoint_of_matches h h' hm hm' hq, ?_⟩
    refine forall₂_of_forall₂ htr htr' fun t ht d d' hd hd' => ?_
    exact samePoint_of_matches h h' hd hd' (Bool.not_eq_true' _ ▸ (mem_trace ht).1)
  returns k v m₁ hrun := by
    obtain ⟨n, r, hn, hr⟩ := h.backward_done hW hrun
    obtain ⟨k', r', hrun', hr'⟩ := h'.forward_done hW' (e := e) (hiter n ▸ hn)
    cases r with
    | undefined => cases hr
    | exited core =>
      obtain ⟨rfl, hcore⟩ := hr
      cases r' with
      | ub => cases hr'
      | ret v' m₂ =>
        obtain ⟨rfl, hcore'⟩ := hr'
        exact ⟨k', m₂, hrun', hcore.trans hcore'.symm⟩
  undefined k hrun := by
    obtain ⟨n, r, hn, hr⟩ := h.backward_done hW hrun
    obtain ⟨k', r', hrun', hr'⟩ := h'.forward_done hW' (e := e) (hiter n ▸ hn)
    cases r with
    | exited core => cases hr
    | undefined =>
      cases r' with
      | ret v m₂ => cases hr'
      | ub => exact ⟨k', hrun'⟩

/-- The blocks of a module only depend on the program. -/
theorem Accepts.blocks_eq (h : Accepts V x extFuncNames lddwHelpers patch M)
    (h' : Accepts V' x extFuncNames' lddwHelpers' patch' M') : M.fn.blocks = M'.fn.blocks := by
  obtain ⟨base, hc, -⟩ := h.exists_compiled
  obtain ⟨base', hc', -⟩ := h'.exists_compiled
  rw [hc.blocks_eq, hc'.blocks_eq]

/-- The compiler accepts the same programs whether it patches the values of maps into the
    code or not, and what it makes of them does the same, if the helper that is called in the
    one case gives back the values that are patched in the other. -/
theorem patching_agrees (V : Verifier) (x : CompilerXDP) (extFuncNames : List String) :
    ((∃ M, Accepts V x extFuncNames x.lddwHelpers true M) ↔
      ∃ M, Accepts V x extFuncNames x.lddwHelpers false M) ∧
    ∀ M M', Accepts V x extFuncNames x.lddwHelpers true M →
      Accepts V x extFuncNames x.lddwHelpers false M' →
      ∀ W e m, W.Separates M.fn.blocks → ProvidesMapVal W.func x →
        DoesSame M M' W e m ∧ DoesSame M' M W e m := by
  refine ⟨by rw [accepts_iff, accepts_iff, inputOk_patch_iff], ?_⟩
  intro M M' h h' W e m hW hF
  have hW' : W.Separates M'.fn.blocks := h.blocks_eq h' ▸ hW
  have hiter (n : ℕ) : iter (Vm.step W.func x true) n (Vm.start (startCore W m)) =
      iter (Vm.step W.func x false) n (Vm.start (startCore W m)) :=
    iter_congr (fun j s hs => step_patch hF h.inputOk (h.isInst hW hs)) n
  exact ⟨follows_of_iter h h' hW hW' hiter, follows_of_iter h' h hW' hW fun n => (hiter n).symm⟩

/-- A compiler that finds maps 16 bytes apart, with their values 100 bytes behind. -/
def mapCompiler : CompilerXDP where
  map_by_fd := some fun fd => fd.setWidth 64 * 16
  map_val := some fun mapPtr => mapPtr + 100
  insts := [⟨EBPF_OP_LDDW, 0, 2, 0, 5⟩, ⟨0, 0, 0, 0, 4⟩, ⟨EBPF_OP_EXIT, 0, 0, 0, 0⟩]

/-- A world with a helper that does the same. -/
def mapWorld : World Lbl :=
  { World.numbered with func := fun _ args mem => (args.getD 0 0 + 100, mem) }

theorem patching_agrees_mapCompiler :
    ∃ M M', Accepts Verifier.shape mapCompiler [] mapCompiler.lddwHelpers true M ∧
      Accepts Verifier.shape mapCompiler [] mapCompiler.lddwHelpers false M' ∧
      DoesSame M M' mapWorld Env.zero Machine.zero ∧
      DoesSame M' M mapWorld Env.zero Machine.zero := by
  obtain ⟨M, hM, hW⟩ := exists_accepts Verifier.shape mapCompiler [] mapCompiler.lddwHelpers true
    4 (fun M => decide (mapWorld.Separates M.fn.blocks)) (by decide +kernel)
  obtain ⟨hiff, hsame⟩ := patching_agrees Verifier.shape mapCompiler []
  obtain ⟨M', hM'⟩ := hiff.1 ⟨M, hM⟩
  have hF : ProvidesMapVal mapWorld.func mapCompiler := by
    rintro map_val hmap v mem
    obtain rfl := Option.some.inj hmap
    rfl
  obtain ⟨hfollows, hfollows'⟩ :=
    hsame M M' hM hM' mapWorld Env.zero Machine.zero (of_decide_eq_true hW) hF
  exact ⟨M, M', hM, hM', hfollows, hfollows'⟩

end EbpfJit
