import EbpfJit.Calls
import EbpfJit.Isa

/-!
# Semantic preservation

The compiled code of a program without divisions, byte-order conversions, atomic
operations and local calls does what the interpreter of the instruction set does:
the machine of the compiled code goes in lock-step with it.

The memory is the one of the model of the IR: it is flat, loads and stores may be of any
address, and what has not been initialized has some contents or other.

* `Supported`: these programs;
* `switchCase_of_decode`: the switch of the compiler decodes opcodes as the
  interpreter does;
* `step_toVm`: the lock-step;
* `preservation`: the runs of the compiled code are the ones of the interpreter.
-/

namespace EbpfJit

open Ir Transition

/-- The compilation of the operation of the instruction at `pc` preserves its meaning:
    it is no division, tail call or local call, and no jump out of the program or to
    the second slot of an `lddw`. -/
def SupportedOp (insns : List EbpfInst) (pc : ℕ) (inst : EbpfInst) : Isa.Op → Prop
  | .alu _ op => op ≠ .div ∧ op ≠ .mod ∧ inst.off = 0
  | .ldx _ | .st _ | .stx _ => True
  | .lddw => inst.src_reg = 0
  | .ja | .jmp _ _ => IsTarget insns (pc + 1 + inst.off.toInt)
  | .call => inst.src_reg = 0 ∧ inst.imm ≠ 12 ∧ inst.off = 0
  | .exit => inst.off = 0

instance (insns : List EbpfInst) (pc : ℕ) (inst : EbpfInst) :
    (op : Isa.Op) → Decidable (SupportedOp insns pc inst op)
  | .alu _ _ | .call => inferInstanceAs (Decidable (_ ∧ _ ∧ _))
  | .ldx _ | .st _ | .stx _ => inferInstanceAs (Decidable True)
  | .lddw | .exit => inferInstanceAs (Decidable (_ = _))
  | .ja | .jmp _ _ => inferInstanceAs (Decidable (IsTarget _ _))

/-- All instructions are supported; the interpreter knows what to do. -/
def Supported (insns : List EbpfInst) : Prop :=
  ∀ pc < insns.length, ¬IsSlot insns pc →
    ∃ op ∈ Isa.decode (insnAt insns pc).code, SupportedOp insns pc (insnAt insns pc) op

instance : DecidablePred Supported := fun insns =>
  inferInstanceAs (Decidable (∀ pc < insns.length, ¬IsSlot insns pc → _))

/-! ## Decoding -/

/-- The comparison of a condition that is one. -/
def predOf : Isa.Cond → Pred
  | .eq => .eq
  | .gt => .ugt
  | .ge => .uge
  | .set | .ne => .ne
  | .sgt => .sgt
  | .sge => .sge
  | .lt => .ult
  | .le => .ule
  | .slt => .slt
  | .sle => .sle

/-- The case of the switch for an operation. -/
def caseOf : Isa.Op → SwitchCase
  | .alu _ .add => .add
  | .alu _ .sub => .sub
  | .alu _ .mul => .mul
  | .alu _ .div => .div
  | .alu _ .or => .or
  | .alu _ .and => .and
  | .alu _ .lsh => .lsh
  | .alu _ .rsh => .rsh
  | .alu _ .neg => .neg
  | .alu _ .mod => .mod
  | .alu _ .xor => .xor
  | .alu _ .mov => .mov
  | .alu _ .arsh => .arsh
  | .ldx w => .loadX w
  | .st w | .stx w => .store w
  | .lddw => .lddw
  | .ja => .ja
  | .jmp _ .set => .jset
  | .jmp _ c => .jcond (predOf c)
  | .call => .call
  | .exit => .exit

/-- The emitters get the width and the operand form of the operation from the
    opcode. -/
def Fits (code : BitVec 8) : Isa.Op → Prop
  | .alu w _ => w = aluWidth (code &&& 0x07 == EBPF_CLS_ALU64)
  | .jmp w _ => w = if code &&& 0x07 = 0x06 then 32 else 64
  | .st _ => code &&& 0x07 ≠ EBPF_CLS_STX
  | .stx _ => code &&& 0x07 = EBPF_CLS_STX
  | _ => True

instance (code : BitVec 8) : (op : Isa.Op) → Decidable (Fits code op)
  | .alu _ _ | .jmp _ _ | .stx _ => inferInstanceAs (Decidable (_ = _))
  | .st _ => inferInstanceAs (Decidable (¬_))
  | .ldx _ | .lddw | .ja | .call | .exit => inferInstanceAs (Decidable True)

/-- The switch decodes opcodes as the interpreter does. -/
theorem switchCase_of_decode {code : BitVec 8} {op : Isa.Op} {sc : SwitchCase}
    (hop : Isa.decode code = some op) (hsc : switchCase code = some sc) :
    sc = caseOf op ∧ Fits code op := by
  have hall : ∀ code : BitVec 8, (Isa.decode code).all (fun op =>
      (switchCase code).all fun sc => decide (sc = caseOf op ∧ Fits code op)) = true := by
    decide +kernel
  have h := hall code
  rw [hop, hsc] at h
  exact of_decide_eq_true h

/-! ## Lock-step -/

section

variable {F : Funcs} {x : CompilerXDP} {patch : Bool} {nextInst inst : EbpfInst} {c : Core}
  {w : ℕ}

theorem shiftCount_eq {is64 : Bool} (b : BitVec (aluWidth is64)) :
    Isa.shiftCount b = b.toNat % aluWidth is64 := by
  cases is64 with
  | true => exact Nat.and_two_pow_sub_one_eq_mod b.toNat 6
  | false => exact Nat.and_two_pow_sub_one_eq_mod b.toNat 5

theorem aluSrc_eq (inst : EbpfInst) (c : Core) (w : ℕ) :
    c.aluSrc inst w = Isa.operand inst c w := rfl

theorem jmpSrc_eq (inst : EbpfInst) (c : Core) (w : ℕ) :
    c.jmpSrc inst w = Isa.operand inst c w := by
  have hall : ∀ code : BitVec 8, (code &&& 0x08 = 0x08) = ¬code &&& 0x08 = 0 := by decide +kernel
  rw [Core.jmpSrc, Isa.operand]
  simp only [hall, ite_not]

/-- What the code of an arithmetic operation does. -/
theorem effect_alu {op : Isa.AluOp} (hw : w = aluWidth (isAlu64 inst)) (hdiv : op ≠ .div)
    (hmod : op ≠ .mod) :
    c.effect inst F x patch nextInst (caseOf (.alu w op)) =
      some (c.setReg inst.dst_reg ((op.eval ((c.reg inst.dst_reg).setWidth w)
        (Isa.operand inst c w)).setWidth 64)) := by
  subst hw
  cases op with
  | div => exact absurd rfl hdiv
  | mod => exact absurd rfl hmod
  | lsh | rsh | arsh =>
    simp only [Isa.AluOp.eval, shiftCount_eq]
    rfl
  | _ => rfl

/-- When the code of a conditional jump takes it. -/
theorem taken_jmp {cond : Isa.Cond} (hw : w = jmpWidth inst) :
    c.taken inst (caseOf (.jmp w cond)) =
      cond.eval ((c.reg inst.dst_reg).setWidth w) (Isa.operand inst c w) := by
  subst hw
  rw [← jmpSrc_eq]
  cases cond <;> rfl

end

/-- The state of the machine, which has no frames. -/
def Isa.State.toVm (s : Isa.State) : Vm.State := ⟨s.pc, s.core, []⟩

/-- Both runs exit, with the same registers and memory. -/
def SameExit : Isa.Halt → Vm.Halt → Prop
  | .exited c, .exited c' => c' = c
  | _, _ => False

theorem SameExit.ret {r : Isa.Halt} {r' : Vm.Halt} {r'' : Ir.Halt Slot} (h : SameExit r r')
    (hm : MatchesHalt r' r'') :
    ∃ c m, r = .exited c ∧ r'' = .ret (c.reg 0) m ∧ coreOf m = c := by
  cases r with
  | stuck => cases h
  | exited c =>
    cases r' with
    | undefined => cases h
    | exited c' =>
      obtain rfl : c' = c := h
      cases r'' with
      | ub => cases hm
      | ret v m =>
        obtain ⟨rfl, hc⟩ := hm
        exact ⟨_, _, rfl, rfl, hc⟩

/-- The result of the machine is the one of the interpreter, which is not stuck. -/
abbrev Agrees : Res Isa.State Isa.Halt → Res Vm.State Vm.Halt → Prop :=
  Res.Rel (fun s t => s.toVm = t) SameExit

/-- The helper functions: the external functions, by number. -/
def helpers (F : Funcs) : Isa.Helpers := fun id => F (extFuncSym id)

section

variable {x : CompilerXDP} {extFuncNames lddwHelpers : List String} {patch : Bool} {F : Funcs}
  {inst : EbpfInst} {s : Isa.State} {op : Isa.Op}

theorem code_eq_lddw_iff {code : BitVec 8} (h : Isa.decode code = some op) :
    code = EBPF_OP_LDDW ↔ op = .lddw := by
  have hall : ∀ code : BitVec 8, (Isa.decode code).all (fun op =>
      decide (code = EBPF_OP_LDDW ↔ op = .lddw)) = true := by
    decide +kernel
  have h' := hall code
  rw [h] at h'
  exact of_decide_eq_true h'

/-- An instruction that goes on to the next one. -/
theorem agrees_next {sc : SwitchCase} {c : Core} {pc : ℕ}
    (hb : branches s.pc inst sc = none) (hpc : nextPc s.pc inst = pc)
    (heff : s.core.effect inst F x patch (insnAt x.insts (s.pc + 1)) sc = some c) :
    Agrees (.cont ⟨pc, c⟩) (Vm.exec F x patch inst s.toVm sc) := by
  have hexec : Vm.exec F x patch inst s.toVm sc = Vm.next F x patch inst sc s.toVm :=
    Vm.exec_of_branches hb
  have hnext : Vm.next F x patch inst sc s.toVm = .cont ⟨nextPc s.pc inst, c, []⟩ := by
    rw [Vm.next]
    exact heff ▸ rfl
  rw [hexec, hnext, hpc]
  exact .cont rfl

/-- A jump in range goes where it says. -/
theorem agrees_jump (hlen : x.insts.length < 65536)
    (ht : IsTarget x.insts (s.pc + 1 + inst.off.toInt))
    (hb : Begins x.insts (jmpDst s.pc inst)) :
    Agrees (Isa.jump inst s)
      (.cont { s.toVm with pc := land x.insts (jmpDst s.pc inst) }) := by
  obtain ⟨h₀, h₁, hs⟩ := ht
  have hdst : jmpDst s.pc inst = (s.pc + 1 + inst.off.toInt).toNat :=
    toUInt16_of_lt h₀ (by omega)
  rw [hdst] at hb ⊢
  rw [Isa.jump, if_pos h₀, land_of_not_isSlot hb hs]
  exact .cont rfl

/-- A conditional jump in range goes where it says, if it is taken. -/
theorem agrees_jmp {w : ℕ} {cond : Isa.Cond} (hlen : x.insts.length < 65536)
    (hw : w = jmpWidth inst) (ht : IsTarget x.insts (s.pc + 1 + inst.off.toInt))
    (hb : Begins x.insts (jmpDst s.pc inst)) :
    Agrees (Isa.exec (helpers F) x.insts inst s (.jmp w cond))
      (Vm.exec F x patch inst s.toVm (caseOf (.jmp w cond))) := by
  have hexec : Vm.exec F x patch inst s.toVm (caseOf (.jmp w cond)) =
      .cont { s.toVm with
        pc := if s.core.taken inst (caseOf (.jmp w cond)) then land x.insts (jmpDst s.pc inst)
          else s.pc + 1 } := by
    cases cond <;> rfl
  rw [hexec, Isa.exec, taken_jmp hw]
  split
  · exact agrees_jump hlen ht hb
  · exact .cont rfl

/-- What the interpreter makes of an operation is what the machine makes of its case. -/
theorem agrees_exec (hlen : x.insts.length < 65536) (hop : Isa.decode inst.code = some op)
    (hfits : Fits inst.code op) (hsup : SupportedOp x.insts s.pc inst op)
    (hl : CaseLegal x extFuncNames lddwHelpers patch s.pc inst (caseOf op)) :
    Agrees (Isa.exec (helpers F) x.insts inst s op)
      (Vm.exec F x patch inst s.toVm (caseOf op)) := by
  -- Only an `lddw` has two slots.
  have hpc (hne : op ≠ .lddw) : nextPc s.pc inst = s.pc + 1 :=
    if_neg fun hcode => hne ((code_eq_lddw_iff hop).1 hcode)
  cases op with
  | alu w op =>
    obtain ⟨hdiv, hmod, hoff⟩ := hsup
    rw [Isa.exec, if_pos hoff]
    exact agrees_next (by cases op <;> rfl) (hpc (by simp)) (effect_alu hfits hdiv hmod)
  | ldx w => exact agrees_next rfl (hpc (by simp)) rfl
  | st w =>
    have hcls : inst.code &&& 0x07 ≠ EBPF_CLS_STX := hfits
    refine agrees_next rfl (hpc (by simp)) ?_
    rw [caseOf, Core.effect, Core.store, if_neg hcls]
    rfl
  | stx w =>
    have hcls : inst.code &&& 0x07 = EBPF_CLS_STX := hfits
    refine agrees_next rfl (hpc (by simp)) ?_
    rw [caseOf, Core.effect, Core.store, if_pos hcls]
    rfl
  | lddw =>
    have hsrc : inst.src_reg = 0 := hsup
    obtain ⟨hlt, -, -⟩ := hl
    rw [Isa.exec, List.getElem?_eq_getElem hlt]
    simp only [if_pos hsrc]
    refine agrees_next rfl (if_pos ((code_eq_lddw_iff hop).2 rfl)) ?_
    rw [caseOf, Core.effect, Core.lddw, if_pos hsrc, insnAt, List.getD_eq_getElem?_getD,
      List.getElem?_eq_getElem hlt, Option.getD_some,
      BitVec.or_comm]
  | ja => exact agrees_jump hlen hsup hl
  | jmp w cond => exact agrees_jmp hlen hfits hsup (by cases cond <;> exact hl.1)
  | call =>
    obtain ⟨hsrc, himm, -⟩ := hsup
    have hsrc' : ¬inst.src_reg = 1 := by simp [hsrc]
    rw [Isa.exec, if_pos hsrc]
    exact agrees_next (by rw [caseOf, branches, if_neg hsrc', if_neg himm]) (hpc (by simp)) rfl
  | exit => exact .done rfl

/-- The machine is at an instruction of the program. -/
def IsInst (insns : List EbpfInst) (t : Vm.State) : Prop :=
  t.pc < insns.length ∧ ¬IsSlot insns t.pc

/-- The interpreter and the machine go in lock-step. -/
theorem agrees_step {t : Vm.State} (hok : InputOk x extFuncNames lddwHelpers patch)
    (hsup : Supported x.insts) (ht : IsInst x.insts t) (hst : s.toVm = t) :
    Agrees (Isa.step (helpers F) x.insts s) (Vm.step F x patch t) := by
  subst hst
  obtain ⟨hpc, hs⟩ : s.pc < x.insts.length ∧ ¬IsSlot x.insts s.pc := ht
  obtain ⟨op, hop, hsup⟩ := hsup s.pc hpc hs
  obtain ⟨-, -, sc, hsc, hl⟩ := hok.legal s.pc hpc hs
  obtain ⟨rfl, hfits⟩ := switchCase_of_decode hop hsc
  have hvm : Vm.step F x patch s.toVm =
      Vm.exec F x patch (insnAt x.insts s.pc) s.toVm (caseOf op) := Vm.step_eq hsc
  have hisa : Isa.step (helpers F) x.insts s =
      Isa.exec (helpers F) x.insts (insnAt x.insts s.pc) s op := by
    rw [Option.mem_def, insnAt, List.getD_eq_getElem?_getD, List.getElem?_eq_getElem hpc,
      Option.getD_some] at hop
    simp [Isa.step, hpc, hop]
  rw [hvm, hisa]
  exact agrees_exec hok.length_lt hop hfits hsup hl

theorem not_quiet_of_supported {t : Vm.State} (hsup : Supported x.insts)
    (ht : IsInst x.insts t) : ¬Quiet (insnAt x.insts t.pc) := by
  rintro ⟨hcode, hsrc⟩
  obtain ⟨op, hop, hsup⟩ := hsup t.pc ht.1 ht.2
  obtain rfl := (code_eq_lddw_iff hop).1 hcode
  have hzero : (insnAt x.insts t.pc).src_reg = 0 := hsup
  rw [hzero] at hsrc
  exact absurd hsrc (by decide)

end

/-! ## Runs -/

/-- The state of the interpreter at the first instruction. -/
def Isa.start (c : Core) : Isa.State := ⟨0, c⟩

/-- The configuration is at the instruction of the state, with its registers and its
    memory. -/
structure AtState (M : Module) (s : Isa.State) (c : Config Lbl Slot) : Prop where
  pc : M.pcAt c = some s.pc
  core : coreOf c.m = s.core

/-- The run of the compiled code is the one of the interpreter. -/
structure Preserves (insns : List EbpfInst) (M : Module) (W : World Lbl) (e : Env Slot)
    (m : Machine Slot) : Prop where
  /-- Every instruction boundary is a state of the interpreter, and the boundaries
      before it are the states before that. -/
  boundary : ∀ k c, iter (step M.fn W) k (entry e m) = .cont c → M.boundary c = true →
    ∃ n s, iter (Isa.step (helpers W.func) insns) n (Isa.start (startCore W m)) = .cont s ∧
      AtState M s c ∧
      List.Forall₂ (AtState M)
        (trace (Isa.step (helpers W.func) insns) (fun _ => true) n (Isa.start (startCore W m)))
        (M.executed W k (entry e m))
  /-- The compiled code gets to every state of the interpreter. -/
  state : ∀ n s, iter (Isa.step (helpers W.func) insns) n (Isa.start (startCore W m)) = .cont s →
    ∃ k c, iter (step M.fn W) k (entry e m) = .cont c ∧ M.boundary c = true ∧ AtState M s c
  /-- The interpreter is never stuck; when it exits, the compiled code returns `r0`. -/
  exits : ∀ n r, iter (Isa.step (helpers W.func) insns) n (Isa.start (startCore W m)) = .done r →
    ∃ c k m', r = .exited c ∧ iter (step M.fn W) k (entry e m) = .done (.ret (c.reg 0) m') ∧
      coreOf m' = c
  /-- The compiled code has no undefined behaviour; when it returns, the interpreter
      exits. -/
  returns : ∀ k r, iter (step M.fn W) k (entry e m) = .done r →
    ∃ n c m', iter (Isa.step (helpers W.func) insns) n (Isa.start (startCore W m)) =
      .done (.exited c) ∧ r = .ret (c.reg 0) m' ∧ coreOf m' = c

section

variable {x : CompilerXDP} {extFuncNames lddwHelpers : List String} {patch : Bool} {M : Module}
  {W : World Lbl} {V : Verifier} (h : Accepts V x extFuncNames lddwHelpers patch M)
  (hW : W.Separates M.fn.blocks)
include h hW

/-- The machine only gets to instructions. -/
theorem Accepts.isInst {m : Machine Slot} {n : ℕ} {t : Vm.State}
    (hn : iter (Vm.step W.func x patch) n (Vm.start (startCore W m)) = .cont t) :
    IsInst x.insts t := by
  obtain ⟨base, hc, -⟩ := h.exists_compiled
  obtain ⟨k, c, -, hm⟩ := h.forward hW (e := Env.zero) hn
  obtain ⟨v, hv, hpc, -⟩ := hm.visit
  rw [IsInst, ← hpc]
  exact ⟨hc.log.pc_lt hv, hc.log.not_isSlot hv⟩

variable (hsup : Supported x.insts) {e : Env Slot} {m : Machine Slot}
include hsup

/-- The runs of the interpreter are the ones of the machine. -/
theorem Accepts.agrees_iter (n : ℕ) :
    Agrees (iter (Isa.step (helpers W.func) x.insts) n (Isa.start (startCore W m)))
      (iter (Vm.step W.func x patch) n (Vm.start (startCore W m))) :=
  iter_rel (fun _ _ => agrees_step h.inputOk hsup) rfl (fun _ _ => h.isInst hW) n

/-- They go through the same states, none of which is quiet. -/
theorem Accepts.trace_eq (n : ℕ) :
    trace (Vm.step W.func x patch) (fun t => !isQuiet x.insts t) n (Vm.start (startCore W m)) =
      (trace (Isa.step (helpers W.func) x.insts) (fun _ => true) n
        (Isa.start (startCore W m))).map Isa.State.toVm := by
  have hquiet (s : Isa.State) (t : Vm.State) (ht : IsInst x.insts t) (_ : s.toVm = t) :
      true = !isQuiet x.insts t := by
    rw [isQuiet, decide_eq_false (not_quiet_of_supported hsup ht)]
    rfl
  have htr := trace_rel (fun _ _ => agrees_step (F := W.func) h.inputOk hsup) hquiet
    (a := Isa.start (startCore W m)) rfl (fun _ _ => h.isInst hW) n
  rw [← List.forall₂_eq_eq_eq, List.forall₂_map_right_iff]
  exact htr.flip.imp fun _ _ hst => hst.symm

omit hW in
/-- The configuration at a state is at its instruction, since none is without code. -/
theorem Accepts.atState {s : Isa.State} {c : Config Lbl Slot} (hs : IsInst x.insts s.toVm)
    (hm : Matches M x.insts W s.toVm c) : AtState M s c := by
  obtain ⟨base, hc, -⟩ := h.exists_compiled
  exact ⟨hc.pcAt_of_matches hm (not_quiet_of_supported hsup hs), hm.represents.core⟩

theorem Accepts.preserves_boundary {k : ℕ} {c : Config Lbl Slot}
    (hrun : iter (step M.fn W) k (entry e m) = .cont c) (hc : M.boundary c = true) :
    ∃ n s, iter (Isa.step (helpers W.func) x.insts) n (Isa.start (startCore W m)) = .cont s ∧
      AtState M s c ∧
      List.Forall₂ (AtState M)
        (trace (Isa.step (helpers W.func) x.insts) (fun _ => true) n
          (Isa.start (startCore W m)))
        (M.executed W k (entry e m)) := by
  obtain ⟨n, t, hn, hm, -, htr⟩ := h.backward hW hrun hc
  obtain ⟨s, hs, rfl⟩ := (hn ▸ h.agrees_iter hW hsup n).to_cont
  refine ⟨n, s, hs, h.atState hsup (h.isInst hW hn) hm, ?_⟩
  -- The states of the trace are ones of the machine.
  rw [h.trace_eq hW hsup, List.forall₂_map_left_iff] at htr
  refine ((List.forall₂_and_left _ _).2 ⟨fun s hs => ?_, htr⟩).imp fun s d ⟨hi, hm⟩ =>
    h.atState hsup hi hm
  have hmem := List.mem_map_of_mem (f := Isa.State.toVm) hs
  rw [← h.trace_eq hW hsup] at hmem
  obtain ⟨-, j, -, hj⟩ := mem_trace hmem
  exact h.isInst hW hj

/-- Semantic preservation: the compiled code does what the program means. -/
theorem preservation : Preserves x.insts M W e m where
  boundary _ _ := h.preserves_boundary hW hsup
  state n s hs := by
    obtain ⟨t, ht, rfl⟩ := (hs ▸ h.agrees_iter hW hsup n).of_cont
    obtain ⟨k, c, hrun, hm⟩ := h.forward hW (e := e) ht
    exact ⟨k, c, hrun, hm.boundary, h.atState hsup (h.isInst hW ht) hm⟩
  exits n r hr := by
    obtain ⟨r', hr', hexit⟩ := (hr ▸ h.agrees_iter hW hsup n).of_done
    obtain ⟨k, r'', hrun, hhalt⟩ := h.forward_done hW (e := e) hr'
    obtain ⟨c, m', hc, rfl, hm'⟩ := hexit.ret hhalt
    exact ⟨c, k, m', hc, hrun, hm'⟩
  returns k r hrun := by
    obtain ⟨n, r', hn, hhalt⟩ := h.backward_done hW hrun
    obtain ⟨r'', hr'', hexit⟩ := (hn ▸ h.agrees_iter hW hsup n).to_done
    obtain ⟨c, m', rfl, hret, hm'⟩ := hexit.ret hhalt
    exact ⟨n, c, m', hr'', hret, hm'⟩

end

/-- The sum of the numbers from 3 down to 1, in a loop. -/
def sumProgram : List EbpfInst :=
  [⟨EBPF_OP_MOV64_IMM, 0, 0, 0, 0⟩, ⟨EBPF_OP_MOV64_IMM, 1, 0, 0, 3⟩,
    ⟨EBPF_OP_ADD64_REG, 0, 1, 0, 0⟩, ⟨EBPF_OP_SUB64_IMM, 1, 0, 0, 1⟩,
    ⟨EBPF_OP_JNE_IMM, 1, 0, -3, 0⟩, ⟨EBPF_OP_EXIT, 0, 0, 0, 0⟩]

/-- That the compiled code returns it can be seen from the program alone. -/
theorem preservation_sumProgram :
    ∃ M, Accepts Verifier.shape { insts := sumProgram } [] [] false M ∧
      Preserves sumProgram M World.numbered Env.zero Machine.zero ∧
      ∃ k m, iter (step M.fn World.numbered) k (entry Env.zero Machine.zero) =
        .done (.ret 6 m) := by
  obtain ⟨M, hM, hW⟩ := exists_accepts Verifier.shape { insts := sumProgram } [] [] false 7
    (fun M => decide (World.numbered.Separates M.fn.blocks)) (by decide +kernel)
  have hpres : Preserves sumProgram M World.numbered Env.zero Machine.zero :=
    preservation hM (of_decide_eq_true hW) (by decide +kernel)
  refine ⟨M, hM, hpres, ?_⟩
  have hsix : (match iter (Isa.step (helpers World.numbered.func) sumProgram) 12
      (Isa.start (startCore World.numbered Machine.zero)) with
      | .done (.exited c) => decide (c.reg 0 = 6)
      | _ => false) = true := by decide +kernel
  split at hsix
  · next c hc =>
    obtain ⟨_, k, m, ⟨⟩, hrun, -⟩ := hpres.exits _ _ hc
    exact ⟨k, m, of_decide_eq_true hsix ▸ hrun⟩
  · cases hsix

end EbpfJit
