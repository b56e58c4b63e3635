import EbpfJit.Boundary
import EbpfJit.CallStack

/-!
# The machine of the compiled code

What the compiled code does, one eBPF instruction after the other: a machine whose
states are the index of an instruction, the registers and the memory, and the
frames of the callers. Its instructions have the effects of the emitted code
(`Core.effect`), also where these are not the ones of eBPF: a branch goes where
its 16-bit target lands, and only so many frames fit on the call stack.

* `Vm.step`: one instruction;
* `Vm.start`: the state at the first instruction.
-/

namespace EbpfJit

open Ir Transition

namespace Vm

/-- The instruction to execute, the registers and the memory, and the frames of the
    callers, the last one first. -/
structure State where
  pc : ℕ
  core : Core
  frames : List Frame

/-- How a run ends: it exits, or has undefined behaviour. -/
inductive Halt
  | exited (c : Core)
  | undefined

variable (F : Funcs) (x : CompilerXDP) (patch : Bool)

/-- A return to the last caller, or from the program. -/
def leave (s : State) : Res State Halt :=
  match s.frames with
  | [] => .done (.exited s.core)
  | f :: fs => .cont ⟨f.ret, s.core.leave f, fs⟩

/-- A local call, if there is a place for its frame. -/
def enter (inst : EbpfInst) (s : State) : Res State Halt :=
  if s.frames.length < CALL_STACK_SIZE then
    .cont ⟨land x.insts (callDst s.pc inst), s.core.enter, ⟨s.pc + 1, s.core.regs⟩ :: s.frames⟩
  else .done .undefined

/-- An instruction that goes on to the next one. -/
def next (inst : EbpfInst) (sc : SwitchCase) (s : State) : Res State Halt :=
  match s.core.effect inst F x patch (insnAt x.insts (s.pc + 1)) sc with
  | some c => .cont ⟨nextPc s.pc inst, c, s.frames⟩
  | none => .done .undefined

/-- A case of the switch. -/
def exec (inst : EbpfInst) (s : State) : SwitchCase → Res State Halt
  | .ja => .cont { s with pc := land x.insts (jmpDst s.pc inst) }
  | .jcond p =>
    .cont { s with
      pc := if s.core.taken inst (.jcond p) then land x.insts (jmpDst s.pc inst) else s.pc + 1 }
  | .jset =>
    .cont { s with
      pc := if s.core.taken inst .jset then land x.insts (jmpDst s.pc inst) else s.pc + 1 }
  | .exit => leave s
  | .call =>
    if inst.src_reg = 1 then enter x inst s
    else if inst.imm = 12 then .done (.exited (s.core.extCall inst F))
    else next F x patch inst .call s
  | sc => next F x patch inst sc s

/-- One instruction. -/
def step (s : State) : Res State Halt :=
  match switchCase (insnAt x.insts s.pc).code with
  | some sc => exec F x patch (insnAt x.insts s.pc) s sc
  | none => .done .undefined

/-- The state at the first instruction. -/
def start (c : Core) : State := ⟨0, c, []⟩

variable {F x patch} {s : State} {sc : SwitchCase}

theorem step_eq (h : switchCase (insnAt x.insts s.pc).code = some sc) :
    step F x patch s = exec F x patch (insnAt x.insts s.pc) s sc := by
  rw [step, h]

/-- What does not branch goes on to the next instruction. -/
theorem exec_of_branches {inst : EbpfInst} (h : branches s.pc inst sc = none) :
    exec F x patch inst s sc = next F x patch inst sc s := by
  cases sc with
  | call =>
    rw [branches] at h
    by_cases h₁ : inst.src_reg = 1
    · rw [if_pos h₁] at h
      cases h
    · by_cases h₂ : inst.imm = 12
      · rw [if_neg h₁, if_pos h₂] at h
        cases h
      · rw [exec, if_neg h₁, if_neg h₂]
  | ja | exit | jcond | jset => cases h
  | _ => rfl

end Vm

end EbpfJit
