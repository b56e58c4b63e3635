import EbpfJit.Preservation

/-!
# The code of single instructions

The code that the compiler emits for an instruction which falls through, run on its
own from any machine: it has the effect of the instruction (`Core.effect`) on the
registers and the memory, and no other.

* `IsCodeOf`: a piece of code is the one of an instruction;
* `IsCodeOf.runCode`: what it does;
* `Accepts.isCodeOf`: the pieces that an accepted program is made of are such.
-/

namespace EbpfJit

open Ir Ir.Builder

/-- The code is the one that is emitted for the instruction, at the index `pc` of the
    program and from some free name on. -/
structure IsCodeOf (x : CompilerXDP) (extFuncNames lddwHelpers : List String) (patch : Bool)
    (pc : ℕ) (inst : EbpfInst) (code : List (Instr Lbl Slot)) : Prop where
  dst_reg : inst.dst_reg ≤ 10
  src_reg : inst.src_reg ≤ 10
  emitted : ∃ n pc' n', emitInst x (prepared x extFuncNames lddwHelpers) patch pc inst n =
    .ok (pc', n', code)

variable {x : CompilerXDP} {extFuncNames lddwHelpers : List String} {patch : Bool} {pc : ℕ}
  {inst : EbpfInst} {code : List (Instr Lbl Slot)}

/-- The code of an accepted program is made of the codes of its instructions. -/
theorem Accepts.isCodeOf {V : Verifier} {M : Module}
    (h : Accepts V x extFuncNames lddwHelpers patch M) {v : Visit} (hv : v ∈ M.log) :
    IsCodeOf x extFuncNames lddwHelpers patch v.pc (insnAt x.insts v.pc) v.code := by
  obtain ⟨base, hc, -⟩ := h.exists_compiled
  obtain ⟨pre, he⟩ := hc.log.extends_of_mem hv
  obtain ⟨hd, hs, -⟩ := hc.log.legal hv
  obtain ⟨n, k, n', hemit⟩ := he.emitted
  exact ⟨hd, hs, n, k, n', hemit⟩

/-- Only supported opcodes have code. -/
theorem IsCodeOf.exists_switchCase (h : IsCodeOf x extFuncNames lddwHelpers patch pc inst code) :
    ∃ sc, switchCase inst.code = some sc := by
  obtain ⟨n, pc', n', hemit⟩ := h.emitted
  rw [emitInst] at hemit
  cases hsc : switchCase inst.code with
  | none =>
    rw [hsc] at hemit
    cases hemit
  | some sc => exact ⟨sc, rfl⟩

/-- The code of an instruction is what its case of the switch appends. -/
theorem IsCodeOf.emitCase (h : IsCodeOf x extFuncNames lddwHelpers patch pc inst code)
    {sc : SwitchCase} (hsc : switchCase inst.code = some sc) :
    ∃ n n', EbpfJit.emitCase x (prepared x extFuncNames lddwHelpers) patch pc inst sc n =
      .ok ((), n', code) := by
  obtain ⟨n, pc', n', hemit⟩ := h.emitted
  have hcase : ∃ k, (do
      EbpfJit.emitCase x (prepared x extFuncNames lddwHelpers) patch pc inst sc
      pure k : Emit ℕ) n = .ok (pc', n', code) := by
    rw [emitInst, hsc] at hemit
    cases sc <;> exact ⟨_, hemit⟩
  obtain ⟨k, hcase⟩ := hcase
  obtain ⟨a, n₁, c₁, c₂, h₁, h₂, rfl⟩ := bind_eq_ok hcase
  cases h₂
  exact ⟨n, _, by rw [h₁, List.append_nil]⟩

/-- The code of an instruction that does not branch has its effect. -/
theorem IsCodeOf.runCode (h : IsCodeOf x extFuncNames lddwHelpers patch pc inst code)
    {sc : SwitchCase} (hsc : switchCase inst.code = some sc) (hb : branches pc inst sc = none)
    {W : World Lbl} {e : Env Slot} {m : Machine Slot} (hm : Allocated m) :
    runCode W code e m =
      ((coreOf m).effect inst W.func x patch (insnAt x.insts (pc + 1)) sc).map
        fun c => (.fall, withCore m c) := by
  obtain ⟨n, n', hcase⟩ := h.emitCase hsc
  have hacts : Acts W ⟨n, e⟩ (withCore m (coreOf m))
      (EbpfJit.emitCase x (prepared x extFuncNames lddwHelpers) patch pc inst sc)
      (((coreOf m).effect inst W.func x patch (insnAt x.insts (pc + 1)) sc).map
        fun c => (.fall, withCore m c)) := acts_emitCase hm h.dst_reg h.src_reg hb
  rw [withCore_coreOf] at hacts
  exact hacts () n' code hcase

/-! ### Running a single instruction -/

/-- A machine with its slots allocated, and all zero. -/
def Machine.allocated : Machine Slot where
  slot _ _ := 0
  size
    | .reg _ => 1
    | .callStack => 320
    | .callItemCnt => 1
  mem _ := 0

theorem allocated_allocated : Allocated Machine.allocated := ⟨fun _ _ => rfl, rfl, rfl⟩

/-- The code of an instruction, by running its emitter. -/
def codeOf (inst : EbpfInst) : List (Instr Lbl Slot) :=
  match emitInst { insts := [inst] } (prepared { insts := [inst] } [] []) false 0 inst 0 with
  | .ok (_, _, code) => code
  | .error _ => []

theorem isCodeOf_codeOf (inst : EbpfInst) (hd : inst.dst_reg ≤ 10) (hs : inst.src_reg ≤ 10)
    (h : (emitInst { insts := [inst] } (prepared { insts := [inst] } [] []) false 0 inst 0).isOk =
      true) : IsCodeOf { insts := [inst] } [] [] false 0 inst (codeOf inst) := by
  refine ⟨hd, hs, 0, ?_⟩
  rw [codeOf]
  cases he : emitInst { insts := [inst] } (prepared { insts := [inst] } [] []) false 0 inst 0 with
  | error e =>
    rw [he] at h
    cases h
  | ok r => exact ⟨r.1, r.2.1, rfl⟩

end EbpfJit
