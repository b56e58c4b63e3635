import EbpfJit.Failures

/-!
# External functions

The helpers that programs may call are registered in a table, in any order, and at most
once each. The compilation only knows their names, which are made from their indices,
and a call looks up the name made from its immediate.

* `extFuncSym_injective`: the names tell the indices apart;
* `ExtFuncs.registerAll_eq_some_iff`: what is in the table after any registrations;
* `helperResolution`: which calls are resolved, and to what.
-/

namespace EbpfJit

open Ir Ir.Builder

/-! ## Names -/

/-- The copy of `ext_func_sym` that generates the names of the table. -/
def Utils.extFuncSym (idx : BitVec 32) : String :=
  "_bpf_helper_ext_" ++ String.ofList ((Nat.toDigits 10 idx.toNat).leftpad 4 '0')

/-- The two copies agree. -/
theorem Utils.extFuncSym_eq (idx : BitVec 32) : Utils.extFuncSym idx = EbpfJit.extFuncSym idx :=
  rfl

/-- The digits of a name. -/
theorem toList_extFuncSym (idx : BitVec 32) : (extFuncSym idx).toList =
    "_bpf_helper_ext_".toList ++ (Nat.toDigits 10 idx.toNat).leftpad 4 '0' := by
  delta extFuncSym
  rw [String.toList_append, String.toList_ofList (l := List.leftpad _ _ _)]

/-- Reading the digits of a name gives back the index: the padding does not count. -/
theorem extFuncSym_injective : Function.Injective extFuncSym := by
  intro i j h
  have hread (k : BitVec 32) :
      Nat.ofDigitChars 10 ((Nat.toDigits 10 k.toNat).leftpad 4 '0') 0 = k.toNat := by
    rw [List.leftpad, Nat.ofDigitChars_append, Nat.ofDigitChars_replicate_zero, Nat.mul_zero,
      Nat.ofDigitChars_ten_toDigits]
  have hdigits := congrArg String.toList h
  rw [toList_extFuncSym, toList_extFuncSym, List.append_cancel_left_eq] at hdigits
  refine BitVec.eq_of_toNat_eq ?_
  rw [← hread i, ← hread j, hdigits]

/-- A name has at most 26 characters, all of them of one byte. -/
theorem extFuncSym_fits (idx : BitVec 32) :
    (extFuncSym idx).toList.length + 1 ≤ 32 ∧ ∀ c ∈ (extFuncSym idx).toList, c.toNat < 128 := by
  rw [toList_extFuncSym]
  constructor
  · have hlt : idx.toNat < 10 ^ 10 := Nat.lt_trans idx.isLt (by decide)
    have hlen := (Nat.length_toDigits_le_iff (b := 10) (by decide) (by decide)).2 hlt
    have hprefix : "_bpf_helper_ext_".toList.length = 16 := rfl
    rw [List.length_append, List.length_leftpad, hprefix]
    omega
  · intro c hc
    rcases List.mem_append.1 hc with hc | hc
    · have hall : ("_bpf_helper_ext_".toList.all fun c => c.toNat < 128) = true := rfl
      exact of_decide_eq_true (List.all_eq_true.1 hall c hc)
    · rw [List.leftpad, List.mem_append] at hc
      rcases hc with hc | hc
      · rw [List.eq_of_mem_replicate hc]
        decide
      · have hdigit := Nat.isDigit_of_mem_toDigits (by decide) (by decide) hc
        rw [Char.isDigit, Bool.and_eq_true, decide_eq_true_iff, decide_eq_true_iff] at hdigit
        have hle := UInt32.le_iff_toNat_le.1 hdigit.2
        exact Nat.lt_of_le_of_lt hle (by decide)

/-! ## The table -/

def MAX_EXT_FUNCS : ℕ := 8192

def E2BIG : ℤ := 7

def EEXIST : ℤ := 17

/-- An external function: its name, and its address. -/
structure ExternalFunction where
  name : String
  fn : BitVec 64
  deriving DecidableEq

/-- The table of external functions, and the last error. -/
structure ExtFuncs where
  ext_funcs : Fin MAX_EXT_FUNCS → Option ExternalFunction := fun _ => none
  error_msg : String := ""

/-- A registration: what `register_external_function` is called with. -/
structure Registration where
  index : BitVec 64
  name : String
  fn : BitVec 64

namespace ExtFuncs

/-- Register an external function, giving back zero or an error. -/
def registerExternalFunction (r : Registration) (t : ExtFuncs) : ℤ × ExtFuncs :=
  if h : r.index.toNat < MAX_EXT_FUNCS then
    if (t.ext_funcs ⟨r.index.toNat, h⟩).isSome then
      (-EEXIST, { t with error_msg := "Already defined" })
    else
      (0, { t with
        ext_funcs := Function.update t.ext_funcs ⟨r.index.toNat, h⟩ (some ⟨r.name, r.fn⟩) })
  else (-E2BIG, { t with error_msg := "Index too large" })

/-- Registrations one after the other, whether they fail or not. -/
def registerAll (regs : List Registration) (t : ExtFuncs) : ExtFuncs :=
  regs.foldl (fun t r => (t.registerExternalFunction r).2) t

/-- The names that `do_aot_compile` makes for the table. -/
def extFuncNames (t : ExtFuncs) : List String :=
  ((List.finRange MAX_EXT_FUNCS).filter fun i => (t.ext_funcs i).isSome).map
    fun i : Fin MAX_EXT_FUNCS => Utils.extFuncSym (BitVec.ofNat 32 i)

end ExtFuncs

/-- The `lddw` helpers that `do_aot_compile` defines. -/
def CompilerXDP.lddwHelpers (x : CompilerXDP) : List String :=
  if x.map_val.isSome then [LDDW_HELPER_MAP_VAL] else []

/-- The module that `do_aot_compile` generates. -/
def aotModule (V : Verifier) (x : CompilerXDP) (t : ExtFuncs) (fuel : ℕ) :
    Option (Except Failure Module) :=
  generateModule V x t.extFuncNames x.lddwHelpers false fuel

namespace ExtFuncs

variable {t : ExtFuncs} {r : Registration} {regs : List Registration} {i : Fin MAX_EXT_FUNCS}
  {f : ExternalFunction}

/-- A registration succeeds, filling a free entry, or it fails, and leaves the entries
    alone. -/
theorem register_cases (r : Registration) (t : ExtFuncs) :
    (∃ i : Fin MAX_EXT_FUNCS, r.index.toNat = i ∧ t.ext_funcs i = none ∧
      (t.registerExternalFunction r).1 = 0 ∧
      (t.registerExternalFunction r).2.ext_funcs =
        Function.update t.ext_funcs i (some ⟨r.name, r.fn⟩)) ∨
    ((t.registerExternalFunction r).1 ≠ 0 ∧
      (t.registerExternalFunction r).2.ext_funcs = t.ext_funcs) := by
  rw [registerExternalFunction]
  by_cases hlt : r.index.toNat < MAX_EXT_FUNCS
  · rw [dif_pos hlt]
    by_cases hs : (t.ext_funcs ⟨r.index.toNat, hlt⟩).isSome = true
    · rw [if_pos hs]
      exact .inr ⟨show -EEXIST ≠ 0 by decide, rfl⟩
    · rw [if_neg hs]
      exact .inl ⟨⟨r.index.toNat, hlt⟩, rfl, Option.not_isSome_iff_eq_none.1 hs, rfl, rfl⟩
  · rw [dif_neg hlt]
    exact .inr ⟨show -E2BIG ≠ 0 by decide, rfl⟩

theorem registerAll_append (regs regs' : List Registration) (t : ExtFuncs) :
    t.registerAll (regs ++ regs') = (t.registerAll regs).registerAll regs' :=
  List.foldl_append

/-- A registration does not change an entry that is there. -/
theorem register_of_eq_some (hi : t.ext_funcs i = some f) (r : Registration) :
    (t.registerExternalFunction r).2.ext_funcs i = some f := by
  rcases register_cases r t with ⟨j, -, hnone, -, hupd⟩ | ⟨-, heq⟩
  · have hij : i ≠ j := by
      rintro rfl
      rw [hi] at hnone
      cases hnone
    rw [hupd, Function.update_of_ne hij, hi]
  · rw [heq, hi]

/-- Nor does any sequence of them. -/
theorem registerAll_of_eq_some (hi : t.ext_funcs i = some f) (regs : List Registration) :
    (t.registerAll regs).ext_funcs i = some f := by
  induction regs generalizing t with
  | nil => exact hi
  | cons r regs ih => exact ih (register_of_eq_some hi r)

/-- The registration `r` succeeds in the sequence `regs`, on a fresh table. -/
def Succeeds (regs : List Registration) (r : Registration) : Prop :=
  ∃ pre post, regs = pre ++ r :: post ∧
    ((registerAll pre {}).registerExternalFunction r).1 = 0

/-- What has been registered with success still has once there are more registrations. -/
theorem Succeeds.append {r : Registration} (h : Succeeds regs r) (r' : Registration) :
    Succeeds (regs ++ [r']) r := by
  obtain ⟨pre, post, rfl, h₀⟩ := h
  exact ⟨pre, post ++ [r'], by simp, h₀⟩

theorem exists_succeeds (hi : (registerAll regs {}).ext_funcs i = some f) :
    ∃ r, Succeeds regs r ∧ r.index.toNat = i ∧ f = ⟨r.name, r.fn⟩ := by
  induction regs using List.reverseRecOn with
  | nil => cases hi
  | append_singleton regs r ih =>
    rw [registerAll_append] at hi
    have hearlier (h : (registerAll regs {}).ext_funcs i = some f) :
        ∃ r', Succeeds (regs ++ [r]) r' ∧ r'.index.toNat = i ∧ f = ⟨r'.name, r'.fn⟩ := by
      obtain ⟨r', hs, hr'⟩ := ih h
      exact ⟨r', hs.append r, hr'⟩
    rcases register_cases r (registerAll regs {}) with ⟨j, hj, -, h₀, hupd⟩ | ⟨-, heq⟩
    · have hi' : Function.update (registerAll regs {}).ext_funcs j (some ⟨r.name, r.fn⟩) i =
          some f := hupd ▸ hi
      by_cases hij : i = j
      · subst hij
        rw [Function.update_self] at hi'
        exact ⟨r, ⟨regs, [], rfl, h₀⟩, hj, (Option.some.inj hi').symm⟩
      · -- The registration is for another index.
        rw [Function.update_of_ne hij] at hi'
        exact hearlier hi'
    · exact hearlier (heq ▸ hi)

/-- The entries of the table are what has been registered with success. -/
theorem registerAll_eq_some_iff : (registerAll regs {}).ext_funcs i = some f ↔
    ∃ r, Succeeds regs r ∧ r.index.toNat = i ∧ f = ⟨r.name, r.fn⟩ := by
  refine ⟨exists_succeeds, ?_⟩
  rintro ⟨r, ⟨pre, post, rfl, h₀⟩, hri, rfl⟩
  rw [registerAll_append]
  -- What has been bound stays, whatever is registered later.
  refine registerAll_of_eq_some
      (t := (registerAll pre {}).registerExternalFunction r |>.2) ?_ post
  rcases register_cases r (registerAll pre {}) with ⟨j, hj, -, -, hupd⟩ | ⟨hne, -⟩
  · obtain rfl : i = j := Fin.ext (hri.symm.trans hj)
    rw [hupd, Function.update_self]
  · exact absurd h₀ hne

/-- There is an entry for an index below the size of the table that has been registered
    with success. -/
theorem isSome_registerAll_iff : ((registerAll regs {}).ext_funcs i).isSome = true ↔
    ∃ r, Succeeds regs r ∧ r.index.toNat = i := by
  rw [Option.isSome_iff_exists]
  constructor
  · rintro ⟨f, hf⟩
    obtain ⟨r, hr, hri, -⟩ := registerAll_eq_some_iff.1 hf
    exact ⟨r, hr, hri⟩
  · rintro ⟨r, hr, hri⟩
    exact ⟨_, registerAll_eq_some_iff.2 ⟨r, hr, hri, rfl⟩⟩

/-- The indices of the table fit into 32 bits. -/
theorem toNat_ofNat_index (i : Fin MAX_EXT_FUNCS) : (BitVec.ofNat 32 (i : ℕ)).toNat = i := by
  rw [BitVec.toNat_ofNat, Nat.mod_eq_of_lt (Nat.lt_trans i.isLt (by decide))]

/-- The name of an index is among the ones of the table if it has an entry. -/
theorem extFuncSym_mem_iff {idx : BitVec 32} : extFuncSym idx ∈ t.extFuncNames ↔
    ∃ h : idx.toNat < MAX_EXT_FUNCS, (t.ext_funcs ⟨idx.toNat, h⟩).isSome = true := by
  rw [extFuncNames, List.mem_map]
  constructor
  · rintro ⟨i, hi, heq⟩
    have hi := (List.mem_filter.1 hi).2
    obtain rfl := extFuncSym_injective heq
    refine ⟨lt_of_eq_of_lt (toNat_ofNat_index i) i.isLt, ?_⟩
    simpa only [toNat_ofNat_index] using hi
  · rintro ⟨h, hi⟩
    refine ⟨⟨idx.toNat, h⟩, List.mem_filter.2 ⟨List.mem_finRange _, hi⟩, ?_⟩
    rw [Utils.extFuncSym_eq, BitVec.ofNat_toNat, BitVec.setWidth_eq]

/-- All names of the table are made from indices. -/
theorem eq_of_mem {name : String} (h : name ∈ t.extFuncNames) : ∃ idx, name = extFuncSym idx := by
  rw [extFuncNames] at h
  obtain ⟨i, -, rfl⟩ := List.mem_map.1 h
  exact ⟨_, rfl⟩

/-- The names of the table are different from each other. -/
theorem nodup_extFuncNames (t : ExtFuncs) : t.extFuncNames.Nodup := by
  rw [extFuncNames]
  refine ((List.nodup_finRange MAX_EXT_FUNCS).filter _).map_on ?_
  intro i _ j _ heq
  have hij := congrArg BitVec.toNat (extFuncSym_injective heq)
  rw [toNat_ofNat_index, toNat_ofNat_index] at hij
  exact Fin.ext hij

end ExtFuncs

/-! ## Calls -/

/-- The names of the functions that a piece of code calls. -/
def callees (code : List (Instr Lbl Slot)) : List String :=
  code.filterMap fun
    | .call _ f _ => some f
    | _ => none

/-- The instruction is a call of a helper. -/
def IsHelperCall (inst : EbpfInst) : Prop :=
  switchCase inst.code = some .call ∧ inst.src_reg ≠ 1

/-- The emission of the instruction calls the function `name`, and no other. -/
def ResolvesTo (x : CompilerXDP) (p : Program) (patch : Bool) (pc : ℕ) (inst : EbpfInst)
    (name : String) : Prop :=
  ∀ n, ∃ n' code, emitInst x p patch pc inst n = .ok (pc, n', code) ∧ callees code = [name]

variable {x : CompilerXDP} {extFuncNames lddwHelpers : List String} {patch : Bool} {pc : ℕ}
  {inst : EbpfInst}

theorem emitInst_helperCall (h : IsHelperCall inst) :
    emitInst x (prepared x extFuncNames lddwHelpers) patch pc inst = (do
      emitExtFuncCall inst extFuncNames .exitBlock
      pure pc) := by
  rw [emitInst, h.1]
  simp only [emitCase, if_neg h.2, prepared]

/-- A helper call resolves to the name made from its immediate, if it is there. -/
theorem resolvesTo_of_mem (h : IsHelperCall inst) (hm : extFuncSym inst.imm ∈ extFuncNames) :
    ResolvesTo x (prepared x extFuncNames lddwHelpers) patch pc inst (extFuncSym inst.imm) := by
  intro n
  rw [emitInst_helperCall h]
  by_cases h12 : inst.imm = 12
  · simp only [emitExtFuncCall, if_pos hm, if_pos h12]
    exact ⟨_, _, rfl, rfl⟩
  · simp only [emitExtFuncCall, if_pos hm, if_neg h12]
    exact ⟨_, _, rfl, rfl⟩

/-- Otherwise, its emission fails. -/
theorem emitInst_of_not_mem (h : IsHelperCall inst) (hm : extFuncSym inst.imm ∉ extFuncNames)
    (n : ℕ) : emitInst x (prepared x extFuncNames lddwHelpers) patch pc inst n =
      .error (.error ("Ext func not found: " ++ extFuncSym inst.imm)) := by
  rw [emitInst_helperCall h]
  simp only [emitExtFuncCall, if_neg hm]
  rfl

/-- Its name is none of the other functions of the module. -/
theorem extFuncSym_ne (idx : BitVec 32) :
    extFuncSym idx ≠ LDDW_HELPER_MAP_VAL ∧ extFuncSym idx ≠ "bpf_main" := by
  -- The names differ in their second character.
  have hsnd : (extFuncSym idx).toList[1]? = some 'b' := by
    rw [toList_extFuncSym]
    rfl
  constructor
  all_goals
    intro h
    rw [h] at hsnd
    exact absurd hsnd (by decide)

/-- The index has been registered, among registrations on a fresh table. -/
def Registers (regs : List Registration) (idx : BitVec 32) : Prop :=
  idx.toNat < MAX_EXT_FUNCS ∧ ∃ r, ExtFuncs.Succeeds regs r ∧ r.index.toNat = idx.toNat

/-- The table after registrations on a fresh one. -/
abbrev tableOf (regs : List Registration) : ExtFuncs := ExtFuncs.registerAll regs {}

theorem extFuncSym_mem_tableOf_iff {regs : List Registration} {idx : BitVec 32} :
    extFuncSym idx ∈ (tableOf regs).extFuncNames ↔ Registers regs idx := by
  rw [ExtFuncs.extFuncSym_mem_iff]
  constructor
  · rintro ⟨h, hi⟩
    exact ⟨h, ExtFuncs.isSome_registerAll_iff.1 hi⟩
  · rintro ⟨h, hr⟩
    exact ⟨h, ExtFuncs.isSome_registerAll_iff.2 hr⟩

/-- The functions that a module declares have different names. -/
theorem nodup_functions (x : CompilerXDP) (hnd : extFuncNames.Nodup)
    (hsym : ∀ name ∈ extFuncNames, ∃ idx, name = extFuncSym idx) :
    (x.lddwHelpers ++ (extFuncNames ++ ["bpf_main"])).Nodup := by
  have hmain : (extFuncNames ++ ["bpf_main"]).Nodup := by
    refine hnd.append (List.nodup_singleton _) ?_
    intro name hname hname'
    obtain ⟨idx, rfl⟩ := hsym name hname
    exact (extFuncSym_ne idx).2 (List.mem_singleton.1 hname')
  rw [CompilerXDP.lddwHelpers]
  split
  · rw [List.singleton_append, List.nodup_cons]
    refine ⟨?_, hmain⟩
    intro hmem
    rcases List.mem_append.1 hmem with hmem | hmem
    · obtain ⟨idx, hidx⟩ := hsym _ hmem
      exact (extFuncSym_ne idx).1 hidx.symm
    · exact absurd (List.mem_singleton.1 hmem) (by decide)
  · exact hmain

/-- Helper calls resolve to the helper that is registered, and to no other. -/
structure HelperResolution (regs : List Registration) : Prop where
  /-- A call resolves exactly if its immediate has been registered. -/
  resolves : ∀ x pc inst, IsHelperCall inst →
    ((∃ name, ResolvesTo x (prepared x (tableOf regs).extFuncNames x.lddwHelpers) false pc inst
      name) ↔ Registers regs inst.imm)
  /-- It then resolves to the name of its immediate, which is declared. -/
  callee : ∀ x pc inst name, IsHelperCall inst →
    ResolvesTo x (prepared x (tableOf regs).extFuncNames x.lddwHelpers) false pc inst name →
      name = extFuncSym inst.imm ∧ name ∈ (tableOf regs).extFuncNames
  /-- Otherwise, a compilation that comes to it fails with an error. -/
  error : ∀ V x p pc, Reaches x (tableOf regs).extFuncNames x.lddwHelpers false p pc →
    IsHelperCall (p.insn pc) → ¬Registers regs (p.insn pc).imm →
      ∃ fuel msg, aotModule V x (tableOf regs) fuel = some (.error (.error msg))
  /-- The functions of the module have different names. -/
  nodup : ∀ x : CompilerXDP,
    (x.lddwHelpers ++ ((tableOf regs).extFuncNames ++ ["bpf_main"])).Nodup
  /-- A failing registration leaves the entries alone. -/
  unchanged : ∀ r, ((tableOf regs).registerExternalFunction r).1 ≠ 0 →
    ((tableOf regs).registerExternalFunction r).2.ext_funcs = (tableOf regs).ext_funcs
  /-- An index is never bound again. -/
  bound : ∀ i f regs', (tableOf regs).ext_funcs i = some f →
    (tableOf (regs ++ regs')).ext_funcs i = some f

/-- A resolved call has no other name. -/
theorem ResolvesTo.eq_of_mem {name : String} (h : IsHelperCall inst)
    (hres : ResolvesTo x (prepared x extFuncNames lddwHelpers) patch pc inst name) :
    name = extFuncSym inst.imm ∧ extFuncSym inst.imm ∈ extFuncNames := by
  obtain ⟨n', code, he, hcode⟩ := hres 0
  by_cases hm : extFuncSym inst.imm ∈ extFuncNames
  · have hname : ResolvesTo x (prepared x extFuncNames lddwHelpers) patch pc inst
        (extFuncSym inst.imm) := resolvesTo_of_mem h hm
    obtain ⟨n'', code', he', hcode'⟩ := hname 0
    rw [he] at he'
    cases he'
    rw [hcode] at hcode'
    exact ⟨List.singleton_inj.1 hcode', hm⟩
  · rw [emitInst_of_not_mem h hm] at he
    cases he

/-- An unresolved call fails with an error, if not for what it calls then because of its
    registers. -/
theorem emitBody_of_not_mem (hpc : pc < x.insts.length)
    (h : IsHelperCall (insnAt x.insts pc))
    (hm : extFuncSym (insnAt x.insts pc).imm ∉ extFuncNames) :
    ∃ msg, ∀ s, emitBody x (prepared x extFuncNames lddwHelpers) patch pc s =
      .error (.error msg) := by
  by_cases hregs : 10 < (insnAt x.insts pc).dst_reg ∨ 10 < (insnAt x.insts pc).src_reg
  · refine ⟨"Illegal src reg/dst reg at pc " ++ toString pc, fun s => ?_⟩
    rw [emitBody_eq s hpc, if_pos hregs]
  · refine ⟨"Ext func not found: " ++ extFuncSym (insnAt x.insts pc).imm, fun s => ?_⟩
    rw [emitBody_eq s hpc, if_neg hregs, emitInst_of_not_mem h hm]

/-- For any registrations, helper calls resolve as they should; the names of the
    functions tell them apart, and fit into the buffers of both copies of the code that
    makes them. -/
theorem helperResolution : (∀ regs, HelperResolution regs) ∧ Function.Injective extFuncSym ∧
    (∀ idx, (extFuncSym idx).toList.length + 1 ≤ 32 ∧
      ∀ c ∈ (extFuncSym idx).toList, c.toNat < 128) ∧
    ∀ idx, Utils.extFuncSym idx = extFuncSym idx := by
  refine ⟨?_, extFuncSym_injective, extFuncSym_fits, Utils.extFuncSym_eq⟩
  intro regs
  constructor
  · intro x pc inst h
    rw [← extFuncSym_mem_tableOf_iff]
    constructor
    · rintro ⟨name, hres⟩
      exact (hres.eq_of_mem h).2
    · intro hm
      exact ⟨_, resolvesTo_of_mem h hm⟩
  · intro x pc inst name h hres
    obtain ⟨rfl, hm⟩ := hres.eq_of_mem h
    exact ⟨rfl, hm⟩
  · intro V x p pc hr h hno
    obtain ⟨-, rfl, hup⟩ := reaches_iff.1 hr
    rw [← extFuncSym_mem_tableOf_iff] at hno
    obtain ⟨msg, hmsg⟩ := emitBody_of_not_mem hup.lt h hno
    exact Rejects.of_reaches hr hmsg
  · intro x
    exact nodup_functions x (ExtFuncs.nodup_extFuncNames _) fun _ => ExtFuncs.eq_of_mem
  · intro r hne
    rcases ExtFuncs.register_cases r (tableOf regs) with ⟨_, _, _, h₀, _⟩ | ⟨_, heq⟩
    · exact absurd h₀ hne
    · exact heq
  · intro i f regs' hi
    rw [tableOf, ExtFuncs.registerAll_append]
    exact ExtFuncs.registerAll_of_eq_some hi regs'

/-- The helper `5` is registered, and then once more under another name, which fails. -/
def fifthHelper : List Registration := [⟨5, "get_prandom", 0x1000⟩, ⟨5, "other", 0x2000⟩]

/-- The call of a helper, and the exit. -/
def helperCall (imm : BitVec 32) : List EbpfInst :=
  [⟨EBPF_OP_CALL, 0, 0, 0, imm⟩, ⟨EBPF_OP_EXIT, 0, 0, 0, 0⟩]

/-- A call of the helper `5` resolves, a call of the helper `6` is an error. -/
theorem helperResolution_fifthHelper :
    (∃ name, ResolvesTo { insts := helperCall 5 }
      (prepared { insts := helperCall 5 } (tableOf fifthHelper).extFuncNames []) false 0
      (insnAt (helperCall 5) 0) name) ∧
    ∃ fuel msg, aotModule Verifier.shape { insts := helperCall 6 } (tableOf fifthHelper) fuel =
      some (.error (.error msg)) := by
  have h := helperResolution.1 fifthHelper
  have hcall (imm : BitVec 32) : IsHelperCall (insnAt (helperCall imm) 0) :=
    ⟨show switchCase EBPF_OP_CALL = _ by decide, show (0 : BitVec 4) ≠ 1 by decide⟩
  constructor
  · refine (h.resolves { insts := helperCall 5 } 0 _ (hcall 5)).2 ⟨?_, ?_⟩
    · show 5 < MAX_EXT_FUNCS
      decide
    exact ⟨_, ⟨[], _, rfl, rfl⟩, rfl⟩
  · have hr : Reaches { insts := helperCall 6 } (tableOf fifthHelper).extFuncNames [] false
        (prepared { insts := helperCall 6 } (tableOf fifthHelper).extFuncNames []) 0 :=
      reaches_zero (show 0 < 2 by decide) (show 2 < 65536 by decide)
    refine h.error Verifier.shape _ _ 0 hr (hcall 6) ?_
    rintro ⟨-, r, ⟨pre, post, hregs, -⟩, hidx⟩
    have hmem : r ∈ fifthHelper := hregs ▸ List.mem_append_right _ (List.mem_cons_self ..)
    have hfive : ∀ r ∈ fifthHelper, r.index.toNat = 5 := by
      intro r hr
      rcases List.mem_cons.1 hr with rfl | hr
      · rfl
      · rw [List.mem_singleton.1 hr]
        rfl
    rw [hfive r hmem] at hidx
    exact absurd hidx (show 5 ≠ 6 by decide)

end EbpfJit
