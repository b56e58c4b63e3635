import EbpfJit.Correctness
import EbpfJit.Registry

/-!
# The build command

Every program in the `xdp` section of an eBPF object is loaded, compiled and written to an
object file of its own, with a new compiler, to which `bpf_printk` is the only helper.

An instruction in memory is a word (`EbpfInst.toWord`). What a program is loaded to is
thus exactly what the memory holds (`loadCode_iff`). Object files are written until the first
program that is not accepted; there, the command throws an exception, or an assertion fails,
or the command does not end (`builds`). The object files that are written implement the
programs in memory (`object_implements`).

Reading the eBPF object is left to `libbpf`, making object files of modules to the code
generator of LLVM, and what becomes of them to the file system.
-/

namespace EbpfJit

open ByteMemory Ir Transition

/-! ## Instructions in memory -/

/-- The word an instruction is, from its opcode in the least significant byte on. -/
def EbpfInst.toWord (inst : EbpfInst) : BitVec 64 :=
  inst.imm ++ inst.off ++ inst.src_reg ++ inst.dst_reg ++ inst.code

/-- The instruction a word is. -/
def EbpfInst.ofWord (v : BitVec 64) : EbpfInst where
  code := v.extractLsb' 0 8
  dst_reg := v.extractLsb' 8 4
  src_reg := v.extractLsb' 12 4
  off := v.extractLsb' 16 16
  imm := v.extractLsb' 32 32

theorem EbpfInst.ofWord_toWord (inst : EbpfInst) : ofWord inst.toWord = inst := by
  obtain ⟨code, dst, src, off, imm⟩ := inst
  rw [ofWord, toWord, EbpfInst.mk.injEq]
  refine ⟨?_, ?_, ?_, ?_, ?_⟩
  all_goals
    ext i hi
    rw [BitVec.getElem_extractLsb']
    simp only [BitVec.getLsbD_append]
    grind

theorem EbpfInst.toWord_ofWord (v : BitVec 64) : (ofWord v).toWord = v := by
  rw [ofWord, toWord]
  ext i hi
  rw [← BitVec.getLsbD_eq_getElem, ← BitVec.getLsbD_eq_getElem]
  simp only [BitVec.getLsbD_append, BitVec.getLsbD_extractLsb']
  grind

/-- The memory with a program at `code`. -/
def storeCode (m : Mem 64) (code : BitVec 64) (insns : List EbpfInst) : Mem 64 :=
  storeAll m code (insns.map EbpfInst.toWord)

/-- The memory holds the program: storing it changes nothing. -/
def Holds (m : Mem 64) (code : BitVec 64) (insns : List EbpfInst) : Prop :=
  storeCode m code insns = m

/-! ## Loading -/

def EINVAL : ℤ := 22

/-- The compiler with its table of external functions, and the last error. -/
structure Context where
  compiler : CompilerXDP
  funcs : ExtFuncs

/-- A new one. -/
def Context.new : Context := ⟨{ insts := [] }, {}⟩

/-- Load the `code_len` bytes of code at `code`, giving back zero or an error. -/
def loadCode (m : Mem 64) (code code_len : BitVec 64) (ctx : Context) : ℤ × Context :=
  if code_len % 8 ≠ 0 then
    (-EINVAL, { ctx with
      funcs := { ctx.funcs with error_msg := "Code len must be a multiple of 8" } })
  else
    (0, { ctx with
      compiler := { ctx.compiler with
        insts := (loadAll m code 64 (code_len / 8).toNat).map EbpfInst.ofWord } })

section

variable {m : Mem 64} {code code_len : BitVec 64} {insns : List EbpfInst} {ctx : Context}

/-- Loading the program that has been stored. -/
theorem loadAll_storeCode (hlen : insns.length * 8 ≤ 2 ^ 64) :
    (loadAll (storeCode m code insns) code 64 insns.length).map EbpfInst.ofWord = insns := by
  have hload := loadAll_storeAll m code (insns.map EbpfInst.toWord) (by decide)
    (by rwa [List.length_map])
  rw [List.length_map] at hload
  rw [storeCode, hload]
  exact Function.LeftInverse.list_map EbpfInst.ofWord_toWord insns

/-- What the memory holds at `code`, of a given length, is what is loaded from there. -/
theorem holds_iff (hlen : insns.length * 8 ≤ 2 ^ 64) :
    Holds m code insns ↔ (loadAll m code 64 insns.length).map EbpfInst.ofWord = insns := by
  constructor
  · intro h
    rw [Holds] at h
    rw [← h]
    exact loadAll_storeCode hlen
  · intro h
    have hword := Function.LeftInverse.list_map EbpfInst.toWord_ofWord
      (loadAll m code 64 insns.length)
    rw [h] at hword
    rw [Holds, storeCode, hword, storeAll_loadAll _ _ (by decide)]

/-- The memory that a program has been stored to holds it. -/
theorem holds_storeCode (hlen : insns.length * 8 ≤ 2 ^ 64) :
    Holds (storeCode m code insns) code insns :=
  (holds_iff hlen).2 (loadAll_storeCode hlen)

theorem umod_eight : code_len % 8 = 0 ↔ code_len.toNat % 8 = 0 := by
  rw [← BitVec.toNat_inj, BitVec.toNat_umod]
  rfl

theorem toNat_udiv_eight : (code_len / 8).toNat = code_len.toNat / 8 := BitVec.toNat_udiv

theorem loadCode_of_eq (h : code_len.toNat % 8 = 0) :
    loadCode m code code_len ctx = (0, { ctx with
      compiler := { ctx.compiler with
        insts := (loadAll m code 64 (code_len.toNat / 8)).map EbpfInst.ofWord } }) := by
  rw [loadCode, if_neg (not_not_intro (umod_eight.2 h)), toNat_udiv_eight]

theorem loadCode_of_ne (h : code_len.toNat % 8 ≠ 0) :
    loadCode m code code_len ctx = (-EINVAL, { ctx with
      funcs := { ctx.funcs with error_msg := "Code len must be a multiple of 8" } }) := by
  rw [loadCode, if_pos fun hmod => h (umod_eight.1 hmod)]

theorem exists_holds (h : code_len.toNat % 8 = 0) :
    ∃ insns, code_len.toNat = insns.length * 8 ∧ Holds m code insns := by
  have hlt := code_len.isLt
  have hlen : ((loadAll m code 64 (code_len.toNat / 8)).map EbpfInst.ofWord).length =
      code_len.toNat / 8 := by
    rw [List.length_map, length_loadAll]
  refine ⟨(loadAll m code 64 (code_len.toNat / 8)).map EbpfInst.ofWord, by omega, ?_⟩
  rw [holds_iff (by omega), hlen]

theorem loadCode_eq_iff : loadCode m code code_len ctx =
      (0, { ctx with compiler := { ctx.compiler with insts := insns } }) ↔
    code_len.toNat = insns.length * 8 ∧ Holds m code insns := by
  have hlt := code_len.isLt
  by_cases hmod : code_len.toNat % 8 = 0
  · rw [loadCode_of_eq hmod]
    constructor
    · intro h
      have hinsns : (loadAll m code 64 (code_len.toNat / 8)).map EbpfInst.ofWord = insns := by
        injection h with _ h
        injection h with h
        injection h
      have hlen := congrArg List.length hinsns
      rw [List.length_map, length_loadAll] at hlen
      refine ⟨by omega, (holds_iff (by omega)).2 ?_⟩
      rwa [hlen] at hinsns
    · rintro ⟨hlen, hholds⟩
      have hinsns := (holds_iff (by omega)).1 hholds
      have hdiv : code_len.toNat / 8 = insns.length := by omega
      rw [hdiv, hinsns]
  · rw [loadCode_of_ne hmod]
    refine iff_of_false ?_ fun h => hmod (by omega)
    intro h
    injection h with h
    exact absurd h (by decide)

/-- A load succeeds exactly with the program that the memory holds, of the length it is
    given. There is one if the length is right; otherwise, nothing but the last error
    changes. -/
theorem loadCode_iff (m : Mem 64) (code code_len : BitVec 64) (ctx : Context) :
    (∀ insns, loadCode m code code_len ctx =
        (0, { ctx with compiler := { ctx.compiler with insts := insns } }) ↔
      code_len.toNat = insns.length * 8 ∧ Holds m code insns) ∧
    (code_len.toNat % 8 = 0 → ∃ insns, code_len.toNat = insns.length * 8 ∧ Holds m code insns) ∧
    (code_len.toNat % 8 ≠ 0 → loadCode m code code_len ctx = (-EINVAL, { ctx with
      funcs := { ctx.funcs with error_msg := "Code len must be a multiple of 8" } })) :=
  ⟨fun _ => loadCode_eq_iff, exists_holds, loadCode_of_ne⟩

end

/-! ## Compiling -/

/-- How the command stops before its end: with an exception, or a failed assertion. -/
inductive Stop
  | threw (what : String)
  | assertion

/-- A failure of the compiler is thrown. -/
def Failure.stop : Failure → Stop
  | .error _ => .threw "Unable to generate llvm module"
  | .assertion => .assertion

/-- The code generator: the object file of a module and the contents of `.rodata`, or what
    it throws. -/
abbrev CodeGenerator := Module → List (BitVec 8) → Except String (List (BitVec 8))

/-- A program of an eBPF object, with its instructions in memory. -/
structure BpfProgram where
  name : String
  section_name : String
  insns : BitVec 64
  insn_cnt : BitVec 64

/-- An eBPF object. -/
structure BpfObject where
  mem : Mem 64
  programs : List BpfProgram
  roData : List (BitVec 8)

/-- A file in the output directory. -/
structure OutputFile where
  name : String
  content : List (BitVec 8)

/-- The output directory: what a file holds once contents have been written to it, unless it
    cannot be opened. -/
abbrev OutputDir := String → List (BitVec 8) → Option (List (BitVec 8))

/-- Write a file. That it can be opened is not checked, nor that it holds what is written. -/
def OutputDir.write (dir : OutputDir) (file : OutputFile) : List OutputFile :=
  (dir file.name file.content).toList.map fun content => { file with content := content }

/-- The sections of eBPF programs and of read-only data. -/
def XDP_SECT : String := "xdp"

/-- Compile the loaded code. -/
def doAotCompile (V : Verifier) (emit : CodeGenerator) (ctx : Context)
    (roData : List (BitVec 8)) (fuel : ℕ) : Option (Except Stop (List (BitVec 8))) :=
  (aotModule V ctx.compiler ctx.funcs fuel).map fun
    | .error e => .error e.stop
    | .ok M => (emit M roData).mapError .threw

/-- Add the helpers, giving back zero or an error. -/
def addHelpers (fn : BitVec 64) (ctx : Context) : ℤ × Context :=
  let (err, funcs) := ctx.funcs.registerExternalFunction ⟨6, "_bpf_helper_ext_0006", fn⟩
  (err, { ctx with funcs := funcs })

/-- Build a program. The length of its code is computed in 32 bits. -/
def buildXdp (V : Verifier) (emit : CodeGenerator) (dir : OutputDir) (fn : BitVec 64)
    (obj : BpfObject) (prog : BpfProgram) (fuel : ℕ) :
    Option (Except Stop (ℤ × List OutputFile)) :=
  let (err, ctx) := addHelpers fn .new
  if err ≠ 0 then some (.ok (1, []))
  else
    let code_len : BitVec 32 := prog.insn_cnt.setWidth 32 * 8
    let (err, ctx) := loadCode obj.mem prog.insns (code_len.setWidth 64) ctx
    if err < 0 then some (.ok (1, []))
    else
      (doAotCompile V emit ctx obj.roData fuel).map fun r =>
        r.map fun result => (0, dir.write ⟨prog.name ++ ".o", result⟩)

/-- Build the programs, having written the files. -/
def buildPrograms (V : Verifier) (emit : CodeGenerator) (dir : OutputDir) (fn : BitVec 64)
    (obj : BpfObject) (fuel : ℕ) :
    List BpfProgram → List OutputFile → Option (Except Stop ℤ × List OutputFile)
  | [], files => some (.ok 0, files)
  | prog :: progs, files =>
    -- Other sections are only reported.
    if prog.section_name = XDP_SECT then
      match buildXdp V emit dir fn obj prog fuel with
      | none => none
      | some (.error stop) => some (.error stop, files)
      | some (.ok r) =>
        if r.1 ≠ 0 then some (.ok r.1, files ++ r.2)
        else buildPrograms V emit dir fn obj fuel progs (files ++ r.2)
    else buildPrograms V emit dir fn obj fuel progs files

/-- Build the programs of an object, if there is one. -/
def buildEbpfProgram (V : Verifier) (emit : CodeGenerator) (dir : OutputDir) (fn : BitVec 64)
    (obj : Option BpfObject) (fuel : ℕ) : Option (Except Stop ℤ × List OutputFile) :=
  match obj with
  | none => some (.ok 1, [])
  | some obj => buildPrograms V emit dir fn obj fuel obj.programs []

/-! ## What is built -/

variable {V : Verifier} {fuel : ℕ} {emit : CodeGenerator} {dir : OutputDir} {fn : BitVec 64}
  {obj : BpfObject} {prog : BpfProgram} {progs : List BpfProgram} {file : OutputFile}
  {files : List OutputFile} {insns : List EbpfInst}

/-- The names of the helpers. -/
def helperNames : List String := ["_bpf_helper_ext_0006"]

/-- The instructions of a program: as many as its length says, modulo `2 ^ 29`. -/
structure IsCodeIn (obj : BpfObject) (prog : BpfProgram) (insns : List EbpfInst) : Prop where
  length : insns.length = prog.insn_cnt.toNat % 2 ^ 29
  holds : Holds obj.mem prog.insns insns

/-- The file is the object file of the program. -/
structure IsObjectOf (V : Verifier) (emit : CodeGenerator) (obj : BpfObject) (prog : BpfProgram)
    (file : OutputFile) : Prop where
  name : file.name = prog.name ++ ".o"
  content : ∃ insns M, IsCodeIn obj prog insns ∧
    Accepts V { insts := insns } helperNames [] false M ∧ emit M obj.roData = .ok file.content

/-- The command stops at the program: the assertion fails in its compilation, or it is rejected
    with an error, or the code generator throws at the module. -/
def StopsAt (V : Verifier) (emit : CodeGenerator) (obj : BpfObject) (prog : BpfProgram) :
    Stop → Prop
  | .assertion => ∃ insns, IsCodeIn obj prog insns ∧ insns.length < 65536 ∧
      Asserts { insts := insns } helperNames [] false
  | .threw what => ∃ insns, IsCodeIn obj prog insns ∧
      (what = "Unable to generate llvm module" ∧
          Rejects V { insts := insns } helperNames [] false ∨
        ∃ M, Accepts V { insts := insns } helperNames [] false M ∧
          emit M obj.roData = .error what)

/-- The compilation of the program does not end. -/
def TooLarge (prog : BpfProgram) : Prop := 65536 ≤ prog.insn_cnt.toNat % 2 ^ 29

theorem IsCodeIn.unique {insns' : List EbpfInst} (h : IsCodeIn obj prog insns)
    (h' : IsCodeIn obj prog insns') : insns = insns' := by
  have hlen := h.length
  have hlen' := h'.length
  have hlt := Nat.mod_lt prog.insn_cnt.toNat (show 2 ^ 29 > 0 by decide)
  rw [← (holds_iff (by omega)).1 h.holds, ← (holds_iff (by omega)).1 h'.holds, hlen, hlen']

/-- The index of `bpf_printk`. -/
def printkIndex : Fin MAX_EXT_FUNCS := ⟨6, by decide⟩

/-- The table of a new compiler has the one helper. -/
theorem addHelpers_new (fn : BitVec 64) :
    ∃ funcs, addHelpers fn .new = (0, ⟨{ insts := [] }, funcs⟩) ∧
      funcs.extFuncNames = helperNames := by
  refine ⟨⟨Function.update (fun _ => none) printkIndex (some ⟨"_bpf_helper_ext_0006", fn⟩), ""⟩,
    rfl, ?_⟩
  have hsix (i : Fin MAX_EXT_FUNCS) : (Function.update (fun _ => none) printkIndex
      (some (⟨"_bpf_helper_ext_0006", fn⟩ : ExternalFunction)) i).isSome =
        decide (i = printkIndex) := by
    by_cases hi : i = printkIndex
    · rw [hi, Function.update_self, decide_eq_true rfl]
      rfl
    · rw [Function.update_of_ne hi, decide_eq_false hi]
      rfl
  simp only [ExtFuncs.extFuncNames, hsix]
  rw [List.filter_eq, List.count_eq_one_of_mem (List.nodup_finRange _) (List.mem_finRange _)]
  rfl

theorem toNat_codeLen (cnt : BitVec 64) :
    ((cnt.setWidth 32 * 8 : BitVec 32).setWidth 64).toNat = cnt.toNat % 2 ^ 29 * 8 := by
  have hlt : (cnt.setWidth 32 * 8 : BitVec 32).toNat < 2 ^ 64 := by
    have := (cnt.setWidth 32 * 8 : BitVec 32).isLt
    omega
  rw [BitVec.toNat_setWidth, Nat.mod_eq_of_lt hlt, BitVec.toNat_mul, BitVec.toNat_setWidth]
  have height : (8 : BitVec 32).toNat = 8 := rfl
  rw [height]
  omega

/-- What becomes of a program, by the outcome of its compilation. -/
def outcome (emit : CodeGenerator) (dir : OutputDir) (obj : BpfObject) (prog : BpfProgram) :
    Except Failure Module → Except Stop (ℤ × List OutputFile)
  | .error e => .error e.stop
  | .ok M => ((emit M obj.roData).mapError .threw).map fun result =>
      (0, dir.write ⟨prog.name ++ ".o", result⟩)

theorem buildXdp_eq (h : IsCodeIn obj prog insns) :
    buildXdp V emit dir fn obj prog fuel =
      (generateModule V { insts := insns } helperNames [] false fuel).map
        (outcome emit dir obj prog) := by
  obtain ⟨funcs, hadd, hnames⟩ := addHelpers_new fn
  have hload : loadCode obj.mem prog.insns
      ((prog.insn_cnt.setWidth 32 * 8 : BitVec 32).setWidth 64) ⟨{ insts := [] }, funcs⟩ =
        (0, ⟨{ insts := insns }, funcs⟩) :=
    loadCode_eq_iff.2 ⟨by rw [toNat_codeLen, h.length], h.holds⟩
  have hzero : ¬(0 : ℤ) ≠ 0 := not_not_intro rfl
  have hneg : ¬(0 : ℤ) < 0 := lt_irrefl 0
  have hlddw : CompilerXDP.lddwHelpers { insts := insns } = [] := rfl
  simp only [buildXdp, hadd, hload, if_neg hzero, if_neg hneg, doAotCompile, aotModule, hnames,
    hlddw]
  generalize generateModule V { insts := insns } helperNames [] false fuel = r
  cases r with
  | none => rfl
  | some r =>
    cases r with
    | error e => rfl
    | ok M => rfl

theorem exists_isCodeIn (obj : BpfObject) (prog : BpfProgram) :
    ∃ insns, IsCodeIn obj prog insns := by
  have hmod : ((prog.insn_cnt.setWidth 32 * 8 : BitVec 32).setWidth 64).toNat % 8 = 0 := by
    rw [toNat_codeLen, Nat.mul_mod_left]
  obtain ⟨insns, hlen, hholds⟩ : ∃ insns : List EbpfInst,
      ((prog.insn_cnt.setWidth 32 * 8 : BitVec 32).setWidth 64).toNat = insns.length * 8 ∧
        Holds obj.mem prog.insns insns := exists_holds hmod
  rw [toNat_codeLen] at hlen
  exact ⟨insns, by omega, hholds⟩

theorem buildXdp_mono {fuel' : ℕ} {r : Except Stop (ℤ × List OutputFile)}
    (h : buildXdp V emit dir fn obj prog fuel = some r) (hle : fuel ≤ fuel') :
    buildXdp V emit dir fn obj prog fuel' = some r := by
  obtain ⟨insns, hcode⟩ := exists_isCodeIn obj prog
  rw [buildXdp_eq hcode, Option.map_eq_some_iff] at h ⊢
  obtain ⟨r', hgen, hr⟩ := h
  exact ⟨r', generateModule_mono hgen hle, hr⟩

/-- A program either has an object file, or the command stops at it, or does not end. -/
theorem exists_object_or_stop (V : Verifier) (emit : CodeGenerator) (obj : BpfObject)
    (prog : BpfProgram) : (∃ file, IsObjectOf V emit obj prog file) ∨
      (∃ stop, StopsAt V emit obj prog stop) ∨ TooLarge prog := by
  obtain ⟨insns, hcode⟩ := exists_isCodeIn obj prog
  by_cases hn : insns.length < 65536
  · obtain ⟨fuel, r, hgen⟩ :=
      generateModule_isSome V { insts := insns } helperNames [] false hn
    cases r with
    | ok M =>
      have hM : Accepts V { insts := insns } helperNames [] false M := ⟨fuel, hgen⟩
      cases hemit : emit M obj.roData with
      | ok content => exact .inl ⟨⟨prog.name ++ ".o", content⟩, rfl, insns, M, hcode, hM, hemit⟩
      | error what => exact .inr (.inl ⟨.threw what, insns, hcode, .inr ⟨M, hM, hemit⟩⟩)
    | error e =>
      cases e with
      | error msg => exact .inr (.inl ⟨.threw _, insns, hcode, .inl ⟨rfl, fuel, msg, hgen⟩⟩)
      | assertion => exact .inr (.inl ⟨.assertion, insns, hcode, asserts_iff.1 ⟨fuel, hgen⟩⟩)
  · rw [hcode.length] at hn
    exact .inr (.inr (Nat.not_lt.1 hn))

/-- Once there is enough fuel, a program with an object file is written to it. -/
theorem IsObjectOf.exists_buildXdp (h : IsObjectOf V emit obj prog file) (dir : OutputDir)
    (fn : BitVec 64) : ∃ fuel₀, ∀ fuel ≥ fuel₀,
      buildXdp V emit dir fn obj prog fuel = some (.ok (0, dir.write file)) := by
  obtain ⟨hname, insns, M, hcode, ⟨fuel₀, hgen⟩, hemit⟩ := h
  have hfile : (⟨prog.name ++ ".o", file.content⟩ : OutputFile) = file := by rw [← hname]
  refine ⟨fuel₀, fun fuel hle => ?_⟩
  rw [buildXdp_eq hcode, generateModule_mono hgen hle, Option.map_some, outcome, hemit, ← hfile]
  rfl

/-- The command does stop at the program. -/
theorem StopsAt.exists_buildXdp {stop : Stop} (h : StopsAt V emit obj prog stop)
    (dir : OutputDir) (fn : BitVec 64) : ∃ fuel₀, ∀ fuel ≥ fuel₀,
      buildXdp V emit dir fn obj prog fuel = some (.error stop) := by
  cases stop with
  | assertion =>
    obtain ⟨insns, hcode, hasserts⟩ := h
    obtain ⟨fuel₀, hgen⟩ := (asserts_iff (V := V) (x := { insts := insns })).2 hasserts
    refine ⟨fuel₀, fun fuel hle => ?_⟩
    rw [buildXdp_eq hcode, generateModule_mono hgen hle]
    rfl
  | threw what =>
    obtain ⟨insns, hcode, ⟨rfl, fuel₀, msg, hgen⟩ | ⟨M, ⟨fuel₀, hgen⟩, hemit⟩⟩ := h
    · refine ⟨fuel₀, fun fuel hle => ?_⟩
      rw [buildXdp_eq hcode, generateModule_mono hgen hle]
      rfl
    · refine ⟨fuel₀, fun fuel hle => ?_⟩
      rw [buildXdp_eq hcode, generateModule_mono hgen hle, Option.map_some, outcome, hemit]
      rfl

theorem TooLarge.buildXdp_eq_none (h : TooLarge prog) :
    buildXdp V emit dir fn obj prog fuel = none := by
  obtain ⟨insns, hcode⟩ := exists_isCodeIn obj prog
  rw [buildXdp_eq hcode, generateModule_eq_none (hcode.length ▸ h)]
  rfl

/-! ## The command -/

/-- The programs that are built. -/
def xdpPrograms (progs : List BpfProgram) : List BpfProgram :=
  progs.filter fun prog => prog.section_name = XDP_SECT

theorem section_of_mem_xdpPrograms (h : prog ∈ xdpPrograms progs) :
    prog.section_name = XDP_SECT :=
  of_decide_eq_true (List.mem_filter.1 h).2

/-- What the command does with these programs: how it ends, if it does, and the object files
    that it writes, the ones of the programs up to the first one that there is none for. -/
inductive Builds (V : Verifier) (emit : CodeGenerator) (obj : BpfObject) :
    List BpfProgram → Option (Except Stop ℤ) → List OutputFile → Prop
  | nil : Builds V emit obj [] (some (.ok 0)) []
  | object {prog : BpfProgram} {progs : List BpfProgram} {r : Option (Except Stop ℤ)}
      {file : OutputFile} {files : List OutputFile} (hfile : IsObjectOf V emit obj prog file)
      (h : Builds V emit obj progs r files) : Builds V emit obj (prog :: progs) r (file :: files)
  | stop {prog : BpfProgram} {progs : List BpfProgram} {stop : Stop}
      (h : StopsAt V emit obj prog stop) : Builds V emit obj (prog :: progs) (some (.error stop)) []
  | endless {prog : BpfProgram} {progs : List BpfProgram} (h : TooLarge prog) :
      Builds V emit obj (prog :: progs) none []

/-- There is always something that it does. -/
theorem exists_builds (V : Verifier) (emit : CodeGenerator) (obj : BpfObject)
    (progs : List BpfProgram) : ∃ r files, Builds V emit obj progs r files := by
  induction progs with
  | nil => exact ⟨_, _, .nil⟩
  | cons prog progs ih =>
    obtain ⟨r, files, h⟩ := ih
    rcases exists_object_or_stop V emit obj prog with ⟨file, hfile⟩ | ⟨stop, hstop⟩ | hlarge
    · exact ⟨_, _, .object hfile h⟩
    · exact ⟨_, _, .stop hstop⟩
    · exact ⟨_, _, .endless hlarge⟩

/-- Other programs are only reported. -/
theorem buildPrograms_xdpPrograms (progs : List BpfProgram) (written : List OutputFile) :
    buildPrograms V emit dir fn obj fuel progs written =
      buildPrograms V emit dir fn obj fuel (xdpPrograms progs) written := by
  induction progs generalizing written with
  | nil => rfl
  | cons prog progs ih =>
    by_cases hxdp : prog.section_name = XDP_SECT
    · rw [xdpPrograms, List.filter_cons_of_pos (by simpa using hxdp), buildPrograms,
        buildPrograms]
      simp only [if_pos hxdp, ih]
      rfl
    · rw [xdpPrograms, List.filter_cons_of_neg (by simpa using hxdp), buildPrograms,
        if_neg hxdp]
      exact ih written

/-- With enough fuel, the command does what it should. If it should not end, it does not with
    any fuel. -/
theorem Builds.exists_fuel {r : Option (Except Stop ℤ)} (h : Builds V emit obj progs r files)
    (hxdp : ∀ prog ∈ progs, prog.section_name = XDP_SECT) (dir : OutputDir) (fn : BitVec 64) :
    ∃ fuel₀, ∀ fuel ≥ fuel₀, ∀ written,
      buildPrograms V emit dir fn obj fuel progs written =
        r.map fun e => (e, written ++ files.flatMap dir.write) := by
  induction h with
  | nil => exact ⟨0, fun _ _ written => by simp [buildPrograms]⟩
  | @object prog progs r file files hfile h ih =>
    obtain ⟨hprog, hprogs⟩ := List.forall_mem_cons.1 hxdp
    obtain ⟨fuel₁, h₁⟩ := hfile.exists_buildXdp dir fn
    obtain ⟨fuel₂, h₂⟩ := ih hprogs
    refine ⟨max fuel₁ fuel₂, fun fuel hle written => ?_⟩
    have hzero : ¬(0 : ℤ) ≠ 0 := not_not_intro rfl
    simp only [buildPrograms, if_pos hprog, h₁ fuel (le_trans (Nat.le_max_left _ _) hle),
      if_neg hzero, h₂ fuel (le_trans (Nat.le_max_right _ _) hle), List.append_assoc,
      List.flatMap_cons]
  | @stop prog progs stop h =>
    obtain ⟨fuel₀, h₀⟩ := h.exists_buildXdp dir fn
    refine ⟨fuel₀, fun fuel hle written => ?_⟩
    simp [buildPrograms, if_pos (hxdp prog List.mem_cons_self), h₀ fuel hle]
  | @endless prog progs h =>
    refine ⟨0, fun fuel _ written => ?_⟩
    simp only [buildPrograms, if_pos (hxdp prog List.mem_cons_self), h.buildXdp_eq_none]
    rfl

theorem buildPrograms_mono {fuel' : ℕ} {r : Except Stop ℤ × List OutputFile}
    {written : List OutputFile}
    (h : buildPrograms V emit dir fn obj fuel progs written = some r) (hle : fuel ≤ fuel') :
    buildPrograms V emit dir fn obj fuel' progs written = some r := by
  induction progs generalizing written with
  | nil => exact h
  | cons prog progs ih =>
    rw [buildPrograms] at h ⊢
    split at h
    · next hxdp =>
      rw [if_pos hxdp]
      cases hb : buildXdp V emit dir fn obj prog fuel with
      | none =>
        rw [hb] at h
        cases h
      | some out =>
        rw [buildXdp_mono hb hle]
        rw [hb] at h
        cases out with
        | error stop => exact h
        | ok out =>
          simp only at h ⊢
          split at h
          · next herr => rwa [if_pos herr]
          · next herr =>
            rw [if_neg herr]
            exact ih h
    · next hxdp =>
      rw [if_neg hxdp]
      exact ih h

/-- Whatever the fuel, the command does not do anything else. -/
theorem Builds.eq_of_buildEbpfProgram {r : Option (Except Stop ℤ)} {e : Except Stop ℤ}
    {objects : List OutputFile} (h : Builds V emit obj (xdpPrograms obj.programs) r objects)
    (hbuild : buildEbpfProgram V emit dir fn (some obj) fuel = some (e, files)) :
    r = some e ∧ files = objects.flatMap dir.write := by
  obtain ⟨fuel₀, h₀⟩ := h.exists_fuel (fun _ => section_of_mem_xdpPrograms) dir fn
  have hmono := buildPrograms_mono hbuild (Nat.le_max_left fuel fuel₀)
  rw [buildPrograms_xdpPrograms, h₀ _ (Nat.le_max_right fuel fuel₀), Option.map_eq_some_iff]
    at hmono
  obtain ⟨e', rfl, heq⟩ := hmono
  cases heq
  exact ⟨rfl, rfl⟩

/-- The command builds the programs one after the other, until there is one that it stops at, or
    that it does not end with. It gives back zero exactly if all of them have object files, even
    where these could not be written. -/
theorem builds (V : Verifier) (emit : CodeGenerator) (dir : OutputDir) (fn : BitVec 64)
    (obj : BpfObject) :
    (∃ r objects, Builds V emit obj (xdpPrograms obj.programs) r objects) ∧
    ∀ r objects, Builds V emit obj (xdpPrograms obj.programs) r objects → ∀ e files,
      (∃ fuel, buildEbpfProgram V emit dir fn (some obj) fuel = some (e, files)) ↔
        r = some e ∧ files = objects.flatMap dir.write := by
  refine ⟨exists_builds V emit obj _, fun r objects h e files => ⟨?_, ?_⟩⟩
  · rintro ⟨fuel, hbuild⟩
    exact h.eq_of_buildEbpfProgram hbuild
  · rintro ⟨rfl, rfl⟩
    obtain ⟨fuel, hfuel⟩ := h.exists_fuel (fun _ => section_of_mem_xdpPrograms) dir fn
    refine ⟨fuel, ?_⟩
    rw [buildEbpfProgram, buildPrograms_xdpPrograms, hfuel fuel (le_refl fuel)]
    rfl

/-- A file that is written is the object file of one of the programs. -/
theorem Builds.exists_isObjectOf {r : Option (Except Stop ℤ)}
    (h : Builds V emit obj progs r files) (hfile : file ∈ files) :
    ∃ prog ∈ progs, IsObjectOf V emit obj prog file := by
  induction h with
  | nil => exact absurd hfile List.not_mem_nil
  | @object prog progs r file' files hobject h ih =>
    rcases List.mem_cons.1 hfile with rfl | hmem
    · exact ⟨prog, List.mem_cons_self, hobject⟩
    · obtain ⟨prog', hprog, hobject'⟩ := ih hmem
      exact ⟨prog', List.mem_cons_of_mem prog hprog, hobject'⟩
  | stop => exact absurd hfile List.not_mem_nil
  | endless => exact absurd hfile List.not_mem_nil

/-- Every file has been written with the object file of one of the programs, whose code
    implements the instructions in memory: for frames of any size, as long as the interpreter
    only gets to states that the code is right in. -/
theorem object_implements {r : Except Stop ℤ}
    (h : buildEbpfProgram V emit dir fn (some obj) fuel = some (r, files))
    (hfile : file ∈ files) :
    ∃ prog ∈ xdpPrograms obj.programs, file.name = prog.name ++ ".o" ∧
      ∃ insns M content, IsCodeIn obj prog insns ∧ emit M obj.roData = .ok content ∧
        dir file.name content = some file.content ∧
        Accepts V { insts := insns } helperNames [] false M ∧
        ∀ stackSize W e m, W.Separates M.fn.blocks → Covered insns →
          (∀ n s, iter (interp stackSize W.func insns) n (Interp.start (startCore W m)) =
              .cont s → FaithfulAt stackSize insns s) →
            Implements stackSize insns M W e m := by
  obtain ⟨_, objects, hbuilds⟩ := exists_builds V emit obj (xdpPrograms obj.programs)
  obtain ⟨-, rfl⟩ := hbuilds.eq_of_buildEbpfProgram h
  obtain ⟨object, hobject, hfile⟩ := List.mem_flatMap.1 hfile
  obtain ⟨content, hcontent, rfl⟩ := List.mem_map.1 hfile
  obtain ⟨prog, hprog, hname, insns, M, hcode, haccepts, hemit⟩ :=
    hbuilds.exists_isObjectOf hobject
  refine ⟨prog, hprog, hname, insns, M, object.content, hcode, hemit,
    Option.mem_toList.1 hcontent, haccepts, ?_⟩
  intro stackSize W e m hW hcov hf
  exact haccepts.implements_of_faithfulAt hW hcov hf

/-- A program that lets every packet pass. -/
def passProgram : List EbpfInst :=
  [⟨EBPF_OP_MOV64_IMM, 0, 0, 0, 2⟩, ⟨EBPF_OP_EXIT, 0, 0, 0, 0⟩]

/-- An object with it, in two sections. -/
def passObject : BpfObject where
  mem := storeCode (fun _ => 0) 0x1000 passProgram
  programs := [⟨"pass", "xdp", 0x1000, 2⟩, ⟨"trace", "kprobe", 0x1000, 2⟩]
  roData := []

theorem object_implements_passObject :
    ∃ M, Accepts Verifier.shape { insts := passProgram } helperNames [] false M ∧
      Implements EBPF_STACK_SIZE passProgram M World.numbered Env.zero Machine.zero ∧
      ∃ k m, iter (step M.fn World.numbered) k (entry Env.zero Machine.zero) =
        .done (.ret 2 m) := by
  obtain ⟨M, hM, hW⟩ := exists_accepts Verifier.shape { insts := passProgram } helperNames [] false
    3 (fun M => decide (World.numbered.Separates M.fn.blocks)) (by decide +kernel)
  let emit : CodeGenerator := fun M _ => .ok [BitVec.ofNat 8 M.log.length]
  let dir : OutputDir := fun _ content => some content
  have hcode : IsCodeIn passObject ⟨"pass", "xdp", 0x1000, 2⟩ passProgram :=
    ⟨rfl, holds_storeCode (by decide)⟩
  have hobject : IsObjectOf Verifier.shape emit passObject ⟨"pass", "xdp", 0x1000, 2⟩
      ⟨"pass.o", [BitVec.ofNat 8 M.log.length]⟩ := ⟨rfl, passProgram, M, hcode, hM, rfl⟩
  have hobjects : Builds Verifier.shape emit passObject (xdpPrograms passObject.programs)
      (some (.ok 0)) [⟨"pass.o", [BitVec.ofNat 8 M.log.length]⟩] := .object hobject .nil
  obtain ⟨fuel, hfuel⟩ := hobjects.exists_fuel (by decide) dir 0
  have hrun : buildEbpfProgram Verifier.shape emit dir 0 (some passObject) fuel =
      some (.ok 0, [⟨"pass.o", [BitVec.ofNat 8 M.log.length]⟩]) := by
    rw [buildEbpfProgram, buildPrograms_xdpPrograms, hfuel fuel (le_refl fuel)]
    rfl
  obtain ⟨prog, hprog, -, insns, M', content, hcode', -, -, hM', himpl⟩ :=
    object_implements hrun List.mem_cons_self
  obtain rfl : prog = ⟨"pass", "xdp", 0x1000, 2⟩ := List.mem_singleton.1 hprog
  obtain rfl := hcode'.unique hcode
  obtain rfl := hM'.unique hM
  have hret : Interp.Returned (iter (interp EBPF_STACK_SIZE World.numbered.func passProgram) 2
      (Interp.start (startCore World.numbered Machine.zero))) 2 := by decide +kernel
  have hall : ∀ s ∈ trace (interp EBPF_STACK_SIZE World.numbered.func passProgram)
      (fun _ => true) 2 (Interp.start (startCore World.numbered Machine.zero)),
      FaithfulAt EBPF_STACK_SIZE passProgram s := by
    decide +kernel
  obtain ⟨c, hc, hv⟩ := hret
  have himplements := himpl EBPF_STACK_SIZE World.numbered Env.zero Machine.zero
    (of_decide_eq_true hW) (by decide +kernel) fun n s hs => hall s (mem_trace_of_done hc hs)
  obtain ⟨_, k, m, ⟨⟩, hrun, -⟩ := himplements.exits _ _ hc
  exact ⟨M', hM, himplements, k, m, hv ▸ hrun⟩

end EbpfJit
