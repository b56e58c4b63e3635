import EbpfJit.Shape

/-!
# The layout of the code

Where the emission loop leaves the code of each instruction. The loop visits the
instructions in order, except for the second slots of an `lddw` (`IsSlot`). Every
visit appends the code of its instruction to the block it begins, if it begins
one, or to the block of the visit before.

* `IsLog`: the visits of the emission loop;
* `exists_visit`, `not_isSlot`: an instruction is visited unless it is a slot;
* `block_spec`: which visits share a block;
* `codeAt`, `next`: where the code of a visit is, and what comes after it;
* `loopInv_of_run`, `run_emitBody_ok`: the loop succeeds exactly if all the
  instructions that are not slots are legal, and then visits them all.
-/

namespace EbpfJit

open Ir Ir.Builder

variable {x : CompilerXDP} {extFuncNames lddwHelpers : List String} {patch : Bool}

/-- The instruction `t` is the second slot of an `lddw`. -/
def IsSlot (insns : List EbpfInst) (t : ℕ) : Prop :=
  0 < t ∧ (insnAt insns (t - 1)).code = EBPF_OP_LDDW

instance (insns : List EbpfInst) : DecidablePred (IsSlot insns) := fun _ =>
  inferInstanceAs (Decidable (_ ∧ _))

/-- The instruction `t`, an integer, is there, and not the second slot of an `lddw`. -/
def IsTarget (insns : List EbpfInst) (t : ℤ) : Prop :=
  0 ≤ t ∧ t < insns.length ∧ ¬IsSlot insns t.toNat

instance (insns : List EbpfInst) : DecidablePred (IsTarget insns) := fun _ =>
  inferInstanceAs (Decidable (_ ∧ _))

/-- The compiler accepts the instruction at `pc`. -/
abbrev LegalAt (x : CompilerXDP) (extFuncNames lddwHelpers : List String) (patch : Bool)
    (pc : ℕ) : Prop :=
  Legal x extFuncNames lddwHelpers patch pc (insnAt x.insts pc)

/-- The slots are the second slots of the `lddw` that are not in a slot themselves. -/
theorem isLddwSlot_of_isSlot {insns : List EbpfInst}
    (h : ∀ pc < insns.length, ¬IsSlot insns pc → (insnAt insns pc).code = EBPF_OP_LDDW →
      IsLddwSlot (insnAt insns (pc + 1))) {t : ℕ} (ht : t < insns.length)
    (hs : IsSlot insns t) : IsLddwSlot (insnAt insns t) := by
  induction t with
  | zero => exact absurd hs.1 (Nat.lt_irrefl 0)
  | succ t ih =>
    have hcode : (insnAt insns t).code = EBPF_OP_LDDW := hs.2
    refine h t (by omega) (fun hs' => ?_) hcode
    rw [(ih (by omega) hs').1] at hcode
    exact absurd hcode (by decide)

theorem not_isJmp_of_isLddwSlot {inst : EbpfInst} (h : IsLddwSlot inst) : isJmp inst = false := by
  rw [isJmp, h.1]
  decide

/-! ## Logs -/

/-- The index after the visits `log`. -/
def pcAfter (insns : List EbpfInst) (log : List Visit) : ℕ :=
  match log.getLast? with
  | none => 0
  | some v => nextPc v.pc (insnAt insns v.pc)

/-- The current block after the visits `log`. -/
def blockAfter (log : List Visit) : Lbl :=
  match log.getLast? with
  | none => .inst 0
  | some v => v.block

/-- The contents of a block after the visits `log`, from `base` on. -/
def contents (base : Lbl → List (Instr Lbl Slot)) (log : List Visit) (l : Lbl) :
    List (Instr Lbl Slot) :=
  base l ++ (log.filter fun v => decide (v.block = l)).flatMap (·.code)

@[simp] theorem pcAfter_nil (insns : List EbpfInst) : pcAfter insns [] = 0 := rfl

@[simp] theorem pcAfter_concat (insns : List EbpfInst) (log : List Visit) (v : Visit) :
    pcAfter insns (log ++ [v]) = nextPc v.pc (insnAt insns v.pc) := by
  simp [pcAfter]

@[simp] theorem blockAfter_nil : blockAfter [] = .inst 0 := rfl

@[simp] theorem blockAfter_concat (log : List Visit) (v : Visit) :
    blockAfter (log ++ [v]) = v.block := by
  simp [blockAfter]

theorem contents_append (base : Lbl → List (Instr Lbl Slot)) (log log' : List Visit) (l : Lbl) :
    contents base (log ++ log') l =
      contents base log l ++ (log'.filter fun v => decide (v.block = l)).flatMap (·.code) := by
  simp [contents]

/-- What the visit `v` is, after the visits `log`. -/
structure Extends (x : CompilerXDP) (extFuncNames lddwHelpers : List String) (patch : Bool)
    (base : Lbl → List (Instr Lbl Slot)) (log : List Visit) (v : Visit) : Prop where
  pc_eq : v.pc = pcAfter x.insts log
  pc_lt : v.pc < x.insts.length
  legal : LegalAt x extFuncNames lddwHelpers patch v.pc
  block_eq : v.block = if Begins x.insts v.pc then .inst v.pc else blockAfter log
  start_eq : v.start = (contents base log v.block).length
  shape : CodeShape v.pc (insnAt x.insts v.pc) v.code
  emitted : ∃ n k n', emitInst x (prepared x extFuncNames lddwHelpers) patch v.pc
    (insnAt x.insts v.pc) n = .ok (k, n', v.code)

/-- The visits of an emission loop. -/
inductive IsLog (x : CompilerXDP) (extFuncNames lddwHelpers : List String) (patch : Bool)
    (base : Lbl → List (Instr Lbl Slot)) : List Visit → Prop
  | nil : IsLog x extFuncNames lddwHelpers patch base []
  | concat {log : List Visit} {v : Visit} (h : IsLog x extFuncNames lddwHelpers patch base log)
    (hv : Extends x extFuncNames lddwHelpers patch base log v) :
    IsLog x extFuncNames lddwHelpers patch base (log ++ [v])

/-! ## The emission loop -/

theorem lt_nextPc (pc : ℕ) (inst : EbpfInst) : pc < nextPc pc inst := by
  unfold nextPc
  split <;> omega

/-- A legal instruction is not followed by the end of the program within it. -/
theorem nextPc_le {pc : ℕ} (hpc : pc < x.insts.length)
    (h : LegalAt x extFuncNames lddwHelpers patch pc) :
    nextPc pc (insnAt x.insts pc) ≤ x.insts.length := by
  unfold nextPc
  split
  · next hcode =>
    obtain ⟨_, _, c, hc, hl⟩ := h
    rw [hcode, switchCase_lddw] at hc
    cases hc
    exact hl.1
  · omega

section

variable {base : Lbl → List (Instr Lbl Slot)}

/-! ### Which instructions are visited -/

namespace IsLog

variable {log pre post : List Visit} {u v w : Visit}

/-- A visit in the middle of a log extends the log before it. -/
theorem split (h : IsLog x extFuncNames lddwHelpers patch base (pre ++ v :: post)) :
    IsLog x extFuncNames lddwHelpers patch base pre ∧
      Extends x extFuncNames lddwHelpers patch base pre v := by
  generalize hlog : pre ++ v :: post = log at h
  induction h generalizing post with
  | nil => simp at hlog
  | @concat log u hl hu ih =>
    rcases List.eq_nil_or_concat post with rfl | ⟨post', w, rfl⟩
    · obtain ⟨rfl, hvu⟩ := List.append_inj' hlog rfl
      cases hvu
      exact ⟨hl, hu⟩
    · rw [List.concat_eq_append, ← List.cons_append, ← List.append_assoc] at hlog
      exact ih (List.append_inj' hlog rfl).1

theorem of_concat (h : IsLog x extFuncNames lddwHelpers patch base (pre ++ [v])) :
    IsLog x extFuncNames lddwHelpers patch base pre ∧
      Extends x extFuncNames lddwHelpers patch base pre v := h.split

theorem extends_of_mem (h : IsLog x extFuncNames lddwHelpers patch base log) (hv : v ∈ log) :
    ∃ pre, Extends x extFuncNames lddwHelpers patch base pre v := by
  obtain ⟨pre, post, rfl⟩ := List.append_of_mem hv
  exact ⟨pre, h.split.2⟩

theorem pc_lt (h : IsLog x extFuncNames lddwHelpers patch base log) (hv : v ∈ log) :
    v.pc < x.insts.length :=
  let ⟨_, he⟩ := h.extends_of_mem hv
  he.pc_lt

theorem legal (h : IsLog x extFuncNames lddwHelpers patch base log) (hv : v ∈ log) :
    LegalAt x extFuncNames lddwHelpers patch v.pc :=
  let ⟨_, he⟩ := h.extends_of_mem hv
  he.legal

theorem shape (h : IsLog x extFuncNames lddwHelpers patch base log) (hv : v ∈ log) :
    CodeShape v.pc (insnAt x.insts v.pc) v.code :=
  let ⟨_, he⟩ := h.extends_of_mem hv
  he.shape

theorem block_of_begins (h : IsLog x extFuncNames lddwHelpers patch base log) (hv : v ∈ log)
    (hb : Begins x.insts v.pc) : v.block = .inst v.pc := by
  obtain ⟨_, he⟩ := h.extends_of_mem hv
  rw [he.block_eq, if_pos hb]

/-- The visits are in the order of their instructions. -/
theorem pc_lt_pcAfter (h : IsLog x extFuncNames lddwHelpers patch base log) (hv : v ∈ log) :
    v.pc < pcAfter x.insts log := by
  induction h with
  | nil => cases hv
  | concat hl hu ih =>
    rw [pcAfter_concat]
    rcases List.mem_append.1 hv with hv | hv
    · exact (ih hv).trans (hu.pc_eq ▸ lt_nextPc _ _)
    · rw [List.mem_singleton.1 hv]
      exact lt_nextPc _ _

theorem pcAfter_le (h : IsLog x extFuncNames lddwHelpers patch base log) :
    pcAfter x.insts log ≤ x.insts.length := by
  cases h with
  | nil => exact Nat.zero_le _
  | concat hl hu =>
    rw [pcAfter_concat]
    exact nextPc_le hu.pc_lt hu.legal

/-- The loop never stands at a slot. -/
theorem not_isSlot_pcAfter (h : IsLog x extFuncNames lddwHelpers patch base log) :
    ¬IsSlot x.insts (pcAfter x.insts log) := by
  cases h with
  | nil => exact fun hs => absurd hs.1 (Nat.lt_irrefl 0)
  | @concat log v hl hv =>
    rw [pcAfter_concat]
    rintro ⟨_, hs⟩
    unfold nextPc at hs
    split at hs
    · next hcode =>
      obtain ⟨_, _, c, hc, hl⟩ := hv.legal
      rw [hcode, switchCase_lddw] at hc
      cases hc
      rw [show v.pc + 2 - 1 = v.pc + 1 from rfl, hl.2.1.1] at hs
      exact absurd hs (by decide)
    · next hcode => exact hcode hs

theorem not_isSlot (h : IsLog x extFuncNames lddwHelpers patch base log) (hv : v ∈ log) :
    ¬IsSlot x.insts v.pc := by
  obtain ⟨pre, post, rfl⟩ := List.append_of_mem hv
  obtain ⟨hpre, he⟩ := h.split
  rw [he.pc_eq]
  exact hpre.not_isSlot_pcAfter

/-- The loop visits every instruction it passes that is not a slot. -/
theorem exists_visit (h : IsLog x extFuncNames lddwHelpers patch base log) {t : ℕ}
    (ht : t < pcAfter x.insts log) (hs : ¬IsSlot x.insts t) : ∃ v ∈ log, v.pc = t := by
  induction h with
  | nil => cases ht
  | @concat log u hl hu ih =>
    rw [pcAfter_concat] at ht
    rcases lt_trichotomy t u.pc with hlt | rfl | hgt
    · obtain ⟨v, hv, rfl⟩ := ih (hu.pc_eq ▸ hlt)
      exact ⟨v, List.mem_append_left _ hv, rfl⟩
    · exact ⟨u, List.mem_append_right _ (List.mem_singleton_self u), rfl⟩
    · unfold nextPc at ht
      split at ht
      · next hcode =>
        refine absurd ⟨by omega, ?_⟩ hs
        rwa [show t - 1 = u.pc by omega]
      · omega

/-- The visits of one instruction are the same. -/
theorem eq_of_pc_eq (h : IsLog x extFuncNames lddwHelpers patch base log) (hv : v ∈ log)
    (hw : w ∈ log) (heq : v.pc = w.pc) : v = w := by
  induction h with
  | nil => cases hv
  | @concat log u hl hu ih =>
    rcases List.mem_append.1 hv with hv' | hv' <;> rcases List.mem_append.1 hw with hw' | hw'
    · exact ih hv' hw'
    · have := hl.pc_lt_pcAfter hv'
      rw [List.mem_singleton.1 hw', hu.pc_eq] at heq
      omega
    · have := hl.pc_lt_pcAfter hw'
      rw [List.mem_singleton.1 hv', hu.pc_eq] at heq
      omega
    · rw [List.mem_singleton.1 hv', List.mem_singleton.1 hw']

/-- Between a visit and the next one there is at most a slot. -/
theorem nextPc_le_pc (h : IsLog x extFuncNames lddwHelpers patch base log) (hw : w ∈ log)
    (hlt : v.pc < w.pc) : nextPc v.pc (insnAt x.insts v.pc) ≤ w.pc := by
  unfold nextPc
  split
  · next hcode =>
    by_contra hgt
    refine h.not_isSlot hw ⟨by omega, ?_⟩
    rwa [show w.pc - 1 = v.pc by omega]
  · exact hlt

/-! ### Which visits share a block -/

/-- The block of a visit is the one begun last. -/
theorem block_spec (h : IsLog x extFuncNames lddwHelpers patch base log) (hv : v ∈ log) :
    ∃ b ∈ log, v.block = .inst b.pc ∧ Begins x.insts b.pc ∧ b.pc ≤ v.pc ∧
      ∀ w ∈ log, b.pc ≤ w.pc → w.pc ≤ v.pc → w.block = v.block := by
  induction h generalizing v with
  | nil => cases hv
  | @concat log u hl hu ih =>
    rcases List.mem_append.1 hv with hv | hv
    · obtain ⟨b, hb, hbv, hbeg, hle, hall⟩ := ih hv
      refine ⟨b, List.mem_append_left _ hb, hbv, hbeg, hle, fun w hw hbw hwv => ?_⟩
      rcases List.mem_append.1 hw with hw | hw
      · exact hall w hw hbw hwv
      · have := hl.pc_lt_pcAfter hv
        rw [List.mem_singleton.1 hw, hu.pc_eq] at hwv
        omega
    · rw [List.mem_singleton] at hv
      subst hv
      by_cases hbeg : Begins x.insts v.pc
      · refine ⟨v, List.mem_append_right _ (List.mem_singleton_self v),
          by rw [hu.block_eq, if_pos hbeg], hbeg, le_refl _, fun w hw hbw _ => ?_⟩
        rcases List.mem_append.1 hw with hw | hw
        · have := hl.pc_lt_pcAfter hw
          rw [hu.pc_eq] at hbw
          omega
        · rw [List.mem_singleton.1 hw]
      · -- The visit goes on in the block of the last one before.
        rcases List.eq_nil_or_concat log with rfl | ⟨log', l, rfl⟩
        · rw [hu.pc_eq, pcAfter_nil] at hbeg
          exact absurd (begins_zero fun hnil => by simpa [hnil] using hu.pc_lt) hbeg
        · rw [List.concat_eq_append] at hl hu ih hv ⊢
          have hvl : v.block = l.block := by
            rw [hu.block_eq, if_neg hbeg, blockAfter_concat]
          have hpc : v.pc = nextPc l.pc (insnAt x.insts l.pc) := by
            rw [hu.pc_eq, pcAfter_concat]
          have hl' : l ∈ log' ++ [l] := List.mem_append_right _ (List.mem_singleton_self l)
          obtain ⟨b, hb, hbl, hbbeg, hle, hall⟩ := ih hl'
          have hlt := hl.pc_lt_pcAfter hl'
          rw [← hu.pc_eq] at hlt
          refine ⟨b, List.mem_append_left _ hb, by rw [hvl, hbl], hbbeg, by omega,
            fun w hw hbw hwv => ?_⟩
          rcases List.mem_append.1 hw with hw | hw
          · refine (hall w hw hbw ?_).trans hvl.symm
            -- The last visit before is the greatest one.
            rcases List.mem_append.1 hw with hw | hw
            · have := hl.of_concat.1.pc_lt_pcAfter hw
              rw [← hl.of_concat.2.pc_eq] at this
              omega
            · rw [List.mem_singleton.1 hw]
          · rw [List.mem_singleton.1 hw]

/-- The visits of a block come after the one that begins it. -/
theorem le_of_block_eq (h : IsLog x extFuncNames lddwHelpers patch base log) (hw : w ∈ log)
    {b : ℕ} (hb : w.block = .inst b) : b ≤ w.pc := by
  obtain ⟨v, _, hv, _, hle, _⟩ := h.block_spec hw
  rw [hb] at hv
  cases hv
  exact hle

/-- A visit after one that begins a block is not in an earlier block. -/
theorem block_ne (h : IsLog x extFuncNames lddwHelpers patch base log) (hu : u ∈ log)
    (hv : v ∈ log) (hw : w ∈ log) (hbeg : Begins x.insts v.pc) (huv : u.pc < v.pc)
    (hvw : v.pc ≤ w.pc) : w.block ≠ u.block := by
  intro heq
  obtain ⟨b, _, hbu, _, hle, _⟩ := h.block_spec hu
  obtain ⟨b', hb', hbw, _, _, hall⟩ := h.block_spec hw
  rw [heq, hbu, Lbl.inst.injEq] at hbw
  -- The visit that begins a block in between would be in that earlier block.
  have e : v.block = w.block := hall v hv (by omega) hvw
  rw [h.block_of_begins hv hbeg, heq, hbu, Lbl.inst.injEq] at e
  omega

/-! ### Where the code of a visit is -/

/-- The contents of the block of a visit, up to the end of the code of the visit. -/
theorem contents_split (v : Visit) :
    contents base (pre ++ v :: post) v.block =
      contents base pre v.block ++ (v.code ++
        (post.filter fun w => decide (w.block = v.block)).flatMap (·.code)) := by
  rw [contents_append, List.filter_cons_of_pos (by simp), List.flatMap_cons]

theorem codeAt (h : IsLog x extFuncNames lddwHelpers patch base log) (hv : v ∈ log) :
    v.code <+: (contents base log v.block).drop v.start := by
  obtain ⟨pre, post, rfl⟩ := List.append_of_mem hv
  rw [contents_split, h.split.2.start_eq, List.drop_left]
  exact List.prefix_append _ _

/-- The first visit of a block starts it, when there is nothing in it before. -/
theorem start_of_begins (h : IsLog x extFuncNames lddwHelpers patch base log) (hv : v ∈ log)
    (hbase : ∀ i, base (.inst i) = []) (hbeg : Begins x.insts v.pc) : v.start = 0 := by
  obtain ⟨pre, post, rfl⟩ := List.append_of_mem hv
  obtain ⟨hpre, he⟩ := h.split
  have hnone : pre.filter (fun w => decide (w.block = v.block)) = [] := by
    refine List.filter_eq_nil_iff.2 ?_
    intro w hw
    have hlt := hpre.pc_lt_pcAfter hw
    rw [← he.pc_eq] at hlt
    have := h.block_ne (List.mem_append_left _ hw) hv hv hbeg hlt (le_refl _)
    simpa using this.symm
  rw [he.start_eq, contents, hnone, h.block_of_begins hv hbeg, hbase]
  rfl

/-- Later visits are of later instructions. -/
theorem pc_le_of_mem {pre post : List Visit} {w u : Visit}
    (h : IsLog x extFuncNames lddwHelpers patch base (pre ++ w :: post)) (hu : u ∈ w :: post) :
    w.pc ≤ u.pc := by
  rcases List.mem_cons.1 hu with rfl | hu
  · exact le_refl _
  · obtain ⟨post₁, post₂, rfl⟩ := List.append_of_mem hu
    have hsplit : pre ++ w :: (post₁ ++ u :: post₂) = (pre ++ w :: post₁) ++ u :: post₂ := by simp
    obtain ⟨hpre, he⟩ := (hsplit ▸ h).split
    have hlt := hpre.pc_lt_pcAfter (v := w) (by simp)
    rw [← he.pc_eq] at hlt
    exact hlt.le

/-- What comes after a visit: the end of the program, or the next visit, which
    begins a block or comes after the visit in the same one. -/
theorem next (h : IsLog x extFuncNames lddwHelpers patch base log) (hv : v ∈ log) :
    (nextPc v.pc (insnAt x.insts v.pc) = pcAfter x.insts log ∧
      (contents base log v.block).length = v.start + v.code.length) ∨
    ∃ w ∈ log, w.pc = nextPc v.pc (insnAt x.insts v.pc) ∧
      (Begins x.insts w.pc →
        (contents base log v.block).length = v.start + v.code.length) ∧
      (¬Begins x.insts w.pc → w.block = v.block ∧ w.start = v.start + v.code.length) := by
  obtain ⟨pre, post, rfl⟩ := List.append_of_mem hv
  have hlast (hnone : post.filter (fun w => decide (w.block = v.block)) = []) :
      (contents base (pre ++ v :: post) v.block).length = v.start + v.code.length := by
    rw [contents_split, h.split.2.start_eq, hnone]
    simp
  cases post with
  | nil => exact .inl ⟨(pcAfter_concat _ _ _).symm, hlast rfl⟩
  | cons w post =>
    have hw : w ∈ pre ++ v :: w :: post := by simp
    have hsplit : pre ++ v :: w :: post = (pre ++ [v]) ++ w :: post := by simp
    -- The next visit extends the log up to `v`.
    have hw' : Extends x extFuncNames lddwHelpers patch base (pre ++ [v]) w :=
      (hsplit ▸ h).split.2
    have hpc : w.pc = nextPc v.pc (insnAt x.insts v.pc) := by
      rw [hw'.pc_eq, pcAfter_concat]
    refine .inr ⟨w, hw, hpc, fun hbeg => hlast ?_, fun hbeg => ?_⟩
    · refine List.filter_eq_nil_iff.2 ?_
      intro u hu
      have hu' : u ∈ pre ++ v :: w :: post := by simp [List.mem_cons.1 hu]
      have hle : w.pc ≤ u.pc := (hsplit ▸ h).pc_le_of_mem hu
      have hlt : v.pc < w.pc := hpc ▸ lt_nextPc _ _
      simpa using h.block_ne hv hw hu' hbeg hlt hle
    · have hblk : w.block = v.block := by
        rw [hw'.block_eq, if_neg hbeg, blockAfter_concat]
      refine ⟨hblk, ?_⟩
      rw [hw'.start_eq, hblk, contents_split, h.split.2.start_eq]
      simp

end IsLog

/-! ### The loop -/

/-- The state of the emission loop after the visits in its log. -/
structure LoopInv (x : CompilerXDP) (extFuncNames lddwHelpers : List String) (patch : Bool)
    (base : Lbl → List (Instr Lbl Slot)) (pc : ℕ) (s : EmitState) : Prop where
  log : IsLog x extFuncNames lddwHelpers patch base s.log
  pc_eq : pc = pcAfter x.insts s.log
  block : s.currBB = blockAfter s.log
  code : s.code = contents base s.log

/-- The state `s` with one more visit. -/
def EmitState.visit (s : EmitState) (pc : ℕ) (blk : Lbl) (next : ℕ)
    (code : List (Instr Lbl Slot)) : EmitState where
  code := Function.update s.code blk (s.code blk ++ code)
  currBB := blk
  next := next
  log := s.log ++ [⟨pc, blk, (s.code blk).length, code⟩]

/-- The body of the loop, with the block of the instruction looked up. -/
theorem emitBody_eq {pc : ℕ} (s : EmitState) (hpc : pc < x.insts.length) :
    emitBody x (prepared x extFuncNames lddwHelpers) patch pc s =
      if 10 < (insnAt x.insts pc).dst_reg ∨ 10 < (insnAt x.insts pc).src_reg then
        .error (.error ("Illegal src reg/dst reg at pc " ++ toString pc))
      else
        match emitInst x (prepared x extFuncNames lddwHelpers) patch pc (insnAt x.insts pc)
          s.next with
        | .error e => .error e
        | .ok (pc', next, code) =>
          .ok (pc', s.visit pc (if Begins x.insts pc then .inst pc else s.currBB) next code) := by
  unfold emitBody
  rw [getD_blockBegin x _ _ hpc, lookup_instBlocks]
  by_cases hb : Begins x.insts pc
  all_goals
    simp only [hb, decide_true, decide_false, if_true, if_false, Bool.false_eq_true]
    simp only [bind, Except.bind]
    refine if_congr Iff.rfl rfl ?_
    rw [show (prepared x extFuncNames lddwHelpers).insn pc = insnAt x.insts pc from rfl]
    rcases emitInst x (prepared x extFuncNames lddwHelpers) patch pc (insnAt x.insts pc)
      s.next with e | ⟨pc', next, code⟩ <;> rfl

/-- A visit extends the log. -/
theorem LoopInv.visit {pc next : ℕ} {s : EmitState} {n k n' : ℕ} {code : List (Instr Lbl Slot)}
    (hs : LoopInv x extFuncNames lddwHelpers patch base pc s) (hpc : pc < x.insts.length)
    (hl : LegalAt x extFuncNames lddwHelpers patch pc)
    (hcode : CodeShape pc (insnAt x.insts pc) code)
    (he : emitInst x (prepared x extFuncNames lddwHelpers) patch pc (insnAt x.insts pc) n =
      .ok (k, n', code)) :
    LoopInv x extFuncNames lddwHelpers patch base (nextPc pc (insnAt x.insts pc))
      (s.visit pc (if Begins x.insts pc then .inst pc else s.currBB) next code) := by
  generalize hblk : (if Begins x.insts pc then Lbl.inst pc else s.currBB) = blk
  refine ⟨?_, by simp [EmitState.visit], by simp [EmitState.visit], ?_⟩
  · refine .concat hs.log ⟨hs.pc_eq, hpc, hl, ?_, ?_, hcode, n, k, n', he⟩
    · rw [← hblk, hs.block]
    · rw [hs.code]
  · funext l
    rw [EmitState.visit, contents_append, ← hs.code]
    by_cases h : l = blk
    · subst h
      simp
    · simp [h, Ne.symm h]

/-- One iteration of the loop: it succeeds if the instruction is legal. -/
theorem emitBody_ok {pc : ℕ} {s : EmitState} (hpc : pc < x.insts.length)
    (hs : LoopInv x extFuncNames lddwHelpers patch base pc s)
    (h : LegalAt x extFuncNames lddwHelpers patch pc) :
    ∃ s', emitBody x (prepared x extFuncNames lddwHelpers) patch pc s =
        .ok (nextPc pc (insnAt x.insts pc) - 1, s') ∧
      LoopInv x extFuncNames lddwHelpers patch base (nextPc pc (insnAt x.insts pc)) s' := by
  obtain ⟨n', code, he, hcode⟩ := emitInst_ok h.2.2 s.next
  have hregs : ¬(10 < (insnAt x.insts pc).dst_reg ∨ 10 < (insnAt x.insts pc).src_reg) := by
    rw [not_or, BitVec.not_lt, BitVec.not_lt]
    exact ⟨h.1, h.2.1⟩
  refine ⟨s.visit pc (if Begins x.insts pc then .inst pc else s.currBB) n' code, ?_,
    hs.visit hpc h hcode he⟩
  rw [emitBody_eq s hpc, if_neg hregs, he]

/-- One iteration of the loop only succeeds on a legal instruction. -/
theorem emitBody_legal {pc pc' : ℕ} {s s' : EmitState} (hpc : pc < x.insts.length)
    (h : emitBody x (prepared x extFuncNames lddwHelpers) patch pc s = .ok (pc', s')) :
    pc' + 1 = nextPc pc (insnAt x.insts pc) ∧ LegalAt x extFuncNames lddwHelpers patch pc := by
  rw [emitBody_eq s hpc] at h
  by_cases hregs : 10 < (insnAt x.insts pc).dst_reg ∨ 10 < (insnAt x.insts pc).src_reg
  · rw [if_pos hregs] at h
    cases h
  · rw [if_neg hregs] at h
    rw [not_or, BitVec.not_lt, BitVec.not_lt] at hregs
    by_cases hc : ∃ c, switchCase (insnAt x.insts pc).code = some c ∧
        CaseLegal x extFuncNames lddwHelpers patch pc (insnAt x.insts pc) c
    · obtain ⟨n', code, he, _⟩ := emitInst_ok hc s.next
      rw [he] at h
      cases h
      have := lt_nextPc pc (insnAt x.insts pc)
      exact ⟨by omega, hregs.1, hregs.2, hc⟩
    · obtain ⟨e, he⟩ := emitInst_fails hc s.next
      rw [he] at h
      cases h

/-- An iteration of the loop keeps its invariant. -/
theorem LoopInv.step {pc pc' : ℕ} {s s' : EmitState} (hn : x.insts.length < 65536)
    (hs : LoopInv x extFuncNames lddwHelpers patch base pc s) (hpc : pc < x.insts.length)
    (hb : emitBody x (prepared x extFuncNames lddwHelpers) patch pc s = .ok (pc', s')) :
    LoopInv x extFuncNames lddwHelpers patch base ((pc' + 1) % 2 ^ 16) s' := by
  obtain ⟨hpc', hl⟩ := emitBody_legal hpc hb
  obtain ⟨s₁, hb', hs₁⟩ := emitBody_ok hpc hs hl
  have := nextPc_le hpc hl
  rw [hb] at hb'
  cases hb'
  rw [hpc', Nat.mod_eq_of_lt (by omega)]
  exact hs₁

/-- With fewer than `65536` instructions, the loop ends with all of them visited. -/
theorem loopInv_of_run {fuel : ℕ} {s s' : EmitState} (hn : x.insts.length < 65536)
    (hs : LoopInv x extFuncNames lddwHelpers patch base 0 s)
    (h : CountedLoop.run 16 x.insts.length
      (emitBody x (prepared x extFuncNames lddwHelpers) patch) fuel 0 s = some (.ok s')) :
    LoopInv x extFuncNames lddwHelpers patch base x.insts.length s' := by
  obtain ⟨j, hj, hs'⟩ := CountedLoop.run_induction
    (P := LoopInv x extFuncNames lddwHelpers patch base)
    (fun _ _ _ _ hpc hs hb => hs.step hn hpc hb) hs h
  have := hs'.pc_eq ▸ hs'.log.pcAfter_le
  rwa [show x.insts.length = j by omega]

/-- If every instruction but the slots is legal, the loop succeeds. -/
theorem run_emitBody_ok {fuel : ℕ} {s : EmitState} (hn : x.insts.length < 65536)
    (hs : LoopInv x extFuncNames lddwHelpers patch base 0 s)
    (hlegal : ∀ t < x.insts.length, ¬IsSlot x.insts t →
      LegalAt x extFuncNames lddwHelpers patch t) (hfuel : x.insts.length < fuel) :
    ∃ s', CountedLoop.run 16 x.insts.length
      (emitBody x (prepared x extFuncNames lddwHelpers) patch) fuel 0 s = some (.ok s') := by
  refine CountedLoop.run_ok (P := LoopInv x extFuncNames lddwHelpers patch base)
    (fun pc s hpc hs => ?_) hs (by omega)
  have hl := hlegal pc hpc (hs.pc_eq ▸ hs.log.not_isSlot_pcAfter)
  obtain ⟨s', hb, hs'⟩ := emitBody_ok hpc hs hl
  have := nextPc_le hpc hl
  have := lt_nextPc pc (insnAt x.insts pc)
  refine ⟨_, s', hb, by omega, by omega, ?_⟩
  rwa [Nat.sub_add_cancel (by omega)]

end

end EbpfJit
