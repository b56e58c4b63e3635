import EbpfJit.Accept
import EbpfJit.Lib.IrRun

/-!
# Instruction boundaries

A run of the compiled code is at an instruction boundary when it is where the code
of an instruction starts (`Module.boundary`). Between two boundaries, control goes
through the code of one instruction, and then possibly through the branches that
close blocks, and the empty blocks of slots.

* `land`: the instruction that control gets to after going to a block;
* `Compiled.iter_land`: a run does get there;
* `Compiled.iter_fall`: code that falls through is followed by the next instruction;
* `Compiled.boundary_inside`: there is no boundary inside of the code of an
  instruction.
-/

namespace EbpfJit

open Ir Ir.Builder Transition

/-- The configuration is where the code of an instruction starts. -/
def Module.boundary (M : Module) (c : Config Lbl Slot) : Bool :=
  M.log.any fun v => decide (v.block = c.block) && decide (v.start = c.ip)

/-- The first instruction from `t` on that begins a block, and is not a slot. -/
def land (insns : List EbpfInst) (t : ℕ) : ℕ :=
  ((List.range insns.length).find? fun u => t ≤ u ∧ Begins insns u ∧ ¬IsSlot insns u).getD 0

section

variable {insns : List EbpfInst} {t u : ℕ}

theorem land_spec (ht : ∃ u, t ≤ u ∧ Begins insns u ∧ ¬IsSlot insns u) :
    t ≤ land insns t ∧ Begins insns (land insns t) ∧ ¬IsSlot insns (land insns t) ∧
      ∀ z, t ≤ z → z < land insns t → Begins insns z → IsSlot insns z := by
  rw [land]
  cases hfind : (List.range insns.length).find? fun u =>
      decide (t ≤ u ∧ Begins insns u ∧ ¬IsSlot insns u) with
  | none =>
    obtain ⟨u, hu⟩ := ht
    have := List.find?_eq_none.1 hfind u (List.mem_range.2 hu.2.1.1)
    exact absurd (decide_eq_true hu) this
  | some u =>
    obtain ⟨hu, _, hmin⟩ := List.find?_range_eq_some.1 hfind
    obtain ⟨hle, hub, hus⟩ := of_decide_eq_true hu
    refine ⟨hle, hub, hus, fun z htz hzu hzb => ?_⟩
    by_contra hzs
    have := hmin z hzu
    rw [decide_eq_true ⟨htz, hzb, hzs⟩] at this
    cases this

theorem land_eq (hle : t ≤ u) (hu : Begins insns u) (hs : ¬IsSlot insns u)
    (hmin : ∀ z, t ≤ z → z < u → Begins insns z → IsSlot insns z) : land insns t = u := by
  obtain ⟨h₁, h₂, h₃, h₄⟩ := land_spec ⟨u, hle, hu, hs⟩
  rcases lt_trichotomy (land insns t) u with hlt | heq | hgt
  · exact absurd (hmin _ h₁ hlt h₂) h₃
  · exact heq
  · exact absurd (h₄ u hle hgt hu) hs

theorem land_of_not_isSlot (ht : Begins insns t) (hs : ¬IsSlot insns t) : land insns t = t :=
  land_eq (le_refl t) ht hs fun z h₁ h₂ => by omega

/-- Control gets past the block of a slot. -/
theorem land_of_isSlot (hs : IsSlot insns t) (hu : nextBegin insns t = some u)
    (hex : ∃ z, u ≤ z ∧ Begins insns z ∧ ¬IsSlot insns z) : land insns t = land insns u := by
  obtain ⟨_, hlt, hnext⟩ := nextBegin_eq_some hu
  obtain ⟨h₁, h₂, h₃, h₄⟩ := land_spec hex
  refine land_eq (by omega) h₂ h₃ ?_
  intro z htz hz hzb
  by_cases huz : u ≤ z
  · exact h₄ z huz hz hzb
  · rcases Nat.eq_or_lt_of_le htz with rfl | htz
    · exact hs
    · exact absurd hzb (hnext z htz (Nat.not_le.1 huz))

end

variable {x : CompilerXDP} {extFuncNames lddwHelpers : List String} {patch : Bool}
  {base : Lbl → List (Instr Lbl Slot)} {log : List Visit} {M : Module} {v w : Visit}

/-! ## Positions -/

/-- The visits of a block are one after the other in it. -/
theorem IsLog.start_add_le (h : IsLog x extFuncNames lddwHelpers patch base log) (hv : v ∈ log)
    (hw : w ∈ log) (hblk : v.block = w.block) (hlt : v.pc < w.pc) :
    v.start + v.code.length ≤ w.start := by
  obtain ⟨pre, post, rfl⟩ := List.append_of_mem hw
  obtain ⟨hpre, he⟩ := h.split
  -- The visit `v` is before `w` in the log.
  have hmem : v ∈ pre := by
    rcases List.mem_append.1 hv with hv' | hv'
    · exact hv'
    rcases List.mem_cons.1 hv' with rfl | hv'
    · exact absurd hlt (Nat.lt_irrefl _)
    obtain ⟨post₁, post₂, rfl⟩ := List.append_of_mem hv'
    have hsplit : pre ++ w :: (post₁ ++ v :: post₂) = (pre ++ w :: post₁) ++ v :: post₂ := by simp
    obtain ⟨hpre', he'⟩ := (hsplit ▸ h).split
    have hwlt := hpre'.pc_lt_pcAfter (List.mem_append_right pre List.mem_cons_self)
    rw [← he'.pc_eq] at hwlt
    omega
  obtain ⟨pre₁, pre₂, rfl⟩ := List.append_of_mem hmem
  rw [he.start_eq, ← hblk, contents_split, hpre.split.2.start_eq]
  simp

/-- The code that a block is left with falls through if the last visit does. -/
theorem IsLog.noTerminator_of_last (h : IsLog x extFuncNames lddwHelpers patch base log)
    (hbase : ∀ i, base (.inst i) = []) (hv : v ∈ log) (hleave : ¬Leaves (insnAt x.insts v.pc))
    (hlen : (contents base log v.block).length = v.start + v.code.length) :
    NoTerminator (contents base log v.block) := by
  obtain ⟨pre, post, rfl⟩ := List.append_of_mem hv
  obtain ⟨hpre, he⟩ := h.split
  have hpost : (post.filter fun w => decide (w.block = v.block)).flatMap (·.code) = [] := by
    rw [contents_split, he.start_eq] at hlen
    refine List.length_eq_zero_iff.1 ?_
    simp only [List.length_append] at hlen
    omega
  have hlast := ((IsLog.concat hpre he).ended_or_noTerminator hbase).2 v (by simp)
  have hcontents : contents base (pre ++ v :: post) v.block =
      contents base (pre ++ [v]) v.block := by
    rw [contents_split, contents_append, hpost]
    simp
  rw [hcontents]
  exact hlast.2 hleave

namespace Compiled

variable (h : Compiled x extFuncNames lddwHelpers patch base M)
include h

/-- The code of a visit is in its block. -/
theorem codeAt (hv : v ∈ M.log) : CodeAt M.fn v.block v.start v.code := by
  obtain ⟨b, _, hb, hbeg, _⟩ := h.log.block_spec hv
  have hpre := h.log.codeAt hv
  -- Closing the block only appends to it.
  have hcode : ∃ rest, M.fn.code v.block = contents base M.log v.block ++ rest := by
    rw [hb, h.code_inst hbeg]
    cases nextBegin x.insts b.pc with
    | none => exact ⟨[], (List.append_nil _).symm⟩
    | some t =>
      simp only
      split
      · exact ⟨_, rfl⟩
      · exact ⟨[], (List.append_nil _).symm⟩
  obtain ⟨rest, hrest⟩ := hcode
  rw [CodeAt, hrest, List.drop_append]
  exact hpre.trans (List.prefix_append _ _)

omit h in
theorem boundary_iff {c : Config Lbl Slot} :
    M.boundary c = true ↔ ∃ v ∈ M.log, v.block = c.block ∧ v.start = c.ip := by
  simp [Module.boundary]

omit h in
theorem not_boundary {c : Config Lbl Slot}
    (hno : ∀ v ∈ M.log, v.block = c.block → v.start ≠ c.ip) : M.boundary c = false := by
  rw [← Bool.not_eq_true, boundary_iff]
  rintro ⟨v, hv, hblk, hip⟩
  exact hno v hv hblk hip

/-- Only the blocks of instructions that are not slots have boundaries. -/
theorem block_of_boundary (hv : v ∈ M.log) :
    ∃ b, v.block = .inst b ∧ Begins x.insts b ∧ ¬IsSlot x.insts b := by
  obtain ⟨b, hb, hbv, hbeg, _⟩ := h.log.block_spec hv
  exact ⟨b.pc, hbv, hbeg, h.log.not_isSlot hb⟩

/-- There is no boundary strictly inside of the code of an instruction. -/
theorem boundary_inside (hv : v ∈ M.log) {j : ℕ} (hj : 0 < j) (hlt : j < v.code.length)
    (e : Env Slot) (m : Machine Slot) : M.boundary ⟨v.block, v.start + j, e, m⟩ = false := by
  refine not_boundary ?_
  intro w hw hblk hip
  change w.start = v.start + j at hip
  rcases lt_trichotomy w.pc v.pc with hpc | hpc | hpc
  · have := h.log.start_add_le hw hv hblk hpc
    omega
  · obtain rfl := h.log.eq_of_pc_eq hw hv hpc
    omega
  · have := h.log.start_add_le hv hw hblk.symm hpc
    omega

/-! ## From one instruction to the next -/

section

variable {W : World Lbl} {e : Env Slot} {m : Machine Slot}

/-- Going to the block of `t`, control gets to the instruction where it lands, past
    the empty blocks of slots. -/
theorem iter_land (hslot : ∀ t, Begins x.insts t → IsSlot x.insts t →
      ∃ t', t < t' ∧ Begins x.insts t') {t : ℕ} (ht : Begins x.insts t) :
    ∃ k, iter (step M.fn W) k ⟨.inst t, 0, e, m⟩ = .cont ⟨.inst (land x.insts t), 0, e, m⟩ ∧
      ∀ j < k, ∀ d, iter (step M.fn W) j ⟨.inst t, 0, e, m⟩ = .cont d → M.boundary d = false := by
  induction hk : x.insts.length - t using Nat.strongRecOn generalizing t with
  | ind k ih =>
    by_cases hs : IsSlot x.insts t
    · -- The block is empty, and goes on to the next one.
      obtain ⟨t', hlt', ht'⟩ := hslot t ht hs
      obtain ⟨u, hu⟩ : ∃ u, nextBegin x.insts t = some u := by
        refine Option.ne_none_iff_exists'.1 ?_
        intro hnone
        have := nextBegin_eq_none hnone ht'
        omega
      obtain ⟨hub, hlt, -⟩ := nextBegin_eq_some hu
      have hcode : M.fn.code (.inst t) = [.br (.inst u)] := by
        rw [h.code_inst ht, hu, h.contents_of_isSlot hs]
        rfl
      have hstep : step M.fn W ⟨.inst t, 0, e, m⟩ = .cont ⟨.inst u, 0, e, m⟩ := by
        rw [step_eq_afterCode (i := .br (.inst u)) (by rw [hcode]; rfl)]
        rfl
      have hnot : M.boundary ⟨.inst t, 0, e, m⟩ = false := by
        refine not_boundary ?_
        intro v hv hblk _
        obtain ⟨b, hb, _, hbs⟩ := h.block_of_boundary hv
        rw [hb, Lbl.inst.injEq] at hblk
        exact hbs (hblk ▸ hs)
      have := ht.1
      obtain ⟨k', hrun, hun⟩ := ih (x.insts.length - u) (by omega) hub rfl
      rw [land_of_isSlot hs hu (exists_not_isSlot hslot hub)]
      refine ⟨k' + 1, by rw [iter_succ_of_cont hstep, hrun], fun j hj d hd => ?_⟩
      cases j with
      | zero =>
        cases hd
        exact hnot
      | succ j =>
        rw [iter_succ_of_cont hstep] at hd
        exact hun j (by omega) d hd
    · rw [land_of_not_isSlot ht hs]
      exact ⟨0, rfl, fun j hj => absurd hj (Nat.not_lt_zero j)⟩

/-- The instruction that control lands at is at the start of its block. -/
theorem visit_of_land (hslot : ∀ t, Begins x.insts t → IsSlot x.insts t →
      ∃ t', t < t' ∧ Begins x.insts t') {t : ℕ} (ht : Begins x.insts t) :
    ∃ w ∈ M.log, w.pc = land x.insts t ∧ w.block = .inst (land x.insts t) ∧ w.start = 0 := by
  obtain ⟨_, hb, hs, _⟩ := land_spec (exists_not_isSlot hslot ht)
  obtain ⟨w, hw, hpc⟩ := h.exists_visit hb.1 hs
  rw [← hpc] at hb
  exact ⟨w, hw, hpc, by rw [← hpc, h.log.block_of_begins hw hb],
    h.log.start_of_begins hw h.fixed.inst hb⟩

omit h in
/-- Code that falls through is not the last one. -/
theorem nextPc_ne_length (hlast : LastOk x.insts) {pc : ℕ} (hleave : ¬Leaves (insnAt x.insts pc)) :
    nextPc pc (insnAt x.insts pc) ≠ x.insts.length := by
  intro heq
  obtain ⟨_, hns, hl⟩ := hlast
  unfold nextPc at heq
  split at heq
  · next hcode =>
    refine hns ⟨by omega, ?_⟩
    rwa [show x.insts.length - 1 - 1 = pc by omega]
  · rw [show x.insts.length - 1 = pc by omega] at hl
    exact hleave hl

/-- The block after the one that a visit is the last one of. -/
theorem land_nextBegin (hv : v ∈ M.log) (hw : w ∈ M.log)
    (hpc : w.pc = nextPc v.pc (insnAt x.insts v.pc)) (hbeg : Begins x.insts w.pc) {b : ℕ}
    (hb : v.block = .inst b) :
    ∃ t, nextBegin x.insts b = some t ∧ land x.insts t = w.pc := by
  obtain ⟨b', _, hbv, _, hle, hall⟩ := h.log.block_spec hv
  rw [hb, Lbl.inst.injEq] at hbv
  subst hbv
  have hlt : v.pc < w.pc := hpc ▸ lt_nextPc _ _
  obtain ⟨t, ht⟩ : ∃ t, nextBegin x.insts b'.pc = some t := by
    refine Option.ne_none_iff_exists'.1 ?_
    intro hnone
    have := nextBegin_eq_none hnone hbeg
    omega
  obtain ⟨htb, hbt, hmin⟩ := nextBegin_eq_some ht
  have htw : t ≤ w.pc := by
    by_contra hgt
    exact hmin w.pc (by omega) (by omega) hbeg
  refine ⟨t, ht, land_eq htw hbeg (h.log.not_isSlot hw) fun z htz hzw hzb => ?_⟩
  -- What begins a block before the next instruction is a slot, or would be in this one.
  by_contra hzs
  obtain ⟨u, hu, rfl⟩ := h.exists_visit hzb.1 hzs
  have huv : u.pc ≤ v.pc := by
    by_contra hgt
    have := h.log.nextPc_le_pc hu (Nat.not_le.1 hgt)
    omega
  have e := hall u hu (by omega) huv
  rw [h.log.block_of_begins hu hzb, hb, Lbl.inst.injEq] at e
  omega

/-- The end of the code of a visit, if there is any, is not a boundary when the next visit
    begins a block. -/
theorem not_boundary_end (hv : v ∈ M.log) (hw : w ∈ M.log)
    (hpc : w.pc = nextPc v.pc (insnAt x.insts v.pc)) (hwb : Begins x.insts w.pc)
    (hne : v.code ≠ []) : M.boundary ⟨v.block, v.start + v.code.length, e, m⟩ = false := by
  have hpos : 0 < v.code.length := List.length_pos_iff.2 hne
  refine not_boundary ?_
  -- Another visit would have to start there: not an earlier one, not `v`, and not a later one.
  intro u hu hblk hip
  change u.start = v.start + v.code.length at hip
  rcases lt_trichotomy u.pc v.pc with huv | huv | huv
  · have := h.log.start_add_le hu hv hblk huv
    omega
  · obtain rfl := h.log.eq_of_pc_eq hu hv huv
    omega
  · have hle := h.log.nextPc_le_pc hu huv
    rw [← hpc] at hle
    exact h.log.block_ne hv hw hu hwb (hpc ▸ lt_nextPc _ _) hle hblk

/-- After code that falls through, control gets to the next instruction, without a
    boundary in between. -/
theorem iter_fall (hlast : LastOk x.insts) (hv : v ∈ M.log)
    (hleave : ¬Leaves (insnAt x.insts v.pc)) :
    ∃ w ∈ M.log, w.pc = nextPc v.pc (insnAt x.insts v.pc) ∧
      ∃ k, iter (step M.fn W) k ⟨v.block, v.start + v.code.length, e, m⟩ =
          .cont ⟨w.block, w.start, e, m⟩ ∧
        (Begins x.insts w.pc → 0 < k) ∧ (¬Begins x.insts w.pc → k = 0) ∧
        ∀ j < k, (v.code = [] → 0 < j) →
          ∀ d, iter (step M.fn W) j ⟨v.block, v.start + v.code.length, e, m⟩ = .cont d →
            M.boundary d = false := by
  rcases h.log.next hv with ⟨hend, -⟩ | ⟨w, hw, hpc, hbeg, hnbeg⟩
  · exact absurd (hend.trans h.full) (nextPc_ne_length hlast hleave)
  refine ⟨w, hw, hpc, ?_⟩
  by_cases hwb : Begins x.insts w.pc
  · have hlen := hbeg hwb
    obtain ⟨b, hb, hbb, _⟩ := h.block_of_boundary hv
    -- The block of `v` is at its end, and goes on to the next one, which control lands in.
    obtain ⟨t, ht, hland⟩ := h.land_nextBegin hv hw hpc hwb hb
    obtain ⟨htb, _, _⟩ := nextBegin_eq_some ht
    have hnt := h.log.noTerminator_of_last h.fixed.inst hv hleave hlen
    have hcode : M.fn.code v.block = contents base M.log v.block ++ [.br (.inst t)] := by
      rw [hb, h.code_inst hbb, ht, ← hb, terminator_of_noTerminator hnt]
      rfl
    have hstep : step M.fn W ⟨v.block, v.start + v.code.length, e, m⟩ =
        .cont ⟨.inst t, 0, e, m⟩ := by
      rw [step_eq_afterCode (i := .br (.inst t)) (by rw [hcode, ← hlen]; simp)]
      rfl
    obtain ⟨k, hrun, hun⟩ := h.iter_land (W := W) (e := e) (m := m) hlast.1 htb
    rw [h.log.block_of_begins hw hwb, h.log.start_of_begins hw h.fixed.inst hwb]
    refine ⟨k + 1, ?_, fun _ => k.succ_pos, fun hn => absurd hwb hn, fun j hj hj₀ d hd => ?_⟩
    · rw [iter_succ_of_cont hstep, hrun, hland]
    · cases j with
      | zero =>
        cases hd
        exact h.not_boundary_end hv hw hpc hwb fun hnil => absurd (hj₀ hnil) (Nat.lt_irrefl 0)
      | succ j =>
        rw [iter_succ_of_cont hstep] at hd
        exact hun j (by omega) d hd
  · obtain ⟨hblk, hstart⟩ := hnbeg hwb
    rw [hblk, hstart]
    exact ⟨0, rfl, fun hn => absurd hn hwb, fun _ => rfl, fun j hj => absurd hj (Nat.not_lt_zero j)⟩

end

end Compiled

end EbpfJit
