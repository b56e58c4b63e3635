import EbpfJit.Baremetal.Uart
import EbpfJit.Lib.Transition

/-!
# Formatted output

The `bpf_printk` of the bare-metal runtime: it goes through the format, character by
character, and renders the numbers in a buffer of 32 bytes. It does not expect a format
to end inside of a conversion, and passes the width of a conversion on as it is.

Reading outside of the format and writing outside of the buffer are faults. Arithmetic
on `int` wraps around.

* `Complete`: the formats whose conversions are complete, and not too wide;
* `printk_iff`: the formats that are printed without a fault.
-/

namespace EbpfJit.Baremetal

open Numeral Transition

/-- What the function is called with: the format and its size, the arguments, and the
    strings in memory they may point to. -/
structure PrintkCall where
  format : List (BitVec 8)
  fmt_size : BitVec 64
  args : ℕ → BitVec 64
  string : BitVec 64 → List (BitVec 8)

/-- The labels of the function. -/
inductive Label
  | s0 | s1 | s2

/-- The variables of the function, the number of arguments it has taken, and what it has
    written so far. -/
structure PrintkState where
  label : Label
  i : BitVec 32
  len : BitVec 32
  buffer : Buffer
  taken : ℕ
  out : List (BitVec 8)

/-- How a call ends. -/
inductive PrintkEnd
  | returned (out : List (BitVec 8))
  | fault

/-- The character at the index `i`, if it is inside of the format. -/
def charAt (format : List (BitVec 8)) (i : BitVec 32) : Option (BitVec 8) :=
  if 0 ≤ i.toInt then format[i.toInt.toNat]? else none

/-- The conversion of an argument, by its letter. -/
def convert (p : PrintkCall) (s : PrintkState) (c : BitVec 8) : Option PrintkState :=
  let arg := p.args s.taken
  if c = chr 'd' then
    (itoa (arg.setWidth 32) s.buffer).map fun buffer =>
      { s with buffer := buffer, taken := s.taken + 1, out := s.out ++ stringOf buffer }
  else if c = chr 'x' then
    (hextoa (arg.setWidth 32) s.buffer s.len).map fun buffer =>
      { s with buffer := buffer, taken := s.taken + 1, out := s.out ++ stringOf buffer }
  else if c = chr 's' then
    some { s with taken := s.taken + 1, out := s.out ++ p.string arg }
  else if c = chr 'c' then
    some { s with taken := s.taken + 1, out := s.out ++ [arg.setWidth 8] }
  else some s

/-- What is done at a label with the character at `i`. Neither the end of the format nor its
    size matters but in `s0`. -/
def printkStep (p : PrintkCall) (s : PrintkState) : Res PrintkState PrintkEnd :=
  match charAt p.format s.i with
  | none => .done .fault
  | some c =>
    match s.label with
    | .s0 =>
      if c = chr '%' then .cont { s with label := .s1, i := s.i + 1 }
      else if c = 0 then .done (.returned s.out)
      else if p.fmt_size ≤ s.i.signExtend 64 then .done (.returned s.out)
      else .cont { s with i := s.i + 1, out := s.out ++ [c] }
    | .s1 =>
      -- The other half of the test, `ascii_code - '0' >= 0`, is always true.
      let ascii_code : BitVec 32 := c.setWidth 32
      if ascii_code - 48 < 10 then
        .cont { s with len := s.len * 10 + (ascii_code - 48), i := s.i + 1 }
      else .cont { s with label := .s2 }
    | .s2 =>
      match convert p s c with
      | none => .done .fault
      | some s' => .cont { s' with label := .s0, len := 0, i := s.i + 1 }

/-- The beginning of the function. The buffer is not initialized. -/
def printkStart (buffer : Buffer) : PrintkState := ⟨.s0, 0, 0, buffer, 0, []⟩

/-- The call returns, and stays inside of the format and of its buffer. -/
def PrintsSafely (p : PrintkCall) (buffer : Buffer) : Prop :=
  Ends (printkStep p) (· ≠ .fault) (printkStart buffer)

/-! ## Formats -/

/-- The character is a decimal digit. -/
def IsDigit (c : BitVec 8) : Prop := chr '0' ≤ c ∧ c ≤ chr '9'

instance : DecidablePred IsDigit := fun _ => inferInstanceAs (Decidable (_ ∧ _))

/-- One more digit of a width. -/
def widthDigit (n : ℕ) (d : BitVec 8) : ℕ := n * 10 + (d.toNat - 48)

/-- A hexadecimal number of the width `n`, as an `int`, fits into the buffer. -/
def WidthFits (n : ℕ) : Prop := (BitVec.ofNat 32 n).toInt ≤ 31

instance : DecidablePred WidthFits := fun _ => inferInstanceAs (Decidable (_ ≤ _))

/-- Every conversion of the format has a letter, and the width of a hexadecimal one fits. -/
inductive Complete : List (BitVec 8) → Prop
  | nil : Complete []
  | char {c : BitVec 8} {fmt : List (BitVec 8)} (hc : c ≠ chr '%') (h : Complete fmt) :
      Complete (c :: fmt)
  | conversion {ds fmt : List (BitVec 8)} {c : BitVec 8} (hds : ∀ d ∈ ds, IsDigit d)
      (hc : ¬IsDigit c) (hw : c = chr 'x' → WidthFits (ds.foldl widthDigit 0))
      (h : Complete fmt) : Complete (chr '%' :: (ds ++ c :: fmt))

/-- The same of the rest of a format, inside of a conversion whose width is `n` so far. -/
def Continues (n : ℕ) (fmt : List (BitVec 8)) : Prop :=
  ∃ ds c fmt', fmt = ds ++ c :: fmt' ∧ (∀ d ∈ ds, IsDigit d) ∧ ¬IsDigit c ∧
    (c = chr 'x' → WidthFits (ds.foldl widthDigit n)) ∧ Complete fmt'

variable {n : ℕ} {c d : BitVec 8} {fmt : List (BitVec 8)}

theorem complete_cons (hc : c ≠ chr '%') : Complete (c :: fmt) ↔ Complete fmt := by
  constructor
  · intro h
    cases h with
    | char _ h => exact h
    | conversion => exact absurd rfl hc
  · exact .char hc

theorem complete_percent : Complete (chr '%' :: fmt) ↔ Continues 0 fmt := by
  constructor
  · intro h
    cases h with
    | char hc => exact absurd rfl hc
    | conversion hds hc hw h => exact ⟨_, _, _, rfl, hds, hc, hw, h⟩
  · rintro ⟨ds, c, fmt', rfl, hds, hc, hw, h⟩
    exact .conversion hds hc hw h

theorem not_continues_nil : ¬Continues n [] := by
  rintro ⟨ds, c, fmt', h, -⟩
  cases ds <;> cases h

theorem continues_digit (hd : IsDigit d) :
    Continues n (d :: fmt) ↔ Continues (widthDigit n d) fmt := by
  constructor
  · rintro ⟨ds, c, fmt', h, hds, hc, hw, hfmt⟩
    cases ds with
    | nil =>
      cases h
      exact absurd hd hc
    | cons d' ds =>
      cases h
      exact ⟨ds, c, fmt', rfl, fun d hd => hds d (List.mem_cons_of_mem _ hd), hc, hw, hfmt⟩
  · rintro ⟨ds, c, fmt', rfl, hds, hc, hw, hfmt⟩
    exact ⟨d :: ds, c, fmt', rfl, List.forall_mem_cons.2 ⟨hd, hds⟩, hc, hw, hfmt⟩

theorem continues_letter (hc : ¬IsDigit c) :
    Continues n (c :: fmt) ↔ (c = chr 'x' → WidthFits n) ∧ Complete fmt := by
  constructor
  · rintro ⟨ds, c', fmt', h, hds, -, hw, hfmt⟩
    cases ds with
    | nil =>
      cases h
      exact ⟨hw, hfmt⟩
    | cons d ds =>
      cases h
      exact absurd (hds c List.mem_cons_self) hc
  · rintro ⟨hw, hfmt⟩
    exact ⟨[], c, fmt, rfl, List.forall_mem_nil _, hc, hw, hfmt⟩

/-! ## Steps -/

variable {p : PrintkCall} {s s' : PrintkState} {pre : List (BitVec 8)} {k : ℕ}

theorem toInt_index (hk : k < 2 ^ 31) : (BitVec.ofNat 32 k).toInt = k := by
  have hmod : k % 2 ^ 32 = k := Nat.mod_eq_of_lt (by omega)
  rw [BitVec.toInt_eq_toNat_of_lt, BitVec.toNat_ofNat, hmod]
  rw [BitVec.toNat_ofNat, hmod]
  omega

/-- The index wraps around after `2 ^ 31 - 1`. -/
theorem charAt_index (hk : k ≤ 2 ^ 31) (fmt : List (BitVec 8)) :
    charAt fmt (BitVec.ofNat 32 k) = if k < 2 ^ 31 then fmt[k]? else none := by
  by_cases hlt : k < 2 ^ 31
  · rw [charAt, toInt_index hlt, if_pos (Int.natCast_nonneg k), if_pos hlt, Int.toNat_natCast]
  · obtain rfl : k = 2 ^ 31 := by omega
    rfl

theorem isDigit_iff : c.setWidth 32 - 48 < (10 : BitVec 32) ↔ IsDigit c := by
  have h0 : (chr '0').toNat = 48 := rfl
  have h9 : (chr '9').toNat = 57 := rfl
  have hc := c.isLt
  rw [IsDigit, BitVec.lt_def, BitVec.le_def, BitVec.le_def, h0, h9, BitVec.toNat_sub,
    BitVec.toNat_setWidth]
  simp
  omega

theorem widthDigit_ofNat (hd : IsDigit d) :
    BitVec.ofNat 32 n * 10 + (d.setWidth 32 - 48) = BitVec.ofNat 32 (widthDigit n d) := by
  have h0 : (48 : BitVec 8) ≤ d := hd.1
  rw [BitVec.le_def] at h0
  have hd' := d.isLt
  rw [widthDigit, BitVec.ofNat_add, BitVec.ofNat_mul]
  congr 1
  rw [← BitVec.toNat_inj]
  simp
  simp at h0
  omega

/-- A conversion only fails if its width does not fit. -/
theorem exists_convert (hs : s.buffer.length = 32) (hlen : s.len = BitVec.ofNat 32 n)
    (hw : c = chr 'x' → WidthFits n) :
    ∃ s', convert p s c = some s' ∧ s'.buffer.length = 32 := by
  rw [convert]
  by_cases hd : c = chr 'd'
  · obtain ⟨buffer, hitoa, hbuffer⟩ := exists_itoa (b := s.buffer) (by omega)
      ((p.args s.taken).setWidth 32)
    rw [if_pos hd, hitoa]
    exact ⟨_, rfl, hbuffer.trans hs⟩
  rw [if_neg hd]
  by_cases hx : c = chr 'x'
  · have hfits : s.len.toInt ≤ 31 := hlen ▸ hw hx
    obtain ⟨buffer, hhextoa, hbuffer⟩ := (exists_hextoa (b := s.buffer) (by omega)
      ((p.args s.taken).setWidth 32) s.len).1 (by omega)
    rw [if_pos hx, hhextoa]
    exact ⟨_, rfl, hbuffer.trans hs⟩
  rw [if_neg hx]
  by_cases hstr : c = chr 's'
  · rw [if_pos hstr]
    exact ⟨_, rfl, hs⟩
  rw [if_neg hstr]
  by_cases hc : c = chr 'c'
  · rw [if_pos hc]
    exact ⟨_, rfl, hs⟩
  · rw [if_neg hc]
    exact ⟨_, rfl, hs⟩

theorem convert_eq_none (hs : s.buffer.length = 32) (hlen : s.len = BitVec.ofNat 32 n)
    (hc : c = chr 'x') (hw : ¬WidthFits n) : convert p s c = none := by
  have hwide : ¬s.len.toInt ≤ 31 := hlen ▸ hw
  have hhextoa := (exists_hextoa (b := s.buffer) (by omega) ((p.args s.taken).setWidth 32)
    s.len).2 (by omega)
  rw [convert, hc, if_neg (by decide), if_pos rfl, hhextoa]
  rfl

/-! ## Runs -/

/-- The call is for the format `fmt`. -/
structure IsCallOf (p : PrintkCall) (fmt : List (BitVec 8)) : Prop where
  format : p.format = fmt ++ [0]
  nul : 0 ∉ fmt
  fmt_size : p.fmt_size.toNat = fmt.length + 1

variable {rest : List (BitVec 8)} {buffer : Buffer} {i len : BitVec 32} {taken : ℕ}
  {out : List (BitVec 8)} {l : Label}

theorem IsCallOf.charAt (h : IsCallOf p fmt) (hfmt : fmt = pre ++ rest)
    (hpre : pre.length ≤ 2 ^ 31) :
    charAt p.format (BitVec.ofNat 32 pre.length) =
      if pre.length < 2 ^ 31 then (rest ++ [0]).head? else none := by
  rw [charAt_index hpre, h.format, hfmt, List.append_assoc,
    List.getElem?_append_right (le_refl _), Nat.sub_self, List.head?_eq_getElem?]

/-- From the state `s` on, the call is safe. -/
abbrev EndsWell (p : PrintkCall) (s : PrintkState) : Prop := Ends (printkStep p) (· ≠ .fault) s

theorem not_endsWell_of_fault (h : printkStep p s = .done .fault) : ¬EndsWell p s := by
  rw [EndsWell, ends_of_done h]
  exact fun h => h rfl

theorem not_endsWell_of_charAt (h : charAt p.format s.i = none) : ¬EndsWell p s :=
  not_endsWell_of_fault (by rw [printkStep, h])

/-- At the end of the format, the call returns. -/
theorem endsWell_s0_nul (h : charAt p.format i = some 0) :
    EndsWell p ⟨.s0, i, len, buffer, taken, out⟩ := by
  have hstep : printkStep p ⟨.s0, i, len, buffer, taken, out⟩ = .done (.returned out) := by
    simp only [printkStep, h]
    rfl
  rw [EndsWell, ends_of_done hstep]
  rintro ⟨⟩

theorem endsWell_s0_percent (h : charAt p.format i = some (chr '%')) :
    EndsWell p ⟨.s0, i, len, buffer, taken, out⟩ ↔
      EndsWell p ⟨.s1, i + 1, len, buffer, taken, out⟩ := by
  refine ends_of_cont ?_
  simp only [printkStep, h]
  rfl

/-- Before the end of the format, its size does not matter. -/
theorem endsWell_s0_char (h : charAt p.format i = some c) (hc : c ≠ chr '%') (hnul : c ≠ 0)
    (hi : ¬p.fmt_size ≤ i.signExtend 64) :
    EndsWell p ⟨.s0, i, len, buffer, taken, out⟩ ↔
      EndsWell p ⟨.s0, i + 1, len, buffer, taken, out ++ [c]⟩ := by
  refine ends_of_cont ?_
  simp only [printkStep, h, if_neg hc, if_neg hnul, if_neg hi]

theorem endsWell_s1_digit (h : charAt p.format i = some d) (hd : IsDigit d) :
    EndsWell p ⟨.s1, i, BitVec.ofNat 32 n, buffer, taken, out⟩ ↔
      EndsWell p ⟨.s1, i + 1, BitVec.ofNat 32 (widthDigit n d), buffer, taken, out⟩ := by
  refine ends_of_cont ?_
  simp only [printkStep, h, if_pos (isDigit_iff.2 hd), widthDigit_ofNat hd]

theorem endsWell_s1_letter (h : charAt p.format i = some c) (hc : ¬IsDigit c) :
    EndsWell p ⟨.s1, i, len, buffer, taken, out⟩ ↔
      EndsWell p ⟨.s2, i, len, buffer, taken, out⟩ := by
  refine ends_of_cont ?_
  simp only [printkStep, h, if_neg fun hlt => hc (isDigit_iff.1 hlt)]

/-- A conversion that fits goes on after its letter. -/
theorem exists_endsWell_s2 (h : charAt p.format i = some c) (hbuffer : buffer.length = 32)
    (hw : c = chr 'x' → WidthFits n) (taken : ℕ) (out : List (BitVec 8)) :
    ∃ buffer' taken' out', buffer'.length = 32 ∧
      (EndsWell p ⟨.s2, i, BitVec.ofNat 32 n, buffer, taken, out⟩ ↔
        EndsWell p ⟨.s0, i + 1, 0, buffer', taken', out'⟩) := by
  obtain ⟨s', hs', hlen⟩ := exists_convert (p := p) (s := ⟨.s2, i, BitVec.ofNat 32 n, buffer, taken,
    out⟩) hbuffer rfl hw
  refine ⟨s'.buffer, s'.taken, s'.out, hlen, ends_of_cont ?_⟩
  simp only [printkStep, h, hs']

theorem not_endsWell_s2 (h : charAt p.format i = some c) (hbuffer : buffer.length = 32)
    (hc : c = chr 'x') (hw : ¬WidthFits n) :
    ¬EndsWell p ⟨.s2, i, BitVec.ofNat 32 n, buffer, taken, out⟩ := by
  have hnone : convert p ⟨.s2, i, BitVec.ofNat 32 n, buffer, taken, out⟩ c = none :=
    convert_eq_none hbuffer rfl hc hw
  refine not_endsWell_of_fault ?_
  simp only [printkStep, h, hnone]

/-- An index that has wrapped around is outside of the format. -/
theorem IsCallOf.not_endsWell (h : IsCallOf p fmt) (hfmt : fmt = pre ++ rest)
    (hpre : pre.length ≤ 2 ^ 31) (hlt : ¬pre.length < 2 ^ 31)
    (hs : s.i = BitVec.ofNat 32 pre.length) (P : Prop) :
    EndsWell p s ↔ fmt.length < 2 ^ 31 ∧ P := by
  have hread := h.charAt hfmt hpre
  rw [if_neg hlt, ← hs] at hread
  refine iff_of_false (not_endsWell_of_charAt hread) ?_
  rintro ⟨hlong, -⟩
  rw [hfmt, List.length_append] at hlong
  omega

/-- The index after the NUL is outside of the format. -/
theorem IsCallOf.charAt_end (h : IsCallOf p fmt) (hlt : fmt.length < 2 ^ 31) :
    EbpfJit.Baremetal.charAt p.format (BitVec.ofNat 32 fmt.length + 1) = none := by
  have hnext : BitVec.ofNat 32 fmt.length + 1 = BitVec.ofNat 32 (fmt.length + 1) := by
    rw [BitVec.ofNat_add]
    rfl
  have hout : (fmt ++ [0])[fmt.length + 1]? = none := by simp
  rw [hnext, charAt_index (by omega), h.format, hout]
  split <;> rfl

/-- Before the end of the format, the index is below its size. -/
theorem IsCallOf.not_size_le (h : IsCallOf p fmt) (hfmt : fmt = pre ++ rest)
    (hlt : pre.length < 2 ^ 31) :
    ¬p.fmt_size ≤ (BitVec.ofNat 32 pre.length).signExtend 64 := by
  have hmsb : (BitVec.ofNat 32 pre.length).msb = false := by
    rw [BitVec.msb_eq_toInt, toInt_index hlt]
    exact decide_eq_false (by omega)
  have hlen := congrArg List.length hfmt
  rw [List.length_append] at hlen
  rw [BitVec.signExtend_eq_setWidth_of_msb_false hmsb, BitVec.le_def, h.fmt_size,
    BitVec.toNat_setWidth, BitVec.toNat_ofNat]
  omega

/-- How the call ends from the point of the format before `rest` on, in `s0` and, if the
    width is `n` so far, in `s1`. -/
structure EndsFrom (p : PrintkCall) (fmt pre rest : List (BitVec 8)) : Prop where
  s0 : ∀ buffer taken out, buffer.length = 32 →
    (EndsWell p ⟨.s0, BitVec.ofNat 32 pre.length, 0, buffer, taken, out⟩ ↔
      fmt.length < 2 ^ 31 ∧ Complete rest)
  s1 : ∀ n buffer taken out, buffer.length = 32 →
    (EndsWell p ⟨.s1, BitVec.ofNat 32 pre.length, BitVec.ofNat 32 n, buffer, taken, out⟩ ↔
      fmt.length < 2 ^ 31 ∧ Continues n rest)

theorem IsCallOf.endsFrom_wrapped (h : IsCallOf p fmt) (hfmt : fmt = pre ++ rest)
    (hpre : pre.length ≤ 2 ^ 31) (hlt : ¬pre.length < 2 ^ 31) : EndsFrom p fmt pre rest :=
  ⟨fun _ _ _ _ => h.not_endsWell hfmt hpre hlt rfl _,
    fun _ _ _ _ _ => h.not_endsWell hfmt hpre hlt rfl _⟩

/-- At the end of the format, `s0` returns. In `s1`, the NUL is taken for the letter of the
    conversion, and left behind. -/
theorem IsCallOf.endsFrom_nil (h : IsCallOf p fmt) (hlt : fmt.length < 2 ^ 31) :
    EndsFrom p fmt fmt [] := by
  have hread := h.charAt (List.append_nil fmt).symm hlt.le
  rw [if_pos hlt, List.nil_append, List.head?_cons] at hread
  constructor
  · intro buffer taken out _
    exact iff_of_true (endsWell_s0_nul hread) ⟨hlt, .nil⟩
  · intro n buffer taken out hbuffer
    have hfits : (0 : BitVec 8) = chr 'x' → WidthFits n := fun hx => absurd hx (by decide)
    obtain ⟨buffer', taken', out', -, hs2⟩ := exists_endsWell_s2 hread hbuffer hfits taken out
    rw [endsWell_s1_letter hread (by decide), hs2]
    exact iff_of_false (not_endsWell_of_charAt (h.charAt_end hlt))
      fun hrest => not_continues_nil hrest.2

/-- The character `c` is a step towards the rest after it. -/
theorem IsCallOf.endsFrom_cons (h : IsCallOf p fmt) (hfmt : fmt = pre ++ c :: rest)
    (hlt : pre.length < 2 ^ 31) (hrest : EndsFrom p fmt (pre ++ [c]) rest) :
    EndsFrom p fmt pre (c :: rest) := by
  have hread := h.charAt hfmt hlt.le
  rw [if_pos hlt, List.cons_append, List.head?_cons] at hread
  obtain ⟨hs0, hs1⟩ := hrest
  rw [List.length_append, List.length_singleton, BitVec.ofNat_add] at hs0 hs1
  constructor
  · intro buffer taken out hbuffer
    by_cases hc : c = chr '%'
    · subst hc
      rw [endsWell_s0_percent hread, complete_percent]
      exact hs1 0 buffer taken out hbuffer
    · have hnul : c ≠ 0 := by
        rintro rfl
        exact h.nul (hfmt ▸ List.mem_append_right pre List.mem_cons_self)
      rw [endsWell_s0_char hread hc hnul (h.not_size_le hfmt hlt), complete_cons hc]
      exact hs0 buffer taken (out ++ [c]) hbuffer
  · intro n buffer taken out hbuffer
    by_cases hd : IsDigit c
    · rw [endsWell_s1_digit hread hd, continues_digit hd]
      exact hs1 _ buffer taken out hbuffer
    rw [endsWell_s1_letter hread hd, continues_letter hd]
    by_cases hw : c = chr 'x' → WidthFits n
    · obtain ⟨buffer', taken', out', hbuffer', hs2⟩ :=
        exists_endsWell_s2 hread hbuffer hw taken out
      rw [hs2, and_iff_right hw]
      exact hs0 buffer' taken' out' hbuffer'
    · obtain ⟨hx, hwide⟩ := Classical.not_imp.1 hw
      exact iff_of_false (not_endsWell_s2 hread hbuffer hx hwide) fun hrest => hw hrest.2.1

/-- From any point of the format on, the call ends well exactly if the rest of the format is
    complete. The induction is on the rest. -/
theorem IsCallOf.endsFrom (h : IsCallOf p fmt) (hfmt : fmt = pre ++ rest)
    (hpre : pre.length ≤ 2 ^ 31) : EndsFrom p fmt pre rest := by
  induction rest generalizing pre with
  | nil =>
    by_cases hlt : pre.length < 2 ^ 31
    · obtain rfl : fmt = pre := by rw [hfmt, List.append_nil]
      exact h.endsFrom_nil hlt
    · exact h.endsFrom_wrapped hfmt hpre hlt
  | cons c rest ih =>
    by_cases hlt : pre.length < 2 ^ 31
    · have hfmt' : fmt = pre ++ [c] ++ rest := by
        rw [hfmt, List.append_assoc]
        rfl
      refine h.endsFrom_cons hfmt hlt (ih hfmt' ?_)
      rw [List.length_append]
      exact hlt
    · exact h.endsFrom_wrapped hfmt hpre hlt

/-- The call is safe exactly for the formats that are not too long and complete. -/
theorem IsCallOf.printsSafely_iff (h : IsCallOf p fmt) (hbuffer : buffer.length = 32) :
    PrintsSafely p buffer ↔ fmt.length < 2 ^ 31 ∧ Complete fmt :=
  (h.endsFrom (List.nil_append fmt).symm (Nat.zero_le _)).s0 buffer 0 [] hbuffer

/-- A call with the format `fmt`, and no arguments but zeros. -/
def callOf (fmt : List Char) : PrintkCall where
  format := fmt.map chr ++ [0]
  fmt_size := BitVec.ofNat 64 (fmt.length + 1)
  args _ := 0
  string _ := []

/-- The call prints safely exactly if its format is complete, and its length an `int`. -/
theorem printk_iff (h : IsCallOf p fmt) (hbuffer : buffer.length = 32) :
    PrintsSafely p buffer ↔ fmt.length < 2 ^ 31 ∧ Complete fmt :=
  h.printsSafely_iff hbuffer

theorem printk_width : PrintsSafely (callOf ['%', '8', 'x']) (List.replicate 32 0) := by
  have hcall : IsCallOf (callOf ['%', '8', 'x']) (['%', '8', 'x'].map chr) := ⟨rfl, by decide, rfl⟩
  refine (printk_iff hcall (by simp)).2 ⟨by decide, complete_percent.2 ?_⟩
  exact (continues_digit (by decide)).2 ((continues_letter (by decide)).2 ⟨by decide, .nil⟩)

/-- A format that ends in a percent sign, and one with a wide number. -/
theorem not_printk_percent :
    ¬PrintsSafely (callOf ['%']) (List.replicate 32 0) ∧
      ¬PrintsSafely (callOf ['%', '3', '2', 'x']) (List.replicate 32 0) := by
  have hpercent : IsCallOf (callOf ['%']) (['%'].map chr) := ⟨rfl, by decide, rfl⟩
  have hwide : IsCallOf (callOf ['%', '3', '2', 'x']) (['%', '3', '2', 'x'].map chr) :=
    ⟨rfl, by decide, rfl⟩
  rw [hpercent.printsSafely_iff (by simp), hwide.printsSafely_iff (by simp)]
  constructor
  · rintro ⟨-, hc⟩
    exact not_continues_nil (complete_percent.1 hc)
  · rintro ⟨-, hc⟩
    have hx := complete_percent.1 hc
    rw [List.map_cons, continues_digit (by decide), List.map_cons, continues_digit (by decide),
      List.map_cons, continues_letter (by decide)] at hx
    exact absurd (hx.1 rfl) (by decide)

end EbpfJit.Baremetal
