import EbpfJit.Baremetal.Printk

/-!
# What is printed

The `printf` of the bare-metal runtime is a copy of its `bpf_printk` that knows no size of the
format. Up to the end of a format the size does not matter, so the two go through it in
lock-step.

A complete format is a sequence of characters and conversions, and says what is to be printed
for its arguments. Both functions print that. What `printf` returns is no length: it does not
count the characters of the format, and counts a decimal number as one character.

* `Item`: the parts of a format, and `render`, what is to be printed for them;
* `IsCallOf.lockstep`: the steps of the two functions;
* `printk_renders`, `printf_renders`: what they print.
-/

namespace EbpfJit.Baremetal

open Numeral Transition

/-! ## `printf` -/

/-- What the function is called with. A format that is absent is a null pointer. -/
structure PrintfCall where
  fmt : Option (List (BitVec 8))
  args : ℕ → BitVec 64
  string : BitVec 64 → List (BitVec 8)

/-- The variables of the function, and what it has done so far. -/
structure PrintfState extends PrintkState where
  written : BitVec 32

/-- How a call ends. -/
inductive PrintfEnd
  | returned (value : BitVec 64) (out : List (BitVec 8))
  | fault

/-- The size of a string, as `uart_puts` returns it. -/
def putsSize (str : List (BitVec 8)) : BitVec 32 := BitVec.ofNat 32 str.length

/-- What is printed in place of a null pointer. -/
def nullMessage : List (BitVec 8) :=
  "called _bpf_helper_ext_0006 with empty pointer as fmt\n".toList.map chr

/-- The conversion of an argument, by its letter. -/
def printfConvert (p : PrintfCall) (s : PrintfState) (c : BitVec 8) : Option PrintfState :=
  let arg := p.args s.taken
  if c = chr 'd' then
    (itoa (arg.setWidth 32) s.buffer).map fun buffer =>
      { s with buffer := buffer, taken := s.taken + 1, out := s.out ++ stringOf buffer,
               written := s.written + 1 }
  else if c = chr 'x' then
    (hextoa (arg.setWidth 32) s.buffer s.len).map fun buffer =>
      { s with buffer := buffer, taken := s.taken + 1, out := s.out ++ stringOf buffer,
               written := s.written + putsSize (stringOf buffer) }
  else if c = chr 's' then
    some { s with taken := s.taken + 1, out := s.out ++ p.string arg,
                  written := s.written + putsSize (p.string arg) }
  else if c = chr 'c' then
    some { s with taken := s.taken + 1, out := s.out ++ [arg.setWidth 8],
                  written := s.written + 1 }
  else some s

/-- What is done at a label with the character at `i`. -/
def printfStep (p : PrintfCall) (s : PrintfState) : Res PrintfState PrintfEnd :=
  match p.fmt with
  | none => .done (.returned 0 (s.out ++ nullMessage))
  | some format =>
    match charAt format s.i with
    | none => .done .fault
    | some c =>
      match s.label with
      | .s0 =>
        if c = chr '%' then .cont { s with label := .s1, i := s.i + 1 }
        else if c = 0 then .done (.returned (s.written.signExtend 64) s.out)
        else .cont { s with i := s.i + 1, out := s.out ++ [c] }
      | .s1 =>
        let ascii_code : BitVec 32 := c.setWidth 32
        if ascii_code - 48 < 10 then
          .cont { s with len := s.len * 10 + (ascii_code - 48), i := s.i + 1 }
        else .cont { s with label := .s2 }
      | .s2 =>
        match printfConvert p s c with
        | none => .done .fault
        | some s' => .cont { s' with label := .s0, len := 0, i := s.i + 1 }

/-- The beginning of the function. The buffer is not initialized. -/
def printfStart (buffer : Buffer) : PrintfState := ⟨printkStart buffer, 0⟩

/-! ## The two functions -/

/-- The same call, of `printf`. -/
def PrintkCall.printf (p : PrintkCall) : PrintfCall := ⟨some p.format, p.args, p.string⟩

/-- The calls end in the same way, up to the value that is returned. -/
inductive SameOut : PrintkEnd → PrintfEnd → Prop
  | returned {value : BitVec 64} {out : List (BitVec 8)} :
      SameOut (.returned out) (.returned value out)
  | fault : SameOut .fault .fault

section

variable {p : PrintkCall} {fmt : List (BitVec 8)} {i : BitVec 32} {c : BitVec 8}
  {s : PrintkState} {t : PrintfState}

/-- A conversion only differs in what it counts. -/
theorem convert_printf (p : PrintkCall) (t : PrintfState) (c : BitVec 8) :
    (printfConvert p.printf t c).map PrintfState.toPrintkState = convert p t.toPrintkState c := by
  rw [printfConvert, convert]
  simp only [PrintkCall.printf]
  split
  · rw [Option.map_map]
    rfl
  split
  · rw [Option.map_map]
    rfl
  split
  · rfl
  split <;> rfl

/-- Before the NUL, the index is below the size of the format. -/
theorem IsCallOf.not_size_le_of_charAt (h : IsCallOf p fmt)
    (hread : EbpfJit.Baremetal.charAt p.format i = some c) (hc : c ≠ 0) :
    ¬p.fmt_size ≤ i.signExtend 64 := by
  rw [EbpfJit.Baremetal.charAt, h.format] at hread
  split at hread
  · next hpos =>
    obtain ⟨hlt, hget⟩ := List.getElem?_eq_some_iff.1 hread
    have hbound := BitVec.toInt_lt (x := i)
    -- The last character is the NUL.
    have hne : i.toInt.toNat ≠ fmt.length := by
      intro heq
      simp [heq] at hget
      exact hc hget.symm
    rw [List.length_append, List.length_singleton] at hlt
    have hi : i = BitVec.ofNat 32 (fmt.take i.toInt.toNat).length := by
      rw [List.length_take, Nat.min_eq_left (by omega), ← BitVec.toInt_inj,
        toInt_index (by omega)]
      omega
    rw [hi]
    refine h.not_size_le (List.take_append_drop i.toInt.toNat fmt).symm ?_
    rw [List.length_take]
    omega
  · cases hread

/-- A step of the one function is a step of the other. -/
theorem IsCallOf.step_rel (h : IsCallOf p fmt) (hst : t.toPrintkState = s) :
    Res.Rel (fun s t => t.toPrintkState = s) SameOut (printkStep p s) (printfStep p.printf t) := by
  subst hst
  cases hread : EbpfJit.Baremetal.charAt p.format t.i with
  | none =>
    simp only [printkStep, printfStep, PrintkCall.printf, hread]
    exact .done .fault
  | some c =>
    simp only [printkStep, printfStep, PrintkCall.printf, hread]
    cases t.label with
    | s0 =>
      by_cases hp : c = chr '%'
      · simp only [if_pos hp]
        exact .cont rfl
      by_cases hc : c = 0
      · simp only [if_neg hp, if_pos hc]
        exact .done .returned
      · simp only [if_neg hp, if_neg hc, if_neg (h.not_size_le_of_charAt hread hc)]
        exact .cont rfl
    | s1 =>
      by_cases hd : c.setWidth 32 - 48 < (10 : BitVec 32)
      · simp only [if_pos hd]
        exact .cont rfl
      · simp only [if_neg hd]
        exact .cont rfl
    | s2 =>
      have hconv := convert_printf p t c
      cases ht : printfConvert p.printf t c with
      | none =>
        rw [ht, Option.map_none] at hconv
        simp only [PrintkCall.printf] at ht
        simp only [← hconv, ht]
        exact .done .fault
      | some t' =>
        rw [ht, Option.map_some] at hconv
        simp only [PrintkCall.printf] at ht
        simp only [← hconv, ht]
        exact .cont rfl

/-- The two functions go through a format in lock-step. -/
theorem IsCallOf.lockstep (h : IsCallOf p fmt) (buffer : Buffer) (n : ℕ) :
    Res.Rel (fun s t => t.toPrintkState = s) SameOut
      (iter (printkStep p) n (printkStart buffer))
      (iter (printfStep p.printf) n (printfStart buffer)) := by
  have hstep (s : PrintkState) (t : PrintfState) (_ : True) (hst : t.toPrintkState = s) :
      Res.Rel (fun s t => t.toPrintkState = s) SameOut (printkStep p s) (printfStep p.printf t) :=
    h.step_rel hst
  exact iter_rel (c := printfStart buffer) hstep rfl (fun _ _ _ => trivial) n

end

/-! ## Formats -/

/-- A part of a format: a character, or a conversion with the digits of its width. -/
inductive Item
  | char (c : BitVec 8) (hc : c ≠ chr '%')
  | conversion (ds : List (BitVec 8)) (c : BitVec 8) (hds : ∀ d ∈ ds, IsDigit d)
      (hc : ¬IsDigit c) (hw : c = chr 'x' → WidthFits (ds.foldl widthDigit 0))

/-- How a part is written. -/
def Item.text : Item → List (BitVec 8)
  | .char c _ => [c]
  | .conversion ds c _ _ _ => chr '%' :: (ds ++ [c])

/-- The decimal numeral that is printed; there is none for the least number. -/
def decimalText (n : BitVec 32) : List (BitVec 8) :=
  if n = BitVec.intMin 32 then [chr '-', chr '('] else decimal n.toInt

/-- What is printed for an argument of a conversion, of the width `n`. -/
def convertText (p : PrintfCall) (arg : BitVec 64) (n : ℕ) (c : BitVec 8) : List (BitVec 8) :=
  if c = chr 'd' then decimalText (arg.setWidth 32)
  else if c = chr 'x' then (hexText (arg.setWidth 32) (BitVec.ofNat 32 n)).reverse
  else if c = chr 's' then p.string arg
  else if c = chr 'c' then [arg.setWidth 8]
  else []

/-- How many characters of it are counted. -/
def convertCount (p : PrintfCall) (arg : BitVec 64) (n : ℕ) (c : BitVec 8) : ℕ :=
  if c = chr 'd' then 1 else (convertText p arg n c).length

/-- The letter is one of the conversions that take an argument. -/
def TakesArg (c : BitVec 8) : Prop := c = chr 'd' ∨ c = chr 'x' ∨ c = chr 's' ∨ c = chr 'c'

instance : DecidablePred TakesArg := fun _ => inferInstanceAs (Decidable (_ ∨ _ ∨ _ ∨ _))

/-- What is to be printed, the next argument being the `k`-th. Conversions with another
    letter print nothing. -/
def render (p : PrintfCall) : ℕ → List Item → List (BitVec 8)
  | _, [] => []
  | k, .char c _ :: items => c :: render p k items
  | k, .conversion ds c _ _ _ :: items =>
    convertText p (p.args k) (ds.foldl widthDigit 0) c ++
      render p (if TakesArg c then k + 1 else k) items

/-- What `printf` counts of it. -/
def count (p : PrintfCall) : ℕ → List Item → ℕ
  | _, [] => 0
  | k, .char _ _ :: items => count p k items
  | k, .conversion ds c _ _ _ :: items =>
    convertCount p (p.args k) (ds.foldl widthDigit 0) c +
      count p (if TakesArg c then k + 1 else k) items

/-- The format with the given parts. -/
def formatText (items : List Item) : List (BitVec 8) := items.flatMap Item.text

/-! ## Conversions -/

variable {p : PrintfCall} {s : PrintfState} {fmt pre rest out : List (BitVec 8)}
  {buffer b : Buffer} {n : BitVec 32} {c d : BitVec 8} {k v w : ℕ}

/-- What `itoa` leaves in the buffer. -/
theorem itoa_text (h : 12 ≤ b.length) (n : BitVec 32) :
    ∃ b', itoa n b = some b' ∧ stringOf b' = decimalText n ∧ b'.length = b.length := by
  obtain ⟨b', hb', hlen⟩ := exists_itoa h n
  refine ⟨b', hb', ?_, hlen⟩
  by_cases hn : n = BitVec.intMin 32
  · subst hn
    rw [itoa_intMin h, Option.some.injEq] at hb'
    rw [← hb', stringOf_fill (by decide)]
    rfl
  · rw [itoa_fill h hn, Option.some.injEq] at hb'
    rw [← hb', stringOf_fill (zero_notMem_decimal n.toInt), decimalText, if_neg hn]

/-- What `hextoa` leaves in the buffer. -/
theorem hextoa_text (h : 9 ≤ b.length) {w : BitVec 32} (hw : w.toInt < b.length) (n : BitVec 32) :
    ∃ b', hextoa n b w = some b' ∧ stringOf b' = (hexText n w).reverse ∧
      b'.length = b.length := by
  obtain ⟨b', hb', hlen⟩ := (exists_hextoa h n w).1 hw
  refine ⟨b', hb', ?_, hlen⟩
  have hdigits : (digitsOf 16 n.toNat).length ≤ 8 :=
    length_digitsOf_le (by decide) (by decide) n.isLt
  have hmax := length_hexText n w
  rw [hextoa_eq w (by omega), if_pos (by omega), Option.some.injEq] at hb'
  have hnul : 0 ∉ (hexText n w).reverse := by
    rw [List.mem_reverse, hexText, List.mem_append, List.mem_replicate]
    rintro (h | ⟨-, h⟩)
    · exact zero_notMem_glyphs (by decide) (by decide) h
    · exact absurd h (by decide)
  rw [← hb', stringOf_fill hnul]

/-- A conversion takes an argument, if its letter is one that does, and prints it. -/
theorem printfConvert_text (hs : s.buffer.length = 32) (hlen : s.len = BitVec.ofNat 32 w)
    (hw : c = chr 'x' → WidthFits w) :
    ∃ b', b'.length = 32 ∧ printfConvert p s c = some { s with
      buffer := b'
      taken := if TakesArg c then s.taken + 1 else s.taken
      out := s.out ++ convertText p (p.args s.taken) w c
      written := s.written + BitVec.ofNat 32 (convertCount p (p.args s.taken) w c) } := by
  rw [printfConvert, convertCount, convertText]
  by_cases hd : c = chr 'd'
  · obtain ⟨b', hb', htext, hlen'⟩ := itoa_text (b := s.buffer) (by omega)
      ((p.args s.taken).setWidth 32)
    refine ⟨b', hlen'.trans hs, ?_⟩
    rw [if_pos hd, if_pos hd, if_pos hd, hb', if_pos (by rw [hd]; decide), ← htext]
    rfl
  rw [if_neg hd, if_neg hd, if_neg hd]
  by_cases hx : c = chr 'x'
  · have hfits : s.len.toInt ≤ 31 := hlen ▸ hw hx
    obtain ⟨b', hb', htext, hlen'⟩ := hextoa_text (b := s.buffer) (w := s.len) (by omega) (by omega)
      ((p.args s.taken).setWidth 32)
    refine ⟨b', hlen'.trans hs, ?_⟩
    rw [if_pos hx, if_pos hx, hb', if_pos (by rw [hx]; decide), ← hlen, ← htext]
    rfl
  rw [if_neg hx, if_neg hx]
  refine ⟨s.buffer, hs, ?_⟩
  by_cases hstr : c = chr 's'
  · rw [if_pos hstr, if_pos hstr, if_pos (by rw [hstr]; decide), putsSize]
  rw [if_neg hstr, if_neg hstr]
  by_cases hc : c = chr 'c'
  · rw [if_pos hc, if_pos hc, if_pos (by rw [hc]; decide)]
    rfl
  · have hno : ¬TakesArg c := by simp [TakesArg, hd, hx, hstr, hc]
    have hzero : s.written + BitVec.ofNat 32 ([] : List (BitVec 8)).length = s.written :=
      BitVec.add_zero s.written
    rw [if_neg hc, if_neg hc, if_neg hno, List.append_nil, hzero]

/-! ## What is printed -/

/-- A call for the format `fmt`, which is not too long. -/
structure Formats (p : PrintfCall) (fmt : List (BitVec 8)) : Prop where
  fmt_eq : p.fmt = some (fmt ++ [0])
  nul : 0 ∉ fmt
  short : fmt.length < 2 ^ 31

/-- From the state `s` on, the call ends as `e`. -/
abbrev EndsAs (p : PrintfCall) (e : PrintfEnd) (s : PrintfState) : Prop :=
  Ends (printfStep p) (· = e) s

theorem ofNat_length_concat (pre : List (BitVec 8)) (c : BitVec 8) :
    BitVec.ofNat 32 (pre ++ [c]).length = BitVec.ofNat 32 pre.length + 1 := by
  rw [List.length_append, List.length_singleton, BitVec.ofNat_add]
  rfl

namespace Formats

variable (h : Formats p fmt) {ds : List (BitVec 8)} {e : PrintfEnd} {written : BitVec 32}
include h

/-- The character after `pre`. -/
theorem charAt (hfmt : fmt = pre ++ rest) :
    EbpfJit.Baremetal.charAt (fmt ++ [0]) (BitVec.ofNat 32 pre.length) = (rest ++ [0]).head? := by
  have hlen := congrArg List.length hfmt
  rw [List.length_append] at hlen
  have hshort := h.short
  rw [charAt_index (by omega), if_pos (by omega), hfmt, List.append_assoc,
    List.getElem?_append_right (le_refl _), Nat.sub_self, List.head?_eq_getElem?]

/-- The digits of a width, one after the other. -/
theorem digits (hds : ∀ d ∈ ds, IsDigit d) (hfmt : fmt = pre ++ (ds ++ rest)) (w : ℕ) :
    EndsAs p e ⟨⟨.s1, BitVec.ofNat 32 pre.length, BitVec.ofNat 32 w, buffer, k, out⟩, written⟩ ↔
      EndsAs p e ⟨⟨.s1, BitVec.ofNat 32 (pre ++ ds).length,
        BitVec.ofNat 32 (ds.foldl widthDigit w), buffer, k, out⟩, written⟩ := by
  induction ds generalizing pre w with
  | nil => rw [List.append_nil, List.foldl_nil]
  | cons d ds ih =>
    have hd := hds d List.mem_cons_self
    have hread := h.charAt hfmt
    have hstep : printfStep p
          ⟨⟨.s1, BitVec.ofNat 32 pre.length, BitVec.ofNat 32 w, buffer, k, out⟩, written⟩ =
        .cont ⟨⟨.s1, BitVec.ofNat 32 (pre ++ [d]).length, BitVec.ofNat 32 (widthDigit w d), buffer,
          k, out⟩, written⟩ := by
      simp only [printfStep, h.fmt_eq, hread, List.cons_append, List.head?_cons,
        if_pos (isDigit_iff.2 hd), widthDigit_ofNat hd, ofNat_length_concat]
    have hfmt' : fmt = (pre ++ [d]) ++ (ds ++ rest) := by
      rw [hfmt]
      simp
    have hrest := ih (fun d' hd' => hds d' (List.mem_cons_of_mem _ hd')) hfmt' (widthDigit w d)
    rw [List.append_assoc] at hrest
    rw [EndsAs, ends_of_cont hstep]
    exact hrest

/-- A conversion, from its percent sign on. -/
theorem conversion (hb : buffer.length = 32) (hds : ∀ d ∈ ds, IsDigit d) (hc : ¬IsDigit c)
    (hw : c = chr 'x' → WidthFits (ds.foldl widthDigit 0))
    (hfmt : fmt = pre ++ (chr '%' :: (ds ++ [c]) ++ rest)) :
    ∃ b', b'.length = 32 ∧
      (EndsAs p e ⟨⟨.s0, BitVec.ofNat 32 pre.length, 0, buffer, k, out⟩, written⟩ ↔
        EndsAs p e ⟨⟨.s0, BitVec.ofNat 32 (pre ++ (chr '%' :: (ds ++ [c]))).length, 0, b',
          if TakesArg c then k + 1 else k,
          out ++ convertText p (p.args k) (ds.foldl widthDigit 0) c⟩,
          written + BitVec.ofNat 32
            (convertCount p (p.args k) (ds.foldl widthDigit 0) c)⟩) := by
  have hs0 : printfStep p ⟨⟨.s0, BitVec.ofNat 32 pre.length, 0, buffer, k, out⟩, written⟩ =
      .cont ⟨⟨.s1, BitVec.ofNat 32 (pre ++ [chr '%']).length, BitVec.ofNat 32 0, buffer, k, out⟩,
        written⟩ := by
    have hread := h.charAt hfmt
    simp only [printfStep, h.fmt_eq, hread, List.cons_append, List.head?_cons, ofNat_length_concat]
    rfl
  have hfmt₁ : fmt = (pre ++ [chr '%']) ++ (ds ++ (c :: rest)) := by
    rw [hfmt]
    simp
  have hfmt₂ : fmt = (pre ++ [chr '%'] ++ ds) ++ (c :: rest) := by
    rw [hfmt]
    simp
  have hread := h.charAt hfmt₂
  obtain ⟨b', hb', hconv⟩ := printfConvert_text (p := p) (s := ⟨⟨.s2,
    BitVec.ofNat 32 (pre ++ [chr '%'] ++ ds).length, BitVec.ofNat 32 (ds.foldl widthDigit 0),
    buffer, k, out⟩, written⟩) hb rfl hw
  refine ⟨b', hb', ?_⟩
  have hs1 : printfStep p ⟨⟨.s1, BitVec.ofNat 32 (pre ++ [chr '%'] ++ ds).length,
        BitVec.ofNat 32 (ds.foldl widthDigit 0), buffer, k, out⟩, written⟩ =
      .cont ⟨⟨.s2, BitVec.ofNat 32 (pre ++ [chr '%'] ++ ds).length,
        BitVec.ofNat 32 (ds.foldl widthDigit 0), buffer, k, out⟩, written⟩ := by
    simp only [printfStep, h.fmt_eq, hread, List.cons_append, List.head?_cons,
      if_neg fun hlt => hc (isDigit_iff.1 hlt)]
  have hs2 : printfStep p ⟨⟨.s2, BitVec.ofNat 32 (pre ++ [chr '%'] ++ ds).length,
        BitVec.ofNat 32 (ds.foldl widthDigit 0), buffer, k, out⟩, written⟩ =
      .cont ⟨⟨.s0, BitVec.ofNat 32 (pre ++ (chr '%' :: (ds ++ [c]))).length, 0, b',
          if TakesArg c then k + 1 else k,
          out ++ convertText p (p.args k) (ds.foldl widthDigit 0) c⟩,
        written + BitVec.ofNat 32 (convertCount p (p.args k) (ds.foldl widthDigit 0) c)⟩ := by
    have hpre : pre ++ (chr '%' :: (ds ++ [c])) = (pre ++ [chr '%'] ++ ds) ++ [c] := by simp
    simp only [printfStep, h.fmt_eq, hread, List.cons_append, List.head?_cons, hconv, hpre,
      ofNat_length_concat]
  rw [EndsAs, ends_of_cont hs0, ← EndsAs, h.digits hds hfmt₁, EndsAs, ends_of_cont hs1,
    ends_of_cont hs2]

/-- From a point of the format on, what is to be printed for the rest is printed. -/
theorem prints_rest {items : List Item} (hb : buffer.length = 32)
    (hfmt : fmt = pre ++ formatText items) :
    EndsAs p
      (.returned ((BitVec.ofNat 32 (v + count p k items)).signExtend 64) (out ++ render p k items))
      ⟨⟨.s0, BitVec.ofNat 32 pre.length, 0, buffer, k, out⟩, BitVec.ofNat 32 v⟩ := by
  induction items generalizing pre buffer k out v with
  | nil =>
    have hread := h.charAt hfmt
    have hstep : printfStep p
          ⟨⟨.s0, BitVec.ofNat 32 pre.length, 0, buffer, k, out⟩, BitVec.ofNat 32 v⟩ =
        .done (.returned ((BitVec.ofNat 32 v).signExtend 64) out) := by
      simp only [printfStep, h.fmt_eq, hread]
      rfl
    rw [EndsAs, ends_of_done hstep, render, count, List.append_nil, Nat.add_zero]
  | cons item items ih =>
    cases item with
    | char c hc =>
      have hread := h.charAt hfmt
      have hnul : c ≠ 0 := by
        rintro rfl
        exact h.nul (hfmt ▸ List.mem_append_right pre List.mem_cons_self)
      have hstep : printfStep p
            ⟨⟨.s0, BitVec.ofNat 32 pre.length, 0, buffer, k, out⟩, BitVec.ofNat 32 v⟩ =
          .cont ⟨⟨.s0, BitVec.ofNat 32 (pre ++ [c]).length, 0, buffer, k, out ++ [c]⟩,
            BitVec.ofNat 32 v⟩ := by
        simp only [printfStep, h.fmt_eq, hread, formatText, List.flatMap_cons, Item.text,
          List.cons_append, List.head?_cons, if_neg hc, if_neg hnul, ofNat_length_concat]
      have hfmt' : fmt = (pre ++ [c]) ++ formatText items := by
        rw [hfmt, List.append_assoc]
        rfl
      have hout : out ++ render p k (.char c hc :: items) = (out ++ [c]) ++ render p k items := by
        rw [List.append_assoc]
        rfl
      rw [EndsAs, ends_of_cont hstep, hout]
      exact ih hb hfmt'
    | conversion ds c hds hc hw =>
      obtain ⟨b', hb', hconv⟩ := h.conversion hb hds hc hw hfmt
      have hfmt' : fmt = (pre ++ (chr '%' :: (ds ++ [c]))) ++ formatText items := by
        rw [hfmt, List.append_assoc]
        rfl
      rw [hconv, render, count, ← List.append_assoc, ← Nat.add_assoc, ← BitVec.ofNat_add]
      exact ih hb' hfmt'

end Formats

/-- From its beginning on, the function prints what is to be printed, and counts it. -/
theorem Formats.prints {items : List Item} (h : Formats p (formatText items))
    (hbuffer : buffer.length = 32) :
    EndsAs p (.returned ((BitVec.ofNat 32 (count p 0 items)).signExtend 64) (render p 0 items))
      (printfStart buffer) := by
  have hprints : EndsAs p
      (.returned ((BitVec.ofNat 32 (0 + count p 0 items)).signExtend 64) ([] ++ render p 0 items))
      ⟨⟨.s0, BitVec.ofNat 32 ([] : List (BitVec 8)).length, 0, buffer, 0, []⟩,
        BitVec.ofNat 32 0⟩ := h.prints_rest hbuffer (List.nil_append _).symm
  rw [Nat.zero_add] at hprints
  exact hprints

section

variable {p : PrintkCall} {items : List Item}

/-- Of a complete format, `bpf_printk` prints the rendering. -/
theorem printk_renders (h : IsCallOf p (formatText items))
    (hlong : (formatText items).length < 2 ^ 31) (hbuffer : buffer.length = 32) :
    Ends (printkStep p) (· = .returned (render p.printf 0 items)) (printkStart buffer) := by
  have hf : Formats p.printf (formatText items) := ⟨congrArg some h.format, h.nul, hlong⟩
  obtain ⟨n, e, hn, rfl⟩ := hf.prints hbuffer
  obtain ⟨e, he, hout⟩ := (hn ▸ h.lockstep buffer n).to_done
  cases hout with
  | returned => exact ⟨n, _, he, rfl⟩

/-- A line that shows a hexadecimal number of four digits, and a decimal one. -/
def twoNumbers : List Item :=
  [.conversion [chr '4'] (chr 'x') (by decide) (by decide) (by decide), .char (chr ' ') (by decide),
    .conversion [] (chr 'd') (by decide) (by decide) (by decide), .char (chr '\n') (by decide)]

/-- The call that shows 255 and -7 on it. -/
def twoNumbersCall : PrintkCall where
  format := ['%', '4', 'x', ' ', '%', 'd', '\n'].map chr ++ [0]
  fmt_size := 8
  args k := if k = 0 then 255 else -7
  string _ := []

theorem printk_renders_twoNumbers :
    Ends (printkStep twoNumbersCall)
      (· = .returned (['0', '0', 'F', 'F', ' ', '-', '7', '\n'].map chr))
      (printkStart (List.replicate 32 0)) := by
  have hcall : IsCallOf twoNumbersCall (formatText twoNumbers) := ⟨rfl, by decide, rfl⟩
  exact printk_renders hcall (by decide) (by decide)

/-- Whatever the format, the functions print the same, or fail together. -/
theorem printf_agrees {fmt : List (BitVec 8)} (h : IsCallOf p fmt) (buffer : Buffer) :
    (∀ out, Ends (printkStep p) (· = .returned out) (printkStart buffer) ↔
      ∃ value, EndsAs p.printf (.returned value out) (printfStart buffer)) ∧
    (Ends (printkStep p) (· = .fault) (printkStart buffer) ↔
      EndsAs p.printf .fault (printfStart buffer)) := by
  refine ⟨fun out => ⟨?_, ?_⟩, ?_, ?_⟩
  · rintro ⟨n, e, hn, rfl⟩
    obtain ⟨e, he, hout⟩ := (hn ▸ h.lockstep buffer n).of_done
    cases hout with
    | returned => exact ⟨_, n, _, he, rfl⟩
  · rintro ⟨value, n, e, hn, rfl⟩
    obtain ⟨e, he, hout⟩ := (hn ▸ h.lockstep buffer n).to_done
    cases hout with
    | returned => exact ⟨n, _, he, rfl⟩
  · rintro ⟨n, e, hn, rfl⟩
    obtain ⟨e, he, hout⟩ := (hn ▸ h.lockstep buffer n).of_done
    cases hout with
    | fault => exact ⟨n, _, he, rfl⟩
  · rintro ⟨n, e, hn, rfl⟩
    obtain ⟨e, he, hout⟩ := (hn ▸ h.lockstep buffer n).to_done
    cases hout with
    | fault => exact ⟨n, _, he, rfl⟩

/-- A format that ends in a percent sign. -/
theorem printf_agrees_percent :
    EndsAs (callOf ['%']).printf .fault (printfStart (List.replicate 32 0)) := by
  have hcall : IsCallOf (callOf ['%']) (['%'].map chr) := ⟨rfl, by decide, rfl⟩
  exact (printf_agrees hcall _).2.1 ⟨4, .fault, rfl, rfl⟩

end

/-- So does `printf`, and it returns what it has counted, as an `int`. -/
theorem printf_renders {items : List Item} (h : Formats p (formatText items))
    (hbuffer : buffer.length = 32) :
    Ends (printfStep p) (· = .returned ((BitVec.ofNat 32 (count p 0 items)).signExtend 64)
      (render p 0 items)) (printfStart buffer) :=
  h.prints hbuffer

theorem printf_renders_twoNumbers :
    Ends (printfStep twoNumbersCall.printf)
      (· = .returned 5 (['0', '0', 'F', 'F', ' ', '-', '7', '\n'].map chr))
      (printfStart (List.replicate 32 0)) := by
  have hcall : Formats twoNumbersCall.printf (formatText twoNumbers) := ⟨rfl, by decide, by decide⟩
  exact printf_renders hcall (by decide)

end EbpfJit.Baremetal
