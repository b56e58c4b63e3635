import EbpfJit.Lib.Numeral

/-!
# Numbers on the serial line

The routines of the bare-metal runtime that render numbers as text, in a buffer of
the caller. Both find the digits in reverse, the least significant one first, and
then reverse the text in place.

A write outside of the buffer makes a routine fail. Arithmetic on `int` wraps around,
which is how `itoa` goes wrong: there is no positive `-n` for the least `n`.

* `rendersNumbers_iff`: which numbers are rendered.
-/

namespace EbpfJit.Baremetal

open Numeral

/-- The bytes of a buffer. -/
abbrev Buffer := List (BitVec 8)

/-- The buffer with the byte `c` at `i`, if that is inside. -/
def put (buffer : Buffer) (i : ℕ) (c : BitVec 8) : Option Buffer :=
  if i < buffer.length then some (buffer.set i c) else none

/-- The string in a buffer, up to the terminating NUL. -/
def stringOf (buffer : Buffer) : Buffer := buffer.takeWhile (· ≠ 0)

/-- Swap the bytes at `i` and `j`, and the ones between them. -/
def reverseLoop (buffer : Buffer) (i j : ℕ) : Option Buffer :=
  if i < j then do
    let c ← buffer[i]?
    let d ← buffer[j]?
    let buffer ← put buffer i d
    let buffer ← put buffer j c
    reverseLoop buffer (i + 1) (j - 1)
  else some buffer
termination_by j - i

/-- Reverse the first `length` bytes. -/
def reverseString (buffer : Buffer) (length : ℕ) : Option Buffer :=
  reverseLoop buffer 0 (length - 1)

theorem sdiv_ten {n : BitVec 32} (h : n.msb = false) : n.sdiv 10 = n / 10 := by
  rw [BitVec.sdiv_eq, h]
  rfl

theorem srem_ten {n : BitVec 32} (h : n.msb = false) : n.srem 10 = n % 10 := by
  rw [BitVec.srem_eq, h]
  rfl

theorem toInt_div_ten (n : BitVec 32) : (n / 10).toInt = n.toNat / 10 := by
  have hn := n.isLt
  have hdiv : (n / 10).toNat = n.toNat / 10 := BitVec.toNat_udiv
  rw [BitVec.toInt_eq_toNat_of_lt (by omega), hdiv]
  rfl

/-- The loop of `itoa` only goes on with a smaller number. -/
theorem sdiv_ten_lt {n : BitVec 32} (h : 0 < (n.sdiv 10).toInt) :
    (n.sdiv 10).toNat < n.toNat := by
  cases hm : n.msb with
  | false =>
    rw [sdiv_ten hm, toInt_div_ten] at h
    rw [sdiv_ten hm, BitVec.toNat_udiv]
    exact Nat.div_lt_self (by omega) (by decide)
  | true =>
    have hneg := BitVec.toInt_neg_of_msb_true hm
    have hne : (10 : BitVec 32) ≠ -1#32 := by decide
    have hle := Int.tdiv_nonneg (a := -n.toInt) (b := 10) (by omega) (by decide)
    rw [Int.neg_tdiv] at hle
    have hten : (10 : BitVec 32).toInt = 10 := rfl
    rw [BitVec.toInt_sdiv_of_ne_or_ne _ _ (.inr hne), hten] at h
    omega

/-- So does the loop of `hextoa`. -/
theorem udiv_sixteen_lt {n : BitVec 32} (h : n ≠ 0) : (n / 16).toNat < n.toNat := by
  rw [BitVec.toNat_udiv]
  exact Nat.div_lt_self (BitVec.toNat_pos_of_ne_zero h) (by decide)

/-- Generate digits in reverse order, from the index `i` on. -/
def itoaDigits (n : BitVec 32) (i : ℕ) (buffer : Buffer) : Option (ℕ × Buffer) := do
  let buffer ← put buffer i ((n.srem 10 + (chr '0').setWidth 32).setWidth 8)
  if 0 < (n.sdiv 10).toInt then itoaDigits (n.sdiv 10) (i + 1) buffer
  else some (i + 1, buffer)
termination_by n.toNat
decreasing_by exact sdiv_ten_lt ‹_›

/-- The decimal numeral of `n`. -/
def itoa (n : BitVec 32) (buffer : Buffer) : Option Buffer := do
  let sign := n
  let (i, buffer) ← itoaDigits (if sign.toInt < 0 then -n else n) 0 buffer
  let (i, buffer) ←
    if sign.toInt < 0 then (put buffer i (chr '-')).map fun buffer => (i + 1, buffer)
    else some (i, buffer)
  let buffer ← put buffer i 0
  reverseString buffer i

/-- The digits of `hextoa`. -/
def digits : List (BitVec 8) :=
  ['0', '1', '2', '3', '4', '5', '6', '7', '8', '9', 'A', 'B', 'C', 'D', 'E', 'F'].map chr

/-- Write the digits of `n` in reverse order, the next one being the `cnt`-th. -/
def hextoaDigits (n : BitVec 32) (cnt : ℕ) (buffer : Buffer) : Option (ℕ × Buffer) :=
  if n = 0 then some (cnt, buffer)
  else do
    let c ← digits[(n % 16).toNat]?
    let buffer ← put buffer cnt c
    hextoaDigits (n / 16) (cnt + 1) buffer
termination_by n.toNat
decreasing_by exact udiv_sixteen_lt ‹_›

/-- Write zeros until there are `fixed_size` characters. -/
def hextoaPad (fixed_size : BitVec 32) (cnt : ℕ) (buffer : Buffer) : Option (ℕ × Buffer) :=
  if (cnt : ℤ) < fixed_size.toInt then do
    let buffer ← put buffer cnt (chr '0')
    hextoaPad fixed_size (cnt + 1) buffer
  else some (cnt, buffer)
termination_by (fixed_size.toInt - cnt).toNat

/-- The hexadecimal numeral of `n`, with leading zeros up to `fixed_size`. The pointer into
    the buffer is the number of characters so far, `cnt`. -/
def hextoa (n : BitVec 32) (buffer : Buffer) (fixed_size : BitVec 32) : Option Buffer := do
  let (cnt, buffer) ←
    if n = 0 then (put buffer 0 (chr '0')).map fun buffer => (1, buffer)
    else hextoaDigits n 0 buffer
  let (cnt, buffer) ←
    if 0 < fixed_size.toInt then hextoaPad fixed_size cnt buffer else some (cnt, buffer)
  let buffer ← put buffer cnt 0
  reverseLoop buffer 0 (cnt - 1)

/-- `itoa` writes the decimal numeral of `n`, into any buffer with place for one. -/
def RendersDecimal (n : BitVec 32) : Prop :=
  ∀ buffer : Buffer, 12 ≤ buffer.length → ∃ buffer', itoa n buffer = some buffer' ∧
    0 ∈ buffer' ∧ IsDecimal (stringOf buffer') n.toInt

/-- `hextoa` writes a hexadecimal numeral of `n`, with as many characters as it is asked for,
    or as it needs. -/
def RendersHex (n w : BitVec 32) : Prop :=
  ∀ buffer : Buffer, max w.toInt.toNat (digitsOf 16 n.toNat).length < buffer.length →
    ∃ buffer', hextoa n buffer w = some buffer' ∧ 0 ∈ buffer' ∧
      (stringOf buffer').length = max w.toInt.toNat (digitsOf 16 n.toNat).length ∧
      read 16 (stringOf buffer') = some n.toNat

/-! ## Writing -/

/-- The buffer with the text `s` at its beginning. -/
def fill (buffer s : Buffer) : Buffer := s ++ buffer.drop s.length

variable {b s : Buffer} {c : BitVec 8} {n : BitVec 32}

@[simp] theorem fill_nil (b : Buffer) : fill b [] = b := rfl

theorem length_fill (h : s.length ≤ b.length) : (fill b s).length = b.length := by
  rw [fill, List.length_append, List.length_drop, Nat.add_sub_cancel' h]

theorem put_append (pre post : Buffer) (c d : BitVec 8) :
    put (pre ++ c :: post) pre.length d = some (pre ++ d :: post) := by
  rw [put, if_pos (by simp), List.set_append_right _ _ (le_refl _), Nat.sub_self,
    List.set_cons_zero]

/-- A byte after the text. -/
theorem put_fill (h : s.length < b.length) (c : BitVec 8) :
    put (fill b s) s.length c = some (fill b (s ++ [c])) := by
  rw [fill, fill, List.drop_eq_getElem_cons h, put_append, List.length_append,
    List.append_assoc]
  rfl

theorem put_fill_of_le (h : s.length = b.length) (c : BitVec 8) :
    put (fill b s) s.length c = none := by
  rw [put, if_neg (by rw [length_fill h.le]; omega)]

/-- Reversing a part of the buffer. -/
theorem reverseLoop_append (pre mid post : Buffer) :
    reverseLoop (pre ++ (mid ++ post)) pre.length (pre.length + mid.length - 1) =
      some (pre ++ (mid.reverse ++ post)) := by
  induction mid using List.bidirectionalRec generalizing pre post with
  | nil =>
    rw [reverseLoop, if_neg (by simp)]
    rfl
  | singleton c =>
    rw [reverseLoop, if_neg (by simp)]
    rfl
  | cons_append c mid d ih =>
    have hj : pre.length + (c :: (mid ++ [d])).length - 1 = (pre ++ d :: mid).length := by
      simp
    have hi : pre.length < (pre ++ d :: mid).length := by simp
    have hc : (pre ++ c :: (mid ++ d :: post))[pre.length]? = some c := by simp
    have hd : (pre ++ c :: (mid ++ d :: post))[(pre ++ d :: mid).length]? = some d := by simp
    -- After the first write, `d` is there twice; the second one puts `c` in its place.
    have hswap : put (pre ++ d :: (mid ++ d :: post)) (pre ++ d :: mid).length c =
        some (pre ++ d :: (mid ++ c :: post)) := by
      have h := put_append (pre ++ d :: mid) post d c
      rwa [List.append_assoc, List.append_assoc] at h
    have hrest := ih (pre ++ [d]) (c :: post)
    rw [hj, List.cons_append, List.append_assoc, List.singleton_append, reverseLoop, if_pos hi, hc]
    simp only [Option.bind_eq_bind, Option.bind_some, hd, put_append, hswap]
    have hlast : (pre ++ [d]).length + mid.length - 1 = (pre ++ d :: mid).length - 1 := by
      simp
    rw [hlast] at hrest
    simpa using hrest

/-- Reversing the text in the buffer, which ends in a NUL. -/
theorem reverseLoop_fill (h : s.length < b.length) :
    (do
      let b ← put (fill b s) s.length 0
      reverseLoop b 0 (s.length - 1)) = some (fill b (s.reverse ++ [0])) := by
  have hrev := reverseLoop_append [] s (0 :: b.drop (s.length + 1))
  rw [put_fill h, Option.bind_eq_bind, Option.bind_some]
  simpa [fill] using hrev

/-! ## Digits -/

theorem itoaDigit_eq (hm : n.msb = false) :
    (n.srem 10 + (chr '0').setWidth 32).setWidth 8 = glyph (n.toNat % 10) := by
  have hlt : n.toNat % 10 < 10 := Nat.mod_lt _ (by decide)
  have hmod : n % 10 = BitVec.ofNat 32 (n.toNat % 10) := by
    rw [← BitVec.toNat_inj, BitVec.toNat_umod, BitVec.toNat_ofNat]
    exact (Nat.mod_eq_of_lt (hlt.trans (by decide))).symm
  rw [srem_ten hm, hmod]
  generalize n.toNat % 10 = d at hlt
  interval_cases d <;> rfl

theorem itoaDigits_fill (hm : n.msb = false)
    (hlen : s.length + (digitsOf 10 n.toNat).length ≤ b.length) :
    itoaDigits n s.length (fill b s) =
      some ((s ++ (digitsOf 10 n.toNat).map glyph).length,
        fill b (s ++ (digitsOf 10 n.toNat).map glyph)) := by
  induction hk : n.toNat using Nat.strong_induction_on generalizing n s with
  | _ k ih =>
    subst hk
    have hq : (n / 10).toNat = n.toNat / 10 := BitVec.toNat_udiv
    have hlt : s.length < b.length := by
      have := List.length_pos_iff.2 (digitsOf_ne_nil (b := 10) (by decide) n.toNat)
      omega
    rw [itoaDigits, put_fill hlt, itoaDigit_eq hm, sdiv_ten hm, toInt_div_ten]
    by_cases h : 10 ≤ n.toNat
    · -- The loop goes on with the quotient.
      rw [digitsOf_of_le (by decide) h] at hlen ⊢
      have hm' : (n / 10).msb = false := by
        rw [BitVec.msb_eq_false_iff_two_mul_lt]
        omega
      have hrest := ih (n.toNat / 10) (by omega) (s := s ++ [glyph (n.toNat % 10)]) hm'
        (by simp at hlen ⊢; omega) hq
      simp only [Option.bind_eq_bind, Option.bind_some]
      rw [if_pos (by omega)]
      simpa using hrest
    · rw [digitsOf_of_lt (by omega), Nat.mod_eq_of_lt (by omega)]
      simp only [Option.bind_eq_bind, Option.bind_some]
      rw [if_neg (by omega)]
      simp

theorem digits_eq (n : BitVec 32) : digits[(n % 16).toNat]? = some (glyph (n.toNat % 16)) := by
  have hmod : (n % 16).toNat = n.toNat % 16 := BitVec.toNat_umod
  have hlt : n.toNat % 16 < 16 := Nat.mod_lt _ (by decide)
  rw [hmod]
  generalize n.toNat % 16 = d at hlt
  interval_cases d <;> rfl

theorem hextoaDigits_fill (hn : n ≠ 0)
    (hlen : s.length + (digitsOf 16 n.toNat).length ≤ b.length) :
    hextoaDigits n s.length (fill b s) =
      some ((s ++ (digitsOf 16 n.toNat).map glyph).length,
        fill b (s ++ (digitsOf 16 n.toNat).map glyph)) := by
  induction hk : n.toNat using Nat.strong_induction_on generalizing n s with
  | _ k ih =>
    subst hk
    have hq : (n / 16).toNat = n.toNat / 16 := BitVec.toNat_udiv
    have hlt : s.length < b.length := by
      have := List.length_pos_iff.2 (digitsOf_ne_nil (b := 16) (by decide) n.toNat)
      omega
    rw [hextoaDigits, if_neg hn, digits_eq]
    simp only [Option.bind_eq_bind, Option.bind_some, put_fill hlt]
    by_cases h : 16 ≤ n.toNat
    · rw [digitsOf_of_le (by decide) h] at hlen ⊢
      have hn' : n / 16 ≠ 0 := by
        rw [← BitVec.toNat_ne_iff_ne, hq]
        exact (Nat.div_pos h (by decide)).ne'
      have hrest := ih (n.toNat / 16) (Nat.div_lt_self (by omega) (by decide))
        (s := s ++ [glyph (n.toNat % 16)]) hn' (by simp at hlen ⊢; omega) hq
      simpa using hrest
    · -- It was the last digit.
      have hzero : n / 16 = 0 := by
        rw [← BitVec.toNat_inj, hq]
        exact Nat.div_eq_of_lt (by omega)
      rw [digitsOf_of_lt (by omega), Nat.mod_eq_of_lt (by omega), hzero, hextoaDigits, if_pos rfl]
      simp

/-- The zeros that `hextoa` writes, if there is place for them. -/
theorem hextoaPad_fill {w : BitVec 32} (hs : s.length ≤ b.length) :
    hextoaPad w s.length (fill b s) =
      if w.toInt ≤ b.length then
        some ((s ++ List.replicate (w.toInt.toNat - s.length) (chr '0')).length,
          fill b (s ++ List.replicate (w.toInt.toNat - s.length) (chr '0')))
      else none := by
  induction hk : w.toInt.toNat - s.length generalizing s with
  | zero =>
    rw [hextoaPad, if_neg (by omega), if_pos (by omega)]
    simp
  | succ k ih =>
    rw [hextoaPad, if_pos (by omega)]
    rcases Nat.lt_or_ge s.length b.length with hlt | hge
    · have hrest := ih (s := s ++ [chr '0']) (by simp; omega) (by simp; omega)
      simp only [Option.bind_eq_bind, put_fill hlt, Option.bind_some]
      rw [List.replicate_succ]
      simpa using hrest
    · rw [put_fill_of_le (by omega), if_neg (by omega)]
      rfl

/-! ## Numbers -/

theorem stringOf_fill (h : 0 ∉ s) : stringOf (fill b (s ++ [0])) = s := by
  rw [stringOf, fill, List.append_assoc, List.takeWhile_append_of_pos]
  · simp
  · intro c hc
    exact decide_eq_true fun h0 => h (h0 ▸ hc)

theorem mem_fill : 0 ∈ fill b (s ++ [0]) := by
  simp [fill]

theorem zero_notMem_glyphs {base m : ℕ} (hb : 1 < base) (hb' : base ≤ 36) :
    0 ∉ (digitsOf base m).map glyph := by
  intro h
  obtain ⟨d, hd, hzero⟩ := List.mem_map.1 h
  exact glyph_ne ((lt_of_mem_digitsOf hb hd).trans_le hb') rfl hzero

/-- `itoa` puts a sign after the digits, and reverses them. -/
theorem itoa_of_digits
    (h : itoaDigits (if n.toInt < 0 then -n else n) 0 b = some (s.length, fill b s))
    (hlen : s.length + 1 < b.length) :
    itoa n b =
      some (fill b ((s ++ if n.toInt < 0 then [chr '-'] else []).reverse ++ [0])) := by
  rw [itoa]
  simp only [h, Option.bind_eq_bind, Option.bind_some]
  by_cases hn : n.toInt < 0
  · have hrev := reverseLoop_fill (b := b) (s := s ++ [chr '-']) (by simpa using hlen)
    rw [if_pos hn, if_pos hn, put_fill (by omega)]
    rw [List.length_append] at hrev
    exact hrev
  · rw [if_neg hn, if_neg hn, List.append_nil]
    exact reverseLoop_fill (by omega)

/-- The characters of `n` in hexadecimal, in reverse. -/
def hexText (n w : BitVec 32) : Buffer :=
  (digitsOf 16 n.toNat).map glyph ++
    List.replicate (w.toInt.toNat - (digitsOf 16 n.toNat).length) (chr '0')

theorem length_hexText (n w : BitVec 32) :
    (hexText n w).length = max w.toInt.toNat (digitsOf 16 n.toNat).length := by
  rw [hexText, List.length_append, List.length_map, List.length_replicate]
  omega

/-- The end of `hextoa`: the NUL does not fit if the buffer is full. -/
theorem hextoa_end (hs : s.length ≤ b.length) :
    (do
      let b ← put (fill b s) s.length 0
      reverseLoop b 0 (s.length - 1)) =
      if s.length < b.length then some (fill b (s.reverse ++ [0])) else none := by
  split
  · next h => exact reverseLoop_fill h
  · rw [put_fill_of_le (by omega)]
    rfl

/-- `hextoa` after the digits. -/
theorem hextoa_rest (w : BitVec 32) (hlen : (digitsOf 16 n.toNat).length ≤ b.length)
    (hs : s = (digitsOf 16 n.toNat).map glyph) :
    (do
      let (cnt, b) ←
        if 0 < w.toInt then hextoaPad w s.length (fill b s)
        else some (s.length, fill b s)
      let b ← put b cnt 0
      reverseLoop b 0 (cnt - 1)) =
      if (hexText n w).length < b.length then
        some (fill b ((hexText n w).reverse ++ [0]))
      else none := by
  have hslen : s.length = (digitsOf 16 n.toNat).length := by rw [hs, List.length_map]
  have htext : hexText n w = s ++ List.replicate (w.toInt.toNat - s.length) (chr '0') := by
    rw [hexText, hs, List.length_map]
  by_cases hw : 0 < w.toInt
  · have hpad := hextoaPad_fill (b := b) (s := s) (w := w) (by omega)
    rw [← htext] at hpad
    rw [if_pos hw, hpad]
    have hmax := length_hexText n w
    by_cases hfit : w.toInt ≤ b.length
    · rw [if_pos hfit]
      exact hextoa_end (by omega)
    · rw [if_neg hfit, if_neg (by omega)]
      rfl
  · have htext' : hexText n w = s := by
      rw [htext, Int.toNat_of_nonpos (by omega), Nat.zero_sub]
      exact List.append_nil s
    rw [if_neg hw, htext']
    exact hextoa_end (by omega)

/-- `hextoa` fails if its text does not fit into the buffer. -/
theorem hextoa_eq (w : BitVec 32) (hlen : (digitsOf 16 n.toNat).length ≤ b.length) :
    hextoa n b w =
      if (hexText n w).length < b.length then
        some (fill b ((hexText n w).reverse ++ [0]))
      else none := by
  have hpos := List.length_pos_iff.2 (digitsOf_ne_nil (b := 16) (by decide) n.toNat)
  rw [← hextoa_rest w hlen rfl, hextoa]
  by_cases hn : n = 0
  · have hput := put_fill (s := []) (hpos.trans_le hlen) (chr '0')
    rw [fill_nil, List.length_nil] at hput
    rw [if_pos hn, hput, hn]
    rfl
  · have hloop := hextoaDigits_fill (b := b) (s := []) hn (by simpa using hlen)
    rw [fill_nil, List.length_nil, List.nil_append] at hloop
    rw [if_neg hn, hloop]
    rfl

theorem rendersHex (n w : BitVec 32) : RendersHex n w := by
  intro b hbuffer
  have hnul : 0 ∉ (hexText n w).reverse := by
    rw [List.mem_reverse, hexText, List.mem_append, List.mem_replicate]
    rintro (h | ⟨-, h⟩)
    · exact zero_notMem_glyphs (by decide) (by decide) h
    · cases h
  have hread : read 16 (hexText n w).reverse = some n.toNat := by
    -- The zeros are digits too, the most significant ones.
    have htext : hexText n w = (digitsOf 16 n.toNat ++
        List.replicate (w.toInt.toNat - (digitsOf 16 n.toNat).length) 0).map glyph := by
      rw [List.map_append, List.map_replicate]
      rfl
    rw [htext, read_reverse (by decide), Nat.ofDigits_append_replicate_zero, ofDigits_digitsOf]
    · simp [digitsOf_ne_nil]
    · intro d hd
      rcases List.mem_append.1 hd with hd | hd
      · exact lt_of_mem_digitsOf (by decide) hd
      · rw [List.eq_of_mem_replicate hd]
        decide
  refine ⟨_, (hextoa_eq w (by omega)).trans (if_pos ?_), mem_fill, ?_, ?_⟩
  · rwa [length_hexText]
  · rw [stringOf_fill hnul, List.length_reverse, length_hexText]
  · rw [stringOf_fill hnul, hread]

/-- The decimal digits of an `int`. -/
theorem length_digitsOf_ten (h : n.msb = false) : (digitsOf 10 n.toNat).length ≤ 10 := by
  rw [BitVec.msb_eq_false_iff_two_mul_lt] at h
  exact length_digitsOf_le (by decide) (by decide) (by omega)

/-- The absolute value, except for the least number. -/
theorem msb_abs (hn : n ≠ BitVec.intMin 32) : (if n.toInt < 0 then -n else n).msb = false := by
  split
  · next hneg =>
    rw [BitVec.msb_eq_toInt, BitVec.toInt_neg_of_ne_intMin hn]
    exact decide_eq_false (by omega)
  · next hneg =>
    rw [BitVec.msb_eq_toInt]
    exact decide_eq_false hneg

theorem toNat_abs (hn : n ≠ BitVec.intMin 32) :
    (if n.toInt < 0 then -n else n).toNat = n.toInt.natAbs := by
  have hm := BitVec.toInt_eq_toNat_of_msb (msb_abs hn)
  split at hm
  · next hneg =>
    rw [BitVec.toInt_neg_of_ne_intMin hn] at hm
    rw [if_pos hneg]
    omega
  · next hpos =>
    rw [if_neg hpos]
    omega

theorem itoa_fill (hbuffer : 12 ≤ b.length) (hn : n ≠ BitVec.intMin 32) :
    itoa n b = some (fill b (decimal n.toInt ++ [0])) := by
  have hlen := length_digitsOf_ten (msb_abs hn)
  have hdigits := itoaDigits_fill (b := b) (s := []) (msb_abs hn) (by simp; omega)
  rw [fill_nil, List.nil_append] at hdigits
  have hitoa := itoa_of_digits hdigits (by rw [List.length_map]; omega)
  rw [List.reverse_append, toNat_abs hn] at hitoa
  rw [hitoa, decimal]
  split <;> rfl

theorem zero_notMem_decimal (z : ℤ) : 0 ∉ decimal z := by
  rw [decimal, List.mem_append, List.mem_reverse]
  rintro (h | h)
  · split at h
    · exact absurd h (by decide)
    · cases h
  · exact zero_notMem_glyphs (by decide) (by decide) h

theorem length_decimal (hn : n ≠ BitVec.intMin 32) : (decimal n.toInt).length ≤ 11 := by
  have hlen := length_digitsOf_ten (msb_abs hn)
  have hsign : (if n.toInt < 0 then [chr '-'] else []).length ≤ 1 := by
    split <;> simp
  rw [toNat_abs hn] at hlen
  rw [decimal, List.length_append, List.length_reverse, List.length_map]
  omega

theorem rendersDecimal (hn : n ≠ BitVec.intMin 32) : RendersDecimal n := by
  intro b hbuffer
  refine ⟨_, itoa_fill hbuffer hn, mem_fill, ?_⟩
  rw [stringOf_fill (zero_notMem_decimal n.toInt)]
  exact isDecimal_decimal n.toInt

/-- There is no positive `-n` for the least `n`, whose only digit is below the zero. -/
theorem itoa_intMin (h : 12 ≤ b.length) :
    itoa (BitVec.intMin 32) b = some (fill b ([chr '-', chr '('] ++ [0])) := by
  have hput := put_fill (b := b) (s := []) (by simp; omega) (chr '(')
  have hdigits : itoaDigits (if (BitVec.intMin 32).toInt < 0 then -BitVec.intMin 32
      else BitVec.intMin 32) 0 b = some ([chr '('].length, fill b [chr '(']) := by
    have hmin : (if (BitVec.intMin 32).toInt < 0 then -BitVec.intMin 32
      else BitVec.intMin 32) = BitVec.intMin 32 := by decide
    have hchr : ((BitVec.intMin 32).srem 10 + (chr '0').setWidth 32).setWidth 8 = chr '(' := by
      decide
    rw [hmin, itoaDigits, hchr]
    rw [fill_nil, List.length_nil] at hput
    rw [hput, Option.bind_eq_bind, Option.bind_some, if_neg (by decide)]
    rfl
  rw [itoa_of_digits hdigits (by simp; omega)]
  rfl

/-- No number gets `itoa` out of the buffer. -/
theorem exists_itoa (h : 12 ≤ b.length) (n : BitVec 32) :
    ∃ b', itoa n b = some b' ∧ b'.length = b.length := by
  by_cases hn : n = BitVec.intMin 32
  · refine ⟨_, hn ▸ itoa_intMin h, length_fill ?_⟩
    simp
    omega
  · have hlen := length_decimal hn
    refine ⟨_, itoa_fill h hn, length_fill ?_⟩
    rw [List.length_append, List.length_singleton]
    omega

/-- `hextoa` gets out of the buffer exactly if it is asked for too many characters. -/
theorem exists_hextoa (h : 9 ≤ b.length) (n w : BitVec 32) :
    (w.toInt < b.length → ∃ b', hextoa n b w = some b' ∧
      b'.length = b.length) ∧
    (b.length ≤ w.toInt → hextoa n b w = none) := by
  have hlen : (digitsOf 16 n.toNat).length ≤ 8 := length_digitsOf_le (by decide) (by decide) n.isLt
  have hmax := length_hexText n w
  constructor
  · intro hw
    refine ⟨_, (hextoa_eq w (by omega)).trans (if_pos (by omega)), length_fill ?_⟩
    rw [List.length_append, List.length_reverse, List.length_singleton]
    omega
  · intro hw
    exact (hextoa_eq w (by omega)).trans (if_neg (by omega))

theorem not_rendersDecimal_intMin : ¬RendersDecimal (BitVec.intMin 32) := by
  intro h
  obtain ⟨b', hitoa, -, hdec⟩ := h (List.replicate 12 0) (by simp)
  rw [itoa_intMin (by simp), Option.some.injEq] at hitoa
  have hreads := hdec.reads
  rw [← hitoa, stringOf_fill (by decide)] at hreads
  exact absurd hreads (by decide)

/-- Numbers are rendered, except for the least one. -/
theorem rendersNumbers_iff (n u : BitVec 32) :
    (RendersDecimal n ∧ ∀ w ≤ 31, RendersHex u (BitVec.ofNat 32 w)) ↔ n ≠ BitVec.intMin 32 := by
  constructor
  · rintro ⟨hdec, -⟩ rfl
    exact not_rendersDecimal_intMin hdec
  · intro hn
    exact ⟨rendersDecimal hn, fun w _ => rendersHex u _⟩

/-- The least number becomes a sign and a parenthesis. -/
theorem not_rendersNumbers_intMin :
    (itoa (BitVec.intMin 32) (List.replicate 12 0)).map stringOf = some [chr '-', chr '('] ∧
      ¬RendersDecimal (BitVec.intMin 32) := by
  refine ⟨?_, not_rendersDecimal_intMin⟩
  rw [itoa_intMin (by simp), Option.map_some, stringOf_fill (by decide)]

end EbpfJit.Baremetal
