import Mathlib.Data.Nat.Digits.Lemmas
import Mathlib.Tactic.Common

/-!
# Numerals

Numbers as texts: their digits in some base `b`, the first one being the most
significant, in the characters `0` to `9` and `A` on.

* `read`, `readInt`: the number that a text is a numeral of;
* `digitsOf`: the digits of a number, the least significant one first, as a loop that
  divides by the base finds them;
* `read_reverse`: their reversal reads as the number;
* `decimal`: the numeral of a number with its sign.
-/

namespace Numeral

/-- The code of a character. -/
def chr (c : Char) : BitVec 8 := BitVec.ofNat 8 c.toNat

/-- The character of a digit. -/
def glyph (d : ℕ) : BitVec 8 :=
  if d < 10 then chr '0' + BitVec.ofNat 8 d else chr 'A' + BitVec.ofNat 8 (d - 10)

/-- The digit that a character stands for. -/
def digitValue (c : BitVec 8) : Option ℕ :=
  if chr '0' ≤ c ∧ c ≤ chr '9' then some (c - chr '0').toNat
  else if chr 'A' ≤ c ∧ c ≤ chr 'Z' then some ((c - chr 'A').toNat + 10)
  else none

/-- One more digit of a number. -/
def readDigit (b n : ℕ) (c : BitVec 8) : Option ℕ :=
  (digitValue c).bind fun d => if d < b then some (n * b + d) else none

/-- The number that the text is a numeral of in the base `b`. -/
def read (b : ℕ) (s : List (BitVec 8)) : Option ℕ :=
  if s = [] then none else s.foldlM (readDigit b) 0

/-- The number of a decimal numeral, which may have a sign. -/
def readInt : List (BitVec 8) → Option ℤ
  | [] => none
  | c :: s =>
    if c = chr '-' then (read 10 s).map fun n => -(n : ℤ)
    else (read 10 (c :: s)).map fun n => (n : ℤ)

/-- The text has no more digits than it needs: none of them is a leading zero, and a zero
    has no sign. -/
def Canonical (s : List (BitVec 8)) : Prop :=
  (if s.head? = some (chr '-') then s.tail else s).head? = some (chr '0') → s = [chr '0']

/-- The text is the decimal numeral of a number. -/
structure IsDecimal (s : List (BitVec 8)) (n : ℤ) : Prop where
  reads : readInt s = some n
  canonical : Canonical s

/-- The digits of a number, the least significant one first. There is at least one. -/
def digitsOf (b n : ℕ) : List ℕ := if n = 0 then [0] else Nat.digits b n

variable {b n d : ℕ} {c : BitVec 8} {s : List (BitVec 8)} {ds : List ℕ}

/-! ## Digits -/

theorem digitValue_glyph (hd : d < 36) : digitValue (glyph d) = some d := by
  interval_cases d <;> rfl

/-- The characters of digits differ from all others. -/
theorem glyph_ne (hd : d < 36) (hc : digitValue c = none) : glyph d ≠ c := by
  rintro rfl
  rw [digitValue_glyph hd] at hc
  cases hc

theorem digitsOf_of_lt (h : n < b) : digitsOf b n = [n] := by
  rw [digitsOf]
  split
  · next h0 => rw [h0]
  · next h0 => exact Nat.digits_of_lt b n h0 h

theorem digitsOf_of_le (hb : 1 < b) (h : b ≤ n) : digitsOf b n = n % b :: digitsOf b (n / b) := by
  have hn : 0 < n := by omega
  have hq : n / b ≠ 0 := (Nat.div_pos h (by omega)).ne'
  rw [digitsOf, if_neg hn.ne', Nat.digits_def' hb hn, digitsOf, if_neg hq]

theorem digitsOf_ne_nil (hb : 1 < b) (n : ℕ) : digitsOf b n ≠ [] := by
  rcases Nat.lt_or_ge n b with h | h
  · simp [digitsOf_of_lt h]
  · simp [digitsOf_of_le hb h]

theorem lt_of_mem_digitsOf (hb : 1 < b) (hd : d ∈ digitsOf b n) : d < b := by
  rw [digitsOf] at hd
  split at hd
  · rw [List.mem_singleton.1 hd]
    omega
  · exact Nat.digits_lt_base hb hd

theorem ofDigits_digitsOf (b n : ℕ) : Nat.ofDigits b (digitsOf b n) = n := by
  rw [digitsOf]
  split
  · next h0 => simp [h0]
  · exact Nat.ofDigits_digits b n

/-- Numbers that are small enough do not have many digits. -/
theorem length_digitsOf_le (hb : 1 < b) {k : ℕ} (hk : 0 < k) (h : n < b ^ k) :
    (digitsOf b n).length ≤ k := by
  rw [digitsOf]
  split
  · exact hk
  · exact (Nat.digits_length_le_iff hb n).2 h

/-- The most significant digit is not zero, unless it is the only one. -/
theorem getLast_digitsOf (h : (digitsOf b n).getLast? = some 0) : n = 0 := by
  rw [digitsOf] at h
  split at h
  · assumption
  · next h0 =>
    rw [List.getLast?_eq_some_getLast (Nat.digits_ne_nil_iff_ne_zero.2 h0), Option.some.injEq] at h
    exact absurd h (Nat.getLast_digit_ne_zero b h0)

/-! ## Texts -/

/-- The digits, most significant first, read as the number they are the digits of. -/
theorem foldlM_readDigit (hb : b ≤ 36) (hds : ∀ d ∈ ds, d < b) :
    (ds.map glyph).reverse.foldlM (readDigit b) 0 = some (Nat.ofDigits b ds) := by
  induction ds with
  | nil => rfl
  | cons d ds ih =>
    have hd := hds d List.mem_cons_self
    rw [List.map_cons, List.reverse_cons, List.foldlM_append,
      ih fun d' hd' => hds d' (List.mem_cons_of_mem _ hd')]
    simp only [Option.bind_eq_bind, Option.bind_some, List.foldlM_cons, List.foldlM_nil, readDigit,
      digitValue_glyph (hd.trans_le hb), if_pos hd, Nat.ofDigits_cons]
    rw [Nat.mul_comm, Nat.add_comm]
    rfl

theorem read_reverse (hb : b ≤ 36) (hne : ds ≠ []) (hds : ∀ d ∈ ds, d < b) :
    read b (ds.map glyph).reverse = some (Nat.ofDigits b ds) := by
  rw [read, if_neg (by simpa using hne), foldlM_readDigit hb hds]

/-- A numeral only begins with a zero if the number is zero. -/
theorem eq_zero_of_head? (hb : 1 < b) (hb' : b ≤ 36)
    (h : ((digitsOf b n).map glyph).reverse.head? = some (chr '0')) : n = 0 := by
  rw [List.head?_reverse, List.getLast?_map, Option.map_eq_some_iff] at h
  obtain ⟨d, hlast, hd⟩ := h
  have hlt := lt_of_mem_digitsOf hb (List.mem_of_getLast? hlast)
  have hzero : some d = some 0 := by
    rw [← digitValue_glyph (hlt.trans_le hb'), hd]
    rfl
  cases hzero
  exact getLast_digitsOf hlast

/-- A numeral does not begin with a sign. -/
theorem head?_ne_sign (hb : 1 < b) (hb' : b ≤ 36) :
    ((digitsOf b n).map glyph).reverse.head? ≠ some (chr '-') := by
  intro h
  rw [List.head?_reverse, List.getLast?_map, Option.map_eq_some_iff] at h
  obtain ⟨d, hlast, hd⟩ := h
  have hlt := lt_of_mem_digitsOf hb (List.mem_of_getLast? hlast)
  exact glyph_ne (hlt.trans_le hb') rfl hd

theorem read_digitsOf (hb : 1 < b) (hb' : b ≤ 36) (n : ℕ) :
    read b ((digitsOf b n).map glyph).reverse = some n := by
  rw [read_reverse hb' (digitsOf_ne_nil hb n) fun d => lt_of_mem_digitsOf hb, ofDigits_digitsOf]

theorem isDecimal_digitsOf (n : ℕ) : IsDecimal ((digitsOf 10 n).map glyph).reverse n := by
  have hread := read_digitsOf (b := 10) (by decide) (by decide) n
  have hsign := head?_ne_sign (b := 10) (n := n) (by decide) (by decide)
  constructor
  · cases hs : ((digitsOf 10 n).map glyph).reverse with
    | nil =>
      rw [hs] at hread
      cases hread
    | cons c s =>
      rw [hs] at hread hsign
      rw [readInt, if_neg fun hc => hsign (by rw [hc]; rfl), hread]
      rfl
  · rw [Canonical, if_neg hsign]
    intro hhead
    rw [eq_zero_of_head? (by decide) (by decide) hhead]
    rfl

theorem isDecimal_neg (hn : n ≠ 0) :
    IsDecimal (chr '-' :: ((digitsOf 10 n).map glyph).reverse) (-n) := by
  constructor
  · rw [readInt, if_pos rfl, read_digitsOf (by decide) (by decide)]
    rfl
  · rw [Canonical, List.head?_cons, if_pos rfl, List.tail_cons]
    exact fun hhead => absurd (eq_zero_of_head? (by decide) (by decide) hhead) hn

/-- The decimal numeral of a number. -/
def decimal (z : ℤ) : List (BitVec 8) :=
  (if z < 0 then [chr '-'] else []) ++ ((digitsOf 10 z.natAbs).map glyph).reverse

theorem isDecimal_decimal (z : ℤ) : IsDecimal (decimal z) z := by
  rw [decimal]
  split
  · next hneg =>
    have hdec := isDecimal_neg (n := z.natAbs) (by omega)
    rwa [show -(z.natAbs : ℤ) = z by omega] at hdec
  · next hpos =>
    have hdec := isDecimal_digitsOf z.natAbs
    rwa [show (z.natAbs : ℤ) = z by omega] at hdec

end Numeral
