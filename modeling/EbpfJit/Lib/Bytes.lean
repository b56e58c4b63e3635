import Mathlib.Algebra.Group.Int.Defs
import Mathlib.Algebra.Group.Nat.Defs
import Mathlib.Data.Nat.Notation
import Mathlib.Tactic.Common

/-!
# The bytes of words

The bytes of a word of any width, the byte `0` being the least significant one. A word
is its bytes (`ext_byteAt`).

* `byteAt_merge`: the bytes of a word that bytes are shifted into one by one;
* `isReverse_merge`: doing so with the low bytes of a word reverses them;
* `IsReverse.eq_of_isReverse`: doing it twice gives them back.
-/

namespace Bytes

variable {w i j k : ℕ}

/-- The byte `i` of a word. -/
def byteAt (v : BitVec w) (i : ℕ) : BitVec 8 := (v >>> (8 * i)).setWidth 8

theorem getLsbD_byteAt (v : BitVec w) :
    (byteAt v i).getLsbD j = (decide (j < 8) && v.getLsbD (8 * i + j)) := by
  rw [byteAt, BitVec.getLsbD_setWidth, BitVec.getLsbD_ushiftRight]

/-- Words with the same bytes are equal. -/
theorem ext_byteAt {u v : BitVec w} (h : ∀ i, byteAt u i = byteAt v i) : u = v := by
  ext k hk
  have hbit := congrArg (fun b : BitVec 8 => b.getLsbD (k % 8)) (h (k / 8))
  have hlt : k % 8 < 8 := Nat.mod_lt k (by decide)
  simp only [getLsbD_byteAt, hlt, decide_true, Bool.true_and, Nat.div_add_mod] at hbit
  exact hbit

theorem byteAt_or (u v : BitVec w) : byteAt (u ||| v) i = byteAt u i ||| byteAt v i := by
  ext j hj
  simp [← BitVec.getLsbD_eq_getElem, getLsbD_byteAt, hj]

/-- A word shifted by a byte has a zero byte. -/
theorem byteAt_shiftLeft_zero (v : BitVec w) : byteAt (v <<< 8) 0 = 0 := by
  ext j hj
  simp [← BitVec.getLsbD_eq_getElem, getLsbD_byteAt, hj]

/-- Its other bytes are the ones of the word. -/
theorem byteAt_shiftLeft_succ (v : BitVec w) (h : 8 * (i + 2) ≤ w) :
    byteAt (v <<< 8) (i + 1) = byteAt v i := by
  ext j hj
  have hlt : 8 * (i + 1) + j < w := by omega
  have hge : ¬8 * (i + 1) + j < 8 := by omega
  have hsub : 8 * (i + 1) + j - 8 = 8 * i + j := by omega
  simp [← BitVec.getLsbD_eq_getElem, getLsbD_byteAt, hj, hlt, hge, hsub]

theorem byteAt_setWidth_zero (b : BitVec 8) (h : 8 ≤ w) : byteAt (b.setWidth w) 0 = b := by
  ext j hj
  have hlt : j < w := by omega
  simp [← BitVec.getLsbD_eq_getElem, getLsbD_byteAt, hj, hlt]

theorem byteAt_setWidth_succ (b : BitVec 8) : byteAt (b.setWidth w) (i + 1) = 0 := by
  ext j hj
  have hge : 8 ≤ 8 * (i + 1) + j := by omega
  simp [← BitVec.getLsbD_eq_getElem, getLsbD_byteAt, BitVec.getLsbD_of_ge b _ hge]

/-! ## Merging bytes -/

/-- The word `last` with bytes shifted into it, one after the other. -/
def merge (last : BitVec w) (bs : List (BitVec 8)) : BitVec w :=
  bs.foldl (fun last b => last <<< 8 ||| b.setWidth w) last

/-- The low bytes are the ones shifted in, the last one first. -/
theorem byteAt_merge (last : BitVec w) (bs : List (BitVec 8)) (hi : 8 * (i + 1) ≤ w) :
    byteAt (merge last bs) i =
      if i < bs.length then bs.getD (bs.length - 1 - i) 0 else byteAt last (i - bs.length) := by
  induction bs generalizing last with
  | nil => rfl
  | cons b bs ih =>
    rw [merge, List.foldl_cons, ← merge, ih, List.length_cons]
    rcases Nat.lt_trichotomy i bs.length with hlt | rfl | hgt
    · rw [if_pos hlt, if_pos (by omega),
        show bs.length + 1 - 1 - i = (bs.length - 1 - i) + 1 by omega, List.getD_cons_succ]
    · rw [if_neg (Nat.lt_irrefl _), if_pos (Nat.lt_succ_self _), Nat.sub_self, byteAt_or,
        byteAt_shiftLeft_zero, byteAt_setWidth_zero b (by omega)]
      simp
    · obtain ⟨k, rfl⟩ : ∃ k, i = bs.length + 1 + k := ⟨i - (bs.length + 1), by omega⟩
      rw [if_neg (by omega), if_neg (by omega), show bs.length + 1 + k - bs.length = k + 1 by omega,
        byteAt_or, byteAt_shiftLeft_succ last (by omega), byteAt_setWidth_succ,
        Nat.add_sub_cancel_left]
      simp

/-! ## Reversal -/

/-- The low `k` bytes of `u` are those of `v` in the reverse order; the other ones are
    zero. -/
def IsReverse (k : ℕ) (v u : BitVec w) : Prop :=
  ∀ i, byteAt u i = if i < k then byteAt v (k - 1 - i) else 0

theorem byteAt_zero (i : ℕ) : byteAt (0 : BitVec w) i = 0 := by
  ext j hj
  simp [← BitVec.getLsbD_eq_getElem, getLsbD_byteAt]

/-- There are no bytes beyond the width. -/
theorem byteAt_of_le (v : BitVec w) (h : w ≤ 8 * i) : byteAt v i = 0 := by
  ext j hj
  simp [← BitVec.getLsbD_eq_getElem, getLsbD_byteAt,
    BitVec.getLsbD_of_ge v _ (show w ≤ 8 * i + j by omega)]

/-- Shifting the low bytes of a word into zero, the first one first, reverses them. -/
theorem isReverse_merge (v : BitVec w) (hk : 8 * k ≤ w) (hw : w % 8 = 0) :
    IsReverse k v (merge 0 ((List.range k).map (byteAt v))) := by
  intro i
  have hlen : ((List.range k).map (byteAt v)).length = k := by simp
  rcases Nat.lt_or_ge (8 * i) w with hlt | hge
  · rw [byteAt_merge _ _ (by omega), hlen]
    split
    · next hik =>
      have hget : k - 1 - i < k := by omega
      simp [List.getD_eq_getElem?_getD, hget]
    · rw [byteAt_zero]
  · rw [byteAt_of_le _ hge, if_neg (by omega)]

/-- The low bytes of a word. -/
theorem byteAt_mod (v : BitVec w) :
    byteAt (BitVec.ofNat w (v.toNat % 2 ^ (8 * k))) i = if i < k then byteAt v i else 0 := by
  ext j hj
  rw [← BitVec.getLsbD_eq_getElem, getLsbD_byteAt, BitVec.getLsbD_ofNat, Nat.testBit_mod_two_pow]
  rcases Nat.lt_or_ge i k with hlt | hge
  · rw [if_pos hlt, decide_eq_true (show 8 * i + j < 8 * k by omega), Bool.true_and,
      ← BitVec.getLsbD_eq_getElem, getLsbD_byteAt, BitVec.testBit_toNat]
    rcases Nat.lt_or_ge (8 * i + j) w with hw | hw
    · rw [decide_eq_true hw, Bool.true_and]
    · rw [BitVec.getLsbD_of_ge v _ hw, Bool.and_false]
  · rw [if_neg (Nat.not_lt.2 hge), decide_eq_false (show ¬8 * i + j < 8 * k by omega)]
    simp

/-- Reversing the low bytes twice gives them back, and clears the other ones. -/
theorem IsReverse.eq_of_isReverse {u u' v : BitVec w} (h : IsReverse k v u)
    (h' : IsReverse k u u') : u' = BitVec.ofNat w (v.toNat % 2 ^ (8 * k)) := by
  refine ext_byteAt fun i => ?_
  rw [h' i, byteAt_mod]
  split
  · rw [h, if_pos (by omega), show k - 1 - (k - 1 - i) = i by omega]
  · rfl

end Bytes
