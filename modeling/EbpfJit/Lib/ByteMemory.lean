import Mathlib.Algebra.Group.Int.Defs
import Mathlib.Algebra.Group.Nat.Defs
import Mathlib.Data.Set.BooleanAlgebra
import Mathlib.Data.Set.Disjoint
import Mathlib.Order.CompletePartialOrder
import Mathlib.Tactic.Common

/-!
# Byte-addressed memory

A flat memory with addresses of `n` bits, which wrap around, and little-endian
accesses of `w` bits (`w / 8` bytes) at any address.

The addresses `[a, a + len)` are the `span a len`: a store only changes the span
it writes (`store_of_notMem`), and spans of the same length are disjoint when
they are far enough apart (`disjoint_span_iff`). A span is inside of another one
when it starts early enough in it (`span_subset_iff`).

An array of values is stored and loaded one value after the other
(`loadAll_storeAll`, `storeAll_loadAll`).
-/

namespace ByteMemory

/-- A memory: a byte at every address. -/
abbrev Mem (n : ℕ) := BitVec n → BitVec 8

variable {n w : ℕ}

/-- The value of the `k` bytes from `a` on, the least significant one first. -/
def bytesAt (m : Mem n) (a : BitVec n) : ℕ → ℕ
  | 0 => 0
  | k + 1 => (m a).toNat + 256 * bytesAt m (a + 1) k

/-- The value of `w` bits at `a`. -/
def load (m : Mem n) (a : BitVec n) (w : ℕ) : BitVec w := BitVec.ofNat w (bytesAt m a (w / 8))

/-- The memory with the value `v` of `w` bits at `a`. -/
def store (m : Mem n) (a : BitVec n) (v : BitVec w) : Mem n := fun x =>
  if (x - a).toNat < w / 8 then (v >>> (8 * (x - a).toNat)).setWidth 8 else m x

/-- The addresses of the `len` bytes from `a` on. -/
def span (a : BitVec n) (len : ℕ) : Set (BitVec n) := {x | (x - a).toNat < len}

theorem mem_span {a x : BitVec n} {len : ℕ} : x ∈ span a len ↔ (x - a).toNat < len := Iff.rfl

/-- A store leaves the bytes outside of what it writes unchanged. -/
theorem store_of_notMem (m : Mem n) {a x : BitVec n} (v : BitVec w) (h : x ∉ span a (w / 8)) :
    store m a v x = m x := if_neg h

/-- The bytes of a value that has been stored. -/
theorem bytesAt_store (m : Mem n) (a : BitVec n) (v : BitVec w) (hlen : w / 8 ≤ 2 ^ n) {j k : ℕ}
    (h : j + k ≤ w / 8) :
    bytesAt (store m a v) (a + BitVec.ofNat n j) k = v.toNat / 256 ^ j % 256 ^ k := by
  induction k generalizing j with
  | zero => rw [bytesAt, Nat.pow_zero, Nat.mod_one]
  | succ k ih =>
    have hoff : (a + BitVec.ofNat n j - a).toNat = j := by
      rw [BitVec.add_comm, BitVec.add_sub_cancel, BitVec.toNat_ofNat, Nat.mod_eq_of_lt (by omega)]
    have hnext : a + BitVec.ofNat n j + 1 = a + BitVec.ofNat n (j + 1) := by
      rw [BitVec.ofNat_add, BitVec.add_assoc]
      rfl
    have hbyte : (store m a v (a + BitVec.ofNat n j)).toNat = v.toNat / 256 ^ j % 256 := by
      rw [store, hoff, if_pos (by omega), BitVec.toNat_setWidth, BitVec.toNat_ushiftRight,
        Nat.shiftRight_eq_div_pow, Nat.pow_mul]
    rw [bytesAt, hbyte, hnext, ih (by omega), Nat.pow_succ 256 j, ← Nat.div_div_eq_div_mul,
      Nat.pow_succ', Nat.mod_mul]

/-- Loading what has been stored. -/
theorem load_store (m : Mem n) (a : BitVec n) (v : BitVec w) (hw : w % 8 = 0)
    (hlen : w / 8 ≤ 2 ^ n) : load (store m a v) a w = v := by
  have hbytes := bytesAt_store m a v hlen (j := 0) (Nat.le_of_eq (Nat.zero_add (w / 8)))
  have hpow : 256 ^ (w / 8) = 2 ^ w := by
    rw [show 256 = 2 ^ 8 from rfl, ← Nat.pow_mul, show 8 * (w / 8) = w by omega]
  rw [BitVec.add_zero, Nat.pow_zero, Nat.div_one, hpow,
    Nat.mod_eq_of_lt v.isLt] at hbytes
  rw [load, hbytes, BitVec.ofNat_toNat, BitVec.setWidth_eq]

/-- Spans of the same length, one `d` below the other, are disjoint exactly when
    `d` is at least the length. -/
theorem disjoint_span_iff {a : BitVec n} {len d : ℕ} (hlen : 0 < len) (hd : d + len ≤ 2 ^ n) :
    Disjoint (span a len) (span (a - BitVec.ofNat n d) len) ↔ len ≤ d := by
  have hdn : d < 2 ^ n := by omega
  -- Seen from the lower span, `a + k` is at the offset `k + d`.
  have hoff (x : BitVec n) (hx : (x - a).toNat + d < 2 ^ n) :
      (x - (a - BitVec.ofNat n d)).toNat = (x - a).toNat + d := by
    have : x - (a - BitVec.ofNat n d) = (x - a) + BitVec.ofNat n d := by
      simp only [BitVec.sub_eq_add_neg, BitVec.neg_add, BitVec.neg_neg, BitVec.add_assoc]
    rw [this, BitVec.toNat_add, BitVec.toNat_ofNat, Nat.mod_eq_of_lt hdn, Nat.mod_eq_of_lt hx]
  constructor
  · intro hdis
    by_contra hlt
    have hself : (a - a).toNat = 0 := by simp
    have h₁ : a ∈ span a len := mem_span.2 (by omega)
    have h₂ : a ∈ span (a - BitVec.ofNat n d) len := mem_span.2 (by
      rw [hoff a (by omega)]
      omega)
    exact Set.disjoint_left.1 hdis h₁ h₂
  · intro hle
    refine Set.disjoint_left.2 ?_
    intro x h₁ h₂
    rw [mem_span] at h₁ h₂
    rw [hoff x (by omega)] at h₂
    omega

/-- A span that is inside of another one ends where that ends, or before. -/
theorem span_subset_iff {a b : BitVec n} {len total : ℕ} (hlen : 0 < len) (hlen' : len ≤ 2 ^ n)
    (htotal : total < 2 ^ n) : span a len ⊆ span b total ↔ (a - b).toNat + len ≤ total := by
  have hadd (x : BitVec n) : x - b = (x - a) + (a - b) := by
    rw [BitVec.sub_eq_add_neg a, ← BitVec.add_assoc, BitVec.sub_add_cancel,
      ← BitVec.sub_eq_add_neg]
  constructor
  · intro hsub
    by_contra hgt
    have ha : (a - b).toNat < total := hsub (mem_span.2 (by simpa using hlen))
    have hk : total - (a - b).toNat < 2 ^ n := by omega
    have hmem : BitVec.ofNat n (total - (a - b).toNat) + a ∈ span a len := by
      rw [mem_span, BitVec.add_sub_cancel, BitVec.toNat_ofNat, Nat.mod_eq_of_lt hk]
      omega
    have hout := mem_span.1 (hsub hmem)
    rw [hadd, BitVec.add_sub_cancel, BitVec.toNat_add, BitVec.toNat_ofNat,
      Nat.mod_eq_of_lt hk, Nat.sub_add_cancel ha.le, Nat.mod_eq_of_lt htotal] at hout
    exact absurd hout (Nat.lt_irrefl _)
  · intro hle x hx
    rw [mem_span] at hx ⊢
    rw [hadd, BitVec.toNat_add, Nat.mod_eq_of_lt (by omega)]
    omega

/-! ## Arrays -/

/-- The values of `w` bits in the array of length `k` at `a`. -/
def loadAll (m : Mem n) (a : BitVec n) (w : ℕ) : ℕ → List (BitVec w)
  | 0 => []
  | k + 1 => load m a w :: loadAll m (a + BitVec.ofNat n (w / 8)) w k

/-- The memory with an array at `a`. -/
def storeAll (m : Mem n) (a : BitVec n) : List (BitVec w) → Mem n
  | [] => m
  | v :: vs => store (storeAll m (a + BitVec.ofNat n (w / 8)) vs) a v

variable {m m' : Mem n} {a : BitVec n} {k : ℕ}

@[simp] theorem length_loadAll : (loadAll m a w k).length = k := by
  induction k generalizing a with
  | zero => rfl
  | succ k ih => rw [loadAll, List.length_cons, ih]

/-- An array in two parts. -/
theorem loadAll_add (m : Mem n) (a : BitVec n) (w j k : ℕ) : loadAll m a w (j + k) =
    loadAll m a w j ++ loadAll m (a + BitVec.ofNat n (j * (w / 8))) w k := by
  induction j generalizing a with
  | zero =>
    have ha : a + BitVec.ofNat n (0 * (w / 8)) = a := by
      rw [Nat.zero_mul]
      exact BitVec.add_zero a
    rw [Nat.zero_add, ha]
    rfl
  | succ j ih =>
    have hnext : a + BitVec.ofNat n (w / 8) + BitVec.ofNat n (j * (w / 8)) =
        a + BitVec.ofNat n ((j + 1) * (w / 8)) := by
      rw [BitVec.add_assoc, ← BitVec.ofNat_add, Nat.succ_mul, Nat.add_comm]
    rw [Nat.add_right_comm, loadAll, loadAll, ih, hnext, List.cons_append]

/-- The second part of an array. -/
theorem loadAll_of_append {l₁ l₂ : List (BitVec w)} (h : loadAll m a w k = l₁ ++ l₂) :
    loadAll m (a + BitVec.ofNat n (l₁.length * (w / 8))) w l₂.length = l₂ := by
  have hlen : k = l₁.length + l₂.length := by
    rw [← List.length_append, ← h, length_loadAll]
  rw [hlen, loadAll_add] at h
  exact (List.append_inj h length_loadAll).2

/-- What is behind `d` addresses, in a span that does not reach around the memory. -/
theorem mem_span_of_add {x : BitVec n} {d len : ℕ} (hlen : d + len ≤ 2 ^ n)
    (hx : x ∈ span (a + BitVec.ofNat n d) len) : d ≤ (x - a).toNat ∧ (x - a).toNat < d + len := by
  rw [mem_span] at hx
  have hoff : x - a = (x - (a + BitVec.ofNat n d)) + BitVec.ofNat n d := by
    rw [BitVec.sub_eq_add_neg x (a + _), BitVec.neg_add, BitVec.sub_eq_add_neg,
      BitVec.sub_eq_add_neg, ← BitVec.add_assoc, BitVec.add_assoc, BitVec.add_left_neg,
      BitVec.add_zero]
  have hd : d < 2 ^ n := by omega
  rw [hoff, BitVec.toNat_add, BitVec.toNat_ofNat, Nat.mod_eq_of_lt hd, Nat.mod_eq_of_lt (by omega)]
  omega

theorem bytesAt_congr (h : ∀ j < k, m (a + BitVec.ofNat n j) = m' (a + BitVec.ofNat n j)) :
    bytesAt m a k = bytesAt m' a k := by
  induction k generalizing a with
  | zero => rfl
  | succ k ih =>
    have hzero : m a = m' a := by simpa using h 0 k.succ_pos
    rw [bytesAt, bytesAt, hzero, ih]
    intro j hj
    have hnext : a + 1 + BitVec.ofNat n j = a + BitVec.ofNat n (j + 1) := by
      rw [BitVec.ofNat_add, BitVec.add_assoc, BitVec.add_comm (1 : BitVec n)]
      rfl
    rw [hnext]
    exact h (j + 1) (by omega)

/-- What is loaded only depends on the bytes there. -/
theorem load_congr (hlen : w / 8 ≤ 2 ^ n) (h : ∀ x ∈ span a (w / 8), m x = m' x) :
    load m a w = load m' a w := by
  rw [load, load, bytesAt_congr]
  intro j hj
  refine h _ (mem_span.2 ?_)
  rwa [BitVec.add_comm, BitVec.add_sub_cancel, BitVec.toNat_ofNat, Nat.mod_eq_of_lt (by omega)]

theorem loadAll_congr (hlen : k * (w / 8) ≤ 2 ^ n) (h : ∀ x ∈ span a (k * (w / 8)), m x = m' x) :
    loadAll m a w k = loadAll m' a w k := by
  induction k generalizing a with
  | zero => rfl
  | succ k ih =>
    have hsum : (k + 1) * (w / 8) = w / 8 + k * (w / 8) := by rw [Nat.succ_mul, Nat.add_comm]
    rw [hsum] at hlen h
    have hhead : load m a w = load m' a w :=
      load_congr (by omega) fun x hx => h x (mem_span.2 (by have := mem_span.1 hx; omega))
    rw [loadAll, loadAll, hhead, ih (by omega)]
    intro x hx
    exact h x (mem_span.2 (mem_span_of_add hlen hx).2)

/-- Loading the array that has been stored. -/
theorem loadAll_storeAll (m : Mem n) (a : BitVec n) (vs : List (BitVec w)) (hw : w % 8 = 0)
    (hlen : vs.length * (w / 8) ≤ 2 ^ n) : loadAll (storeAll m a vs) a w vs.length = vs := by
  induction vs generalizing a with
  | nil => rfl
  | cons v vs ih =>
    rw [List.length_cons, Nat.succ_mul] at hlen
    rw [List.length_cons, loadAll, storeAll, load_store _ _ _ hw (by omega)]
    congr 1
    -- The rest of the array is behind the first value.
    refine (loadAll_congr (by omega) ?_).trans (ih _ (by omega))
    intro x hx
    refine store_of_notMem _ _ fun hmem => ?_
    have hge := (mem_span_of_add (by omega) hx).1
    have hlt := mem_span.1 hmem
    omega

/-- The bytes of the value at `a`. -/
theorem bytesAt_div_mod {j : ℕ} (hj : j < k) :
    bytesAt m a k / 256 ^ j % 256 = (m (a + BitVec.ofNat n j)).toNat := by
  induction k generalizing a j with
  | zero => exact absurd hj j.not_lt_zero
  | succ k ih =>
    have hbyte := (m a).isLt
    rw [bytesAt]
    cases j with
    | zero =>
      have hself : a + BitVec.ofNat n 0 = a := BitVec.add_zero a
      rw [hself, Nat.pow_zero, Nat.div_one, Nat.add_mul_mod_self_left]
      exact Nat.mod_eq_of_lt hbyte
    | succ j =>
      have hnext : a + BitVec.ofNat n (j + 1) = a + 1 + BitVec.ofNat n j := by
        rw [BitVec.ofNat_add, BitVec.add_assoc, BitVec.add_comm (1 : BitVec n)]
        rfl
      rw [hnext, ← ih (Nat.lt_of_succ_lt_succ hj), Nat.pow_succ', ← Nat.div_div_eq_div_mul,
        Nat.add_mul_div_left _ _ (by decide), Nat.div_eq_of_lt hbyte, Nat.zero_add]

/-- Storing what has been loaded changes nothing. -/
theorem store_load (m : Mem n) (a : BitVec n) (hw : w % 8 = 0) : store m a (load m a w) = m := by
  funext x
  rw [store]
  split
  · next hlt =>
    have hx : a + BitVec.ofNat n (x - a).toNat = x := by
      rw [BitVec.ofNat_toNat, BitVec.setWidth_eq, BitVec.add_comm, BitVec.sub_add_cancel]
    have hbyte := bytesAt_div_mod (m := m) (a := a) hlt
    rw [hx] at hbyte
    refine BitVec.eq_of_toNat_eq ?_
    rw [BitVec.toNat_setWidth, BitVec.toNat_ushiftRight, Nat.shiftRight_eq_div_pow, load,
      BitVec.toNat_ofNat, ← hbyte]
    have hsplit : 2 ^ w = 2 ^ (8 * (x - a).toNat) * 2 ^ (w - 8 * (x - a).toNat) := by
      rw [← Nat.pow_add]
      congr 1
      omega
    have hdvd : 2 ^ 8 ∣ 2 ^ (w - 8 * (x - a).toNat) := Nat.pow_dvd_pow 2 (by omega)
    rw [hsplit, Nat.mod_mul_right_div_self, Nat.mod_mod_of_dvd _ hdvd, Nat.pow_mul,
      show 2 ^ 8 = 256 from rfl]
  · rfl

/-- Nor does storing an array that has been loaded. -/
theorem storeAll_loadAll (m : Mem n) (a : BitVec n) (hw : w % 8 = 0) (k : ℕ) :
    storeAll m a (loadAll m a w k) = m := by
  induction k generalizing a with
  | zero => rfl
  | succ k ih => rw [loadAll, storeAll, ih, store_load m a hw]

end ByteMemory
