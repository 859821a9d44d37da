import Mathlib.Algebra.BigOperators.Fin
import Mathlib.Tactic.Ring
import NonNative.Number.Digits

/-!
Digits in base `2 ^ w` as a numeral system: the digits of a number recompose to
its lowest part, digits that are small enough are the digits of what they
recompose to, and both are bounded by their number of places.
-/

namespace NonNative

/-! ### Bit length -/

theorem bitLength_le_iff_lt_two_pow (n w : ℕ) : bitLength n ≤ w ↔ n < 2 ^ w := by
  rw [bitLength_le_iff, Nat.shiftLeft_eq, Nat.one_mul]

theorem lt_two_pow_bitLength (n : ℕ) : n < 2 ^ bitLength n :=
  (bitLength_le_iff_lt_two_pow n _).1 le_rfl

theorem two_pow_le_of_lt_bitLength {n k : ℕ} (hk : k < bitLength n) : 2 ^ k ≤ n := by
  by_contra h
  exact absurd ((bitLength_le_iff_lt_two_pow n k).2 (not_le.1 h)) (not_le.2 hk)

theorem bitLength_pos {n : ℕ} (hn : n ≠ 0) : 0 < bitLength n := by
  simp [bitLength, hn]

/-! ### Digits and what they recompose to -/

theorem digits_succ (w n x : ℕ) :
    digits w (n + 1) x = x % 2 ^ w :: digits w n (x / 2 ^ w) := by
  simp [digits, lowBits_eq_mod, Nat.shiftLeft_eq, Nat.shiftRight_eq_div_pow]

theorem ofDigits_cons (w d : ℕ) (ds : List ℕ) :
    ofDigits w (d :: ds) = d + 2 ^ w * ofDigits w ds := by
  rw [ofDigits, Nat.shiftLeft_eq, Nat.mul_comm]

theorem digits_lt {w n x d : ℕ} (hd : d ∈ digits w n x) : d < 2 ^ w := by
  induction n generalizing x with
  | zero => simp [digits] at hd
  | succ n ih =>
      rw [digits_succ, List.mem_cons] at hd
      rcases hd with rfl | hd
      · exact Nat.mod_lt _ (Nat.two_pow_pos w)
      · exact ih hd

theorem bits_lt_two {n x b : ℕ} (hb : b ∈ bits n x) : b < 2 := digits_lt hb

theorem ofDigits_digits (w n x : ℕ) : ofDigits w (digits w n x) = x % 2 ^ (w * n) := by
  induction n generalizing x with
  | zero => simp [digits, ofDigits, Nat.mod_one]
  | succ n ih =>
      rw [digits_succ, ofDigits_cons, ih, Nat.mul_succ, Nat.add_comm (w * n), Nat.pow_add,
        Nat.mod_mul]

/-- The digit at position `i` counts the multiples of `2 ^ (w * i)`. -/
theorem digits_eq_map_range (w n x : ℕ) :
    digits w n x = (List.range n).map fun i => x / 2 ^ (w * i) % 2 ^ w := by
  induction n generalizing x with
  | zero => rfl
  | succ n ih =>
      rw [digits_succ, ih, List.range_succ_eq_map, List.map_cons, List.map_map, Nat.mul_zero,
        Nat.pow_zero, Nat.div_one]
      congr 1
      apply List.map_congr_left
      intro i _
      rw [Function.comp_apply, Nat.div_div_eq_div_mul, ← Nat.pow_add, Nat.mul_succ,
        Nat.add_comm w]

/-- What the digits recompose to, as a sum over the positions. -/
theorem ofDigits_ofFn (w : ℕ) {n : ℕ} (l : Fin n → ℕ) :
    ofDigits w (List.ofFn l) = ∑ i, l i * 2 ^ (w * i) := by
  induction n with
  | zero => rfl
  | succ n ih =>
      rw [List.ofFn_succ, ofDigits_cons, ih, Fin.sum_univ_succ, Finset.mul_sum]
      congr 1
      · simp
      · refine Finset.sum_congr rfl fun i _ => ?_
        rw [Fin.val_succ, Nat.mul_succ, Nat.pow_add]
        ring

theorem digits_eq_ofFn (w n x : ℕ) :
    digits w n x = List.ofFn fun i : Fin n => x / 2 ^ (w * i) % 2 ^ w := by
  rw [digits_eq_map_range]
  exact List.ext_getElem (by simp) fun i _ _ => by simp

theorem ofDigits_bits {n x : ℕ} (hx : x < 2 ^ n) : ofDigits 1 (bits n x) = x := by
  rw [bits, ofDigits_digits, Nat.one_mul, Nat.mod_eq_of_lt hx]

theorem ofDigits_lt {w : ℕ} {ds : List ℕ} (hds : ∀ d ∈ ds, d < 2 ^ w) :
    ofDigits w ds < 2 ^ (w * ds.length) := by
  induction ds with
  | nil => simp [ofDigits]
  | cons d ds ih =>
      have hd : d < 2 ^ w := hds d (by simp)
      have hrest : ofDigits w ds + 1 ≤ 2 ^ (w * ds.length) := ih fun e he => hds e (by simp [he])
      rw [ofDigits_cons, List.length_cons, Nat.mul_succ, Nat.add_comm (w * _), Nat.pow_add]
      calc
        d + 2 ^ w * ofDigits w ds < 2 ^ w + 2 ^ w * ofDigits w ds := by omega
        _ = 2 ^ w * (ofDigits w ds + 1) := by ring
        _ ≤ 2 ^ w * 2 ^ (w * ds.length) := Nat.mul_le_mul_left _ hrest

theorem digits_ofDigits {w : ℕ} {ds : List ℕ} (hds : ∀ d ∈ ds, d < 2 ^ w) :
    digits w ds.length (ofDigits w ds) = ds := by
  induction ds with
  | nil => rfl
  | cons d ds ih =>
      have hd : d < 2 ^ w := hds d (by simp)
      rw [List.length_cons, digits_succ, ofDigits_cons, Nat.add_mul_mod_self_left,
        Nat.mod_eq_of_lt hd, Nat.add_mul_div_left _ _ (Nat.two_pow_pos w), Nat.div_eq_of_lt hd,
        Nat.zero_add, ih fun e he => hds e (by simp [he])]

/-- Digits do not depend on what lies above their places. -/
theorem digits_mod (w n x : ℕ) : digits w n (x % 2 ^ (w * n)) = digits w n x := by
  have h := digits_ofDigits fun d (hd : d ∈ digits w n x) => digits_lt hd
  rwa [digits_length, ofDigits_digits] at h

/-! ### Parts of a list of bits -/

theorem digits_take (w n k x : ℕ) : (digits w n x).take k = digits w (min k n) x := by
  induction n generalizing k x with
  | zero => simp [digits]
  | succ n ih =>
      cases k with
      | zero => simp [digits]
      | succ k => rw [Nat.succ_min_succ, digits_succ, digits_succ, List.take_succ_cons, ih]

theorem digits_drop (w n k x : ℕ) :
    (digits w n x).drop k = digits w (n - k) (x / 2 ^ (w * k)) := by
  induction k generalizing n x with
  | zero => simp
  | succ k ih =>
      cases n with
      | zero => simp [digits]
      | succ n =>
          rw [digits_succ, List.drop_succ_cons, ih, Nat.div_div_eq_div_mul, ← Nat.pow_add,
            Nat.succ_sub_succ, Nat.mul_succ, Nat.add_comm w]

theorem ofDigits_take_bits {n x : ℕ} (hx : x < 2 ^ n) (k : ℕ) :
    ofDigits 1 ((bits n x).take k) = x % 2 ^ k := by
  rw [bits, digits_take, ofDigits_digits, Nat.one_mul]
  rcases le_total k n with hk | hk
  · rw [Nat.min_eq_left hk]
  · rw [Nat.min_eq_right hk, Nat.mod_eq_of_lt hx,
      Nat.mod_eq_of_lt (hx.trans_le (Nat.pow_le_pow_right Nat.two_pos hk))]

end NonNative
