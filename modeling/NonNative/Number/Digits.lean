/-!
Little-endian digits of `w` bits each, and the bit length of a number. Digits
are cut off one at a time, so every statement about them is an induction on
their number.
-/

namespace NonNative

/-- The number of binary digits of `n`; zero has none. -/
def bitLength (n : Nat) : Nat := if n = 0 then 0 else n.log2 + 1

theorem bitLength_le_iff (n w : Nat) : bitLength n ≤ w ↔ n < 1 <<< w := by
  rw [Nat.shiftLeft_eq, Nat.one_mul, bitLength]
  split
  · next h =>
      subst h
      exact iff_of_true (Nat.zero_le w) (Nat.two_pow_pos w)
  · next h => exact Nat.succ_le_iff.trans (Nat.log2_lt h)

/-- The lowest `w` bits of `x` as a number. Widths beyond that of `x` cost
nothing, however large they are. -/
def lowBits (w x : Nat) : Nat := if bitLength x ≤ w then x else x % (1 <<< w)

theorem lowBits_eq_mod (w x : Nat) : lowBits w x = x % (1 <<< w) := by
  rw [lowBits]
  split
  · next h => exact (Nat.mod_eq_of_lt ((bitLength_le_iff x w).1 h)).symm
  · rfl

/-- The lowest `n` digits of `x` in base `2 ^ w`, least significant first. -/
def digits (w : Nat) : Nat → Nat → List Nat
  | 0, _ => []
  | n + 1, x => lowBits w x :: digits w n (x >>> w)

/-- The number with the given digits in base `2 ^ w`. -/
def ofDigits (w : Nat) : List Nat → Nat
  | [] => 0
  | d :: ds => d + ofDigits w ds <<< w

/-- The lowest `n` bits of `x`. -/
def bits (n x : Nat) : List Nat := digits 1 n x

/-- The lowest `n` bits of an integer in two's complement: those of a negative
number `x` are the complements of the bits of `-x - 1`. -/
def intBits (n : Nat) : Int → List Nat
  | .ofNat x => bits n x
  | .negSucc x => (bits n x).map (1 - ·)

@[simp] theorem digits_length (w n x : Nat) : (digits w n x).length = n := by
  induction n generalizing x with
  | zero => rfl
  | succ n ih => simp [digits, ih]

end NonNative
