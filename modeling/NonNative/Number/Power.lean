/-!
Modular powers by repeated squaring, and the inverse that they give modulo a
prime. The number of squarings is an explicit argument, so the power computes
by structural recursion.
-/

namespace NonNative

/-- The power `b ^ e` modulo `m` for an exponent with at most `steps` bits. -/
def powModSteps (m b : Nat) : Nat → Nat → Nat
  | 0, _ => 1 % m
  | steps + 1, e =>
      let root := powModSteps m b steps (e / 2)
      let square := root * root % m
      if e % 2 = 1 then b * square % m else square

def powMod (b e m : Nat) : Nat := powModSteps m (b % m) (e.log2 + 1) e

/-- The inverse of `x` modulo a prime `m`, as the power with exponent `m - 2`.
Multiples of `m` have no inverse and give `0`. -/
def fermatInverse (x m : Nat) : Nat :=
  if x % m = 0 then 0 else powMod x (m - 2) m

end NonNative
