import NonNative.Fault
import NonNative.Number.Bezout
import NonNative.Number.Power

/-!
The inverse of an integer modulo an integer of either sign. For a positive
modulus it is a power with exponent `m - 2`, which is an inverse when the
modulus is prime. For a negative modulus the exponent is negative, so the base
is inverted first, and the result has the sign of the modulus.
-/

namespace NonNative

/-- The power with exponent `m - 2` modulo a negative `m = -k`: the inverse of
the base to the power `k + 2`, shifted to lie above `m`. -/
def negativeModulusInverse (x : Int) (k : Nat) : Except Fault Int :=
  match unitInverse? (x % k).toNat k with
  | none => .error .notInvertible
  | some y => .ok (powMod y (k + 2) k - k)

/-- The inverse of `x` modulo `m`; multiples of `m` give `0`. -/
def inverseMod (x m : Int) : Except Fault Int :=
  if m = 0 then .error .divisionByZero
  else if x % m = 0 then .ok 0
  else if 0 < m then .ok (fermatInverse (x % m).toNat m.toNat)
  else negativeModulusInverse x m.natAbs

end NonNative
