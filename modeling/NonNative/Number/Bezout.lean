/-!
Inverses modulo an arbitrary positive number by the extended Euclidean
algorithm on natural numbers.
-/

namespace NonNative

/-- The greatest common divisor of `a` and `b` with the coefficients that
combine `a` and `b` to it. -/
def natBezout (a b : Nat) : Nat × Int × Int :=
  if h : b = 0 then (a, 1, 0)
  else
    have : a % b < b := Nat.mod_lt a (Nat.pos_of_ne_zero h)
    let (g, s, t) := natBezout b (a % b)
    (g, t, s - (a / b : Nat) * t)
termination_by b

/-- The inverse of `a` modulo `m`, if the two are coprime. -/
def unitInverse? (a m : Nat) : Option Nat :=
  let (g, s, _) := natBezout a m
  if g = 1 then some (s % m).toNat else none

end NonNative
