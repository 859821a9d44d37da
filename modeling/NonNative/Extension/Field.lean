import NonNative.Extension.Poly
import NonNative.Extension.Quartic
import NonNative.Fault

/-!
The quartic extension of the BabyBear field: polynomials modulo `x ^ 4 - 11`.
Products are remainders of products of polynomials, and the inverse is the
factor of the element in the combination that gives the greatest common
divisor with the modulus.
-/

namespace NonNative

/-- The degree of the extension. -/
def extensionDegree : Nat := 4

/-- The number whose fourth root generates the extension. -/
def nonResidue : Nat := 11

/-- The polynomial `x ^ 4 - 11`. -/
def extensionModulus : Poly := [-BabyBear.ofNat nonResidue, 0, 0, 0, 1]

/-- The residue class of a polynomial. -/
def Poly.toQuartic (f : Poly) : Quartic BabyBear :=
  .ofListD 0 (f.mod extensionModulus)

namespace Quartic

instance : Zero (Quartic BabyBear) := ⟨⟨0, 0, 0, 0⟩⟩

instance : Add (Quartic BabyBear) := ⟨fun a b => (Poly.add a.toList b.toList).toQuartic⟩

instance : Mul (Quartic BabyBear) := ⟨fun a b => (Poly.mul a.toList b.toList).toQuartic⟩

/-- The inverse; zero is its own. -/
def inv (a : Quartic BabyBear) : Quartic BabyBear :=
  if a = 0 then 0 else (Poly.bezout a.toList extensionModulus).left.toQuartic

/-- The element with the given integers as coefficients. -/
def ofInts (l : List Int) : Except Fault (Quartic BabyBear) :=
  match ofList? (l.map BabyBear.ofInt) with
  | some a => .ok a
  | none => .error (.coefficientCount l.length)

/-- The inverse of a list of coefficients. A list of multiples of the prime is
zero whatever its length. -/
def invOfInts (l : List Int) : Except Fault (Quartic BabyBear) :=
  if l.all (BabyBear.ofInt · = 0) then .ok 0 else (ofInts l).map inv

/-- The coefficients as integers, each the least representative of its residue. -/
def toInts (a : Quartic BabyBear) : List Int := a.toList.map fun c => (c.val : Int)

/-- The sum of two lists of coefficients. -/
def sumOfInts (a b : List Int) : Except Fault (List Int) := do
  return ((← ofInts a) + (← ofInts b)).toInts

/-- The product of two lists of coefficients. -/
def productOfInts (a b : List Int) : Except Fault (List Int) := do
  return ((← ofInts a) * (← ofInts b)).toInts

/-- The inverse of a list of coefficients. -/
def inverseOfInts (a : List Int) : Except Fault (List Int) := (invOfInts a).map toInts

end Quartic

/-- The coefficients of the class of a polynomial. -/
def Poly.coefficients (f : Poly) : List Int := f.toQuartic.toInts

end NonNative
