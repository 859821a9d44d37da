import NonNative.Extension.BabyBear

/-!
Polynomials over the BabyBear field as lists of coefficients, constant term
first. Zeros at the end of a list are allowed; `trim` removes them. Division
cuts off the lowest coefficient of the dividend, divides the rest, and takes
one more step, so it recurses on the dividend and its remainder always has one
entry less than the divisor.
-/

namespace NonNative

abbrev Poly := List BabyBear

namespace Poly

def add : Poly → Poly → Poly
  | [], g => g
  | f, [] => f
  | a :: f, b :: g => (a + b) :: add f g

def scale (c : BabyBear) (f : Poly) : Poly := f.map (c * ·)

def sub (f g : Poly) : Poly := add f (scale (-1) g)

def mul : Poly → Poly → Poly
  | [], _ => []
  | a :: f, g => add (scale a g) (0 :: mul f g)

/-- The polynomial without zeros at its end. -/
def trim : Poly → Poly
  | [] => []
  | a :: f =>
      match trim f with
      | [] => if a = 0 then [] else [a]
      | b :: g => a :: b :: g

/-- The last coefficient, which for a trimmed polynomial is the leading one. -/
def lead (f : Poly) : BabyBear := f.getLastD 0

/-- Quotient and remainder by a polynomial `g` whose last entry is not zero. -/
def divMod : Poly → Poly → Poly × Poly
  | [], g => ([], List.replicate (g.length - 1) 0)
  | a :: f, g =>
      let rest := divMod f g
      let c := lead (a :: rest.2) * (lead g).inv
      (c :: rest.1, (sub (a :: rest.2) (scale c g)).take (g.length - 1))

def mod (f g : Poly) : Poly := (divMod f g).2

theorem mod_length_le (f g : Poly) : (mod f g).length ≤ g.length - 1 := by
  cases f with
  | nil => simp [mod, divMod]
  | cons a f => exact List.length_take_le _ _

theorem trim_length_le (f : Poly) : (trim f).length ≤ f.length := by
  induction f with
  | nil => simp [trim]
  | cons a f ih =>
      cases htail : trim f with
      | nil =>
          simp only [trim, htail]
          split <;> simp
      | cons b g => simpa [trim, htail] using ih

/-- A common divisor with the two factors that combine to it. -/
structure Bezout where
  gcd : Poly
  left : Poly
  right : Poly
  deriving DecidableEq

/-- The Euclidean algorithm on trimmed polynomials. -/
def euclid (f : Poly) : Poly → Bezout
  | [] => ⟨f, [1], []⟩
  | b :: g =>
      let step := divMod f (b :: g)
      let rest := euclid (b :: g) (trim (mod f (b :: g)))
      ⟨rest.gcd, rest.right, sub rest.left (mul step.1 rest.right)⟩
termination_by g => g.length
decreasing_by
  have hmod := mod_length_le f (b :: g)
  have htrim := trim_length_le (mod f (b :: g))
  simp only [List.length_cons] at *
  omega

/-- The monic greatest common divisor and its factors. -/
def bezout (f g : Poly) : Bezout :=
  let e := euclid (trim f) (trim g)
  let unit := (lead e.gcd).inv
  ⟨scale unit e.gcd, scale unit e.left, scale unit e.right⟩

end Poly

end NonNative
