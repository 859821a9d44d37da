import NonNative.Emulation.Reduction

/-!
Arithmetic on elements of an emulated field. Sums and differences are left
unreduced and grow the overflow; products, inverses, tests and bits reduce.
-/

namespace NonNative

namespace EmulatedField

variable (E : EmulatedField)

def add (a b : Element) : Circuit Element := do
  let a ← E.withRoom a
  let b ← E.withRoom b
  let sum ← E.native.add a.native b.native
  return ⟨.scalar sum, max a.overflow b.overflow + 1, []⟩

/-- The native value of a multiple of the modulus less `a`. -/
def negated (a : Element) : Circuit Scalar := do
  let multiple ← Circuit.ofExcept (E.paddingMultiple a)
  E.native.sub (.int multiple) a.native

def neg (a : Element) : Circuit Element := do
  let a ← E.withRoom a
  let difference ← E.negated a
  return ⟨.scalar difference, a.overflow + 1, []⟩

def sub (a b : Element) : Circuit Element := do
  let a ← E.withRoom a
  let b ← E.withRoom b
  let minus ← E.negated b
  let difference ← E.native.add a.native (.scalar minus)
  return ⟨.scalar difference, max a.overflow (b.overflow + 1) + 1, []⟩

def mul (a b : Element) : Circuit Element := do
  let product ← E.native.mul a.native b.native
  E.remainder (.scalar product) (E.boundBits a + E.boundBits b) "mul"

/-- Constrains two elements to be congruent. -/
def assertEqual (a b : Element) (label : String) : Circuit Unit := do
  let a ← E.reduce a
  let b ← E.reduce b
  E.native.assertEqual a.native b.native label

/-- The inverse, supplied by the prover and constrained by its product with
`a`. Zero has none, and then that constraint fails. -/
def inverse (a : Element) : Circuit Element := do
  let a ← E.reduce a
  let n ← Circuit.ofExcept a.native.toInt
  let w ← E.witness (fermatInverse (n % (E.modulus : Int)).toNat E.modulus)
  let product ← E.mul a w
  E.assertEqual product E.one "inverse"
  return w

/-- `a` if the condition is one and `b` if it is zero. Limbs are kept when both
elements have them. -/
def select (cond : Operand) (a b : Element) : Circuit Element := do
  let native ← E.native.select cond a.native b.native
  let limbs ←
    if a.isCanonical && b.isCanonical then
      (a.limbs.zip b.limbs).mapM fun (x, y) => E.native.select cond x y
    else pure []
  return ⟨.scalar native, max a.overflow b.overflow, limbs.map .scalar⟩

def isZero (a : Element) : Circuit Scalar := do
  let a ← E.reduce a
  E.native.isZero a.native

/-- The bits of the residue, as many as the modulus has. -/
def toBits (a : Element) : Circuit (List Scalar) := do
  let a ← E.reduce a
  E.native.toBits a.native E.modulusBits

end EmulatedField

end NonNative
