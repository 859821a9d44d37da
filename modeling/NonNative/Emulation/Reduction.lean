import NonNative.Emulation.Field
import NonNative.Native.Gates

/-!
How elements come into being and how they are reduced. The prover supplies the
limbs of a canonical element, and quotient and remainder of a reduction; the
recorded constraints tie them to the value that is reduced.
-/

namespace NonNative

namespace EmulatedField

variable (E : EmulatedField)

/-- A bound, in bits, on the native value of an element. -/
def boundBits (a : Element) : Int := E.totalBits + a.overflow

/-- A native value below the capacity of the limbs, as an element that is not
reduced. -/
def ofNative (a : Operand) : Circuit Element := do
  let x ← E.native.accept a
  E.native.rangeCheck (.scalar x) E.totalBits "new_element"
  return ⟨.scalar x, 0, []⟩

/-- Constrains `r` to be below the modulus and gives it limbs. Each limb has
its width and the limbs recompose to `r`; and `modulus - 1 - r`, which wraps
around when `r` is too large, has the width of an element. -/
def canonical (r : Operand) (label : String) : Circuit Element := do
  let x ← E.native.accept r
  let limbs ← E.native.hints (digits E.limbBits E.limbCount x.val)
  limbs.forM fun limb => E.native.rangeCheck (.scalar limb) E.limbBits label
  let sum ← E.native.recompose E.limbBits (limbs.map .scalar)
  E.native.assertEqual (.scalar sum) r label
  let gap ← E.native.sub (.int ((E.modulus : Int) - 1)) r
  E.native.rangeCheck (.scalar gap) E.totalBits label
  return ⟨r, 0, limbs.map .scalar⟩

/-- A canonical element from the prover. -/
def witness (n : Int) : Circuit Element := do
  let x ← E.native.hint (n % (E.modulus : Int))
  E.canonical (.scalar x) "new_witness"

/-- The remainder of a native value with at most `bound` bits: the prover
supplies quotient and remainder, the quotient gets a range that keeps
`q * modulus + r` from wrapping around, and the remainder is canonical. -/
def remainder (v : Operand) (bound : Int) (label : String) : Circuit Element := do
  let x ← E.native.accept v
  let q ← E.native.hint (x.val / E.modulus : Nat)
  let r ← E.native.hint (x.val % E.modulus : Nat)
  E.native.rangeCheck (.scalar q) (max (bound - E.modulusBits + 1) 1) label
  let reduced ← E.canonical (.scalar r) label
  let multiple ← E.native.mul (.scalar q) (.int E.modulus)
  let total ← E.native.add (.scalar multiple) (.scalar r)
  E.native.assertEqual v (.scalar total) label
  return reduced

/-- The canonical element congruent to `a`. -/
def reduce (a : Element) : Circuit Element :=
  if a.isCanonical then .done a else E.remainder a.native (E.boundBits a) "reduce"

/-- Reduces an element whose overflow leaves no room for a sum. -/
def withRoom (a : Element) : Circuit Element :=
  if a.overflow + 2 > E.maxOverflow then E.reduce a else .done a

/-- The least multiple of the modulus that is not below the bound of `a`. -/
def paddingMultiple (a : Element) : Except Fault Nat :=
  if E.boundBits a < 0 then .error .negativeWidth
  else .ok (((1 <<< (E.boundBits a).toNat) + E.modulus - 1) / E.modulus * E.modulus)

end EmulatedField

end NonNative
