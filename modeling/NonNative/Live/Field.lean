import NonNative.Emulation.Reduction
import NonNative.Live.Native

/-!
The operations of an emulated field as actions on the log of its system.
-/

namespace NonNative

namespace Live

namespace Field

variable (E : EmulatedField)

/-! ### Reduction -/

def ofNative (a : Operand) : Live Element := do
  let x ← Native.constant E.native a
  Native.rangeCheck E.native (.scalar x) E.totalBits "new_element"
  return ⟨.scalar x, 0, []⟩

def canonical (r : Operand) (label : String) : Live Element := do
  let limbs ← Native.hints E.native (digits E.limbBits E.limbCount) r
  limbs.forM fun limb => Native.rangeCheck E.native (.scalar limb) E.limbBits label
  let sum ← Native.recompose E.native E.limbBits limbs
  Native.assertEqual E.native (.scalar sum) r label
  let gap ← Native.sub E.native (.int ((E.modulus : Int) - 1)) r
  Native.rangeCheck E.native (.scalar gap) E.totalBits label
  return ⟨r, 0, limbs.map .scalar⟩

def witness (n : Int) : Live Element := do
  let x ← Native.constant E.native (.int (n % (E.modulus : Int)))
  canonical E (.scalar x) "new_witness"

def remainder (v : Operand) (bound : Int) (label : String) : Live Element := do
  let q ← Native.hint E.native (· / E.modulus) v
  let r ← Native.hint E.native (· % E.modulus) v
  Native.rangeCheck E.native (.scalar q) (max (bound - E.modulusBits + 1) 1) label
  let reduced ← canonical E (.scalar r) label
  let multiple ← Native.mul E.native (.scalar q) (.int E.modulus)
  let total ← Native.add E.native (.scalar multiple) (.scalar r)
  Native.assertEqual E.native v (.scalar total) label
  return reduced

def reduce (a : Element) : Live Element :=
  if a.isCanonical then return a else remainder E a.native (E.boundBits a) "reduce"

def withRoom (a : Element) : Live Element :=
  if a.overflow + 2 > E.maxOverflow then reduce E a else return a

/-! ### Arithmetic -/

def add (a b : Element) : Live Element := do
  let a ← withRoom E a
  let b ← withRoom E b
  let sum ← Native.add E.native a.native b.native
  return ⟨.scalar sum, max a.overflow b.overflow + 1, []⟩

def negated (a : Element) : Live Scalar := do
  let multiple ← ofExcept (E.paddingMultiple a)
  Native.sub E.native (.int multiple) a.native

def neg (a : Element) : Live Element := do
  let a ← withRoom E a
  let difference ← negated E a
  return ⟨.scalar difference, a.overflow + 1, []⟩

def sub (a b : Element) : Live Element := do
  let a ← withRoom E a
  let b ← withRoom E b
  let minus ← negated E b
  let difference ← Native.add E.native a.native (.scalar minus)
  return ⟨.scalar difference, max a.overflow (b.overflow + 1) + 1, []⟩

def mul (a b : Element) : Live Element := do
  let product ← Native.mul E.native a.native b.native
  remainder E (.scalar product) (E.boundBits a + E.boundBits b) "mul"

def assertEqual (a b : Element) (label : String) : Live Unit := do
  let a ← reduce E a
  let b ← reduce E b
  Native.assertEqual E.native a.native b.native label

def inverse (a : Element) : Live Element := do
  let a ← reduce E a
  let n ← ofExcept a.native.toInt
  let w ← witness E (fermatInverse (n % (E.modulus : Int)).toNat E.modulus)
  let product ← mul E a w
  assertEqual E product E.one "inverse"
  return w

def select (cond : Operand) (a b : Element) : Live Element := do
  let native ← Native.select E.native cond a.native b.native
  let limbs ←
    if a.isCanonical && b.isCanonical then
      (a.limbs.zip b.limbs).mapM fun l => Native.select E.native cond l.1 l.2
    else pure []
  return ⟨.scalar native, max a.overflow b.overflow, limbs.map .scalar⟩

def isZero (a : Element) : Live Scalar := do
  let a ← reduce E a
  Native.isZero E.native a.native

def toBits (a : Element) : Live (List Scalar) := do
  let a ← reduce E a
  Native.toBits E.native a.native E.modulusBits

end Field

end Live

end NonNative
