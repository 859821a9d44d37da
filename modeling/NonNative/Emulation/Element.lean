import NonNative.Native.Operand

/-!
Elements of an emulated field and the description of such a field. An element
is one native operand that may exceed the modulus; its overflow says by how
many bits it may exceed the width of the limbs. Only a canonical element has
limbs.
-/

namespace NonNative

structure Element where
  native : Operand
  overflow : Int
  limbs : List Operand
  deriving DecidableEq

def Element.isCanonical (a : Element) : Bool := !a.limbs.isEmpty

/-- A modulus and its layout in limbs, not yet checked. `packing` is the number
of elements that one native value unpacks into. -/
structure FieldLayout where
  modulus : Int
  limbCount : Int
  limbBits : Int
  isPrime : Bool
  packing : Int
  deriving DecidableEq

namespace FieldLayout

def totalBits (L : FieldLayout) : Int := L.limbCount * L.limbBits

/-- The canonical element of an integer, for any layout. The remainder has the
sign of the modulus and may not lie outside the native field; its limbs are no
larger than it. -/
def load (L : FieldLayout) (F : NativeField) (n : Int) : Except Fault Element :=
  if L.modulus = 0 then .error .divisionByZero
  else if L.limbBits < 0 then .error .negativeWidth
  else do
    let residue ← F.exactly (n.fmod L.modulus)
    let limbs := digits L.limbBits.toNat L.limbCount.toNat residue.val
    return ⟨.scalar residue, 0, limbs.map fun (d : Nat) => .scalar (F.lift d)⟩

end FieldLayout

end NonNative
