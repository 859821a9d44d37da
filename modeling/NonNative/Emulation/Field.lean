import NonNative.Emulation.Element
import NonNative.Number.Primality

/-!
Emulated fields: a modulus with a limb layout that holds it, in a native field
wide enough for the product of two elements with some bits of overflow each.
The overflow budget is what the product leaves free, shared by two factors.
-/

namespace NonNative

structure EmulatedField where
  native : NativeField
  modulus : Nat
  limbCount : Nat
  limbBits : Nat
  two_le_modulus : 2 ≤ modulus
  limbCount_pos : 0 < limbCount
  limbBits_pos : 0 < limbBits
  modulus_fits : bitLength modulus ≤ limbCount * limbBits
  native_wide : 2 * (limbCount * limbBits) + 4 ≤ native.bits

namespace EmulatedField

variable (E : EmulatedField)

/-- The width of an element without overflow. -/
def totalBits : Nat := E.limbCount * E.limbBits

def modulusBits : Nat := bitLength E.modulus

/-- The most bits of overflow that both factors of a product may have, two bits
of the native field being kept free. -/
def maxOverflow : Nat := (E.native.bits - 2 - 2 * E.totalBits) / 2

theorem one_le_maxOverflow : 1 ≤ E.maxOverflow := by
  have hwide := E.native_wide
  simp only [maxOverflow, totalBits]
  omega

/-- The field with the given layout, if it can be emulated. -/
def create (F : NativeField) (L : FieldLayout) : Except Fault EmulatedField :=
  if hlayout : L.limbCount < 1 ∨ L.limbBits < 1 then
    .error (SetupFault.limbLayout L.limbCount L.limbBits).toFault
  else if hmodulus : L.modulus < 2 then
    .error (SetupFault.modulusTooSmall L.modulus).toFault
  else if hfits : L.totalBits < bitLength L.modulus.toNat then
    .error (SetupFault.modulusTooWide (bitLength L.modulus.toNat) L.totalBits).toFault
  else if L.isPrime && !isProbablePrime L.modulus.toNat then
    .error (SetupFault.compositeModulus L.modulus).toFault
  else if hwide : F.bits < 2 * L.totalBits + 4 then
    .error (SetupFault.nativeTooSmall F.bits L.totalBits).toFault
  else
    have hbits : ((L.limbCount.toNat * L.limbBits.toNat : Nat) : Int) = L.totalBits := by
      rw [Int.natCast_mul, Int.toNat_of_nonneg (by omega), Int.toNat_of_nonneg (by omega),
        FieldLayout.totalBits]
    .ok {
      native := F
      modulus := L.modulus.toNat
      limbCount := L.limbCount.toNat
      limbBits := L.limbBits.toNat
      two_le_modulus := by omega
      limbCount_pos := by omega
      limbBits_pos := by omega
      modulus_fits := by omega
      native_wide := by omega }

/-- The canonical element of an integer. -/
def constant (n : Int) : Element :=
  let residue := (n % (E.modulus : Int)).toNat
  ⟨.scalar (E.native.lift residue), 0,
    (digits E.limbBits E.limbCount residue).map fun (d : Nat) => .scalar (E.native.lift d)⟩

def zero : Element := E.constant 0

def one : Element := E.constant 1

end EmulatedField

end NonNative
