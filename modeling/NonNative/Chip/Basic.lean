import NonNative.Emulation.Arithmetic
import NonNative.Extension.BabyBear

/-!
BabyBear gadgets over a native field: the emulated field with one limb of 32
bits, inequality of base values, the unpacking of a native value into limbs,
and printing.
-/

namespace NonNative

/-- The width of the single limb of a BabyBear element. -/
abbrev BabyBear.limbBits : Nat := 32

/-- How many limbs a native value unpacks into. -/
abbrev BabyBear.packing : Nat := 8

def BabyBear.layout : FieldLayout :=
  ⟨BabyBear.prime, 1, BabyBear.limbBits, true, BabyBear.packing⟩

/-- A native field that has room for BabyBear elements. -/
structure Chip where
  native : NativeField
  wide : 2 * BabyBear.limbBits + 4 ≤ native.bits

namespace Chip

def create (F : NativeField) : Except Fault Chip :=
  if h : 2 * BabyBear.limbBits + 4 ≤ F.bits then .ok ⟨F, h⟩
  else .error (SetupFault.nativeTooSmall F.bits BabyBear.limbBits).toFault

/-- The BabyBear field emulated in the native field. -/
def field (C : Chip) : EmulatedField where
  native := C.native
  modulus := BabyBear.prime
  limbCount := 1
  limbBits := BabyBear.limbBits
  two_le_modulus := by decide
  limbCount_pos := by decide
  limbBits_pos := by decide
  modulus_fits := by decide
  native_wide := C.wide

def overBn254 : Chip := ⟨bn254, by decide⟩

/-- A BabyBear constant over BN254, whatever field a chip is over. -/
def constant (n : Int) : Element := overBn254.field.constant n

variable (C : Chip)

def assertNotEqual (a b : Element) : Circuit Unit := do
  let difference ← C.field.sub a b
  let flag ← C.field.isZero difference
  C.native.assertEqual (.scalar flag) (.int 0) "assert_not_equal"

/-- Cuts a list into `n` chunks of length `w`; past the end they are empty. -/
def chunks {α : Type} (w : Nat) : Nat → List α → List (List α)
  | 0, _ => []
  | n + 1, l => l.take w :: chunks w n (l.drop w)

/-- The limbs of a native value, from all of its bits. They are not reduced. -/
def unpack (a : Operand) : Circuit (List Element) := do
  let bs ← C.native.toBits a C.native.bits
  (chunks BabyBear.limbBits BabyBear.packing bs).mapM fun chunk => do
    let x ← C.native.ofBits (chunk.map .scalar)
    C.field.ofNative (.scalar x)

/-- Prints the residue of an element. Nothing is recorded, and the value may be
of any field. -/
def print (a : Element) : Circuit Unit := do
  let n ← Circuit.ofExcept a.native.toInt
  .tell (.printed s!"{n % (BabyBear.prime : Int)}\n")

end Chip

end NonNative
