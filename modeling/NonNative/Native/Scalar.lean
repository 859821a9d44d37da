import NonNative.Number.Digits

/-!
The native field of a constraint system and its values. A value carries the
order of the field it belongs to, because values of several fields may meet;
a system accepts only those of its own.
-/

namespace NonNative

/-- A native field, given by its order. -/
structure NativeField where
  order : Nat
  two_le_order : 2 ≤ order
  deriving DecidableEq

/-- A value of the field of the given order. -/
structure Scalar where
  order : Nat
  val : Nat
  val_lt : val < order
  deriving DecidableEq

namespace NativeField

/-- The width of the order in bits. -/
def bits (F : NativeField) : Nat := bitLength F.order

theorem order_pos (F : NativeField) : 0 < F.order :=
  Nat.lt_of_lt_of_le Nat.zero_lt_two F.two_le_order

theorem residue_lt (F : NativeField) (n : Int) : (n % (F.order : Int)).toNat < F.order := by
  have hpos : (0 : Int) < F.order := Int.natCast_pos.2 F.order_pos
  have hlt := Int.emod_lt_of_pos n hpos
  have hnonneg := Int.emod_nonneg n (Int.ne_of_gt hpos)
  omega

/-- The class of an integer. -/
def lift (F : NativeField) (n : Int) : Scalar :=
  ⟨F.order, (n % (F.order : Int)).toNat, F.residue_lt n⟩

def ofOrder? (n : Nat) : Option NativeField :=
  if h : 2 ≤ n then some ⟨n, h⟩ else none

end NativeField

/-- The scalar field of the BN254 curve. -/
def bn254 : NativeField where
  order := 21888242871839275222246405745257275088548364400416034343698204186575808495617
  two_le_order := by decide

end NonNative
