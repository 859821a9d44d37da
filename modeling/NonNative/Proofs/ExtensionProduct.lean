import NonNative.Proofs.CoefficientField
import NonNative.Proofs.ExtensionArithmetic

/-!
Products of extension values against products of polynomials. The gadget
accumulates products of native values, unreduced, and folds them; the reference
takes the remainder of a product of polynomials. Both give the product of two
points of the quartic field, for every native field and for factors with any
overflow within the budget.
-/

namespace NonNative

open Circuit QuarticField

namespace EmulatedField

variable {E : EmulatedField}

/-- The element holds the native value `v` within its own bound, and its overflow is
within the budget. Nothing is said about its limbs. -/
structure Bounds (E : EmulatedField) (a : Element) (v : ℕ) : Prop where
  native : ∃ s : Scalar, a.native = .scalar s ∧ s.order = E.native.order ∧ s.val = v
  budget : a.overflow ≤ E.maxOverflow
  bound : v < 2 ^ (E.boundBits a).toNat

variable {a b : Element} {v w : ℕ}

theorem Bounds.native_eq (h : E.Bounds a v) : a.native = .scalar (E.native.lift v) := by
  obtain ⟨s, hs, horder, rfl⟩ := h.native
  rw [hs, E.native.lift_val_self horder]

theorem Bounds.lt_two_pow (h : E.Bounds a v) : v < 2 ^ (E.totalBits + E.maxOverflow) := by
  have hbudget := h.budget
  refine h.bound.trans_le (Nat.pow_le_pow_right Nat.two_pos ?_)
  rw [boundBits]
  omega

theorem Bounds.mul_lt_order (ha : E.Bounds a v) (hb : E.Bounds b w) :
    v * w < E.native.order := by
  have hbits := E.native_bits_bounds
  calc
    v * w < 2 ^ (E.totalBits + E.maxOverflow) * 2 ^ (E.totalBits + E.maxOverflow) :=
      Nat.mul_lt_mul'' ha.lt_two_pow hb.lt_two_pow
    _ = 2 ^ (E.totalBits + E.maxOverflow + (E.totalBits + E.maxOverflow)) :=
      (Nat.pow_add _ _ _).symm
    _ ≤ E.native.order := E.two_pow_le_order (by omega)

/-- The bounds add up to one of the product. A bound below zero leaves only zero. -/
theorem Bounds.mul_lt_two_pow (ha : E.Bounds a v) (hb : E.Bounds b w) :
    v * w < 2 ^ (E.boundBits a + E.boundBits b).toNat := by
  have hv := ha.bound
  have hw := hb.bound
  rcases lt_or_ge (E.boundBits a) 0 with hneg | hnonneg
  · rw [Int.toNat_of_nonpos hneg.le, Nat.pow_zero, Nat.lt_one_iff] at hv
    rw [hv, Nat.zero_mul]
    exact Nat.two_pow_pos _
  rcases lt_or_ge (E.boundBits b) 0 with hneg' | hnonneg'
  · rw [Int.toNat_of_nonpos hneg'.le, Nat.pow_zero, Nat.lt_one_iff] at hw
    rw [hw, Nat.mul_zero]
    exact Nat.two_pow_pos _
  · rw [Int.toNat_add hnonneg hnonneg', Nat.pow_add]
    exact Nat.mul_lt_mul'' hv hw

/-- An honest product of two such elements is reduced. -/
theorem Bounds.honest_mul (ha : E.Bounds a v) (hb : E.Bounds b w) :
    (E.mul a b).Determines .honest (E.constant (v * w : ℕ)) [] := by
  rw [mul, ha.native_eq, hb.native_eq,
    NativeField.mul_eq (E.native.accept_lift _) (E.native.accept_lift _), pure_bind, ← Nat.cast_mul]
  exact E.honest_remainder (ha.mul_lt_order hb) (ha.mul_lt_two_pow hb) _

/-- The element reduces to the canonical element with the representative `n`, and
every constraint of the reduction holds. -/
def ReducesTo (E : EmulatedField) (a : Element) (n : ℤ) : Prop :=
  ∃ r, (E.reduce a).run.result = .ok r ∧ r.isCanonical ∧ r.native.toInt = .ok n ∧
    ∀ k ∈ (E.reduce a).run.constraints, k.Holds

theorem Encodes.reducesTo {x : ZMod E.modulus} (h : E.Encodes a x) : E.ReducesTo a x.val := by
  have hreduce : (E.reduce a).Determines .honest (E.constant x.val) [] := h.determines_reduce
  exact ⟨_, hreduce.result, E.isCanonical_constant _, toInt_constant_val x,
    Log.unsatisfied_eq_nil_iff.1 hreduce.unsatisfied⟩

end EmulatedField

/-! ### Coordinates as integers -/

namespace Quartic

/-- The integers of four numbers. -/
def numbers (x : Quartic ℕ) : List ℤ := x.toList.map fun (n : ℕ) => (n : ℤ)

theorem point_ofResidues_numbers (x : Quartic ℕ) :
    (ofResidues x.numbers).point =
      ofCoordinates (x.map fun (n : ℕ) => (n : ZMod BabyBear.prime)) := by
  simp [ofResidues, numbers, point, ofListD, map, toList]

theorem toInts_eq_coordinates (a : Quartic BabyBear) :
    a.toInts = a.point.coordinates.toList.map fun (x : ZMod BabyBear.prime) => (x.val : ℤ) := by
  rw [point, coordinates_ofCoordinates]
  simp only [toInts, map, toList, List.map_cons, List.map_nil, BabyBear.val_toResidue]

end Quartic

namespace Chip

variable {C : Chip}

theorem gives_mul_of_bounds {a b : Element} {x y : ZMod BabyBear.prime}
    (ha : ∃ v : ℕ, C.field.Bounds a v ∧ (v : ZMod BabyBear.prime) = x)
    (hb : ∃ w : ℕ, C.field.Bounds b w ∧ (w : ZMod BabyBear.prime) = y) :
    (C.field.mul a b).Gives .honest [] fun c => C.Encodes c (x * y) := by
  obtain ⟨v, hv, rfl⟩ := ha
  obtain ⟨w, hw, rfl⟩ := hb
  refine ⟨_, ?_, hv.honest_mul hw⟩
  have hconstant := C.field.encodes_constant (v * w : ℕ)
  rw [Int.cast_natCast] at hconstant
  rw [← Nat.cast_mul]
  exact hconstant

theorem EncodesExt.reducesTo {c : ExtensionValue} {z : QuarticField} (h : C.EncodesExt c z) :
    List.Forall₂ C.field.ReducesTo c.toList (z.coordinates.toList.map
      fun (x : ZMod BabyBear.prime) => (x.val : ℤ)) := by
  rw [List.forall₂_map_right_iff]
  exact (Quartic.Rel.toList h).imp fun _ _ hx => hx.reducesTo

/-- The gadget and the product of polynomials agree on all factors within the budget:
the gadget returns a value, each of its coordinates reduces to the corresponding
coefficient, and no constraint on the way fails. -/
theorem mulExt_reducesTo_product {a b : ExtensionValue} {x y : Quartic ℕ}
    (ha : Quartic.Rel C.field.Bounds a x) (hb : Quartic.Rel C.field.Bounds b y) :
    ∃ c entries, (C.mulExt a b).run.result = .ok c ∧
      (∀ k ∈ (C.mulExt a b).run.constraints, k.Holds) ∧
      Quartic.productOfInts x.numbers y.numbers = .ok entries ∧
      List.Forall₂ C.field.ReducesTo c.toList entries := by
  have hclasses {d : ExtensionValue} {u : Quartic ℕ} (hd : Quartic.Rel C.field.Bounds d u) :
      Quartic.Rel (fun e z => ∃ v : ℕ, C.field.Bounds e v ∧ (v : ZMod BabyBear.prime) = z) d
        (u.map fun (n : ℕ) => (n : ZMod BabyBear.prime)) :=
    ⟨⟨_, hd.c0, rfl⟩, ⟨_, hd.c1, rfl⟩, ⟨_, hd.c2, rfl⟩, ⟨_, hd.c3, rfl⟩⟩
  have hbudget : Prover.honest = .arbitrary → 2 ≤ C.field.maxOverflow := fun h => nomatch h
  obtain ⟨c, hc, hrun⟩ :=
    gives_mulExt_of_gives_mul hbudget gives_mul_of_bounds (hclasses ha) (hclasses hb)
  rw [← Quartic.point_ofResidues_numbers, ← Quartic.point_ofResidues_numbers,
    ← Quartic.point_mul] at hc
  refine ⟨c, _, hrun.result, Log.unsatisfied_eq_nil_iff.1 hrun.unsatisfied,
    Quartic.productOfInts_eq rfl rfl, ?_⟩
  rw [Quartic.toInts_eq_coordinates]
  exact hc.reducesTo

/-- The narrowest native field of a chip, with a budget of a single bit. -/
def narrowest : Chip := ⟨⟨147573952589676412931, by decide⟩, by decide⟩

/-- The largest number within the budget, with limbs that do not fit it. -/
def largest : Element :=
  ⟨.scalar (narrowest.native.lift (2 ^ 33 - 1 : ℕ)), 1, [.int 7]⟩

/-- The only number of a negative bound. -/
def nought : Element := ⟨.scalar (narrowest.native.lift (0 : ℕ)), -40, []⟩

theorem mulExt_largest :
    narrowest.field.Bounds largest (2 ^ 33 - 1) ∧ narrowest.field.Bounds nought 0 ∧
    ∃ c entries, (narrowest.mulExt ⟨largest, largest, nought, largest⟩
        ⟨largest, nought, largest, largest⟩).run.result = .ok c ∧
      Quartic.productOfInts (Quartic.numbers ⟨2 ^ 33 - 1, 2 ^ 33 - 1, 0, 2 ^ 33 - 1⟩)
        (Quartic.numbers ⟨2 ^ 33 - 1, 0, 2 ^ 33 - 1, 2 ^ 33 - 1⟩) = .ok entries ∧
      List.Forall₂ narrowest.field.ReducesTo c.toList entries := by
  have hlargest : narrowest.field.Bounds largest (2 ^ 33 - 1) :=
    ⟨⟨_, rfl, rfl, rfl⟩, by decide, by decide⟩
  have hnought : narrowest.field.Bounds nought 0 := ⟨⟨_, rfl, rfl, rfl⟩, by decide, by decide⟩
  obtain ⟨c, entries, hresult, -, hproduct, hreduces⟩ :=
    mulExt_reducesTo_product (C := narrowest) (a := ⟨largest, largest, nought, largest⟩)
      (b := ⟨largest, nought, largest, largest⟩) (x := ⟨2 ^ 33 - 1, 2 ^ 33 - 1, 0, 2 ^ 33 - 1⟩)
      (y := ⟨2 ^ 33 - 1, 0, 2 ^ 33 - 1, 2 ^ 33 - 1⟩)
      ⟨hlargest, hlargest, hnought, hlargest⟩ ⟨hlargest, hnought, hlargest, hlargest⟩
  exact ⟨hlargest, hnought, c, entries, hresult, hproduct, hreduces⟩

end Chip

end NonNative
