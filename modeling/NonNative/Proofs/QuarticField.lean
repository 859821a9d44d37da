import Mathlib.FieldTheory.KummerExtension
import Mathlib.NumberTheory.LegendreSymbol.Basic
import NonNative.Extension.Field
import NonNative.Proofs.Polynomials

/-!
The quartic extension of the BabyBear field as an abstract field. The polynomial
`X ^ 4 - 11` is irreducible: 11 is no square modulo the prime, and in the
quadratic extension its root is none, because the norm of the root is -11. So
the residue classes modulo the polynomial are a field; its elements have four
coordinates, and the inverse found by the Euclidean algorithm is the inverse of
the field.
-/

namespace NonNative

open Polynomial IntermediateField

/-! ### Irreducibility -/

/-- A residue whose power with half the exponent of the group is not one is no
square. -/
theorem BabyBear.not_isSquare {a : ℕ} (ha : (a : ZMod prime) ≠ 0)
    (hpow : powMod a (prime / 2) prime ≠ 1) : ¬ IsSquare (a : ZMod prime) := by
  rw [ZMod.euler_criterion prime ha, cast_pow_eq_one_iff (by decide)]
  exact hpow

theorem BabyBear.not_isSquare_nonResidue : ¬ IsSquare (nonResidue : ZMod prime) :=
  not_isSquare (by decide) (by decide)

theorem BabyBear.not_isSquare_neg_nonResidue : ¬ IsSquare (-nonResidue : ZMod prime) := by
  have hcast : (-nonResidue : ZMod prime) = (prime - nonResidue : ℕ) := by decide
  rw [hcast]
  exact not_isSquare (by decide) (by decide)

/-- The polynomial `X ^ 4 - 11`. -/
noncomputable def quarticModulus : (ZMod BabyBear.prime)[X] :=
  X ^ extensionDegree - C (nonResidue : ZMod BabyBear.prime)

theorem irreducible_quarticModulus : Irreducible quarticModulus := by
  have hsquare : Irreducible (X ^ 2 - C (nonResidue : ZMod BabyBear.prime)) := by
    refine X_pow_sub_C_irreducible_of_prime Nat.prime_two fun b hb => ?_
    exact BabyBear.not_isSquare_nonResidue ⟨b, by rw [← hb, pow_two]⟩
  refine X_pow_mul_sub_C_irreducible (n := 2) (m := 2) hsquare fun K _ _ x hx => ?_
  have hintegral : IsIntegral (ZMod BabyBear.prime) x := by
    by_contra h
    rw [minpoly.eq_zero h] at hx
    exact hsquare.ne_zero hx.symm
  refine X_pow_sub_C_irreducible_of_prime Nat.prime_two fun b hb => ?_
  -- a root of the root would have a norm whose square is -11
  refine BabyBear.not_isSquare_neg_nonResidue ⟨Algebra.norm _ b, ?_⟩
  rw [← pow_two, ← map_pow, hb, ← adjoin.powerBasis_gen hintegral,
    Algebra.PowerBasis.norm_gen_eq_coeff_zero_minpoly]
  have hdegree : (X ^ 2 - C (nonResidue : ZMod BabyBear.prime)).natDegree = 2 :=
    natDegree_X_pow_sub_C
  rw [adjoin.powerBasis_dim, adjoin.powerBasis_gen, minpoly_gen, hx, hdegree]
  simp

instance : Fact (Irreducible quarticModulus) := ⟨irreducible_quarticModulus⟩

theorem monic_quarticModulus : quarticModulus.Monic := monic_X_pow_sub_C _ (by decide)

theorem degree_quarticModulus : quarticModulus.degree = 4 := degree_X_pow_sub_C (by decide) _

/-! ### Coordinates -/

attribute [ext] Quartic

/-- Combines two elements coordinate by coordinate. -/
def Quartic.zipWith {α β γ : Type} (f : α → β → γ) (a : Quartic α) (b : Quartic β) : Quartic γ :=
  ⟨f a.c0 b.c0, f a.c1 b.c1, f a.c2 b.c2, f a.c3 b.c3⟩

/-- Polynomials over the residues modulo `X ^ 4 - 11`. -/
abbrev QuarticField := AdjoinRoot quarticModulus

namespace QuarticField

noncomputable instance : DecidableEq QuarticField := Classical.decEq _

/-- A residue as an element of the extension. -/
noncomputable abbrev embed : ZMod BabyBear.prime →+* QuarticField := AdjoinRoot.of quarticModulus

/-- The fourth root of 11 that generates the extension. -/
noncomputable abbrev root : QuarticField := AdjoinRoot.root quarticModulus

/-- The class of the polynomial with the given coefficients. -/
noncomputable def ofList (cs : List (ZMod BabyBear.prime)) : QuarticField :=
  AdjoinRoot.mk quarticModulus (ofCoefficients cs)

noncomputable def ofCoordinates (c : Quartic (ZMod BabyBear.prime)) : QuarticField :=
  ofList c.toList

noncomputable def coordinates (z : QuarticField) : Quartic (ZMod BabyBear.prime) :=
  let f := AdjoinRoot.modByMonicHom monic_quarticModulus z
  ⟨f.coeff 0, f.coeff 1, f.coeff 2, f.coeff 3⟩

@[simp] theorem ofList_nil : ofList [] = 0 := map_zero _

@[simp] theorem ofList_cons (c : ZMod BabyBear.prime) (cs : List (ZMod BabyBear.prime)) :
    ofList (c :: cs) = embed c + root * ofList cs := by
  rw [ofList, ofCoefficients, map_add, map_mul, AdjoinRoot.mk_C, AdjoinRoot.mk_X, ofList]

theorem root_pow_four : root ^ 4 = embed nonResidue := by
  have h : AdjoinRoot.mk quarticModulus
      (X ^ extensionDegree - C (nonResidue : ZMod BabyBear.prime)) = 0 := AdjoinRoot.mk_self
  rwa [map_sub, map_pow, AdjoinRoot.mk_X, AdjoinRoot.mk_C, sub_eq_zero] at h

@[simp] theorem coordinates_ofCoordinates (c : Quartic (ZMod BabyBear.prime)) :
    coordinates (ofCoordinates c) = c := by
  have hdegree : (ofCoefficients c.toList).degree < quarticModulus.degree := by
    rw [degree_quarticModulus]
    exact degree_ofCoefficients_lt c.toList
  simp only [coordinates, ofCoordinates, ofList, AdjoinRoot.modByMonicHom_mk,
    (modByMonic_eq_self_iff monic_quarticModulus).2 hdegree, coeff_ofCoefficients]
  rfl

theorem ofCoordinates_injective : Function.Injective ofCoordinates :=
  Function.LeftInverse.injective coordinates_ofCoordinates

@[simp] theorem ofCoordinates_coordinates (z : QuarticField) :
    ofCoordinates (coordinates z) = z := by
  set f := AdjoinRoot.modByMonicHom monic_quarticModulus z with hf
  have hz : AdjoinRoot.mk quarticModulus f = z := AdjoinRoot.mk_leftInverse monic_quarticModulus z
  have hdegree : f.degree < 4 := by
    rw [hf, ← hz, AdjoinRoot.modByMonicHom_mk, ← degree_quarticModulus]
    exact degree_modByMonic_lt _ monic_quarticModulus
  have hcoefficients : ofCoefficients (coordinates z).toList = f := by
    ext i
    rw [coeff_ofCoefficients]
    match i with
    | 0 | 1 | 2 | 3 => rfl
    | i + 4 => exact (coeff_eq_zero_of_degree_lt (hdegree.trans_le (by norm_cast; omega))).symm
  rw [ofCoordinates, ofList, hcoefficients, hz]

theorem coordinates_injective : Function.Injective coordinates :=
  Function.LeftInverse.injective ofCoordinates_coordinates

theorem coordinates_add (z w : QuarticField) :
    (z + w).coordinates = .zipWith (· + ·) z.coordinates w.coordinates := by
  simp [coordinates, Quartic.zipWith]

theorem coordinates_sub (z w : QuarticField) :
    (z - w).coordinates = .zipWith (· - ·) z.coordinates w.coordinates := by
  simp [coordinates, Quartic.zipWith]

theorem coordinates_neg (z : QuarticField) : (-z).coordinates = z.coordinates.map (-·) := by
  simp [coordinates, Quartic.map]

theorem coordinates_mul_embed (z : QuarticField) (x : ZMod BabyBear.prime) :
    (z * embed x).coordinates = z.coordinates.map (· * x) := by
  have hsmul : z * embed x = x • z := by
    rw [Algebra.smul_def, AdjoinRoot.algebraMap_eq, mul_comm]
  simp [hsmul, coordinates, Quartic.map, mul_comm]

theorem coordinates_embed (x : ZMod BabyBear.prime) :
    coordinates (embed x) = ⟨x, 0, 0, 0⟩ := by
  have h : ofCoordinates ⟨x, 0, 0, 0⟩ = embed x := by
    simp [ofCoordinates, Quartic.toList]
  rw [← h, coordinates_ofCoordinates]

theorem coordinates_zero : (0 : QuarticField).coordinates = ⟨0, 0, 0, 0⟩ := by
  rw [← map_zero embed, coordinates_embed]

theorem coordinates_one : (1 : QuarticField).coordinates = ⟨1, 0, 0, 0⟩ := by
  rw [← map_one embed, coordinates_embed]

theorem ofList_append (cs ds : List (ZMod BabyBear.prime)) :
    ofList (cs ++ ds) = ofList cs + root ^ cs.length * ofList ds := by
  induction cs with
  | nil => simp
  | cons c cs ih =>
      rw [List.cons_append, ofList_cons, ofList_cons, ih, List.length_cons]
      ring

end QuarticField

/-! ### Inverses -/

theorem toPolynomial_extensionModulus : extensionModulus.toPolynomial = quarticModulus := by
  simp [extensionModulus, quarticModulus, extensionDegree]
  ring

namespace Quartic

/-- The point of the field with the given coordinates. -/
noncomputable def point (a : Quartic BabyBear) : QuarticField :=
  .ofCoordinates (a.map BabyBear.toResidue)

theorem point_eq_mk (a : Quartic BabyBear) :
    a.point = AdjoinRoot.mk quarticModulus (Poly.toPolynomial a.toList) := rfl

theorem toList_ofListD {α : Type} {l : List α} (default : α) (hl : l.length = 4) :
    (ofListD default l).toList = l := by
  obtain ⟨a, b, c, d, rfl⟩ := List.length_eq_four.1 hl
  rfl

theorem point_toQuartic (f : Poly) :
    f.toQuartic.point = AdjoinRoot.mk quarticModulus f.toPolynomial := by
  have hcombine : _ = f.toPolynomial :=
    Poly.divMod_combine (g := extensionModulus) (by decide) (by decide) f
  rw [point_eq_mk, Poly.toQuartic, toList_ofListD 0 (Poly.length_mod _ _), ← hcombine,
    toPolynomial_extensionModulus, map_add, map_mul, AdjoinRoot.mk_self, mul_zero, zero_add]

@[simp] theorem point_zero : (0 : Quartic BabyBear).point = 0 := by
  change QuarticField.ofList (([0, 0, 0, 0] : List BabyBear).map BabyBear.toResidue) = 0
  simp

theorem point_injective : Function.Injective point := by
  intro a b h
  have hmap := QuarticField.ofCoordinates_injective h
  simp only [map, Quartic.mk.injEq, BabyBear.toResidue_injective.eq_iff] at hmap
  exact Quartic.ext_iff.2 hmap

theorem point_inv (a : Quartic BabyBear) : a.inv.point = a.point⁻¹ := by
  by_cases ha : a = 0
  · rw [inv, if_pos ha, ha, point_zero, inv_zero]
  · rw [inv, if_neg ha, point_toQuartic]
    refine eq_inv_of_mul_eq_one_left ?_
    have hne : Poly.toPolynomial a.toList ≠ 0 := by
      intro hzero
      apply ha
      apply point_injective
      rw [point_zero, point_eq_mk, hzero, map_zero]
    have hdegree : (Poly.toPolynomial a.toList).degree < extensionModulus.toPolynomial.degree := by
      rw [toPolynomial_extensionModulus, degree_quarticModulus]
      exact Poly.degree_toPolynomial_lt a.toList
    have hdvd := Poly.dvd_bezout_left_mul_sub_one
      (toPolynomial_extensionModulus ▸ irreducible_quarticModulus) hne hdegree
    rw [toPolynomial_extensionModulus] at hdvd
    rw [point_eq_mk, ← map_mul, ← map_one (AdjoinRoot.mk quarticModulus), AdjoinRoot.mk_eq_mk]
    exact hdvd

end Quartic

end NonNative
