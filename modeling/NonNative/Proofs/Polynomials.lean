import Mathlib.Algebra.Polynomial.FieldDivision
import Mathlib.Tactic.LinearCombination
import NonNative.Extension.Poly
import NonNative.Proofs.Power

/-!
Lists of coefficients as polynomials over the residues modulo the BabyBear prime.
Each operation on lists is that of the polynomials. Division has the identity of
a division with remainder, and the Euclidean algorithm gives a common divisor as
a combination of its arguments.
-/

namespace NonNative

open Polynomial

/-! ### Residues -/

namespace BabyBear

attribute [ext] BabyBear

def toResidue (a : BabyBear) : ZMod prime := a.val

@[simp] theorem toResidue_ofNat (n : ℕ) : (ofNat n).toResidue = n := ZMod.natCast_mod n prime

@[simp] theorem toResidue_ofInt (n : ℤ) : (ofInt n).toResidue = n := by
  have hnonneg : 0 ≤ n % (prime : ℕ) := Int.emod_nonneg n (by decide)
  rw [ofInt, toResidue_ofNat, ZMod.natCast_toNat prime hnonneg, ZMod.intCast_mod]

@[simp] theorem toResidue_zero : (0 : BabyBear).toResidue = 0 := Nat.cast_zero

@[simp] theorem toResidue_one : (1 : BabyBear).toResidue = 1 := Nat.cast_one

@[simp] theorem toResidue_add (a b : BabyBear) :
    (a + b).toResidue = a.toResidue + b.toResidue :=
  (toResidue_ofNat _).trans (Nat.cast_add _ _)

@[simp] theorem toResidue_mul (a b : BabyBear) :
    (a * b).toResidue = a.toResidue * b.toResidue :=
  (toResidue_ofNat _).trans (Nat.cast_mul _ _)

@[simp] theorem toResidue_neg (a : BabyBear) : (-a).toResidue = -a.toResidue := by
  refine (toResidue_ofNat _).trans ?_
  rw [Nat.cast_sub a.val_lt.le, ZMod.natCast_self, zero_sub, toResidue]

@[simp] theorem toResidue_inv (a : BabyBear) : a.inv.toResidue = a.toResidue⁻¹ :=
  (toResidue_ofNat _).trans (fermatInverse_cast prime_prime _)

@[simp] theorem val_toResidue (a : BabyBear) : a.toResidue.val = a.val :=
  ZMod.val_cast_of_lt a.val_lt

theorem toResidue_injective : Function.Injective toResidue := by
  intro a b h
  ext
  rw [← val_toResidue, h, val_toResidue]

@[simp] theorem toResidue_eq_zero_iff {a : BabyBear} : a.toResidue = 0 ↔ a = 0 := by
  rw [← toResidue_zero]
  exact toResidue_injective.eq_iff

end BabyBear

/-! ### Polynomials from coefficients -/

section Coefficients

variable {R : Type*} [CommRing R]

/-- The polynomial with the given coefficients, constant term first. -/
noncomputable def ofCoefficients : List R → R[X]
  | [] => 0
  | c :: cs => C c + X * ofCoefficients cs

theorem coeff_ofCoefficients (cs : List R) (i : ℕ) : (ofCoefficients cs).coeff i = cs.getD i 0 := by
  induction cs generalizing i with
  | nil => simp [ofCoefficients]
  | cons c cs ih =>
      cases i with
      | zero => simp [ofCoefficients]
      | succ i => simp [ofCoefficients, coeff_C_succ, ih]

theorem degree_ofCoefficients_lt (cs : List R) : (ofCoefficients cs).degree < cs.length := by
  rw [degree_lt_iff_coeff_zero]
  intro i hi
  rw [coeff_ofCoefficients, List.getD_eq_getElem?_getD, List.getElem?_eq_none hi, Option.getD_none]

end Coefficients

namespace Poly

noncomputable def toPolynomial (f : Poly) : (ZMod BabyBear.prime)[X] :=
  ofCoefficients (f.map BabyBear.toResidue)

@[simp] theorem toPolynomial_nil : toPolynomial [] = 0 := rfl

@[simp] theorem toPolynomial_cons (a : BabyBear) (f : Poly) :
    toPolynomial (a :: f) = C a.toResidue + X * toPolynomial f := rfl

theorem coeff_toPolynomial (f : Poly) (i : ℕ) :
    (toPolynomial f).coeff i = (f.getD i 0).toResidue := by
  rw [toPolynomial, coeff_ofCoefficients, List.getD_eq_getElem?_getD, List.getD_eq_getElem?_getD,
    List.getElem?_map]
  cases f[i]? <;> simp

theorem degree_toPolynomial_lt (f : Poly) : (toPolynomial f).degree < f.length := by
  simpa [toPolynomial] using degree_ofCoefficients_lt (f.map BabyBear.toResidue)

@[simp] theorem toPolynomial_add (f g : Poly) :
    (add f g).toPolynomial = f.toPolynomial + g.toPolynomial := by
  fun_induction add f g with
  | case1 g => simp
  | case2 f => simp
  | case3 a f b g ih =>
      simp only [toPolynomial_cons, ih, BabyBear.toResidue_add, map_add]
      ring

@[simp] theorem toPolynomial_scale (c : BabyBear) (f : Poly) :
    (scale c f).toPolynomial = C c.toResidue * f.toPolynomial := by
  induction f with
  | nil => simp [scale]
  | cons a f ih =>
      rw [scale] at ih
      simp only [scale, List.map_cons, toPolynomial_cons, ih, BabyBear.toResidue_mul, map_mul]
      ring

@[simp] theorem toPolynomial_sub (f g : Poly) :
    (sub f g).toPolynomial = f.toPolynomial - g.toPolynomial := by
  simp [sub, sub_eq_add_neg]

@[simp] theorem toPolynomial_mul (f g : Poly) :
    (mul f g).toPolynomial = f.toPolynomial * g.toPolynomial := by
  induction f with
  | nil => simp [mul]
  | cons a f ih =>
      simp only [mul, toPolynomial_add, toPolynomial_scale, toPolynomial_cons, ih,
        BabyBear.toResidue_zero, map_zero]
      ring

/-! ### Trimmed polynomials -/

/-- The last entry, if there is one, is not zero. -/
def IsTrimmed (f : Poly) : Prop := f ≠ [] → f.lead ≠ 0

theorem trim_cons_of_ne {a : BabyBear} {f : Poly} (h : trim f ≠ []) :
    trim (a :: f) = a :: trim f := by
  obtain ⟨b, g, hg⟩ := List.exists_cons_of_ne_nil h
  rw [trim, hg]

theorem isTrimmed_trim (f : Poly) : (trim f).IsTrimmed := by
  induction f with
  | nil => exact fun h => (h rfl).elim
  | cons a f ih =>
      by_cases hf : trim f = []
      · by_cases ha : a = 0
        · simp [trim, hf, ha, IsTrimmed]
        · simp [trim, hf, ha, IsTrimmed, lead]
      · rw [trim_cons_of_ne hf]
        intro _
        obtain ⟨b, g, hg⟩ := List.exists_cons_of_ne_nil hf
        have hlead := ih hf
        rw [hg] at hlead ⊢
        simpa [lead] using hlead

@[simp] theorem toPolynomial_trim (f : Poly) : (trim f).toPolynomial = f.toPolynomial := by
  induction f with
  | nil => rfl
  | cons a f ih =>
      by_cases hf : trim f = []
      · have hzero : toPolynomial f = 0 := by rw [← ih, hf, toPolynomial_nil]
        by_cases ha : a = 0 <;> simp [trim, hf, ha, hzero]
      · rw [trim_cons_of_ne hf, toPolynomial_cons, toPolynomial_cons, ih]

/-- The last entry is the coefficient of the highest degree that the list has
room for. -/
theorem toResidue_lead (f : Poly) : f.lead.toResidue = f.toPolynomial.coeff (f.length - 1) := by
  rw [coeff_toPolynomial, lead, List.getLastD_eq_getLast?, List.getLast?_eq_getElem?,
    List.getD_eq_getElem?_getD]

/-! ### Division -/

theorem toPolynomial_replicate_zero (n : ℕ) : toPolynomial (List.replicate n 0) = 0 := by
  induction n with
  | zero => rfl
  | succ n ih => simp [List.replicate_succ, ih]

/-- A list can be cut where the coefficients that are cut off vanish. -/
theorem toPolynomial_take {f : Poly} {n : ℕ} (hlength : f.length ≤ n + 1)
    (hlast : f.toPolynomial.coeff n = 0) : toPolynomial (f.take n) = f.toPolynomial := by
  ext i
  rcases lt_trichotomy i n with hi | rfl | hi
  · simp [coeff_toPolynomial, List.getD_eq_getElem?_getD, hi]
  · simp [hlast, coeff_toPolynomial, List.getD_eq_getElem?_getD]
  · have hnone : f[i]? = none := List.getElem?_eq_none (by omega)
    simp [coeff_toPolynomial, List.getD_eq_getElem?_getD, List.getElem?_take, hnone]

theorem length_add (f g : Poly) : (add f g).length = max f.length g.length := by
  fun_induction add f g with
  | case1 g => simp
  | case2 f => simp
  | case3 a f b g ih => simp only [List.length_cons, ih]; omega

theorem length_mod (f g : Poly) : (mod f g).length = g.length - 1 := by
  cases f with
  | nil => simp [mod, divMod]
  | cons a f => simp [mod, divMod, sub, scale, length_add]

/-- Quotient and remainder combine to the dividend. -/
theorem divMod_combine {g : Poly} (hg : g ≠ []) (hlead : g.lead ≠ 0) (f : Poly) :
    (divMod f g).1.toPolynomial * g.toPolynomial + (mod f g).toPolynomial = f.toPolynomial := by
  induction f with
  | nil => simp [mod, divMod, toPolynomial_replicate_zero]
  | cons a f ih =>
      have hpos : 0 < g.length := List.length_pos_iff.2 hg
      have hlength : (a :: (mod f g)).length = g.length := by
        rw [List.length_cons, length_mod]
        omega
      set c := lead (a :: (mod f g)) * (lead g).inv with hc
      -- the choice of `c` makes the coefficient of the highest degree vanish
      have hcancel : (sub (a :: (mod f g)) (scale c g)).toPolynomial.coeff
          (g.length - 1) = 0 := by
        have hne : g.lead.toResidue ≠ 0 := mt BabyBear.toResidue_eq_zero_iff.1 hlead
        have hhead := toResidue_lead (a :: (mod f g))
        rw [hlength] at hhead
        rw [toPolynomial_sub, toPolynomial_scale, coeff_sub, coeff_C_mul, ← toResidue_lead,
          ← hhead, hc, BabyBear.toResidue_mul, BabyBear.toResidue_inv, inv_mul_cancel_right₀ hne,
          sub_self]
      have hcut : (sub (a :: (mod f g)) (scale c g)).length ≤ g.length - 1 + 1 := by
        rw [sub, length_add, hlength, scale, scale, List.length_map, List.length_map, max_self]
        omega
      have hquotient : (divMod (a :: f) g).1 = c :: (divMod f g).1 := rfl
      have hremainder : mod (a :: f) g =
          (sub (a :: mod f g) (scale c g)).take (g.length - 1) := rfl
      rw [hquotient, hremainder, toPolynomial_take hcut hcancel]
      simp only [toPolynomial_sub, toPolynomial_scale, toPolynomial_cons]
      linear_combination X * ih

/-! ### The Euclidean algorithm -/

/-- A common divisor of two polynomials that is a combination of them. -/
structure IsBezout (f g : Poly) (e : Bezout) : Prop where
  combine : e.left.toPolynomial * f.toPolynomial + e.right.toPolynomial * g.toPolynomial =
    e.gcd.toPolynomial
  dvd_left : e.gcd.toPolynomial ∣ f.toPolynomial
  dvd_right : e.gcd.toPolynomial ∣ g.toPolynomial
  trimmed : e.gcd.IsTrimmed

theorem isBezout_euclid {f g : Poly} (hf : f.IsTrimmed) (hg : g.IsTrimmed) :
    IsBezout f g (euclid f g) := by
  induction f, g using euclid.induct with
  | case1 f =>
      rw [euclid]
      exact ⟨by simp, dvd_rfl, dvd_zero _, hf⟩
  | case2 f b g ih =>
      have hstep := divMod_combine (List.cons_ne_nil b g) (hg (List.cons_ne_nil b g)) f
      have hrest := ih hg (isTrimmed_trim _)
      have hcombine := hrest.combine
      have hmod := hrest.dvd_right
      rw [toPolynomial_trim] at hcombine hmod
      rw [euclid]
      refine ⟨?_, ?_, hrest.dvd_left, hrest.trimmed⟩
      · simp only [toPolynomial_sub, toPolynomial_mul]
        rw [← hstep]
        linear_combination hcombine
      · rw [← hstep]
        exact dvd_add (hrest.dvd_left.mul_left _) hmod

/-- A trimmed list of degree zero is the constant of its last entry. -/
theorem IsTrimmed.toPolynomial_eq_C {f : Poly} (hf : f.IsTrimmed) (hne : f ≠ [])
    (hdegree : f.toPolynomial.natDegree = 0) : f.toPolynomial = C f.lead.toResidue := by
  have hlead : f.toPolynomial.coeff (f.length - 1) ≠ 0 := by
    rw [← toResidue_lead]
    exact mt BabyBear.toResidue_eq_zero_iff.1 (hf hne)
  have hle := le_natDegree_of_ne_zero hlead
  rw [toResidue_lead, show f.length - 1 = 0 by omega]
  exact eq_C_of_natDegree_eq_zero hdegree

/-- The left factor is an inverse modulo an irreducible polynomial of larger
degree. -/
theorem dvd_bezout_left_mul_sub_one {f g : Poly} (hg : Irreducible g.toPolynomial)
    (hf : f.toPolynomial ≠ 0) (hdegree : f.toPolynomial.degree < g.toPolynomial.degree) :
    g.toPolynomial ∣ (bezout f g).left.toPolynomial * f.toPolynomial - 1 := by
  have hbezout := isBezout_euclid (isTrimmed_trim f) (isTrimmed_trim g)
  obtain ⟨hcombine, hleft, hright, htrimmed⟩ := hbezout
  rw [toPolynomial_trim] at hleft hright
  rw [toPolynomial_trim, toPolynomial_trim] at hcombine
  set d := (euclid (trim f) (trim g)).gcd with hd
  -- a divisor of both is not associated to the irreducible one, so it is a unit
  have hunit : IsUnit d.toPolynomial := by
    refine (hg.dvd_iff.1 hright).resolve_right fun hassociated => ?_
    have hle := degree_le_of_dvd (hassociated.dvd.trans hleft) hf
    exact hle.not_gt hdegree
  have hne : d ≠ [] := by
    rintro hnil
    rw [hnil, toPolynomial_nil] at hunit
    exact not_isUnit_zero hunit
  have hconstant := htrimmed.toPolynomial_eq_C hne (natDegree_eq_zero_of_isUnit hunit)
  have hlead : d.lead.toResidue ≠ 0 := mt BabyBear.toResidue_eq_zero_iff.1 (htrimmed hne)
  refine ⟨-(C d.lead.toResidue⁻¹ * (euclid (trim f) (trim g)).right.toPolynomial), ?_⟩
  have hone : C d.lead.toResidue⁻¹ * d.toPolynomial = 1 := by
    rw [hconstant, ← C_mul, inv_mul_cancel₀ hlead, C_1]
  rw [bezout]
  simp only [toPolynomial_scale, BabyBear.toResidue_inv]
  linear_combination C d.lead.toResidue⁻¹ * hcombine + hone

end Poly

end NonNative
