import Mathlib.Algebra.BigOperators.Intervals
import Mathlib.Data.List.GetD
import NonNative.Proofs.CoefficientField

/-!
The coefficients of a polynomial of any length modulo `X ^ 4 - 11`. Division meets one
coefficient of the dividend at a time: it puts the coefficient below the remainder so far,
the coordinates move up by one place, and the one that is pushed out comes back at the
bottom with the factor 11. So a coordinate gathers every fourth coefficient, each with the
power of 11 for the number of times it has come around. Sums and products of polynomials
are those of the extension, and two polynomials have the same coordinates exactly if they
differ by a multiple of the modulus.
-/

namespace NonNative

open Polynomial

/-! ### Every fourth coefficient -/

/-- The sum of every fourth entry from position `k` on, with the powers of 11 as weights. -/
def foldedSum (c : List ℤ) (k : ℕ) : ℤ :=
  ∑ i ∈ Finset.range c.length with 4 * i + k < c.length, 11 ^ i * c.getD (4 * i + k) 0

/-- Positions past the end do not count. -/
theorem foldedSum_eq_sum_range {c : List ℤ} {n : ℕ} (hn : c.length ≤ n) (k : ℕ) :
    foldedSum c k = ∑ i ∈ Finset.range n, 11 ^ i * c.getD (4 * i + k) 0 := by
  rw [foldedSum, Finset.sum_filter]
  have hterm (i : ℕ) : (if 4 * i + k < c.length then 11 ^ i * c.getD (4 * i + k) 0 else 0) =
      11 ^ i * c.getD (4 * i + k) 0 := by
    split
    · rfl
    · next hend => rw [List.getD_eq_default _ _ (not_lt.1 hend), mul_zero]
  simp only [hterm]
  refine Finset.sum_subset (Finset.range_subset_range.2 hn) fun i _ hi => ?_
  have hlength : c.length ≤ 4 * i + k := by
    have := Finset.mem_range.not.1 hi
    omega
  rw [List.getD_eq_default _ _ hlength, mul_zero]

theorem foldedSum_cons_zero (a : ℤ) (c : List ℤ) :
    foldedSum (a :: c) 0 = a + 11 * foldedSum c 3 := by
  rw [foldedSum_eq_sum_range le_rfl, foldedSum_eq_sum_range le_rfl, List.length_cons,
    Finset.sum_range_succ', Finset.mul_sum, add_comm]
  congr 1
  · simp
  · refine Finset.sum_congr rfl fun i _ => ?_
    rw [show 4 * (i + 1) + 0 = 4 * i + 3 + 1 by ring, List.getD_cons_succ]
    ring

theorem foldedSum_cons_succ (a : ℤ) (c : List ℤ) (k : ℕ) :
    foldedSum (a :: c) (k + 1) = foldedSum c k := by
  rw [foldedSum_eq_sum_range le_rfl, foldedSum_eq_sum_range (Nat.le_succ c.length)]
  refine Finset.sum_congr rfl fun i _ => ?_
  rw [← Nat.add_assoc, List.getD_cons_succ]

/-! ### Division by the modulus -/

namespace Poly

/-- One step of the division turns the coordinates around. -/
theorem toQuartic_cons (a : BabyBear) (f : Poly) :
    toQuartic (a :: f) = ⟨a + .ofNat nonResidue * f.toQuartic.c3,
      f.toQuartic.c0, f.toQuartic.c1, f.toQuartic.c2⟩ := by
  obtain ⟨r₀, r₁, r₂, r₃, hr⟩ := List.length_eq_four.1 (length_mod f extensionModulus)
  have hstep : mod (a :: f) extensionModulus =
      (sub (a :: mod f extensionModulus)
        (scale (lead (a :: mod f extensionModulus) * (lead extensionModulus).inv)
          extensionModulus)).take 4 := rfl
  have hmonic : (lead extensionModulus).inv = 1 := by decide
  rw [toQuartic, hstep, toQuartic, hr, hmonic]
  apply Quartic.ext <;> apply BabyBear.toResidue_injective <;>
    simp [sub, scale, add, lead, extensionModulus, Quartic.ofListD, mul_comm]

theorem toQuartic_map_ofInt (c : List ℤ) :
    toQuartic (c.map BabyBear.ofInt) = .ofResidues ((List.range 4).map (foldedSum c)) := by
  induction c with
  | nil => rfl
  | cons a c ih =>
      have hfold (n : ℤ) : BabyBear.ofInt (a + 11 * n) =
          .ofInt a + .ofNat nonResidue * .ofInt n :=
        BabyBear.toResidue_injective (by simp [nonResidue])
      rw [List.map_cons, toQuartic_cons, ih]
      simp [Quartic.ofResidues, Quartic.ofListD, List.range_succ, foldedSum_cons_zero,
        foldedSum_cons_succ, hfold]

theorem toQuartic_add (f g : Poly) : (f.add g).toQuartic = f.toQuartic + g.toQuartic := by
  apply Quartic.point_injective
  rw [Quartic.point_add, Quartic.point_toQuartic, Quartic.point_toQuartic,
    Quartic.point_toQuartic, toPolynomial_add, map_add]

theorem toQuartic_mul (f g : Poly) : (f.mul g).toQuartic = f.toQuartic * g.toQuartic := by
  apply Quartic.point_injective
  rw [Quartic.point_mul, Quartic.point_toQuartic, Quartic.point_toQuartic,
    Quartic.point_toQuartic, toPolynomial_mul, map_mul]

theorem toQuartic_eq_iff (f g : Poly) :
    f.toQuartic = g.toQuartic ↔ quarticModulus ∣ f.toPolynomial - g.toPolynomial := by
  rw [← Quartic.point_injective.eq_iff, Quartic.point_toQuartic, Quartic.point_toQuartic,
    AdjoinRoot.mk_eq_mk]

/-- Taking coefficients is the quotient map onto the extension, for polynomials of any
length. -/
theorem coefficients_quotientMap :
    (∀ c : List ℤ, coefficients (c.map BabyBear.ofInt) =
      (List.range 4).map fun k => foldedSum c k % (BabyBear.prime : ℤ)) ∧
    ∀ f g : Poly,
      ((f.add g).toPolynomial = f.toPolynomial + g.toPolynomial ∧
        Quartic.sumOfInts f.coefficients g.coefficients = .ok (f.add g).coefficients) ∧
      ((f.mul g).toPolynomial = f.toPolynomial * g.toPolynomial ∧
        Quartic.productOfInts f.coefficients g.coefficients = .ok (f.mul g).coefficients) ∧
      (f.coefficients = g.coefficients ↔ quarticModulus ∣ f.toPolynomial - g.toPolynomial) := by
  refine ⟨fun c => ?_, fun f g => ⟨⟨toPolynomial_add f g, ?_⟩, ⟨toPolynomial_mul f g, ?_⟩, ?_⟩⟩
  · rw [coefficients, toQuartic_map_ofInt, Quartic.toInts_ofResidues (by simp), List.map_map]
    rfl
  · rw [coefficients, coefficients,
      Quartic.sumOfInts_eq (Quartic.length_toInts _) (Quartic.length_toInts _),
      Quartic.ofResidues_toInts, Quartic.ofResidues_toInts, coefficients, toQuartic_add]
  · rw [coefficients, coefficients,
      Quartic.productOfInts_eq (Quartic.length_toInts _) (Quartic.length_toInts _),
      Quartic.ofResidues_toInts, Quartic.ofResidues_toInts, coefficients, toQuartic_mul]
  · rw [coefficients, coefficients, Quartic.toInts_injective.eq_iff, toQuartic_eq_iff]

end Poly

end NonNative
