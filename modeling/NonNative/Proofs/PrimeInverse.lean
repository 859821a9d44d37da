import NonNative.Number.Inverse
import NonNative.Proofs.CoefficientField

/-!
Inverses of integers modulo a prime. The power with exponent `m - 2` is the least
representative of the inverse residue, and a residue has only one, so the answer is known
from its range and its residue. Inverting twice therefore reduces the integer, and the
Euclidean algorithm on polynomials, which inverts a constant of the quartic extension
in another way, arrives at the same number.
-/

namespace NonNative

/-- The least representative of the inverse residue, where zero is its own inverse. -/
structure IsLeastInverse (m : ℕ) (x y : ℤ) : Prop where
  nonneg : 0 ≤ y
  lt : y < m
  residue : (y : ZMod m) = (x : ZMod m)⁻¹

variable {m : ℕ} {x y : ℤ}

theorem IsLeastInverse.eq {z : ℤ} (hy : IsLeastInverse m x y) (hz : IsLeastInverse m x z) :
    y = z := by
  have hmod : y % m = z % m :=
    (ZMod.intCast_eq_intCast_iff' y z m).1 (hy.residue.trans hz.residue.symm)
  rwa [Int.emod_eq_of_lt hy.nonneg hy.lt, Int.emod_eq_of_lt hz.nonneg hz.lt] at hmod

/-! ### The power -/

/-- Multiples of the modulus need no case of their own. -/
theorem inverseMod_of_pos (hm : 0 < m) (x : ℤ) :
    inverseMod x m = .ok (fermatInverse (x % m).toNat m : ℕ) := by
  have hpos : (0 : ℤ) < m := Int.natCast_pos.2 hm
  rw [inverseMod, if_neg hpos.ne', if_pos hpos, Int.toNat_natCast]
  split
  · next hx =>
      rw [hx, Int.toNat_zero, fermatInverse_of_dvd (dvd_zero m)]
      rfl
  · rfl

theorem isLeastInverse_fermatInverse (hm : m.Prime) (x : ℤ) :
    IsLeastInverse m x (fermatInverse (x % m).toNat m : ℕ) where
  nonneg := Int.natCast_nonneg _
  lt := Int.ofNat_lt.2 (fermatInverse_lt hm.pos _)
  residue := by
    have hnonneg : 0 ≤ x % m := Int.emod_nonneg x (Int.natCast_ne_zero.2 hm.ne_zero)
    rw [Int.cast_natCast, fermatInverse_cast hm, ZMod.natCast_toNat m hnonneg, ZMod.intCast_mod]

theorem inverseMod_eq_ok_iff (hm : m.Prime) : inverseMod x m = .ok y ↔ IsLeastInverse m x y := by
  have hleast := isLeastInverse_fermatInverse hm x
  rw [inverseMod_of_pos hm.pos, Except.ok.injEq]
  exact ⟨fun h => h ▸ hleast, hleast.eq⟩

namespace IsLeastInverse

theorem mul_emod_eq_one (h : IsLeastInverse m x y) (hm : m.Prime) (hx : ¬ (m : ℤ) ∣ x) :
    x * y % m = 1 := by
  have : Fact m.Prime := ⟨hm⟩
  have hne : (x : ZMod m) ≠ 0 := (ZMod.intCast_zmod_eq_zero_iff_dvd x m).not.2 hx
  have hone : ((x * y : ℤ) : ZMod m) = (1 : ℤ) := by
    rw [Int.cast_mul, h.residue, mul_inv_cancel₀ hne, Int.cast_one]
  rw [(ZMod.intCast_eq_intCast_iff' _ _ m).1 hone]
  exact Int.emod_eq_of_lt Int.one_nonneg (Int.ofNat_lt.2 hm.one_lt)

theorem eq_zero_of_dvd (h : IsLeastInverse m x y) (hx : (m : ℤ) ∣ x) : y = 0 := by
  refine h.eq ⟨le_rfl, h.nonneg.trans_lt h.lt, ?_⟩
  rw [(ZMod.intCast_zmod_eq_zero_iff_dvd x m).2 hx, Int.cast_zero, ZMod.inv_zero]

/-- The inverse of the inverse is the integer itself, reduced. -/
theorem symm_emod (h : IsLeastInverse m x y) (hm : m.Prime) : IsLeastInverse m y (x % m) where
  nonneg := Int.emod_nonneg x (Int.natCast_ne_zero.2 hm.ne_zero)
  lt := Int.emod_lt_of_pos x (Int.natCast_pos.2 hm.pos)
  residue := by
    have : Fact m.Prime := ⟨hm⟩
    rw [ZMod.intCast_mod, h.residue, inv_inv]

end IsLeastInverse

/-! ### The Euclidean algorithm on constants -/

namespace Quartic

theorem point_ofResidues_constant (x : ℤ) :
    (ofResidues [x, 0, 0, 0]).point = QuarticField.embed x := by
  rw [point_ofResidues rfl]
  simp [pointOfInts]

theorem inverseOfInts_constant (h : IsLeastInverse BabyBear.prime x y) :
    inverseOfInts [x, 0, 0, 0] = .ok [y, 0, 0, 0] := by
  have hreduced : IsReduced [y, 0, 0, 0] := ⟨rfl, by simpa [h.nonneg] using h.lt⟩
  have hinverse : (ofResidues [x, 0, 0, 0])⁻¹ = ofResidues [y, 0, 0, 0] := by
    -- no step of the algorithm is followed: an answer is known from its point
    apply point_injective
    calc
      (ofResidues [x, 0, 0, 0])⁻¹.point = (ofResidues [x, 0, 0, 0]).point⁻¹ := point_inv _
      _ = (QuarticField.embed x)⁻¹ := by rw [point_ofResidues_constant]
      _ = QuarticField.embed y := by rw [h.residue, map_inv₀]
      _ = (ofResidues [y, 0, 0, 0]).point := (point_ofResidues_constant y).symm
  rw [inverseOfInts_eq rfl, hinverse, hreduced.toInts_ofResidues]

end Quartic

/-- Inversion modulo a prime is exact for integers of any sign and size, it undoes itself,
and for constants it is the inversion of the quartic extension. -/
theorem inverseMod_exact (hm : m.Prime) (x : ℤ) :
    ∃ y, inverseMod x m = .ok y ∧ 0 ≤ y ∧ y < m ∧
      (¬ (m : ℤ) ∣ x → x * y % m = 1) ∧ ((m : ℤ) ∣ x → y = 0) ∧
      inverseMod y m = .ok (x % m) ∧
      (m = BabyBear.prime → Quartic.inverseOfInts [x, 0, 0, 0] = .ok [y, 0, 0, 0]) := by
  have hleast := isLeastInverse_fermatInverse hm x
  refine ⟨_, (inverseMod_eq_ok_iff hm).2 hleast, hleast.nonneg, hleast.lt,
    hleast.mul_emod_eq_one hm, hleast.eq_zero_of_dvd,
    (inverseMod_eq_ok_iff hm).2 (hleast.symm_emod hm), ?_⟩
  rintro rfl
  exact Quartic.inverseOfInts_constant hleast

/-- A negative integer that is not reduced, modulo the smallest prime, where the exponent of
the power is zero, and modulo the prime of the extension. -/
theorem inverseMod_negative :
    Nat.Prime 2 ∧ inverseMod (-3) 2 = .ok 1 ∧ inverseMod 1 2 = .ok 1 ∧
      BabyBear.prime.Prime ∧ inverseMod (-2013265923) BabyBear.prime = .ok 1006632960 ∧
      inverseMod 1006632960 BabyBear.prime = .ok 2013265919 ∧
      Quartic.inverseOfInts [-2013265923, 0, 0, 0] = .ok [1006632960, 0, 0, 0] := by
  have htwo : inverseMod (-3) 2 = .ok 1 := by decide
  have hlarge : inverseMod (-2013265923) BabyBear.prime = .ok 1006632960 := by decide +kernel
  obtain ⟨y, hy, -, -, -, -, htwice, -⟩ := inverseMod_exact Nat.prime_two (-3)
  obtain rfl : 1 = y := Except.ok.inj (htwo.symm.trans hy)
  obtain ⟨z, hz, -, -, -, -, hback, hextension⟩ :=
    inverseMod_exact BabyBear.prime_prime (-2013265923)
  obtain rfl : 1006632960 = z := Except.ok.inj (hlarge.symm.trans hz)
  exact ⟨Nat.prime_two, htwo, htwice, BabyBear.prime_prime, hlarge, hback, hextension rfl⟩

end NonNative
