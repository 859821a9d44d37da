import Mathlib.Algebra.Field.MinimalAxioms
import NonNative.Proofs.QuarticField

/-!
Sums, products and inverses of lists of four integers, read as coefficients of
an element of the quartic extension. An element is its point of the abstract
field, so the elements are a field themselves; a list stands for the element
with its residues, and each operation on lists writes out the element that the
operation of the field gives. The laws of the field are therefore laws of the
lists, for integers of any sign and size.
-/

namespace NonNative

theorem BabyBear.ofInt_eq_ofInt_iff {m n : ℤ} : ofInt m = ofInt n ↔ m ≡ n [ZMOD prime] := by
  rw [← toResidue_injective.eq_iff, toResidue_ofInt, toResidue_ofInt, ZMod.intCast_eq_intCast_iff]

theorem BabyBear.ofInt_eq_zero_iff {n : ℤ} : ofInt n = 0 ↔ (prime : ℤ) ∣ n := by
  rw [← toResidue_eq_zero_iff, toResidue_ofInt, ZMod.intCast_zmod_eq_zero_iff_dvd]

namespace Quartic

/-! ### The elements are a field -/

instance : One (Quartic BabyBear) := ⟨⟨1, 0, 0, 0⟩⟩

instance : Neg (Quartic BabyBear) := ⟨map (-·)⟩

instance : Inv (Quartic BabyBear) := ⟨inv⟩

theorem point_add (a b : Quartic BabyBear) : (a + b).point = a.point + b.point := by
  change (Poly.toQuartic _).point = _
  rw [point_toQuartic, Poly.toPolynomial_add, map_add, ← point_eq_mk, ← point_eq_mk]

theorem point_mul (a b : Quartic BabyBear) : (a * b).point = a.point * b.point := by
  change (Poly.toQuartic _).point = _
  rw [point_toQuartic, Poly.toPolynomial_mul, map_mul, ← point_eq_mk, ← point_eq_mk]

theorem point_one : (1 : Quartic BabyBear).point = 1 := by
  apply QuarticField.coordinates_injective
  rw [point, QuarticField.coordinates_ofCoordinates, QuarticField.coordinates_one]
  rfl

theorem point_neg (a : Quartic BabyBear) : (-a).point = -a.point := by
  apply QuarticField.coordinates_injective
  rw [point, QuarticField.coordinates_neg, point, QuarticField.coordinates_ofCoordinates,
    QuarticField.coordinates_ofCoordinates]
  change (a.map (-·)).map BabyBear.toResidue = _
  simp [map]

noncomputable instance : Field (Quartic BabyBear) :=
  Field.ofMinimalAxioms (Quartic BabyBear)
    (fun a b c => point_injective (by simp only [point_add, add_assoc]))
    (fun a => point_injective (by rw [point_add, point_zero, zero_add]))
    (fun a => point_injective (by rw [point_add, point_neg, neg_add_cancel, point_zero]))
    (fun a b c => point_injective (by simp only [point_mul, mul_assoc]))
    (fun a b => point_injective (by rw [point_mul, point_mul, mul_comm]))
    (fun a => point_injective (by rw [point_mul, point_one, one_mul]))
    (fun a ha => point_injective (by
      have hpoint : a.point ≠ 0 := fun h => ha (point_injective (h.trans point_zero.symm))
      rw [point_mul, point_one]
      exact (congrArg (a.point * ·) (point_inv a)).trans (mul_inv_cancel₀ hpoint)))
    rfl
    (fun a b c => point_injective (by simp only [point_mul, point_add, mul_add]))
    ⟨0, 1, by decide⟩

/-! ### Lists of coefficients -/

/-- The element with the residues of a list of four integers. -/
def ofResidues (l : List ℤ) : Quartic BabyBear := ofListD 0 (l.map BabyBear.ofInt)

/-- Four integers, each the least representative of its residue. -/
structure IsReduced (l : List ℤ) : Prop where
  length : l.length = 4
  bounds : ∀ n ∈ l, 0 ≤ n ∧ n < BabyBear.prime

/-- All entries are divisible by the prime. -/
def IsZeroMod (l : List ℤ) : Prop := ∀ n ∈ l, (BabyBear.prime : ℤ) ∣ n

/-- Two lists whose entries agree modulo the prime. -/
def Congruent (a b : List ℤ) : Prop := List.Forall₂ (· ≡ · [ZMOD BabyBear.prime]) a b

/-- The point that a list of coefficients stands for. -/
noncomputable def pointOfInts (l : List ℤ) : QuarticField := .ofList (l.map (Int.cast ·))

theorem ofInts_eq {l : List ℤ} (hl : l.length = 4) : ofInts l = .ok (ofResidues l) := by
  obtain ⟨a, b, c, d, rfl⟩ := List.length_eq_four.1 hl
  rfl

@[simp] theorem length_toInts (a : Quartic BabyBear) : a.toInts.length = 4 := List.length_map _

theorem toInts_zero : (0 : Quartic BabyBear).toInts = [0, 0, 0, 0] := rfl

theorem toInts_one : (1 : Quartic BabyBear).toInts = [1, 0, 0, 0] := rfl

theorem isReduced_toInts (a : Quartic BabyBear) : IsReduced a.toInts where
  length := length_toInts a
  bounds := by
    intro n hn
    obtain ⟨c, -, rfl⟩ := List.mem_map.1 hn
    exact ⟨Int.natCast_nonneg _, Int.ofNat_lt.2 c.val_lt⟩

@[simp] theorem ofResidues_toInts (a : Quartic BabyBear) : ofResidues a.toInts = a := by
  have hval (c : BabyBear) : BabyBear.ofInt c.val = c :=
    BabyBear.toResidue_injective (by rw [BabyBear.toResidue_ofInt, Int.cast_natCast]; rfl)
  simp [toInts, ofResidues, toList, ofListD, hval]

theorem toInts_injective : Function.Injective toInts :=
  Function.LeftInverse.injective ofResidues_toInts

theorem toInts_ofResidues {l : List ℤ} (hl : l.length = 4) :
    (ofResidues l).toInts = l.map (· % (BabyBear.prime : ℤ)) := by
  have hval (n : ℤ) : ((BabyBear.ofInt n).val : ℤ) = n % BabyBear.prime := by
    rw [← BabyBear.val_toResidue, BabyBear.toResidue_ofInt, ZMod.val_intCast]
  obtain ⟨a, b, c, d, rfl⟩ := List.length_eq_four.1 hl
  simp [toInts, ofResidues, toList, ofListD, hval]

theorem IsReduced.toInts_ofResidues {l : List ℤ} (hl : IsReduced l) :
    (ofResidues l).toInts = l := by
  rw [Quartic.toInts_ofResidues hl.length]
  refine (List.map_congr_left fun n hn => ?_).trans (List.map_id l)
  exact Int.emod_eq_of_lt (hl.bounds n hn).1 (hl.bounds n hn).2

theorem Congruent.ofInts_eq {a b : List ℤ} (h : Congruent a b) : ofInts a = ofInts b := by
  have hmap : a.map BabyBear.ofInt = b.map BabyBear.ofInt := by
    induction h with
    | nil => rfl
    | cons hhead _ ih =>
        rw [List.map_cons, List.map_cons, ih, BabyBear.ofInt_eq_ofInt_iff.2 hhead]
  rw [ofInts, ofInts, hmap, h.length_eq]

theorem ofResidues_eq_zero_iff {l : List ℤ} (hl : l.length = 4) :
    ofResidues l = 0 ↔ IsZeroMod l := by
  obtain ⟨a, b, c, d, rfl⟩ := List.length_eq_four.1 hl
  change (⟨_, _, _, _⟩ : Quartic BabyBear) = ⟨0, 0, 0, 0⟩ ↔ _
  simp [BabyBear.ofInt_eq_zero_iff, IsZeroMod]

theorem ofResidues_neg {l : List ℤ} (hl : l.length = 4) :
    ofResidues (l.map (-·)) = -ofResidues l := by
  have hneg (n : ℤ) : BabyBear.ofInt (-n) = -BabyBear.ofInt n :=
    BabyBear.toResidue_injective (by simp)
  obtain ⟨a, b, c, d, rfl⟩ := List.length_eq_four.1 hl
  change (⟨_, _, _, _⟩ : Quartic BabyBear) = ⟨_, _, _, _⟩
  simp [hneg, ofResidues, ofListD]

theorem point_ofResidues {l : List ℤ} (hl : l.length = 4) :
    (ofResidues l).point = pointOfInts l := by
  obtain ⟨a, b, c, d, rfl⟩ := List.length_eq_four.1 hl
  simp [point, ofResidues, ofListD, map, QuarticField.ofCoordinates, toList, pointOfInts]

theorem pointOfInts_toInts (a : Quartic BabyBear) : pointOfInts a.toInts = a.point := by
  rw [← point_ofResidues (length_toInts a), ofResidues_toInts]

/-! ### The operations on lists -/

theorem ok_bind {α β : Type} (x : α) (f : α → Except Fault β) : (.ok x >>= f) = f x := rfl

theorem sumOfInts_eq {a b : List ℤ} (ha : a.length = 4) (hb : b.length = 4) :
    sumOfInts a b = .ok (ofResidues a + ofResidues b).toInts := by
  rw [sumOfInts, ofInts_eq ha, ofInts_eq hb]
  rfl

theorem productOfInts_eq {a b : List ℤ} (ha : a.length = 4) (hb : b.length = 4) :
    productOfInts a b = .ok (ofResidues a * ofResidues b).toInts := by
  rw [productOfInts, ofInts_eq ha, ofInts_eq hb]
  rfl

theorem inverseOfInts_eq {a : List ℤ} (ha : a.length = 4) :
    inverseOfInts a = .ok (ofResidues a)⁻¹.toInts := by
  change (if _ then _ else _ : Except Fault (Quartic BabyBear)).map toInts = _
  split
  · next hall =>
      have hzero : ofResidues a = 0 := by
        rw [ofResidues_eq_zero_iff ha]
        intro n hn
        rw [← BabyBear.ofInt_eq_zero_iff]
        simpa using List.all_eq_true.1 hall n hn
      rw [hzero, inv_zero]
      rfl
  · rw [ofInts_eq ha]
    rfl

/-- The laws of a field for three lists of coefficients. Sums and products have
reduced coefficients, those of the sum and the product of the points that the
lists stand for. -/
structure FieldLaws (a b c : List ℤ) : Prop where
  sum_reduced : ∃ s, sumOfInts a b = .ok s ∧ IsReduced s ∧
    pointOfInts s = pointOfInts a + pointOfInts b
  product_reduced : ∃ s, productOfInts a b = .ok s ∧ IsReduced s ∧
    pointOfInts s = pointOfInts a * pointOfInts b
  sum_congr : ∀ a' b', Congruent a' a → Congruent b' b → sumOfInts a' b' = sumOfInts a b
  product_congr :
    ∀ a' b', Congruent a' a → Congruent b' b → productOfInts a' b' = productOfInts a b
  sum_comm : sumOfInts a b = sumOfInts b a
  sum_assoc : (do sumOfInts (← sumOfInts a b) c) = do sumOfInts a (← sumOfInts b c)
  sum_zero : sumOfInts a [0, 0, 0, 0] = .ok (a.map (· % (BabyBear.prime : ℤ)))
  sum_neg : sumOfInts a (a.map (-·)) = .ok [0, 0, 0, 0]
  product_comm : productOfInts a b = productOfInts b a
  product_assoc :
    (do productOfInts (← productOfInts a b) c) = do productOfInts a (← productOfInts b c)
  product_one : productOfInts a [1, 0, 0, 0] = .ok (a.map (· % (BabyBear.prime : ℤ)))
  product_sum : (do productOfInts a (← sumOfInts b c)) =
    do sumOfInts (← productOfInts a b) (← productOfInts a c)
  product_inverse : ¬ IsZeroMod a → ∃ w, inverseOfInts a = .ok w ∧ IsReduced w ∧
    productOfInts a w = .ok [1, 0, 0, 0] ∧
      ∀ v, IsReduced v → productOfInts a v = .ok [1, 0, 0, 0] → v = w
  product_eq_zero_iff : productOfInts a b = .ok [0, 0, 0, 0] ↔ IsZeroMod a ∨ IsZeroMod b
  inverse_eq_zero_iff : inverseOfInts a = .ok [0, 0, 0, 0] ↔ IsZeroMod a

variable {a b c : List ℤ}

theorem product_inverse_eq_one (ha : a.length = 4) (hne : ¬ IsZeroMod a) :
    productOfInts a (ofResidues a)⁻¹.toInts = .ok [1, 0, 0, 0] := by
  have hunit : ofResidues a ≠ 0 := (ofResidues_eq_zero_iff ha).not.2 hne
  rw [productOfInts_eq ha (length_toInts _), ofResidues_toInts, mul_inv_cancel₀ hunit, toInts_one]

theorem IsReduced.eq_inverse {v : List ℤ} (hv : IsReduced v) (ha : a.length = 4)
    (hone : productOfInts a v = .ok [1, 0, 0, 0]) : v = (ofResidues a)⁻¹.toInts := by
  have hproduct : ofResidues a * ofResidues v = 1 := by
    apply toInts_injective
    rw [productOfInts_eq ha hv.length] at hone
    exact Except.ok.inj hone
  have hinverse : ofResidues v = (ofResidues a)⁻¹ := eq_inv_of_mul_eq_one_right hproduct
  rw [← hinverse, hv.toInts_ofResidues]

/-- Lists of four integers compute in the field of residues modulo `X ^ 4 - 11`. -/
theorem fieldLaws (ha : a.length = 4) (hb : b.length = 4) (hc : c.length = 4) :
    FieldLaws a b c where
  sum_reduced := by
    refine ⟨_, sumOfInts_eq ha hb, isReduced_toInts _, ?_⟩
    rw [pointOfInts_toInts, point_add, point_ofResidues ha, point_ofResidues hb]
  product_reduced := by
    refine ⟨_, productOfInts_eq ha hb, isReduced_toInts _, ?_⟩
    rw [pointOfInts_toInts, point_mul, point_ofResidues ha, point_ofResidues hb]
  sum_congr := by
    intro a' b' haa hbb
    rw [sumOfInts, sumOfInts, haa.ofInts_eq, hbb.ofInts_eq]
  product_congr := by
    intro a' b' haa hbb
    rw [productOfInts, productOfInts, haa.ofInts_eq, hbb.ofInts_eq]
  sum_comm := by rw [sumOfInts_eq ha hb, sumOfInts_eq hb ha, add_comm]
  sum_assoc := by
    rw [sumOfInts_eq ha hb, sumOfInts_eq hb hc, ok_bind, ok_bind,
      sumOfInts_eq (length_toInts _) hc, sumOfInts_eq ha (length_toInts _)]
    simp only [ofResidues_toInts, add_assoc]
  sum_zero := by
    rw [sumOfInts_eq ha rfl, ← toInts_zero, ofResidues_toInts, add_zero, toInts_ofResidues ha]
  sum_neg := by
    rw [sumOfInts_eq ha (by simpa using ha), ofResidues_neg ha, add_neg_cancel, toInts_zero]
  product_comm := by rw [productOfInts_eq ha hb, productOfInts_eq hb ha, mul_comm]
  product_assoc := by
    rw [productOfInts_eq ha hb, productOfInts_eq hb hc, ok_bind, ok_bind,
      productOfInts_eq (length_toInts _) hc, productOfInts_eq ha (length_toInts _)]
    simp only [ofResidues_toInts, mul_assoc]
  product_one := by
    rw [productOfInts_eq ha rfl, ← toInts_one, ofResidues_toInts, mul_one, toInts_ofResidues ha]
  product_sum := by
    rw [sumOfInts_eq hb hc, productOfInts_eq ha hb, productOfInts_eq ha hc, ok_bind, ok_bind,
      ok_bind, productOfInts_eq ha (length_toInts _),
      sumOfInts_eq (length_toInts _) (length_toInts _)]
    simp only [ofResidues_toInts, mul_add]
  product_inverse := by
    intro hne
    refine ⟨_, inverseOfInts_eq ha, isReduced_toInts _, product_inverse_eq_one ha hne, ?_⟩
    intro v hv hone
    exact hv.eq_inverse ha hone
  product_eq_zero_iff := by
    rw [productOfInts_eq ha hb, ← toInts_zero, Except.ok.injEq, toInts_injective.eq_iff,
      mul_eq_zero, ofResidues_eq_zero_iff ha, ofResidues_eq_zero_iff hb]
  inverse_eq_zero_iff := by
    rw [inverseOfInts_eq ha, ← toInts_zero, Except.ok.injEq, toInts_injective.eq_iff,
      inv_eq_zero, ofResidues_eq_zero_iff ha]

theorem fieldLaws_unreduced :
    ¬ IsZeroMod [-3, 0, 2013265921, 4026531843] ∧ IsZeroMod [-2013265921, 0, 0, 2013265921] ∧
      FieldLaws [-3, 0, 2013265921, 4026531843] [-2013265921, 0, 0, 2013265921]
        [0, 1, -1, 2013265920] := by
  refine ⟨fun h => ?_, by simp [IsZeroMod], fieldLaws rfl rfl rfl⟩
  exact absurd (h (-3) (by simp)) (by decide)

end Quartic

end NonNative
