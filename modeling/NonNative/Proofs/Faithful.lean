import NonNative.Proofs.FieldRuns

/-!
Which emulations are faithful: every program computes the residues that its
interpretation says. Programs stay right as long as no product wraps around, and
the largest number that a factor can carry is known. So an emulation in a prime
native field is faithful exactly if the square of that number is below the native
order. A budget of two bits of overflow is enough; with a single bit, which is
accepted too, it depends on the order.
-/

namespace NonNative

open Circuit

/-- The native value of the element is congruent to the residue. -/
def Element.CongruentTo {m : ℕ} (a : Element) (x : ZMod m) : Prop :=
  ∃ s, a.native = .scalar s ∧ (s.val : ZMod m) = x

theorem Element.CongruentTo.unique {m : ℕ} {a : Element} {x y : ZMod m} (hx : a.CongruentTo x)
    (hy : a.CongruentTo y) : x = y := by
  obtain ⟨s, hs, rfl⟩ := hx
  obtain ⟨t, ht, rfl⟩ := hy
  rw [Operand.scalar.inj (hs.symm.trans ht)]

namespace EmulatedField

variable {E : EmulatedField}

theorem Encodes.congruentTo {a : Element} {x : ZMod E.modulus} (h : E.Encodes a x) :
    a.CongruentTo x := by
  obtain ⟨v, hv, rfl⟩ := h
  exact ⟨_, hv.native, by rw [hv.val_native]⟩

/-- Every program with an interpretation, whose native arguments fit into the
limbs, runs to the end; its elements are congruent to the residues of the
interpretation, its native values are the flags and bits of the interpretation,
and the constraints that fail are those of the demands that are not met. -/
def Faithful (E : EmulatedField) : Prop :=
  ∀ (p : FieldProgram) (σ : Reading E.modulus) (demands : List (Demand E.modulus)),
    p.interpret E .empty = some (σ, demands) →
    (∀ v, .narrow v ∈ demands → v < 2 ^ E.totalBits) →
    ∃ M, (p.circuit E .empty).run.result = .ok M ∧
      List.Forall₂ Element.CongruentTo M.elements σ.residues ∧
      M.natives = σ.flags.map (fun b => E.native.lift b.toNat) ∧
      Log.unsatisfied (p.circuit E .empty).run.constraints =
        .ok (demands.flatMap (Demand.blame E))

theorem faithful_of_peak_sq_lt (hnative : E.native.order.Prime)
    (hsafe : E.peak ^ 2 < E.native.order) : E.Faithful := by
  intro p σ demands hp hnarrow
  obtain ⟨M, hM, hrun⟩ := FieldProgram.gives_circuit hnative hsafe
    (Memory.represents_empty E) hp hnarrow
  exact ⟨M, hrun.result, hM.elements.imp fun _ _ h => h.congruentTo, hM.natives, hrun.unsatisfied⟩

/-! ### Products that wrap around

Where the budget is a single bit, a difference of two constants already exceeds
it. Minus one less zero is carried as the peak; if the square of the peak is not
below the native order, it wraps around once, and the order is no multiple of
the modulus. -/

theorem withRoom_constant (n : ℤ) : E.withRoom (E.constant n) = pure (E.constant n) := by
  rw [withRoom, reduce, if_pos (E.isCanonical_constant n)]
  exact ite_self _

/-- The difference of minus one and zero, not reduced. -/
def peakElement (E : EmulatedField) : Element := ⟨.scalar (E.native.lift E.peak), 2, []⟩

theorem sub_eq_peakElement :
    E.sub (E.constant (E.modulus - 1 : ℕ)) E.zero = pure E.peakElement := by
  have hpos := E.modulus_pos
  have hone := E.carries_constant (E.modulus - 1 : ℕ)
  have hzero := E.carries_constant 0
  rw [← Int.natCast_mod, Int.toNat_natCast, Nat.mod_eq_of_lt (by omega)] at hone
  have hnegated : E.negated (E.constant 0) = pure (E.native.lift (E.padding E.totalBits)) := by
    simpa [constant] using hzero.negated_eq
  rw [sub, zero, withRoom_constant, withRoom_constant, pure_bind, pure_bind, hnegated, pure_bind,
    hone.native, NativeField.add_eq (E.native.accept_lift _) (E.native.accept_lift _), pure_bind,
    ← Nat.cast_add]
  rfl

/-- The square of the peak wraps around at most once. -/
theorem peak_sq_lt_double : E.peak ^ 2 < 2 * E.native.order := by
  have hbits := E.native_bits_bounds
  have horder : 2 ^ (2 * E.totalBits + 3) ≤ E.native.order := E.two_pow_le_order (by omega)
  have hpeak : E.peak ^ 2 < 2 ^ (2 * E.totalBits + 3 + 1) := peak_sq_lt_two_pow
  rw [pow_succ 2 (2 * E.totalBits + 3)] at hpeak
  omega

theorem honest_mul_peakElement (hwrap : E.native.order ≤ E.peak ^ 2) :
    (E.mul E.peakElement E.peakElement).Determines .honest
      (E.constant (E.peak ^ 2 - E.native.order : ℕ)) [] := by
  have hlt : E.peak ^ 2 < 2 * E.native.order := peak_sq_lt_double
  have hwidth : E.peak ^ 2 < 2 ^ (2 * E.totalBits + 4) := peak_sq_lt_two_pow
  have hlift : E.native.lift (E.peak ^ 2 : ℕ) =
      E.native.lift (E.peak ^ 2 - E.native.order : ℕ) := by
    rw [E.native.lift_eq_lift_iff, Nat.cast_sub hwrap, Int.modEq_iff_dvd, sub_sub_cancel_left]
    exact dvd_neg.2 dvd_rfl
  have hproduct : E.native.mul E.peakElement.native E.peakElement.native =
      pure (E.native.lift (E.peak ^ 2 - E.native.order : ℕ)) := by
    rw [← hlift, Nat.pow_two, Nat.cast_mul]
    exact NativeField.mul_eq (E.native.accept_lift _) (E.native.accept_lift _)
  have hbound : E.boundBits E.peakElement = E.totalBits + 2 := rfl
  rw [mul, hproduct, pure_bind, hbound]
  refine E.honest_remainder (by omega) ?_ _
  rw [show ((E.totalBits : ℤ) + 2 + (E.totalBits + 2)).toNat = 2 * E.totalBits + 4 by omega]
  omega

/-- Minus one and zero, their difference, and its square. -/
def squareOfDifference (E : EmulatedField) : FieldProgram :=
  [.constant (.int (E.modulus - 1 : ℕ)), .zero, .sub 0 1, .mul 2 2]

theorem honest_squareOfDifference (hwrap : E.native.order ≤ E.peak ^ 2) :
    (FieldProgram.circuit E (squareOfDifference E) .empty).Determines .honest
      ⟨[], [E.constant (E.modulus - 1 : ℕ), E.zero, E.peakElement,
        E.constant (E.peak ^ 2 - E.native.order : ℕ)]⟩ [] := by
  have hsub : FieldOp.step E (.sub 0 1) ⟨[], [E.constant (E.modulus - 1 : ℕ), E.zero]⟩ =
      pure ⟨[], [E.constant (E.modulus - 1 : ℕ), E.zero, E.peakElement]⟩ := by
    change Value.element <$> E.sub (E.constant (E.modulus - 1 : ℕ)) E.zero >>= _ = _
    rw [sub_eq_peakElement]
    rfl
  have hmul : (FieldOp.step E (.mul 2 2)
      ⟨[], [E.constant (E.modulus - 1 : ℕ), E.zero, E.peakElement]⟩).Determines .honest
        ⟨[], [E.constant (E.modulus - 1 : ℕ), E.zero, E.peakElement,
          E.constant (E.peak ^ 2 - E.native.order : ℕ)]⟩ [] :=
    ((honest_mul_peakElement hwrap).map Value.element).bind (.pure _)
  change (FieldOp.step E (.sub 0 1) ⟨[], [E.constant (E.modulus - 1 : ℕ), E.zero]⟩ >>=
    FieldProgram.circuit E [.mul 2 2]).Determines _ _ _
  rw [hsub, pure_bind]
  exact hmul.bind (.pure _)

theorem cast_modulus_sub_one : ((E.modulus - 1 : ℕ) : ZMod E.modulus) = -1 := by
  rw [Nat.cast_sub E.modulus_pos, ZMod.natCast_self, Nat.cast_one, zero_sub]

theorem interpret_squareOfDifference :
    FieldProgram.interpret E (squareOfDifference E) .empty = some (⟨[], [-1, 0, -1, 1]⟩, []) := by
  have hresidues (x : ZMod E.modulus) (hx : x = ((E.modulus - 1 : ℕ) : ℤ)) :
      FieldProgram.interpret E (squareOfDifference E) .empty =
        some (⟨[], [x, 0, x - 0, (x - 0) * (x - 0)]⟩, []) := by
    rw [hx]
    rfl
  have hneg : (-1 : ZMod E.modulus) = ((E.modulus - 1 : ℕ) : ℤ) := by
    rw [Int.cast_natCast, cast_modulus_sub_one]
  rw [hresidues (-1) hneg, sub_zero, neg_mul_neg, one_mul]

theorem cast_peak : (E.peak : ZMod E.modulus) = -1 := by
  rw [peak, Nat.cast_add, cast_modulus_sub_one,
    (ZMod.natCast_eq_zero_iff _ _).2 (E.dvd_padding _), add_zero]

theorem not_faithful_of_le_peak_sq (hnative : E.native.order.Prime)
    (hwrap : E.native.order ≤ E.peak ^ 2) : ¬ E.Faithful := by
  intro hfaithful
  obtain ⟨M, hM, helements, -, -⟩ := hfaithful _ _ _ interpret_squareOfDifference (by simp)
  obtain rfl := Except.ok.inj (hM.symm.trans (honest_squareOfDifference hwrap).result)
  have hone : (E.constant (E.peak ^ 2 - E.native.order : ℕ)).CongruentTo
      (1 : ZMod E.modulus) := (List.forall₂_iff_get.1 helements).2 3 (by simp) (by simp)
  have hsquare := (E.encodes_constant (E.peak ^ 2 - E.native.order : ℕ)).congruentTo.unique hone
  -- what the square has lost is the native order, so the modulus would divide it
  have hdvd : E.modulus ∣ E.native.order := by
    rw [← ZMod.natCast_eq_zero_iff]
    rw [Int.cast_natCast, Nat.cast_sub hwrap, Nat.cast_pow, cast_peak] at hsquare
    linear_combination -hsquare
  have htwo := E.two_le_modulus
  have hmodulus := E.modulus_lt
  have horder := E.two_pow_totalBits_double_le
  rcases (Nat.dvd_prime hnative).1 hdvd with h | h <;> omega

/-- An emulation is faithful exactly if the square of the peak does not wrap
around; a budget of two bits is enough for that. -/
theorem faithful_iff_peak_sq_lt (hnative : E.native.order.Prime) :
    (E.Faithful ↔ E.peak ^ 2 < E.native.order) ∧ (2 ≤ E.maxOverflow → E.Faithful) := by
  refine ⟨⟨fun hfaithful => ?_, faithful_of_peak_sq_lt hnative⟩, fun hbudget =>
    faithful_of_peak_sq_lt hnative (peak_sq_lt hbudget)⟩
  by_contra hwrap
  exact not_faithful_of_le_peak_sq hnative (Nat.le_of_not_lt hwrap) hfaithful

theorem faithful_babyBear_bn254 : bn254.order.Prime ∧ Chip.overBn254.field.Faithful :=
  ⟨bn254_prime, (faithful_iff_peak_sq_lt bn254_prime).2 (by decide +kernel)⟩

/-- The field of order 8209 is accepted for residues modulo 31 in one limb of five
bits, with a budget of one bit, and the emulation is not faithful. -/
theorem exists_accepted_not_faithful :
    ∃ E, EmulatedField.create ⟨8209, by decide⟩ ⟨31, 1, 5, true, 1⟩ = .ok E ∧
      E.native.order.Prime ∧ ¬ E.Faithful := by
  have hprime : Nat.Prime 8209 := by norm_num
  refine ⟨⟨⟨8209, by decide⟩, 31, 1, 5, by decide, by decide, by decide, by decide, by decide⟩,
    rfl, hprime, not_faithful_of_le_peak_sq hprime (by decide)⟩

end EmulatedField

end NonNative
