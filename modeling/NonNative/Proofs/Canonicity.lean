import NonNative.Proofs.QuotientRemainder

/-!
The check that a native value is reduced, on every native value. The prover can
only cut a value into as many limbs as an element has, so for a value beyond the
capacity the limbs are those of its lowest part and the recomposition fails. The
distance to the modulus is in range for reduced values, and again for values just
below the native order, where it wraps around to a small number. Those are beyond
the capacity, so the two constraints together leave the reduced values only.
-/

namespace NonNative

namespace EmulatedField

open Circuit

variable (E : EmulatedField)

/-- The digits, in the base of the limbs, of what is left of a number at the
capacity of an element. -/
def lowLimbs (v : ℕ) : List ℕ :=
  (List.range E.limbCount).map fun i =>
    v % 2 ^ E.totalBits / 2 ^ (E.limbBits * i) % 2 ^ E.limbBits

theorem lowLimbs_eq_digits (v : ℕ) : E.lowLimbs v = digits E.limbBits E.limbCount v := by
  rw [← digits_mod, digits_eq_map_range, lowLimbs, totalBits, Nat.mul_comm]

theorem length_lowLimbs (v : ℕ) : (E.lowLimbs v).length = E.limbCount := by simp [lowLimbs]

theorem lowLimb_lt {v l : ℕ} (hl : l ∈ E.lowLimbs v) : l < 2 ^ E.limbBits := by
  rw [lowLimbs_eq_digits] at hl
  exact digits_lt hl

theorem lowLimb_lt_order {v l : ℕ} (hl : l ∈ E.lowLimbs v) : l < E.native.order := by
  rw [lowLimbs_eq_digits] at hl
  exact E.limb_lt_order E.limbBits_le_totalBits hl

theorem ofDigits_lowLimbs (v : ℕ) :
    ofDigits E.limbBits (E.lowLimbs v) = v % 2 ^ E.totalBits := by
  rw [lowLimbs_eq_digits, ofDigits_digits, totalBits, Nat.mul_comm]

/-- The honest run on any native value. -/
theorem run_canonical {operand : Operand} {v : ℕ} (hv : v < E.native.order)
    (hoperand : E.native.accept operand = pure (E.native.lift v)) (label : String) :
    (E.canonical operand label).run =
      ⟨E.canonicity v (E.lowLimbs v) label, [],
        .ok ⟨operand, 0, ((E.lowLimbs v).map fun (l : ℕ) => E.native.lift l).map .scalar⟩⟩ := by
  have hlimbs : ∀ l ∈ E.lowLimbs v, l < E.native.order := fun l hl => E.lowLimb_lt_order hl
  have hbody := E.canonical_body hoperand label hlimbs
  rw [canonical, hoperand, pure_bind, E.native.lift_val_of_lt hv, NativeField.run_hints_bind,
    ← lowLimbs_eq_digits, hbody, run_forM_assert_bind]
  simp [run, pure_eq]

theorem recomposition_holds_iff {v : ℕ} (hv : v < E.native.order) (label : String) :
    (Constraint.equal (E.native.lift (ofDigits E.limbBits (E.lowLimbs v))) (E.native.lift v)
      label).Holds ↔ v < 2 ^ E.totalBits := by
  rw [ofDigits_lowLimbs]
  exact Constraint.equal_lowest_holds_iff E.native hv E.totalBits

/-- The check is exact on every native value: the limbs are the digits of what is
left of the value at the capacity, their ranges hold in any case, and all
constraints hold exactly if the value is below the modulus. -/
theorem canonical_exact {operand : Operand} {s : Scalar}
    (haccept : E.native.accept operand = .done s) (label : String) :
    let limbs := E.lowLimbs s.val
    let checks := limbs.map fun (l : ℕ) => Constraint.range (E.native.lift l) E.limbBits label
    let recomposition := Constraint.equal (E.native.lift (ofDigits E.limbBits limbs)) s label
    let gap := Constraint.range (E.native.lift ((E.modulus : ℤ) - 1 - s.val)) E.totalBits label
    (E.canonical operand label).run =
      ⟨checks ++ [recomposition, gap], [],
        .ok ⟨operand, 0, limbs.map fun (l : ℕ) => .scalar (E.native.lift l)⟩⟩ ∧
    (∀ l ∈ limbs, (E.native.lift l).val = l) ∧
    (∀ k ∈ checks, k.Holds) ∧
    (recomposition.Holds ↔ s.val < 2 ^ E.totalBits) ∧
    (gap.Holds ↔ s.val < E.modulus ∨ E.native.order + E.modulus ≤ s.val + 2 ^ E.totalBits) ∧
    ((∀ k ∈ (E.canonical operand label).run.constraints, k.Holds) ↔ s.val < E.modulus) := by
  have hv := E.native.val_lt_of_accept haccept
  have hs : E.native.lift s.val = s := E.native.lift_val_self (E.native.order_eq_of_accept haccept)
  have hrun := E.run_canonical hv (E.native.accept_eq_lift haccept) label
  have hvals : ∀ l ∈ E.lowLimbs s.val, (E.native.lift l).val = l := fun l hl =>
    E.native.lift_val_of_lt (E.lowLimb_lt_order hl)
  refine ⟨?_, hvals, ?_, ?_, ?_, ?_⟩
  · rw [hrun, canonicity, hs, List.map_map]
    rfl
  · intro k hk
    obtain ⟨l, hl, rfl⟩ := List.mem_map.1 hk
    rw [Constraint.range_holds_iff (Int.natCast_nonneg _), hvals l hl]
    exact E.lowLimb_lt hl
  · rw [← E.recomposition_holds_iff hv label, hs]
  · rw [Constraint.range_holds_iff (Int.natCast_nonneg _)]
    exact E.gap_in_range_iff hv
  · rw [hrun]
    have hexact := E.canonicity_holds_iff hv (E.length_lowLimbs s.val)
      (fun l hl => E.lowLimb_lt_order hl) label
    exact hexact.trans (and_iff_left (E.lowLimbs_eq_digits _))

/-- A value so close to the native order that its distance to the modulus is in
range. -/
theorem canonical_nearOrder :
    twoLimbs.native.accept (.int 32760) = .done (twoLimbs.native.lift 32760) ∧
    (twoLimbs.canonical (.int 32760) "reduce").run.result =
      .ok ⟨.int 32760, 0, [.scalar (twoLimbs.native.lift 0), .scalar (twoLimbs.native.lift 7)]⟩ ∧
    (Constraint.range (twoLimbs.native.lift (31 - 1 - 32760)) 6 "reduce").Holds ∧
    ¬ ∀ k ∈ (twoLimbs.canonical (.int 32760) "reduce").run.constraints, k.Holds := by
  have haccept : twoLimbs.native.accept (.int 32760) = .done (twoLimbs.native.lift 32760) := rfl
  obtain ⟨hrun, -, -, -, hgap, hall⟩ := twoLimbs.canonical_exact haccept "reduce"
  refine ⟨haccept, ?_, hgap.2 (.inr (by decide)), fun h => ?_⟩
  · rw [hrun]
    rfl
  · exact absurd (hall.1 h) (by decide)

end EmulatedField

end NonNative
