import NonNative.Proofs.ExtensionProduct
import NonNative.Proofs.Refusal

/-!
Inverses modulo any number. The witness is a power of the element, so it is an
inverse of all units only if the modulus is prime. Whatever the modulus, the only
constraint that can fail is the comparison of the product with one: it holds exactly
if the element satisfies the equation of Fermat's theorem, and then the witness is an
inverse. Wrong inverses are never accepted, and modulo a prime no unit is rejected.
-/

namespace NonNative

open Circuit

namespace EmulatedField

variable {E : EmulatedField} {a : Element} {v : ℕ}

/-! ### Elements within their bounds -/

theorem Bounds.lt_order (h : E.Bounds a v) : v < E.native.order := by
  have hbits := E.native_bits_bounds
  exact h.lt_two_pow.trans_le (E.two_pow_le_order (by omega))

theorem Bounds.toInt (h : E.Bounds a v) : a.native.toInt = .ok (v : ℤ) := by
  rw [h.native_eq, Operand.toInt, E.native.lift_val_of_lt h.lt_order]

theorem bounds_constant (E : EmulatedField) (v : ℕ) :
    E.Bounds (E.constant v) (v % E.modulus) := by
  have hcarries := E.carries_constant v
  rw [← Int.natCast_mod, Int.toNat_natCast] at hcarries
  exact ⟨⟨_, hcarries.native, rfl, hcarries.val_native⟩, by simp [constant], hcarries.bound⟩

/-- A canonical element is its own reduction, also where its value is not below the
modulus. -/
theorem Bounds.honest_reduce (h : E.Bounds a v) :
    (E.reduce a).Gives .honest [] fun r => ∃ u, E.Bounds r u ∧ u ≡ v [MOD E.modulus] := by
  rw [reduce]
  split
  · exact .pure ⟨v, h, rfl⟩
  · rw [h.native_eq]
    exact ⟨_, ⟨_, E.bounds_constant v, Nat.mod_modEq v _⟩,
      E.honest_remainder h.lt_order h.bound "reduce"⟩

theorem constant_eq_of_modEq {n k : ℕ} (h : n ≡ k [MOD E.modulus]) :
    E.constant n = E.constant k := by
  rw [← constant_mod, h, constant_mod]

/-! ### The witness and the comparison with one -/

theorem Bounds.honest_inverseGuess (h : E.Bounds a v) :
    (E.inverseGuess a).Determines .honest
      (E.constant (fermatInverse v E.modulus),
        E.constant (v * fermatInverse v E.modulus : ℕ)) [] := by
  obtain ⟨r, ⟨u, hr, huv⟩, hreduce⟩ := h.honest_reduce
  have hwitness : fermatInverse (u % E.modulus) E.modulus = fermatInverse v E.modulus := by
    rw [huv, fermatInverse_mod]
  have hlt := fermatInverse_lt E.modulus_pos v
  have hbounds := E.bounds_constant (fermatInverse v E.modulus)
  rw [Nat.mod_eq_of_lt hlt] at hbounds
  refine hreduce.bind ?_
  rw [hr.toInt, ofExcept_ok, pure_bind, ← Int.natCast_mod, Int.toNat_natCast, hwitness]
  refine (E.honest_witness _).bind ?_
  rw [← constant_eq_of_modEq (huv.mul_right _)]
  exact (hr.honest_mul hbounds).bind (.pure _)

theorem label_ne_of_mem_inverseGuess (a : Element) :
    ∀ k ∈ (E.inverseGuess a).run.constraints, k.label ≠ "inverse" := by
  have hadmits {label : String} (hlabel : label ≠ "inverse") :
      E.native.Admits label fun k => k.label ≠ "inverse" := fun k _ _ hk => hk.trans_ne hlabel
  exact ((risks_of_true a).every_inverseGuess (hadmits (by decide)) (hadmits (by decide))
    (hadmits (by decide))).constraints

/-- The comparison of a number with one, both reduced. -/
def unitCheck (E : EmulatedField) (n : ℕ) : Constraint :=
  .equal (E.native.lift (n % E.modulus : ℕ)) (E.native.lift (1 % E.modulus : ℕ)) "inverse"

theorem unitCheck_holds (n : ℕ) :
    (E.unitCheck n).holds = .ok (decide (n ≡ 1 [MOD E.modulus])) := by
  have hval (k : ℕ) : (E.native.lift (k % E.modulus : ℕ)).val = k % E.modulus :=
    E.native.lift_val_of_lt (E.lt_order_of_lt_modulus (Nat.mod_lt k E.modulus_pos))
  rw [unitCheck, Constraint.equal_holds, hval, hval]
  rfl

/-- The comparison states the equation of Fermat's theorem. -/
theorem unitCheck_fermat (v : ℕ) :
    (E.unitCheck (v * fermatInverse v E.modulus)).holds =
      .ok (decide (v ^ (E.modulus - 1) ≡ 1 [MOD E.modulus])) := by
  have hfermat := mul_fermatInverse_modEq E.two_le_modulus v
  rw [unitCheck_holds]
  congr 1
  exact decide_eq_decide.2 ⟨hfermat.symm.trans, hfermat.trans⟩

theorem unitCheck_fermat_holds_iff (v : ℕ) :
    (E.unitCheck (v * fermatInverse v E.modulus)).Holds ↔
      v ^ (E.modulus - 1) ≡ 1 [MOD E.modulus] := by
  simp [Constraint.Holds, unitCheck_fermat]

theorem assertEqual_constant_one (n : ℕ) :
    E.assertEqual (E.constant n) E.one "inverse" = Circuit.assert (E.unitCheck n) := by
  have hreduce (k : ℤ) : E.reduce (E.constant k) = pure (E.constant k) :=
    if_pos (E.isCanonical_constant k)
  rw [assertEqual, one, hreduce, hreduce, pure_bind, pure_bind, ← Nat.cast_one, constant_natCast,
    constant_natCast,
    NativeField.assertEqual_eq (E.native.accept_lift _) (E.native.accept_lift _), unitCheck]

/-- The comparison comes last and is the only constraint of its label. -/
theorem Bounds.run_inverse (h : E.Bounds a v) :
    ∃ front : Log,
      (E.inverse a).run.constraints =
        front ++ [E.unitCheck (v * fermatInverse v E.modulus)] ∧
      (E.inverse a).run.result = .ok (E.constant (fermatInverse v E.modulus)) ∧
      ∀ k ∈ front, k.Holds ∧ k.label ≠ "inverse" := by
  have hguess := h.honest_inverseGuess
  have hrun := run_bind_of_ok (f := fun guess : Element × Element => do
    E.assertEqual guess.2 E.one "inverse"
    return guess.1) hguess.result
  rw [← inverse_eq, assertEqual_constant_one] at hrun
  refine ⟨_, hrun.2, hrun.1, fun k hk => ⟨?_, label_ne_of_mem_inverseGuess a k hk⟩⟩
  exact Log.unsatisfied_eq_nil_iff.1 hguess.unsatisfied k hk

/-- Inversion is exact for every modulus: of its constraints only the last can fail,
and it holds exactly if the power of Fermat's theorem is one. Modulo a prime these
are all elements but zero; the inverse of zero is zero, and the last constraint is
the only one to fail. -/
theorem inverse_exact (h : E.Bounds a v) :
    ∃ (front : Log) (last : Constraint) (w : Element) (y : ℕ),
      (E.inverse a).run.constraints = front ++ [last] ∧ (E.inverse a).run.result = .ok w ∧
      (∀ k ∈ front, k.Holds ∧ k.label ≠ "inverse") ∧ last.label = "inverse" ∧
      last.holds = .ok (decide (v ^ (E.modulus - 1) ≡ 1 [MOD E.modulus])) ∧
      w = E.constant y ∧ w.isCanonical ∧ y < E.modulus ∧ w.native.toInt = .ok (y : ℤ) ∧
      (last.Holds → v * y ≡ 1 [MOD E.modulus]) ∧
      (E.modulus.Prime → ((∀ k ∈ (E.inverse a).run.constraints, k.Holds) ↔ ¬ E.modulus ∣ v)) ∧
      (E.modulus ∣ v →
        w = E.zero ∧ Log.unsatisfied (E.inverse a).run.constraints = .ok [last]) := by
  obtain ⟨front, hlog, hresult, hfront⟩ := h.run_inverse
  have hlt := fermatInverse_lt E.modulus_pos v
  have hfront' : ∀ k ∈ front, k.Holds := fun k hk => (hfront k hk).1
  refine ⟨front, _, _, _, hlog, hresult, hfront, rfl, unitCheck_fermat v, rfl,
    E.isCanonical_constant _, hlt, ?_, fun hlast => ?_, fun hprime => ?_, fun hdvd => ⟨?_, ?_⟩⟩
  · have htoInt := (E.bounds_constant (fermatInverse v E.modulus)).toInt
    rwa [Nat.mod_eq_of_lt hlt] at htoInt
  · have hfermat := mul_fermatInverse_modEq E.two_le_modulus v
    exact hfermat.trans ((unitCheck_fermat_holds_iff v).1 hlast)
  · rw [← pow_modEq_one_iff hprime, ← unitCheck_fermat_holds_iff, hlog, List.forall_mem_append,
      List.forall_mem_singleton]
    exact and_iff_right hfront'
  · rw [fermatInverse_of_dvd hdvd]
    rfl
  · have hfails := unitCheck_fermat (E := E) v
    rw [decide_eq_false (not_pow_modEq_one_of_dvd E.two_le_modulus hdvd)] at hfails
    rw [hlog]
    exact Log.unsatisfied_concat hfront' hfails

/-- Residues modulo a composite number, in one limb. -/
def modulusFifteen : EmulatedField :=
  ⟨⟨4099, by decide⟩, 15, 1, 4, Nat.le_add_left 2 13, Nat.one_pos, by decide, by decide, by decide⟩

/-- A unit that is rejected: two, not reduced, modulo fifteen. -/
theorem inverse_unitOfComposite :
    modulusFifteen.Bounds ⟨.scalar (modulusFifteen.native.lift 17), 1, []⟩ 17 ∧
    Nat.Coprime 17 modulusFifteen.modulus ∧
    ∃ (front : Log) (last : Constraint) (w : Element),
      (modulusFifteen.inverse ⟨.scalar (modulusFifteen.native.lift 17), 1, []⟩).run.constraints =
        front ++ [last] ∧
      (modulusFifteen.inverse ⟨.scalar (modulusFifteen.native.lift 17), 1, []⟩).run.result =
        .ok w ∧
      last.holds = .ok false := by
  have hbounds : modulusFifteen.Bounds ⟨.scalar (modulusFifteen.native.lift 17), 1, []⟩ 17 :=
    ⟨⟨_, rfl, rfl, rfl⟩, by decide, by decide⟩
  obtain ⟨front, last, w, y, hlog, hresult, -, -, hlast, -⟩ := inverse_exact hbounds
  exact ⟨hbounds, by decide, front, last, w, hlog, hresult, hlast⟩

end EmulatedField

end NonNative
