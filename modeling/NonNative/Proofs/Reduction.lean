import NonNative.Emulation.Reduction
import NonNative.Proofs.Gates

/-!
Reduction in an emulated field. Canonicity is exact: the recorded constraints
hold of a value only if it is below the modulus, and then they determine its
limbs. The remainder is determined as soon as the range of the quotient cannot
make `q * modulus + r` wrap around the native order.
-/

namespace NonNative

namespace EmulatedField

open Circuit

variable (E : EmulatedField)

/-! ### Sizes -/

theorem modulus_pos : 0 < E.modulus := by
  have := E.two_le_modulus
  omega

theorem modulus_lt : E.modulus < 2 ^ E.totalBits :=
  (bitLength_le_iff_lt_two_pow _ _).1 E.modulus_fits

theorem modulus_lt_two_pow_modulusBits : E.modulus < 2 ^ E.modulusBits :=
  lt_two_pow_bitLength _

theorem modulusBits_pos : 0 < E.modulusBits := bitLength_pos E.modulus_pos.ne'

theorem two_pow_modulusBits_le : 2 ^ (E.modulusBits - 1) ≤ E.modulus := by
  apply two_pow_le_of_lt_bitLength
  have hpos := E.modulusBits_pos
  rw [modulusBits] at *
  omega

theorem two_pow_le_order {k : ℕ} (hk : k < E.native.bits) : 2 ^ k ≤ E.native.order :=
  two_pow_le_of_lt_bitLength hk

theorem two_pow_totalBits_double_le : 2 * 2 ^ E.totalBits ≤ E.native.order := by
  have hwide := E.native_wide
  rw [← Nat.pow_succ']
  apply E.two_pow_le_order
  rw [totalBits]
  omega

theorem lt_order_of_lt_modulus {v : ℕ} (hv : v < E.modulus) : v < E.native.order := by
  have hmodulus := E.modulus_lt
  have horder := E.two_pow_totalBits_double_le
  omega

/-! ### Constants -/

theorem constant_natCast (v : ℕ) : E.constant v =
    ⟨.scalar (E.native.lift (v % E.modulus : ℕ)), 0,
      ((digits E.limbBits E.limbCount (v % E.modulus)).map fun (d : ℕ) =>
        E.native.lift d).map .scalar⟩ := by
  rw [constant, ← Int.natCast_mod, Int.toNat_natCast, List.map_map]
  rfl

theorem constant_emod (n : ℤ) : E.constant (n % E.modulus) = E.constant n := by
  simp only [constant, Int.emod_emod]

theorem constant_mod (v : ℕ) : E.constant (v % E.modulus : ℕ) = E.constant v := by
  rw [Int.natCast_mod, constant_emod]

theorem isCanonical_constant (n : ℤ) : (E.constant n).isCanonical := by
  have hlimbs : (E.constant n).limbs.length = E.limbCount := by simp [constant]
  rw [Element.isCanonical, Bool.not_eq_true', List.isEmpty_eq_false_iff, ← List.length_pos_iff,
    hlimbs]
  exact E.limbCount_pos

/-- The limbs of a residue recompose to it. -/
theorem ofDigits_limbs {v : ℕ} (hv : v < E.modulus) :
    ofDigits E.limbBits (digits E.limbBits E.limbCount v) = v := by
  rw [ofDigits_digits, Nat.mul_comm]
  exact Nat.mod_eq_of_lt (hv.trans E.modulus_lt)

theorem limb_lt_order {w n x d : ℕ} (hw : w ≤ E.totalBits) (hd : d ∈ digits w n x) :
    d < E.native.order := by
  have hlimb : d < 2 ^ w := digits_lt hd
  have hpow : 2 ^ w ≤ 2 ^ E.totalBits := Nat.pow_le_pow_right Nat.two_pos hw
  have horder := E.two_pow_totalBits_double_le
  omega

theorem limbBits_le_totalBits : E.limbBits ≤ E.totalBits :=
  Nat.le_mul_of_pos_left _ E.limbCount_pos

/-! ### Canonicity -/

/-- The constraints on limbs of `v` that the prover has chosen. -/
def canonicity (v : ℕ) (ds : List ℕ) (label : String) : Log :=
  ds.map (fun (d : ℕ) => .range (E.native.lift d) E.limbBits label) ++
    [.equal (E.native.lift (ofDigits E.limbBits ds)) (E.native.lift v) label,
      .range (E.native.lift ((E.modulus : ℤ) - 1 - v)) E.totalBits label]

/-- The circuit for limbs that the prover has chosen. -/
theorem canonical_body {r : Operand} {v : ℕ} (hr : E.native.accept r = pure (E.native.lift v))
    (label : String) {ds : List ℕ} (hds : ∀ d ∈ ds, d < E.native.order) :
    (do
      (ds.map fun (d : ℕ) => E.native.lift d).forM fun limb =>
        E.native.rangeCheck (.scalar limb) E.limbBits label
      let sum ← E.native.recompose E.limbBits ((ds.map fun (d : ℕ) => E.native.lift d).map .scalar)
      E.native.assertEqual (.scalar sum) r label
      let gap ← E.native.sub (.int ((E.modulus : ℤ) - 1)) r
      E.native.rangeCheck (.scalar gap) E.totalBits label
      return (⟨r, 0, (ds.map fun (d : ℕ) => E.native.lift d).map .scalar⟩ : Element)) =
    (do
      forM (E.canonicity v ds label) Circuit.assert
      return (⟨r, 0, (ds.map fun (d : ℕ) => E.native.lift d).map .scalar⟩ : Element)) := by
  simp only [canonicity, List.forM_eq_forM, List.forM_map, List.forM_append, List.forM_cons,
    List.forM_nil, NativeField.rangeCheck_eq (E.native.accept_lift _),
    E.native.recompose_eq _ hds, pure_bind, LawfulMonad.bind_assoc,
    NativeField.assertEqual_eq (E.native.accept_lift _) hr,
    NativeField.sub_eq (E.native.accept_int _) hr]

/-- Limbs of the right width recompose to a value below the capacity. -/
theorem ofDigits_lt_capacity {ds : List ℕ} (hlength : ds.length = E.limbCount)
    (hsmall : ∀ d ∈ ds, d < 2 ^ E.limbBits) : ofDigits E.limbBits ds < 2 ^ E.totalBits := by
  have := ofDigits_lt hsmall
  rwa [hlength, Nat.mul_comm] at this

/-- The distance to the modulus is in range if it does not wrap around, and again for
the values so close to the native order that it comes back to a small number. -/
theorem gap_in_range_iff {v : ℕ} (hv : v < E.native.order) :
    (E.native.lift ((E.modulus : ℤ) - 1 - v)).val < 2 ^ E.totalBits ↔
      v < E.modulus ∨ E.native.order + E.modulus ≤ v + 2 ^ E.totalBits := by
  have hval := E.native.lift_val ((E.modulus : ℤ) - 1 - v)
  have horder := E.two_pow_totalBits_double_le
  have hmodulus := E.modulus_lt
  have htwo := E.two_le_modulus
  rcases lt_or_ge v E.modulus with hlt | hge
  · rw [Int.emod_eq_of_lt (by omega) (by omega)] at hval
    omega
  · rw [← Int.add_emod_right, Int.emod_eq_of_lt (by omega) (by omega)] at hval
    omega

/-- The constraints hold exactly of a value below the modulus with its digits as
limbs. -/
theorem canonicity_holds_iff {v : ℕ} (hv : v < E.native.order) {ds : List ℕ}
    (hlength : ds.length = E.limbCount) (hds : ∀ d ∈ ds, d < E.native.order) (label : String) :
    (∀ k ∈ E.canonicity v ds label, k.Holds) ↔
      v < E.modulus ∧ ds = digits E.limbBits E.limbCount v := by
  have horder := E.two_pow_totalBits_double_le
  have hlimbs : (∀ d ∈ ds, (E.native.lift d).val < 2 ^ E.limbBits) ↔
      ∀ d ∈ ds, d < 2 ^ E.limbBits :=
    forall₂_congr fun d hd => by rw [E.native.lift_val_of_lt (hds d hd)]
  simp only [canonicity, List.forall_mem_append, List.forall_mem_map, List.forall_mem_cons,
    List.not_mem_nil, false_implies, implies_true, and_true, Constraint.equal_holds_iff,
    Constraint.range_holds_iff (Int.natCast_nonneg _), Int.toNat_natCast, hlimbs,
    E.native.lift_val_of_lt hv]
  constructor
  · rintro ⟨hsmall, hsum, hgap⟩
    have hlt := E.ofDigits_lt_capacity hlength hsmall
    rw [E.native.lift_val_of_lt (by omega)] at hsum
    rw [hsum] at hlt
    -- the second range of the gap is out of reach below the capacity
    have hbelow : v < E.modulus := ((E.gap_in_range_iff hv).1 hgap).resolve_right (by omega)
    refine ⟨hbelow, ?_⟩
    rw [← hsum, ← hlength, digits_ofDigits hsmall]
  · rintro ⟨hlt, rfl⟩
    refine ⟨fun d hd => digits_lt hd, ?_, (E.gap_in_range_iff hv).2 (.inl hlt)⟩
    rw [E.ofDigits_limbs hlt, E.native.lift_val_of_lt hv]

theorem honest_canonical {v : ℕ} (hv : v < E.modulus) (label : String) :
    (E.canonical (.scalar (E.native.lift v)) label).Determines .honest (E.constant v) [] := by
  have horder := E.lt_order_of_lt_modulus hv
  have hlimbs : ∀ d ∈ digits E.limbBits E.limbCount v, d < E.native.order := fun d hd =>
    E.limb_lt_order E.limbBits_le_totalBits hd
  have hholds := (E.canonicity_holds_iff horder (digits_length _ _ _) hlimbs label).2 ⟨hv, rfl⟩
  rw [canonical, NativeField.accept_lift, pure_bind, E.native.lift_val_of_lt horder]
  refine (E.native.determines_hints _).bind ?_
  rw [E.canonical_body (E.native.accept_lift v) label hlimbs, constant_natCast, Nat.mod_eq_of_lt hv]
  exact (determines_forM_assert id hholds).bind (.pure _)

/-- A value that passes the constraints is below the modulus. -/
theorem forces_canonical {v : ℕ} (hv : v < E.native.order) (label : String) :
    (E.canonical (.scalar (E.native.lift v)) label).Forces fun a =>
      v < E.modulus ∧ a = E.constant v := by
  rw [canonical, NativeField.accept_lift, pure_bind, E.native.lift_val_of_lt hv]
  refine (E.native.forces_hints _).bind ?_
  rintro _ ⟨ds, hlength, hds, rfl⟩
  rw [digits_length] at hlength
  rw [E.canonical_body (E.native.accept_lift v) label hds]
  refine (forces_forM_assert id _).bind fun _ hholds => ?_
  obtain ⟨hbelow, rfl⟩ := (E.canonicity_holds_iff hv hlength hds label).1 hholds
  refine ⟨hbelow, ?_⟩
  rw [constant_natCast, Nat.mod_eq_of_lt hbelow]

/-! ### Witnesses -/

theorem honest_witness (n : ℤ) : (E.witness n).Determines .honest (E.constant n) [] := by
  have hpos : (0 : ℤ) < E.modulus := Int.natCast_pos.2 E.modulus_pos
  have hnonneg : 0 ≤ n % (E.modulus : ℤ) := Int.emod_nonneg n hpos.ne'
  have hlt : n % (E.modulus : ℤ) < E.modulus := Int.emod_lt_of_pos n hpos
  obtain ⟨v, hv⟩ := Int.eq_ofNat_of_zero_le hnonneg
  rw [hv] at hlt
  rw [witness, ← constant_emod, hv]
  exact (E.native.determines_hint v).bind (E.honest_canonical (Int.ofNat_lt.1 hlt) _)

/-- A witness may be any residue, but nothing else. -/
theorem forces_witness (n : ℤ) :
    (E.witness n).Forces fun a => ∃ v < E.modulus, a = E.constant (v : ℕ) := by
  refine (E.native.forces_hint _).bind ?_
  rintro _ ⟨v, hv, rfl⟩
  exact (E.forces_canonical hv _).mono fun a ha => ⟨v, ha.1, ha.2⟩

/-! ### Quotient and remainder -/

/-- The width of the range of a quotient. -/
def quotientWidth (bound : ℤ) : ℤ := max (bound - E.modulusBits + 1) 1

theorem one_le_quotientWidth (bound : ℤ) : 1 ≤ E.quotientWidth bound := le_max_right _ _

/-- The range is wide enough for every honest quotient. -/
theorem quotient_lt {v : ℕ} {bound : ℤ} (hv : v < 2 ^ bound.toNat) :
    v / E.modulus < 2 ^ (E.quotientWidth bound).toNat := by
  have hpos := E.modulusBits_pos
  have hle := E.two_pow_modulusBits_le
  rw [Nat.div_lt_iff_lt_mul E.modulus_pos]
  calc
    v < 2 ^ bound.toNat := hv
    _ ≤ 2 ^ ((E.quotientWidth bound).toNat + (E.modulusBits - 1)) := by
      apply Nat.pow_le_pow_right Nat.two_pos
      rw [quotientWidth]
      omega
    _ = 2 ^ (E.quotientWidth bound).toNat * 2 ^ (E.modulusBits - 1) := Nat.pow_add _ _ _
    _ ≤ 2 ^ (E.quotientWidth bound).toNat * E.modulus := Nat.mul_le_mul_left _ hle

/-- The range is narrow enough that no quotient in it makes the recomposed value
wrap around, as long as two bits of the native field are free. -/
theorem quotientRange_le {bound : ℤ} (hwide : bound.toNat + 2 ≤ E.native.bits) :
    2 ^ (E.quotientWidth bound).toNat * E.modulus ≤ E.native.order := by
  have hlt := E.modulus_lt_two_pow_modulusBits
  have hfits : E.modulusBits ≤ E.totalBits := E.modulus_fits
  have hnative : 2 * E.totalBits + 4 ≤ E.native.bits := E.native_wide
  calc
    2 ^ (E.quotientWidth bound).toNat * E.modulus ≤
        2 ^ (E.quotientWidth bound).toNat * 2 ^ E.modulusBits := Nat.mul_le_mul_left _ hlt.le
    _ = 2 ^ ((E.quotientWidth bound).toNat + E.modulusBits) := (Nat.pow_add _ _ _).symm
    _ ≤ E.native.order := by
      apply E.two_pow_le_order
      rw [quotientWidth]
      omega

/-- The circuit for a quotient and a remainder that the prover has chosen. -/
theorem remainder_body (v : ℤ) (bound : ℤ) (label : String) (q r : ℕ) :
    (do
      E.native.rangeCheck (.scalar (E.native.lift q)) (max (bound - E.modulusBits + 1) 1) label
      let reduced ← E.canonical (.scalar (E.native.lift r)) label
      let multiple ← E.native.mul (.scalar (E.native.lift q)) (.int E.modulus)
      let total ← E.native.add (.scalar multiple) (.scalar (E.native.lift r))
      E.native.assertEqual (.scalar (E.native.lift v)) (.scalar total) label
      return reduced) =
    (do
      Circuit.assert (.range (E.native.lift q) (E.quotientWidth bound) label)
      let reduced ← E.canonical (.scalar (E.native.lift r)) label
      Circuit.assert (.equal (E.native.lift v) (E.native.lift (q * E.modulus + r : ℕ)) label)
      return reduced) := by
  simp only [quotientWidth, NativeField.rangeCheck_eq (E.native.accept_lift _),
    NativeField.mul_eq (E.native.accept_lift _) (E.native.accept_int _),
    NativeField.add_eq (E.native.accept_lift _) (E.native.accept_lift _),
    NativeField.assertEqual_eq (E.native.accept_lift _) (E.native.accept_lift _), pure_bind,
    Nat.cast_add, Nat.cast_mul]

theorem remainder_eq {a : Operand} {v : ℕ} (ha : E.native.accept a = pure (E.native.lift v))
    (bound : ℤ) (label : String) :
    E.remainder a bound label = E.remainder (.scalar (E.native.lift v)) bound label := by
  simp only [remainder, NativeField.assertEqual, ha, NativeField.accept_lift]

/-- The quotient of an honest prover passes. -/
theorem quotient_holds {v : ℕ} {bound : ℤ} (hv : v < E.native.order) (hfits : v < 2 ^ bound.toNat)
    (label : String) :
    (Constraint.range (E.native.lift (v / E.modulus : ℕ)) (E.quotientWidth bound) label).Holds := by
  have hwidth : 0 ≤ E.quotientWidth bound := (E.one_le_quotientWidth bound).trans' zero_le_one
  rw [Constraint.range_holds_iff hwidth,
    E.native.lift_val_of_lt ((Nat.div_le_self _ _).trans_lt hv)]
  exact E.quotient_lt hfits

/-- No other quotient does: with the quotient in its range and the remainder below
the modulus, the recomposed value cannot wrap around, so division leaves only one
choice. -/
theorem eq_div_mod_of_holds {v q r : ℕ} {bound : ℤ} {label : String} (hv : v < E.native.order)
    (hwide : bound.toNat + 2 ≤ E.native.bits) (hq : q < E.native.order) (hr : r < E.modulus)
    (hrange : (Constraint.range (E.native.lift q) (E.quotientWidth bound) label).Holds)
    (hequal : (Constraint.equal (E.native.lift v) (E.native.lift (q * E.modulus + r : ℕ))
      label).Holds) :
    q = v / E.modulus ∧ r = v % E.modulus := by
  have hwidth : 0 ≤ E.quotientWidth bound := (E.one_le_quotientWidth bound).trans' zero_le_one
  rw [Constraint.range_holds_iff hwidth, E.native.lift_val_of_lt hq] at hrange
  -- `(q + 1) * modulus` still fits, and the remainder is below the modulus
  have hnowrap : q * E.modulus + r < E.native.order := by
    have hle := E.quotientRange_le hwide
    have hmul : (q + 1) * E.modulus ≤ 2 ^ (E.quotientWidth bound).toNat * E.modulus :=
      Nat.mul_le_mul_right _ hrange
    rw [Nat.succ_mul] at hmul
    omega
  rw [Constraint.equal_holds_iff, E.native.lift_val_of_lt hv,
    E.native.lift_val_of_lt hnowrap, Nat.mul_comm, Nat.add_comm] at hequal
  exact (Nat.div_mod_unique E.modulus_pos).2 ⟨hequal.symm, hr⟩ |>.imp Eq.symm Eq.symm

theorem honest_remainder {v : ℕ} {bound : ℤ} (hv : v < E.native.order)
    (hfits : v < 2 ^ bound.toNat) (label : String) :
    (E.remainder (.scalar (E.native.lift v)) bound label).Determines .honest (E.constant v) [] := by
  rw [remainder, NativeField.accept_lift, pure_bind, E.native.lift_val_of_lt hv]
  refine (E.native.determines_hint _).bind ((E.native.determines_hint _).bind ?_)
  rw [E.remainder_body v, Nat.div_add_mod', ← constant_mod]
  exact (Determines.assert_of_holds (E.quotient_holds hv hfits label)).bind
    ((E.honest_canonical (Nat.mod_lt _ E.modulus_pos) label).bind
      ((Determines.assert_of_holds (Constraint.equal_holds_iff.2 rfl)).bind (.pure _)))

/-- The remainder of a value is determined. -/
theorem determines_remainder {v : ℕ} {bound : ℤ} (hv : v < E.native.order)
    (hfits : v < 2 ^ bound.toNat) {prover : Prover}
    (hwide : prover = .arbitrary → bound.toNat + 2 ≤ E.native.bits) (label : String) :
    (E.remainder (.scalar (E.native.lift v)) bound label).Determines prover (E.constant v) [] := by
  have hhonest := E.honest_remainder hv hfits label
  refine ⟨hhonest.result, hhonest.unsatisfied, fun hprover => ?_⟩
  rw [remainder, NativeField.accept_lift, pure_bind]
  refine (E.native.forces_hint _).bind ?_
  rintro _ ⟨q, hq, rfl⟩
  refine (E.native.forces_hint _).bind ?_
  rintro _ ⟨r, hr, rfl⟩
  rw [E.remainder_body v]
  intro hrange
  refine (E.forces_canonical hr label).bind ?_
  rintro _ ⟨hr, rfl⟩ hequal
  obtain ⟨-, rfl⟩ := E.eq_div_mod_of_holds hv (hwide hprover) hq hr hrange hequal
  exact ⟨E.constant_mod v, rfl⟩

end EmulatedField

end NonNative
