import Mathlib.Data.Int.ModEq
import Mathlib.Data.ZMod.Basic
import NonNative.Native.Gates
import NonNative.Proofs.Determined
import NonNative.Proofs.Digits
import NonNative.Proofs.Power

/-!
The gates of a constraint system on the classes of integers. Arithmetic is the
arithmetic of the integers, assertions record one constraint whose meaning is a
relation of representatives, and the two gates with guesses of the prover, the
test for zero and the bits of a value, determine their results.
-/

namespace NonNative

namespace NativeField

variable (F : NativeField)

/-! ### Classes of integers -/

theorem lift_val (n : ℤ) : ((F.lift n).val : ℤ) = n % F.order := by
  have hpos : (0 : ℤ) < F.order := Int.natCast_pos.2 F.order_pos
  exact Int.toNat_of_nonneg (Int.emod_nonneg n hpos.ne')

theorem lift_val_lt (n : ℤ) : (F.lift n).val < F.order := (F.lift n).val_lt

theorem lift_val_of_lt {v : ℕ} (hv : v < F.order) : (F.lift v).val = v := by
  have h := F.lift_val v
  rw [Int.emod_eq_of_lt (Int.natCast_nonneg v) (Int.ofNat_lt.2 hv)] at h
  exact_mod_cast h

theorem map_val_lift {ns : List ℕ} (hns : ∀ n ∈ ns, n < F.order) :
    (ns.map fun (n : ℕ) => F.lift n).map (·.val) = ns := by
  rw [List.map_map]
  exact (List.map_congr_left fun n hn => F.lift_val_of_lt (hns n hn)).trans (List.map_id _)

theorem bit_lt_order {n x b : ℕ} (hb : b ∈ NonNative.bits n x) : b < F.order :=
  (bits_lt_two hb).trans_le F.two_le_order

theorem lift_eq_lift_iff {a b : ℤ} : F.lift a = F.lift b ↔ a ≡ b [ZMOD F.order] := by
  constructor
  · intro h
    have hval : ((F.lift a).val : ℤ) = (F.lift b).val := by rw [h]
    rwa [lift_val, lift_val] at hval
  · intro h
    simp only [lift, show a % (F.order : ℤ) = b % (F.order : ℤ) from h]

theorem val_eq_val_iff {a b : ℤ} : (F.lift a).val = (F.lift b).val ↔ F.lift a = F.lift b := by
  refine ⟨fun h => ?_, fun h => by rw [h]⟩
  rw [lift_eq_lift_iff, Int.ModEq, ← lift_val, ← lift_val, h]

theorem lift_val_self {s : Scalar} (hs : s.order = F.order) : F.lift s.val = s := by
  obtain ⟨order, val, hval⟩ := s
  obtain rfl : order = F.order := hs
  simpa only [lift, Scalar.mk.injEq, true_and] using F.lift_val_of_lt hval

theorem lift_lift_val (n : ℤ) : F.lift (F.lift n).val = F.lift n := F.lift_val_self rfl

/-! ### Gates without a prover -/

@[simp] theorem accept_lift (n : ℤ) : F.accept (.scalar (F.lift n)) = pure (F.lift n) :=
  if_pos rfl

@[simp] theorem accept_int (n : ℤ) : F.accept (.int n) = pure (F.lift n) := rfl

/-- A value that is accepted is one of the field. -/
theorem order_eq_of_accept {a : Operand} {s : Scalar} (h : F.accept a = .done s) :
    s.order = F.order := by
  cases a with
  | scalar t =>
      rw [accept] at h
      split at h
      · next horder => cases h; exact horder
      · cases h
  | int n => cases h; rfl
  | truth b => cases h; rfl
  | text t =>
      rw [accept] at h
      split at h
      · cases h; rfl
      · cases h

theorem val_lt_of_accept {a : Operand} {s : Scalar} (h : F.accept a = .done s) :
    s.val < F.order := F.order_eq_of_accept h ▸ s.val_lt

theorem accept_eq_lift {a : Operand} {s : Scalar} (h : F.accept a = .done s) :
    F.accept a = pure (F.lift s.val) := by
  rw [h, F.lift_val_self (F.order_eq_of_accept h)]
  rfl

/-- The operand stands for the class of a representative. -/
def StandsFor (operand : Operand) (v : ℕ) : Prop :=
  v < F.order ∧ F.accept operand = pure (F.lift v)

section Arithmetic

variable {F} {a b : Operand} {x y : ℤ} (ha : F.accept a = pure (F.lift x))
  (hb : F.accept b = pure (F.lift y))

include ha hb

theorem add_eq : F.add a b = pure (F.lift (x + y)) := by
  simp only [add, ha, hb, pure_bind, lift_val]
  congr 1
  exact F.lift_eq_lift_iff.2 ((Int.mod_modEq x _).add (Int.mod_modEq y _))

theorem sub_eq : F.sub a b = pure (F.lift (x - y)) := by
  simp only [sub, ha, hb, pure_bind, lift_val]
  congr 1
  exact F.lift_eq_lift_iff.2 ((Int.mod_modEq x _).sub (Int.mod_modEq y _))

theorem mul_eq : F.mul a b = pure (F.lift (x * y)) := by
  simp only [mul, ha, hb, pure_bind, lift_val]
  congr 1
  exact F.lift_eq_lift_iff.2 ((Int.mod_modEq x _).mul (Int.mod_modEq y _))

theorem select_eq {cond : Operand} {k : ℤ} (hcond : F.accept cond = pure (F.lift k)) :
    F.select cond a b = pure (F.lift (y + k * (x - y))) := by
  rw [select, sub_eq ha hb, pure_bind, mul_eq hcond (F.accept_lift _), pure_bind,
    add_eq hb (F.accept_lift _)]

theorem assertEqual_eq (label : String) :
    F.assertEqual a b label = Circuit.assert (.equal (F.lift x) (F.lift y) label) := by
  simp only [assertEqual, ha, hb, pure_bind]

omit hb in
theorem assertBoolean_eq (label : String) :
    F.assertBoolean a label = Circuit.assert (.boolean (F.lift x) label) := by
  simp only [assertBoolean, ha, pure_bind]

omit hb in
theorem rangeCheck_eq (width : ℤ) (label : String) :
    F.rangeCheck a width label = Circuit.assert (.range (F.lift x) width label) := by
  simp only [rangeCheck, ha, pure_bind]

end Arithmetic

theorem recompose_eq (w : ℕ) {ns : List ℕ} (hns : ∀ n ∈ ns, n < F.order) :
    F.recompose w ((ns.map fun (n : ℕ) => F.lift n).map .scalar) =
      pure (F.lift (ofDigits w ns)) := by
  have haccept (ns : List ℕ) :
      ((ns.map fun (n : ℕ) => F.lift n).map Operand.scalar).mapM F.accept =
        pure (ns.map fun (n : ℕ) => F.lift n) := by
    induction ns with
    | nil => simp
    | cons n ns ih => simp only [List.map_cons, List.mapM_cons, accept_lift, pure_bind, ih]
  rw [recompose, haccept, pure_bind, F.map_val_lift hns]

end NativeField

/-! ### What recorded constraints say -/

namespace Constraint

variable (F : NativeField)

theorem equal_holds (a b : Scalar) (label : String) :
    (equal a b label).holds = .ok (decide (a.val = b.val)) := by
  change Except.ok (decide ((a.val : ℤ) = b.val)) = _
  congr 1
  exact decide_eq_decide.2 Int.ofNat_inj

theorem boolean_holds (a : Scalar) (label : String) :
    (boolean a label).holds = .ok (decide (a.val = 0 ∨ a.val = 1)) := by
  change Except.ok (decide ((a.val : ℤ) = 0) || decide ((a.val : ℤ) = 1)) = _
  congr 1
  rw [Bool.decide_or]
  congr 1 <;> exact decide_eq_decide.2 (by omega)

theorem range_holds (a : Scalar) {width : ℤ} (hwidth : 0 ≤ width) (label : String) :
    (range a width label).holds = .ok (decide (a.val < 2 ^ width.toNat)) := by
  simp only [holds, range, List.map_cons, Term.toInt, if_neg (not_lt.2 hwidth), Int.toNat_natCast,
    bitLength_le_iff_lt_two_pow]
  have hnonneg : ¬ (a.val : ℤ) < 0 := by omega
  simp [hnonneg]

theorem equal_holds_iff {a b : Scalar} {label : String} :
    (equal a b label).Holds ↔ a.val = b.val := by
  simp [Holds, equal_holds]

theorem boolean_holds_iff {a : Scalar} {label : String} :
    (boolean a label).Holds ↔ a.val = 0 ∨ a.val = 1 := by
  simp [Holds, boolean_holds]

theorem range_holds_iff {a : Scalar} {width : ℤ} (hwidth : 0 ≤ width) {label : String} :
    (range a width label).Holds ↔ a.val < 2 ^ width.toNat := by
  simp [Holds, range_holds a hwidth]

/-- A value that is compared with its lowest part. -/
theorem equal_lowest_holds_iff {v : ℕ} (hv : v < F.order) (n : ℕ) {label : String} :
    (equal (F.lift (v % 2 ^ n : ℕ)) (F.lift v) label).Holds ↔ v < 2 ^ n := by
  rw [equal_holds_iff, F.lift_val_of_lt ((Nat.mod_le _ _).trans_lt hv), F.lift_val_of_lt hv]
  exact ⟨fun h => h ▸ Nat.mod_lt v (Nat.two_pow_pos n), Nat.mod_eq_of_lt⟩

end Constraint

/-! ### Guesses of the prover -/

namespace Circuit

variable {α : Type} {prover : Prover}

theorem determines_forM_assert (k : α → Constraint) {l : List α} (hl : ∀ a ∈ l, (k a).Holds) :
    (forM l fun a => Circuit.assert (k a)).Determines prover () [] := by
  induction l with
  | nil => exact .pure ()
  | cons a l ih =>
      rw [List.forM_cons]
      exact (Determines.assert_of_holds (hl a (by simp))).bind
        (ih fun b hb => hl b (by simp [hb]))

theorem forces_forM_assert (k : α → Constraint) (l : List α) :
    (forM l fun a => Circuit.assert (k a)).Forces fun _ => ∀ a ∈ l, (k a).Holds := by
  induction l with
  | nil => simp [Forces, pure_eq]
  | cons a l ih =>
      have hhead : (Circuit.assert (k a)).Forces fun _ => (k a).Holds := fun h => h
      rw [List.forM_cons]
      refine hhead.bind fun _ ha => ih.mono fun _ hl => ?_
      exact List.forall_mem_cons.2 ⟨ha, hl⟩

end Circuit

namespace NativeField

variable (F : NativeField)

open Circuit

theorem run_hint_bind {α : Type} (n : ℤ) (f : Scalar → Circuit α) :
    (F.hint n >>= f).run = (f (F.lift n)).run := rfl

theorem run_hints_bind {α : Type} (ns : List ℕ) (f : List Scalar → Circuit α) :
    (F.hints ns >>= f).run = (f (ns.map fun (n : ℕ) => F.lift n)).run := by
  induction ns generalizing f with
  | nil => rfl
  | cons n ns ih =>
      rw [hints, List.mapM_cons, LawfulMonad.bind_assoc, run_hint_bind]
      simp only [LawfulMonad.bind_assoc, pure_bind]
      rw [← hints, ih]
      rfl

theorem determines_hint (n : ℤ) : (F.hint n).Determines .honest (F.lift n) [] where
  result := rfl
  unsatisfied := rfl
  forced h := nomatch h

/-- Whatever the prover answers, it is the class of a natural number. -/
theorem forces_hint (n : ℤ) : (F.hint n).Forces fun s => ∃ v < F.order, s = F.lift (v : ℕ) :=
  fun answer => ⟨_, F.lift_val_lt answer, (F.lift_lift_val answer).symm⟩

theorem determines_hints (ns : List ℕ) :
    (F.hints ns).Determines .honest (ns.map fun (n : ℕ) => F.lift n) [] :=
  .mapM fun (n : ℕ) _ => F.determines_hint n

theorem forces_hints (ns : List ℕ) :
    (F.hints ns).Forces fun ss => ∃ vs : List ℕ, vs.length = ns.length ∧
      (∀ v ∈ vs, v < F.order) ∧ ss = vs.map fun (v : ℕ) => F.lift v := by
  induction ns with
  | nil => exact ⟨[], rfl, by simp, rfl⟩
  | cons n ns ih =>
      rw [hints, List.mapM_cons]
      refine (F.forces_hint n).bind ?_
      rintro _ ⟨v, hv, rfl⟩
      refine ih.bind ?_
      rintro _ ⟨vs, hlength, hvs, rfl⟩
      exact ⟨v :: vs, by simp [hlength], List.forall_mem_cons.2 ⟨hv, hvs⟩, rfl⟩

/-- The only constraint of the test for zero leaves the flag no choice. -/
theorem zeroFlag_eq (hprime : F.order.Prime) {v : ℕ} (hv : v < F.order) {y : ℤ}
    (h : F.lift (v * (1 - v * y)) = F.lift 0) :
    F.lift (1 - v * y) = F.lift (decide (v = 0)).toNat := by
  rw [lift_eq_lift_iff, Int.modEq_zero_iff_dvd] at h
  by_cases hzero : v = 0
  · simp [hzero]
  · rw [decide_eq_false hzero, Bool.toNat_false, lift_eq_lift_iff, Nat.cast_zero,
      Int.modEq_zero_iff_dvd]
    refine ((Nat.prime_iff_prime_int.1 hprime).dvd_or_dvd h).resolve_left fun hdvd => hzero ?_
    exact Nat.eq_zero_of_dvd_of_lt (Int.natCast_dvd_natCast.1 hdvd) hv

theorem honest_zeroFlag (hprime : F.order.Prime) (v : ℕ) :
    F.lift (v * (1 - v * fermatInverse v F.order)) = F.lift 0 := by
  have : Fact F.order.Prime := ⟨hprime⟩
  rw [lift_eq_lift_iff, ← ZMod.intCast_eq_intCast_iff]
  push_cast
  rw [fermatInverse_cast hprime]
  by_cases hv : (v : ZMod F.order) = 0
  · simp [hv]
  · rw [mul_inv_cancel₀ hv, sub_self, mul_zero]

/-- The flag is one exactly for zero. The inverse that the prover supplies does
not matter: the constraint on the flag is enough. -/
theorem determines_isZero (hprime : F.order.Prime) {v : ℕ} (hv : v < F.order) (prover : Prover) :
    (F.isZero (.scalar (F.lift v))).Determines prover (F.lift (decide (v = 0)).toNat) [] := by
  have hbody (y : ℤ) :
      (do
        let product ← F.mul (.scalar (F.lift v)) (.scalar (F.lift y))
        let flag ← F.sub (.int 1) (.scalar product)
        let residue ← F.mul (.scalar (F.lift v)) (.scalar flag)
        F.assertEqual (.scalar residue) (.int 0) "is_zero"
        return flag) =
      (do
        Circuit.assert (.equal (F.lift (v * (1 - v * y))) (F.lift 0) "is_zero")
        return F.lift (1 - v * y)) := by
    rw [mul_eq (F.accept_lift _) (F.accept_lift _), pure_bind,
      sub_eq (F.accept_int _) (F.accept_lift _), pure_bind,
      mul_eq (F.accept_lift _) (F.accept_lift _), pure_bind,
      assertEqual_eq (F.accept_lift _) (F.accept_int _)]
  rw [isZero, accept_lift, pure_bind, F.lift_val_of_lt hv]
  refine (F.determines_hint _).bind_guess (fun _ => F.forces_hint _) ?_ ?_
  · rw [hbody]
    have hholds : (Constraint.equal (F.lift (v * (1 - v * fermatInverse v F.order))) (F.lift 0)
        "is_zero").Holds := by
      rw [Constraint.equal_holds_iff, F.honest_zeroFlag hprime v]
    rw [← F.zeroFlag_eq hprime hv (F.honest_zeroFlag hprime v)]
    exact (Determines.assert_of_holds hholds).bind (.pure _)
  · -- any other answer gives the same flag, or the constraint fails
    rintro - _ ⟨y, -, rfl⟩
    rw [hbody]
    intro hholds
    rw [Constraint.equal_holds_iff, val_eq_val_iff] at hholds
    exact ⟨F.zeroFlag_eq hprime hv hholds, rfl⟩

theorem boolean_lift_holds (b : Bool) (label : String) :
    (Constraint.boolean (F.lift b.toNat) label).Holds := by
  have hlt := (Bool.toNat_lt b).trans_le F.two_le_order
  rw [Constraint.boolean_holds_iff, F.lift_val_of_lt hlt]
  cases b <;> simp

theorem determines_and (b c : Bool) (prover : Prover) :
    (F.and (.scalar (F.lift b.toNat)) (.scalar (F.lift c.toNat))).Determines prover
      (F.lift (b && c).toNat) [] := by
  rw [and, assertBoolean_eq (F.accept_lift _), assertBoolean_eq (F.accept_lift _),
    mul_eq (F.accept_lift _) (F.accept_lift _)]
  have hproduct : F.lift (b.toNat * c.toNat) = F.lift (b && c).toNat := by
    cases b <;> cases c <;> rfl
  rw [hproduct]
  exact (Determines.assert_of_holds (F.boolean_lift_holds b _)).bind
    ((Determines.assert_of_holds (F.boolean_lift_holds c _)).bind (.pure _))

/-- A flag that has to be zero. -/
theorem determines_assertFalse (b : Bool) (label : String) (prover : Prover) :
    (F.assertEqual (.scalar (F.lift b.toNat)) (.int 0) label).Determines prover ()
      (if b then [.equal (F.lift 1) (F.lift 0) label] else []) := by
  have hlt := (Bool.toNat_lt b).trans_le F.two_le_order
  have hval : (F.lift b.toNat).val = b.toNat := F.lift_val_of_lt hlt
  have hzero : (F.lift 0).val = 0 := F.lift_val_of_lt (v := 0) F.order_pos
  have hblame : (Constraint.equal (F.lift b.toNat) (F.lift 0) label).blame =
      if b then [.equal (F.lift 1) (F.lift 0) label] else [] := by
    simp only [Constraint.blame, Constraint.equal_holds_iff, hval, hzero]
    cases b <;> rfl
  rw [assertEqual_eq (F.accept_lift _) (F.accept_int _), ← hblame]
  exact Determines.assert _ (Constraint.equal_holds _ _ _)

section Bits

variable {v : ℕ} (hv : v < F.order)

/-- The circuit for bits that the prover has chosen. -/
theorem toBits_body {vs : List ℕ} (hvs : ∀ b ∈ vs, b < F.order) :
    (do
      (vs.map fun (b : ℕ) => F.lift b).forM fun b => F.assertBoolean (.scalar b) "to_binary"
      let sum ← F.ofBits ((vs.map fun (b : ℕ) => F.lift b).map .scalar)
      F.assertEqual (.scalar sum) (.scalar (F.lift v)) "to_binary"
      return vs.map fun (b : ℕ) => F.lift b) =
    (do
      forM vs fun (b : ℕ) => Circuit.assert (.boolean (F.lift b) "to_binary")
      Circuit.assert (.equal (F.lift (ofDigits 1 vs)) (F.lift v) "to_binary")
      return vs.map fun (b : ℕ) => F.lift b) := by
  simp only [List.forM_eq_forM, List.forM_map, assertBoolean_eq (F.accept_lift _), ofBits,
    F.recompose_eq 1 hvs, pure_bind, assertEqual_eq (F.accept_lift _) (F.accept_lift _)]

include hv

/-- The bits of a value that fits are the honest answer, and no constraint on
them fails. -/
theorem honest_toBits {width : ℕ} (hfits : v < 2 ^ width) :
    (F.toBits (.scalar (F.lift v)) width).Determines .honest
      ((NonNative.bits width v).map fun (b : ℕ) => F.lift b) [] := by
  have hbits : ∀ b ∈ NonNative.bits width v, b < F.order := fun _ => F.bit_lt_order
  rw [toBits, accept_lift, pure_bind, F.lift_val_of_lt hv, Int.toNat_natCast]
  refine (F.determines_hints _).bind ?_
  rw [F.toBits_body hbits]
  refine (determines_forM_assert _ fun b hb => ?_).bind
    ((Determines.assert_of_holds ?_).bind (.pure _))
  · rw [Constraint.boolean_holds_iff, F.lift_val_of_lt (hbits b hb)]
    have := bits_lt_two hb
    omega
  · rw [Constraint.equal_holds_iff, ofDigits_bits hfits]

/-- If the width does not let a sum of bits wrap around, the constraints on the
bits determine them. -/
theorem determines_toBits {width : ℕ} (hfits : v < 2 ^ width) (hwidth : 2 ^ width ≤ F.order)
    (prover : Prover) :
    (F.toBits (.scalar (F.lift v)) width).Determines prover
      ((NonNative.bits width v).map fun (b : ℕ) => F.lift b) [] := by
  refine ⟨(F.honest_toBits hv hfits).result, (F.honest_toBits hv hfits).unsatisfied, fun _ => ?_⟩
  rw [toBits, accept_lift, pure_bind]
  refine (F.forces_hints _).bind ?_
  rintro _ ⟨vs, hlength, hvs, rfl⟩
  rw [F.toBits_body hvs]
  refine (forces_forM_assert _ _).bind fun _ hboolean hsum => ⟨?_, rfl⟩
  -- what was guessed are bits, and their sum is the value as a number
  have hsmall : ∀ b ∈ vs, b < 2 ^ 1 := by
    intro b hb
    have hb' := hboolean b hb
    rw [Constraint.boolean_holds_iff, F.lift_val_of_lt (hvs b hb)] at hb'
    omega
  rw [NonNative.bits, digits_length, Int.toNat_natCast] at hlength
  have hlt : ofDigits 1 vs < 2 ^ width := by simpa [hlength] using ofDigits_lt hsmall
  rw [Constraint.equal_holds_iff, F.lift_val_of_lt (hlt.trans_le hwidth),
    F.lift_val_of_lt hv] at hsum
  rw [NonNative.bits, ← hsum, ← hlength, digits_ofDigits hsmall]

omit hv in
theorem toBits_eq {a : Operand} (ha : F.accept a = pure (F.lift v)) (width : ℤ) :
    F.toBits a width = F.toBits (.scalar (F.lift v)) width := by
  rw [toBits, toBits, ha, accept_lift]

end Bits

end NativeField

end NonNative
