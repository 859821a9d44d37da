import Mathlib.Tactic.LinearCombination
import NonNative.Emulation.Arithmetic
import NonNative.Proofs.Reduction

/-!
Arithmetic of an emulated field on the residues that its elements encode. An
element carries a natural number within the bound that its overflow states. Sums,
negatives and differences carry the number that the integers give, padded by a
multiple of the modulus, and stay within the budget; products do not wrap around
as long as the largest number that two factors can carry has its square below
the native order.
-/

namespace NonNative

namespace EmulatedField

open Circuit

variable (E : EmulatedField)

instance : NeZero E.modulus := ⟨E.modulus_pos.ne'⟩

/-! ### Padding -/

/-- The least multiple of the modulus that is not below `2 ^ width`. -/
def padding (width : ℕ) : ℕ := (2 ^ width + E.modulus - 1) / E.modulus * E.modulus

theorem dvd_padding (width : ℕ) : E.modulus ∣ E.padding width := Nat.dvd_mul_left _ _

theorem le_padding (width : ℕ) : 2 ^ width ≤ E.padding width := by
  have hpos := E.modulus_pos
  have hdiv := Nat.div_add_mod (2 ^ width + E.modulus - 1) E.modulus
  have hmod := Nat.mod_lt (2 ^ width + E.modulus - 1) hpos
  rw [Nat.mul_comm, ← padding] at hdiv
  omega

theorem padding_lt (width : ℕ) : E.padding width < 2 ^ width + E.modulus := by
  have hpos := E.modulus_pos
  have hle := Nat.div_mul_le_self (2 ^ width + E.modulus - 1) E.modulus
  rw [← padding] at hle
  have htwo := Nat.two_pow_pos width
  omega

theorem padding_lt_two_pow_succ {width : ℕ} (hwidth : E.totalBits ≤ width) :
    E.padding width < 2 ^ (width + 1) := by
  have hlt := E.padding_lt width
  have hmodulus := E.modulus_lt
  have hpow : 2 ^ E.totalBits ≤ 2 ^ width := Nat.pow_le_pow_right Nat.two_pos hwidth
  rw [Nat.pow_succ]
  omega

/-- The largest number that an element can carry if the budget is a single bit:
a residue less the smallest one, padded. -/
def peak : ℕ := E.modulus - 1 + E.padding E.totalBits

/-! ### Numbers and residues -/

/-- The element carries the number `v`: its native value is the class of `v`, it
keeps to its bound and to the budget, and if it has limbs it is the constant of
`v`. The budget is exceeded only where it is a single bit, and there the numbers
stay below a sharper bound. -/
structure Carries (a : Element) (v : ℕ) : Prop where
  native : a.native = .scalar (E.native.lift v)
  overflow_nonneg : 0 ≤ a.overflow
  budget : a.overflow ≤ max (E.maxOverflow : ℤ) 2
  bound : v < 2 ^ (E.boundBits a).toNat
  tight : E.maxOverflow = 1 → v ≤ E.peak
  canonical : a.isCanonical → a = E.constant v ∧ v < E.modulus

/-- The element carries a number of the residue class `x`. -/
def Encodes (a : Element) (x : ZMod E.modulus) : Prop :=
  ∃ v, E.Carries a v ∧ (v : ZMod E.modulus) = x

theorem boundBits_toNat {a : Element} (h : 0 ≤ a.overflow) :
    (E.boundBits a).toNat = E.totalBits + a.overflow.toNat := by
  rw [boundBits]
  omega

theorem native_bits_bounds : 2 * E.totalBits + 2 * E.maxOverflow + 2 ≤ E.native.bits ∧
    1 ≤ E.totalBits ∧ 1 ≤ E.maxOverflow := by
  have hwide : 2 * E.totalBits + 4 ≤ E.native.bits := E.native_wide
  have htotal : 1 ≤ E.totalBits := Nat.mul_pos E.limbCount_pos E.limbBits_pos
  refine ⟨?_, htotal, E.one_le_maxOverflow⟩
  rw [maxOverflow]
  omega

variable {E}

theorem Carries.lt_order {a : Element} {v : ℕ} (h : E.Carries a v) : v < E.native.order := by
  have hbits := E.native_bits_bounds
  have hbudget := h.budget
  refine h.bound.trans_le (E.two_pow_le_order ?_)
  rw [boundBits]
  omega

theorem Carries.val_native {a : Element} {v : ℕ} (h : E.Carries a v) :
    (E.native.lift v).val = v := E.native.lift_val_of_lt h.lt_order

variable (E)

theorem two_pow_totalBits_le_peak : 2 ^ E.totalBits ≤ E.peak := by
  have := E.le_padding E.totalBits
  rw [peak]
  omega

theorem carries_constant (n : ℤ) : E.Carries (E.constant n) (n % E.modulus).toNat := by
  have hpos : (0 : ℤ) < E.modulus := Int.natCast_pos.2 E.modulus_pos
  have hnonneg : 0 ≤ n % (E.modulus : ℤ) := Int.emod_nonneg n hpos.ne'
  have hlt : (n % (E.modulus : ℤ)).toNat < E.modulus := by
    have := Int.emod_lt_of_pos n hpos
    omega
  have hmodulus := E.modulus_lt
  have hpeak := E.two_pow_totalBits_le_peak
  refine ⟨rfl, le_rfl, by simp [constant], ?_, fun _ => by omega, fun _ => ⟨?_, hlt⟩⟩
  · simpa [boundBits, constant] using hlt.trans hmodulus
  · rw [Int.toNat_of_nonneg hnonneg, constant_emod]

theorem encodes_constant (n : ℤ) : E.Encodes (E.constant n) n := by
  refine ⟨_, E.carries_constant n, ?_⟩
  have hpos : (0 : ℤ) < E.modulus := Int.natCast_pos.2 E.modulus_pos
  have hnonneg : 0 ≤ n % (E.modulus : ℤ) := Int.emod_nonneg n hpos.ne'
  rw [ZMod.natCast_toNat E.modulus hnonneg, ZMod.intCast_mod]

theorem carries_residue (x : ZMod E.modulus) : E.Carries (E.constant x.val) x.val := by
  have h := E.carries_constant (x.val : ℕ)
  rwa [← Int.natCast_mod, Int.toNat_natCast, Nat.mod_eq_of_lt x.val_lt] at h

theorem encodes_residue (x : ZMod E.modulus) : E.Encodes (E.constant x.val) x :=
  ⟨x.val, E.carries_residue x, ZMod.natCast_zmod_val x⟩

theorem encodes_zero : E.Encodes E.zero 0 := by
  simpa [zero] using E.encodes_constant 0

theorem encodes_one : E.Encodes E.one 1 := by
  simpa [one] using E.encodes_constant 1

/-! ### Reduction of elements -/

section Operations

variable {E} {prover : Prover} {a b : Element} {x y : ZMod E.modulus}

/-- A carried number has at least one bit of the native field left above its
bound, so its remainder is determined. -/
theorem Carries.determines_reduce {v : ℕ} (h : E.Carries a v) :
    (E.reduce a).Determines prover (E.constant v) [] := by
  rw [reduce]
  split
  · next hcanonical =>
      rw [← (h.canonical hcanonical).1]
      exact .pure a
  · have hbits := E.native_bits_bounds
    have hnonneg := h.overflow_nonneg
    have hbudget := h.budget
    rw [h.native]
    refine E.determines_remainder h.lt_order h.bound (fun _ => ?_) _
    rw [boundBits]
    omega

/-- The overflow that is left when an element makes room: it is reduced if it does
not leave two bits of the budget. -/
def roomyOverflow (E : EmulatedField) (a : Element) : ℤ :=
  if a.overflow + 2 ≤ E.maxOverflow then a.overflow else 0

/-- The number that is left of `v`. -/
def roomyNumber (E : EmulatedField) (a : Element) (v : ℕ) : ℕ :=
  if a.overflow + 2 ≤ E.maxOverflow then v else v % E.modulus

theorem cast_roomyNumber (a : Element) (v : ℕ) :
    (E.roomyNumber a v : ZMod E.modulus) = v := by
  rw [roomyNumber]
  split
  · rfl
  · exact ZMod.natCast_mod v _

/-- The element carries the number and leaves room for two more bits. Where the
budget is a single bit, that makes the number a residue. -/
structure HasRoom (E : EmulatedField) (a : Element) (v : ℕ) : Prop where
  carries : E.Carries a v
  room : a.overflow + 2 ≤ max (E.maxOverflow : ℤ) 2
  residue : E.maxOverflow = 1 → v < E.modulus

theorem Carries.gives_withRoom {v : ℕ} (h : E.Carries a v) :
    (E.withRoom a).Gives prover [] fun a' =>
      E.HasRoom a' (E.roomyNumber a v) ∧ a'.overflow = E.roomyOverflow a := by
  have hnonneg := h.overflow_nonneg
  rw [withRoom, roomyNumber, roomyOverflow]
  by_cases hroom : a.overflow + 2 ≤ E.maxOverflow
  · rw [if_neg (not_lt.2 hroom), if_pos hroom, if_pos hroom]
    exact .pure ⟨⟨h, le_max_of_le_left hroom, fun hone => by omega⟩, rfl⟩
  · rw [if_pos (not_le.1 hroom), if_neg hroom, if_neg hroom]
    have hconstant := E.carries_constant v
    rw [← Int.natCast_mod, Int.toNat_natCast] at hconstant
    refine ⟨E.constant v, ⟨⟨hconstant, ?_, fun _ => Nat.mod_lt _ E.modulus_pos⟩, rfl⟩,
      h.determines_reduce⟩
    simp [constant]

/-! ### Sums and differences -/

/-- An element that is not canonical carries a number within its bound. -/
theorem carries_unreduced {n : ℤ} {v : ℕ} {o : ℤ} (hn : E.native.lift n = E.native.lift v)
    (ho : 0 ≤ o) (hbudget : o ≤ max (E.maxOverflow : ℤ) 2)
    (hbound : v < 2 ^ (E.totalBits + o.toNat)) (htight : E.maxOverflow = 1 → v ≤ E.peak) :
    E.Carries ⟨.scalar (E.native.lift n), o, []⟩ v where
  native := by rw [hn]
  overflow_nonneg := ho
  budget := hbudget
  bound := by
    rw [E.boundBits_toNat (show 0 ≤ Element.overflow ⟨_, o, []⟩ from ho)]
    exact hbound
  tight := htight
  canonical h := by simp [Element.isCanonical] at h

theorem add_lt_two_pow_totalBits {u v : ℕ} {p q : ℤ} (hp : 0 ≤ p) (hq : 0 ≤ q)
    (hu : u < 2 ^ (E.totalBits + p.toNat)) (hv : v < 2 ^ (E.totalBits + q.toNat)) :
    u + v < 2 ^ (E.totalBits + (max p q + 1).toNat) := by
  have hpow₁ : 2 ^ (E.totalBits + p.toNat) ≤ 2 ^ (E.totalBits + (max p q).toNat) :=
    Nat.pow_le_pow_right Nat.two_pos (by omega)
  have hpow₂ : 2 ^ (E.totalBits + q.toNat) ≤ 2 ^ (E.totalBits + (max p q).toNat) :=
    Nat.pow_le_pow_right Nat.two_pos (by omega)
  rw [show E.totalBits + (max p q + 1).toNat = E.totalBits + (max p q).toNat + 1 by omega,
    Nat.pow_succ]
  omega

theorem Carries.lt_two_pow {v : ℕ} (h : E.Carries a v) :
    v < 2 ^ (E.totalBits + a.overflow.toNat) := by
  rw [← E.boundBits_toNat h.overflow_nonneg]
  exact h.bound

theorem Carries.roomyNumber_lt {v : ℕ} (h : E.Carries a v) :
    E.roomyNumber a v < 2 ^ (E.totalBits + (E.roomyOverflow a).toNat) := by
  rw [roomyNumber, roomyOverflow]
  split
  · exact h.lt_two_pow
  · exact (Nat.mod_lt _ E.modulus_pos).trans E.modulus_lt

/-- A sum carries the sum of the numbers that are left of its operands. -/
theorem Carries.gives_add {v w : ℕ} (ha : E.Carries a v) (hb : E.Carries b w) :
    (E.add a b).Gives prover [] fun c =>
      E.Carries c (E.roomyNumber a v + E.roomyNumber b w) := by
  refine ha.gives_withRoom.bind ?_
  rintro a' ⟨⟨hv, hroom, hsmall⟩, -⟩
  refine hb.gives_withRoom.bind ?_
  rintro b' ⟨⟨hw, hroom', hsmall'⟩, -⟩
  rw [hv.native, hw.native, NativeField.add_eq (E.native.accept_lift _) (E.native.accept_lift _),
    pure_bind]
  have hnonneg := hv.overflow_nonneg
  have hnonneg' := hw.overflow_nonneg
  refine .pure (carries_unreduced (by rw [Nat.cast_add]) (by omega) (by omega)
    (add_lt_two_pow_totalBits hnonneg hnonneg' hv.lt_two_pow hw.lt_two_pow) fun hone => ?_)
  have hv' := hsmall hone
  have hw' := hsmall' hone
  have hpadding := E.le_padding E.totalBits
  have hmodulus := E.modulus_lt
  rw [peak]
  omega

theorem Encodes.gives_add (ha : E.Encodes a x) (hb : E.Encodes b y) :
    (E.add a b).Gives prover [] fun c => E.Encodes c (x + y) := by
  obtain ⟨v, hv, rfl⟩ := ha
  obtain ⟨w, hw, rfl⟩ := hb
  refine (hv.gives_add hw).mono fun c hc => ⟨_, hc, ?_⟩
  rw [Nat.cast_add, cast_roomyNumber, cast_roomyNumber]

theorem Carries.negated_eq {v : ℕ} (h : E.Carries a v) :
    E.negated a = pure (E.native.lift
      (E.padding (E.totalBits + a.overflow.toNat) - v : ℕ)) := by
  have hnonneg := h.overflow_nonneg
  have hle := E.le_padding (E.totalBits + a.overflow.toNat)
  have hlt := h.lt_two_pow
  have hmultiple : E.paddingMultiple a = .ok (E.padding (E.totalBits + a.overflow.toNat)) := by
    rw [paddingMultiple, if_neg (by rw [boundBits]; omega), padding, Nat.shiftLeft_eq, Nat.one_mul,
      E.boundBits_toNat hnonneg]
  rw [negated, hmultiple, h.native, Nat.cast_sub (by omega)]
  exact NativeField.sub_eq (E.native.accept_int _) (E.native.accept_lift _)

theorem cast_padding_sub {width v : ℕ} (hv : v < 2 ^ width) :
    ((E.padding width - v : ℕ) : ZMod E.modulus) = -v := by
  have hle := E.le_padding width
  rw [Nat.cast_sub (by omega), (ZMod.natCast_eq_zero_iff _ _).2 (E.dvd_padding width), zero_sub]

/-- The number of a negative: the multiple of the modulus that pads `v`, less
`v`. -/
def negatedNumber (E : EmulatedField) (a : Element) (v : ℕ) : ℕ :=
  E.padding (E.totalBits + (E.roomyOverflow a).toNat) - E.roomyNumber a v

theorem Carries.cast_negatedNumber {v : ℕ} (h : E.Carries a v) :
    (E.negatedNumber a v : ZMod E.modulus) = -v := by
  rw [negatedNumber, cast_padding_sub h.roomyNumber_lt, cast_roomyNumber]

theorem Carries.gives_neg {v : ℕ} (ha : E.Carries a v) :
    (E.neg a).Gives prover [] fun c => E.Carries c (E.negatedNumber a v) := by
  refine ha.gives_withRoom.bind ?_
  rintro a' ⟨⟨hv, hroom, hsmall⟩, hoverflow⟩
  rw [hv.negated_eq, pure_bind, negatedNumber, ← hoverflow]
  have hnonneg := hv.overflow_nonneg
  refine .pure (carries_unreduced rfl (by omega) (by omega) ?_ fun hone => ?_)
  · have hlt := E.padding_lt_two_pow_succ (Nat.le_add_right E.totalBits a'.overflow.toNat)
    rw [show E.totalBits + (a'.overflow + 1).toNat = E.totalBits + a'.overflow.toNat + 1 by omega]
    omega
  · rw [peak, show a'.overflow.toNat = 0 by omega, Nat.add_zero]
    omega

theorem Carries.gives_sub {v w : ℕ} (ha : E.Carries a v) (hb : E.Carries b w) :
    (E.sub a b).Gives prover [] fun c =>
      E.Carries c (E.roomyNumber a v + E.negatedNumber b w) := by
  refine ha.gives_withRoom.bind ?_
  rintro a' ⟨⟨hv, hroom, hsmall⟩, -⟩
  refine hb.gives_withRoom.bind ?_
  rintro b' ⟨⟨hw, hroom', hsmall'⟩, hoverflow⟩
  rw [hw.negated_eq, pure_bind, hv.native,
    NativeField.add_eq (E.native.accept_lift _) (E.native.accept_lift _), pure_bind, negatedNumber,
    ← hoverflow]
  have hnonneg := hv.overflow_nonneg
  have hnonneg' := hw.overflow_nonneg
  refine .pure (carries_unreduced (by rw [Nat.cast_add]) (by omega) (by omega)
    (add_lt_two_pow_totalBits hnonneg (by omega) hv.lt_two_pow ?_) fun hone => ?_)
  · have hlt := E.padding_lt_two_pow_succ (Nat.le_add_right E.totalBits b'.overflow.toNat)
    rw [show E.totalBits + (b'.overflow + 1).toNat = E.totalBits + b'.overflow.toNat + 1 by omega]
    omega
  · have hv' := hsmall hone
    rw [peak, show b'.overflow.toNat = 0 by omega, Nat.add_zero]
    omega

theorem Encodes.gives_neg (ha : E.Encodes a x) :
    (E.neg a).Gives prover [] fun c => E.Encodes c (-x) := by
  obtain ⟨v, hv, rfl⟩ := ha
  exact hv.gives_neg.mono fun c hc => ⟨_, hc, hv.cast_negatedNumber⟩

theorem Encodes.gives_sub (ha : E.Encodes a x) (hb : E.Encodes b y) :
    (E.sub a b).Gives prover [] fun c => E.Encodes c (x - y) := by
  obtain ⟨v, hv, rfl⟩ := ha
  obtain ⟨w, hw, rfl⟩ := hb
  refine (hv.gives_sub hw).mono fun c hc => ⟨_, hc, ?_⟩
  rw [Nat.cast_add, cast_roomyNumber, hw.cast_negatedNumber, sub_eq_add_neg]

/-! ### Products -/

theorem peak_sq_lt_two_pow : E.peak ^ 2 < 2 ^ (2 * E.totalBits + 4) := by
  have hpadding := E.padding_lt_two_pow_succ le_rfl
  have hmodulus := E.modulus_lt
  have hpeak : E.peak < 2 ^ (E.totalBits + 2) := by
    rw [peak, Nat.pow_add]
    rw [Nat.pow_succ] at hpadding
    omega
  calc
    E.peak ^ 2 < (2 ^ (E.totalBits + 2)) ^ 2 := Nat.pow_lt_pow_left hpeak two_ne_zero
    _ = 2 ^ (2 * E.totalBits + 4) := by rw [← Nat.pow_mul]; congr 1; omega

/-- With a budget of two bits or more, products never wrap around. -/
theorem peak_sq_lt (h : 2 ≤ E.maxOverflow) : E.peak ^ 2 < E.native.order := by
  have hbits := E.native_bits_bounds
  exact peak_sq_lt_two_pow.trans_le (E.two_pow_le_order (by omega))

theorem Carries.mul_lt_order {v w : ℕ} (hsafe : E.peak ^ 2 < E.native.order)
    (hv : E.Carries a v) (hw : E.Carries b w) : v * w < E.native.order := by
  have hbits := E.native_bits_bounds
  -- a budget of a single bit may be exceeded, and only the peak is left as a bound
  by_cases hone : E.maxOverflow = 1
  · refine lt_of_le_of_lt ?_ hsafe
    rw [Nat.pow_two]
    exact Nat.mul_le_mul (hv.tight hone) (hw.tight hone)
  · have hbudget := hv.budget
    have hbudget' := hw.budget
    calc
      v * w < 2 ^ (E.totalBits + E.maxOverflow) * 2 ^ (E.totalBits + E.maxOverflow) := by
        refine Nat.mul_lt_mul'' (hv.lt_two_pow.trans_le ?_) (hw.lt_two_pow.trans_le ?_) <;>
          exact Nat.pow_le_pow_right Nat.two_pos (by omega)
      _ = 2 ^ (E.totalBits + E.maxOverflow + (E.totalBits + E.maxOverflow)) :=
        (Nat.pow_add _ _ _).symm
      _ ≤ E.native.order := E.two_pow_le_order (by omega)

/-- The bounds of two factors add up to one of the product. -/
theorem Carries.mul_lt_two_pow {v w : ℕ} (hv : E.Carries a v) (hw : E.Carries b w) :
    v * w < 2 ^ (E.boundBits a + E.boundBits b).toNat := by
  have hnonneg := hv.overflow_nonneg
  have hnonneg' := hw.overflow_nonneg
  rw [boundBits, boundBits, show ((E.totalBits : ℤ) + a.overflow +
    (E.totalBits + b.overflow)).toNat =
      E.totalBits + a.overflow.toNat + (E.totalBits + b.overflow.toNat) by omega, Nat.pow_add]
  exact Nat.mul_lt_mul'' hv.lt_two_pow hw.lt_two_pow

theorem Carries.determines_mul {v w : ℕ} (hsafe : E.peak ^ 2 < E.native.order)
    (hprover : prover = .arbitrary → 2 ≤ E.maxOverflow) (hv : E.Carries a v) (hw : E.Carries b w) :
    (E.mul a b).Determines prover (E.constant (v * w : ℕ)) [] := by
  have hbits := E.native_bits_bounds
  have hbudget := hv.budget
  have hbudget' := hw.budget
  rw [mul, hv.native, hw.native,
    NativeField.mul_eq (E.native.accept_lift _) (E.native.accept_lift _), pure_bind, ← Nat.cast_mul]
  refine E.determines_remainder (hv.mul_lt_order hsafe hw) (hv.mul_lt_two_pow hw)
    (fun harbitrary => ?_) _
  have hbudget₂ := hprover harbitrary
  rw [boundBits, boundBits]
  omega

/-- An honest product, whether or not it wraps around. -/
theorem Carries.honest_mul {v w : ℕ} (hv : E.Carries a v) (hw : E.Carries b w) :
    (E.mul a b).Determines .honest (E.constant (v * w % E.native.order : ℕ)) [] := by
  have hwrap : E.native.lift (v * w) = E.native.lift (v * w % E.native.order : ℕ) := by
    rw [NativeField.lift_eq_lift_iff, Int.natCast_mod, Nat.cast_mul]
    exact (Int.mod_modEq _ _).symm
  rw [mul, hv.native, hw.native,
    NativeField.mul_eq (E.native.accept_lift _) (E.native.accept_lift _), pure_bind, hwrap]
  exact E.honest_remainder (Nat.mod_lt _ E.native.order_pos)
    ((Nat.mod_le _ _).trans_lt (hv.mul_lt_two_pow hw)) _

theorem Encodes.gives_mul (hsafe : E.peak ^ 2 < E.native.order)
    (hprover : prover = .arbitrary → 2 ≤ E.maxOverflow) (ha : E.Encodes a x) (hb : E.Encodes b y) :
    (E.mul a b).Gives prover [] fun c => E.Encodes c (x * y) := by
  obtain ⟨v, hv, rfl⟩ := ha
  obtain ⟨w, hw, rfl⟩ := hb
  refine ⟨_, ?_, hv.determines_mul hsafe hprover hw⟩
  simpa using E.encodes_constant (v * w : ℕ)

/-! ### Observations -/

/-- An element reduces to the constant of what it encodes. -/
theorem Encodes.determines_reduce (ha : E.Encodes a x) :
    (E.reduce a).Determines prover (E.constant x.val) [] := by
  obtain ⟨v, hv, rfl⟩ := ha
  rw [ZMod.val_natCast, constant_mod]
  exact hv.determines_reduce

theorem constant_val_native (x : ZMod E.modulus) :
    (E.constant x.val).native = .scalar (E.native.lift x.val) := by
  rw [constant_natCast, Nat.mod_eq_of_lt x.val_lt]

theorem lift_val_residue (x : ZMod E.modulus) : (E.native.lift x.val).val = x.val :=
  E.native.lift_val_of_lt (E.lt_order_of_lt_modulus x.val_lt)

theorem toInt_constant_val (x : ZMod E.modulus) :
    (E.constant x.val).native.toInt = .ok (x.val : ℤ) := by
  rw [constant_val_native, Operand.toInt, lift_val_residue]

theorem Encodes.determines_toInt (ha : E.Encodes a x) :
    (do
      let reduced ← E.reduce a
      Circuit.ofExcept reduced.native.toInt).Determines prover (x.val : ℤ) [] := by
  refine ha.determines_reduce.bind ?_
  rw [toInt_constant_val]
  exact .pure _

/-- The constraint that fails if two residues differ. -/
def mismatch (F : NativeField) {m : ℕ} (x y : ZMod m) (label : String) : Log :=
  if x = y then [] else [.equal (F.lift x.val) (F.lift y.val) label]

theorem mismatch_eq_nil_iff {F : NativeField} {m : ℕ} {x y : ZMod m} {label : String} :
    mismatch F x y label = [] ↔ x = y := by
  by_cases h : x = y <;> simp [mismatch, h]

theorem equal_blame (x y : ZMod E.modulus) (label : String) :
    (Constraint.equal (E.native.lift x.val) (E.native.lift y.val) label).blame =
      mismatch E.native x y label := by
  simp only [Constraint.blame, Constraint.equal_holds_iff, lift_val_residue,
    (ZMod.val_injective _).eq_iff, mismatch]

theorem Encodes.determines_assertEqual (ha : E.Encodes a x) (hb : E.Encodes b y) (label : String) :
    (E.assertEqual a b label).Determines prover () (mismatch E.native x y label) := by
  have hassert : (E.native.assertEqual (E.constant x.val).native (E.constant y.val).native
      label).Determines prover () (mismatch E.native x y label) := by
    rw [constant_val_native, constant_val_native, ← equal_blame,
      NativeField.assertEqual_eq (E.native.accept_lift _) (E.native.accept_lift _)]
    exact Determines.assert _ (Constraint.equal_holds _ _ _)
  exact ha.determines_reduce.bind (hb.determines_reduce.bind hassert)

theorem Encodes.determines_isZero (hprime : E.native.order.Prime) (ha : E.Encodes a x) :
    (E.isZero a).Determines prover (E.native.lift (decide (x = 0)).toNat) [] := by
  rw [isZero]
  refine ha.determines_reduce.bind ?_
  rw [constant_val_native]
  have hflag := E.native.determines_isZero hprime (E.lt_order_of_lt_modulus x.val_lt) prover
  simpa only [ZMod.val_eq_zero] using hflag

theorem Encodes.determines_toBits (ha : E.Encodes a x) :
    (E.toBits a).Determines prover
      ((NonNative.bits E.modulusBits x.val).map fun (b : ℕ) => E.native.lift b) [] := by
  have hbits := E.native_bits_bounds
  have hfits : E.modulusBits ≤ E.totalBits := E.modulus_fits
  rw [toBits]
  refine ha.determines_reduce.bind ?_
  rw [constant_val_native]
  exact E.native.determines_toBits (E.lt_order_of_lt_modulus x.val_lt)
    (x.val_lt.trans E.modulus_lt_two_pow_modulusBits) (E.two_pow_le_order (by omega)) prover

/-- The bits of an element add up to the representative of what it encodes. -/
theorem Encodes.determines_recomposed (ha : E.Encodes a x) :
    (do
      let bs ← E.toBits a
      let s ← E.native.ofBits (bs.map .scalar)
      return s.val).Determines prover x.val [] := by
  have hfits : x.val < 2 ^ E.modulusBits := x.val_lt.trans E.modulus_lt_two_pow_modulusBits
  have hbits : ∀ b ∈ NonNative.bits E.modulusBits x.val, b < E.native.order := fun _ =>
    E.native.bit_lt_order
  have hsum : E.native.ofBits (((NonNative.bits E.modulusBits x.val).map
      fun (b : ℕ) => E.native.lift b).map .scalar) = pure (E.native.lift x.val) := by
    rw [NativeField.ofBits, E.native.recompose_eq 1 hbits, ofDigits_bits hfits]
  refine ha.determines_toBits.bind ?_
  rw [hsum, pure_bind, lift_val_residue]
  exact .pure _

/-! ### Native values as elements -/

/-- The constraint on a native value that becomes an element. -/
def narrowness (E : EmulatedField) (v : ℕ) : Constraint :=
  .range (E.native.lift v) E.totalBits "new_element"

theorem narrowness_holds_iff {v : ℕ} (hv : v < E.native.order) :
    (E.narrowness v).Holds ↔ v < 2 ^ E.totalBits := by
  rw [narrowness, Constraint.range_holds_iff (Int.natCast_nonneg _), E.native.lift_val_of_lt hv,
    Int.toNat_natCast]

theorem determines_ofNative {operand : Operand} {v : ℕ}
    (h : E.native.accept operand = pure (E.native.lift v)) :
    (E.ofNative operand).Determines prover ⟨.scalar (E.native.lift v), 0, []⟩
      (E.narrowness v).blame := by
  rw [ofNative, h, pure_bind, NativeField.rangeCheck_eq (E.native.accept_lift _)]
  rw [← List.append_nil (E.narrowness v).blame]
  exact (Determines.assert (E.narrowness v)
    (Constraint.range_holds _ (Int.natCast_nonneg _) _)).bind (.pure _)

theorem encodes_narrow {v : ℕ} (hv : v < 2 ^ E.totalBits) :
    E.Encodes ⟨.scalar (E.native.lift v), 0, []⟩ v := by
  refine ⟨v, carries_unreduced rfl le_rfl (by omega) (by simpa using hv) fun _ => ?_, rfl⟩
  exact hv.le.trans E.two_pow_totalBits_le_peak

/-! ### Selection -/

theorem select_limbs {cond : Operand} {chosen : Bool}
    (hcond : E.native.accept cond = pure (E.native.lift chosen.toNat)) {ds es : List ℕ}
    (hlength : ds.length = es.length) :
    ((((ds.map fun (d : ℕ) => E.native.lift d).map Operand.scalar).zip
        ((es.map fun (d : ℕ) => E.native.lift d).map Operand.scalar)).mapM
      fun (x, y) => E.native.select cond x y) =
      pure ((if chosen then ds else es).map fun (d : ℕ) => E.native.lift d) := by
  induction ds generalizing es with
  | nil =>
      obtain rfl : es = [] := List.length_eq_zero_iff.1 hlength.symm
      cases chosen <;> simp
  | cons d ds ih =>
      cases es with
      | nil => simp at hlength
      | cons e es =>
          have hrest := ih (Nat.succ.inj hlength)
          simp only [List.map_cons, List.zip_cons_cons, List.mapM_cons, hrest,
            NativeField.select_eq (E.native.accept_lift _) (E.native.accept_lift _) hcond,
            pure_bind]
          cases chosen <;> simp

/-- A condition that is zero or one picks one of the two elements. The limbs are
those of the element picked if both have limbs, and none otherwise. -/
theorem Encodes.gives_select {cond : Operand} {chosen : Bool}
    (hcond : E.native.accept cond = pure (E.native.lift chosen.toNat))
    (ha : E.Encodes a x) (hb : E.Encodes b y) :
    (E.select cond a b).Gives prover [] fun c => E.Encodes c (if chosen then x else y) := by
  obtain ⟨v, hv, rfl⟩ := ha
  obtain ⟨w, hw, rfl⟩ := hb
  have hpick : E.native.lift (w + chosen.toNat * (v - w)) =
      E.native.lift (if chosen then v else w : ℕ) := by cases chosen <;> simp
  rw [select, hv.native, hw.native,
    NativeField.select_eq (E.native.accept_lift _) (E.native.accept_lift _) hcond, pure_bind, hpick]
  dsimp only
  by_cases hcanonical : (a.isCanonical && b.isCanonical) = true
  · -- both are constants, and the limbs are selected one by one
    rw [if_pos hcanonical]
    rw [Bool.and_eq_true] at hcanonical
    obtain ⟨hav, hvm⟩ := hv.canonical hcanonical.1
    obtain ⟨hbw, hwm⟩ := hw.canonical hcanonical.2
    rw [hav, hbw, constant_natCast, constant_natCast, Nat.mod_eq_of_lt hvm,
      Nat.mod_eq_of_lt hwm, select_limbs hcond (by simp), pure_bind]
    have hconstant := E.encodes_constant (if chosen then v else w : ℕ)
    rw [constant_natCast] at hconstant
    refine .pure ?_
    cases chosen
    · simpa [Nat.mod_eq_of_lt hwm] using hconstant
    · simpa [Nat.mod_eq_of_lt hvm] using hconstant
  · -- the result has no limbs, and the larger of the two bounds
    rw [if_neg hcanonical, pure_bind]
    have hnonneg := hv.overflow_nonneg
    have hnonneg' := hw.overflow_nonneg
    have hbudget := hv.budget
    have hbudget' := hw.budget
    refine .pure ⟨if chosen then v else w, carries_unreduced rfl (by omega) (by omega) ?_ ?_, ?_⟩
    · cases chosen
      · exact hw.lt_two_pow.trans_le (Nat.pow_le_pow_right Nat.two_pos (by omega))
      · exact hv.lt_two_pow.trans_le (Nat.pow_le_pow_right Nat.two_pos (by omega))
    · intro hone
      cases chosen
      · exact hw.tight hone
      · exact hv.tight hone
    · cases chosen <;> rfl

/-! ### Inverses -/

/-- A witness for the inverse, its product with the element and the comparison of
the product with one, for a witness that the prover has chosen. -/
theorem Carries.determines_inverse_body (hsafe : E.peak ^ 2 < E.native.order)
    (hprover : prover = .arbitrary → 2 ≤ E.maxOverflow) {v : ℕ} (hv : E.Carries a v)
    (y : ZMod E.modulus) :
    (do
      let product ← E.mul a (E.constant y.val)
      E.assertEqual product E.one "inverse"
      return E.constant y.val).Determines prover (E.constant y.val)
        (mismatch E.native ((v : ZMod E.modulus) * y) 1 "inverse") := by
  obtain ⟨product, hproduct, hmul⟩ :=
    Encodes.gives_mul hsafe hprover ⟨v, hv, rfl⟩ (E.encodes_residue y)
  rw [← List.append_nil (mismatch _ _ _ _)]
  exact hmul.bind ((hproduct.determines_assertEqual E.encodes_one "inverse").bind (.pure _))

theorem constant_eq_of_cast_eq {m n : ℤ} (h : (m : ZMod E.modulus) = n) :
    E.constant m = E.constant n := by
  rw [← constant_emod, ← E.constant_emod n, (ZMod.intCast_eq_intCast_iff' m n _).1 h]

/-- Modulo a prime the inverse is determined, because a second residue with the
same product would be equal to the first. For zero there is none, the honest
witness is zero, and the comparison of the product with one fails. -/
theorem Encodes.gives_inverse (hmodulus : E.modulus.Prime) (hsafe : E.peak ^ 2 < E.native.order)
    (hprover : prover = .arbitrary → 2 ≤ E.maxOverflow) (ha : E.Encodes a x) :
    (E.inverse a).Gives prover (mismatch E.native (x * x⁻¹) 1 "inverse") fun c =>
      c = E.constant x⁻¹.val := by
  have : Fact E.modulus.Prime := ⟨hmodulus⟩
  have hbody := (E.carries_residue x).determines_inverse_body hsafe hprover
  simp only [ZMod.natCast_zmod_val] at hbody
  refine ⟨_, rfl, ?_⟩
  rw [inverse, ← List.nil_append (mismatch _ _ _ _)]
  refine ha.determines_reduce.bind ?_
  rw [toInt_constant_val, ofExcept_ok, pure_bind, ← Int.natCast_mod, Nat.mod_eq_of_lt x.val_lt,
    Int.toNat_natCast]
  have hwitness : E.constant (fermatInverse x.val E.modulus) = E.constant x⁻¹.val := by
    apply constant_eq_of_cast_eq
    push_cast
    rw [fermatInverse_cast hmodulus, ZMod.natCast_zmod_val, ZMod.natCast_zmod_val]
  refine Determines.bind_guess (hwitness ▸ E.honest_witness _) (fun _ => E.forces_witness _)
    (hbody x⁻¹).honest fun harbitrary => ?_
  -- a witness whose product with the element is one is the inverse
  rintro _ ⟨w, hw, rfl⟩
  have hchoice := hbody (w : ZMod E.modulus)
  rw [ZMod.val_natCast, Nat.mod_eq_of_lt hw] at hchoice
  refine (hchoice.forced harbitrary).mono ?_
  rintro _ ⟨rfl, hblame⟩
  rw [mismatch_eq_nil_iff] at hblame
  have hinverse : (w : ZMod E.modulus) = x⁻¹ := eq_inv_of_mul_eq_one_right hblame
  rw [← hinverse, ZMod.val_natCast, Nat.mod_eq_of_lt hw]
  exact ⟨rfl, mismatch_eq_nil_iff.2 hblame⟩

end Operations

end EmulatedField

end NonNative
