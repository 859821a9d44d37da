import NonNative.Proofs.ExtensionArithmetic

/-!
The gadgets of a chip beyond arithmetic: assertions, inverses of extension
values, unpacking and printing. An inverse is a guess of the prover; its product
with the argument leaves no choice, because the extension is a field. Unpacking
is about honest runs only: the bits of a native value are as many as those of
the native order, so a second value with the same residue may fit too.
-/

namespace NonNative

open Circuit

namespace Quartic

variable {α β : Type} {prover : Prover}

theorem determines_mapM {f : α → Circuit β} {g : α → β}
    (hf : ∀ a, (f a).Determines prover (g a) []) (a : Quartic α) :
    (a.mapM f).Determines prover (a.map g) [] :=
  (hf a.c0).bind ((hf a.c1).bind ((hf a.c2).bind ((hf a.c3).bind (.pure _))))

theorem forces_mapM {f : α → Circuit β} {P : β → Prop} (hf : ∀ a, (f a).Forces P) (a : Quartic α) :
    (a.mapM f).Forces fun b => P b.c0 ∧ P b.c1 ∧ P b.c2 ∧ P b.c3 :=
  (hf a.c0).bind fun _ h0 => (hf a.c1).bind fun _ h1 => (hf a.c2).bind fun _ h2 =>
    (hf a.c3).bind fun _ h3 => ⟨h0, h1, h2, h3⟩

theorem Rel.eq {a b : Quartic α} (h : Rel Eq a b) : a = b :=
  Quartic.ext h.c0 h.c1 h.c2 h.c3

end Quartic

namespace Chip

open QuarticField EmulatedField

variable {C : Chip} {prover : Prover}

/-! ### Assertions -/

/-- The constraints that fail if two points differ: one for each coordinate. -/
noncomputable def mismatchExt (F : NativeField) (z w : QuarticField) : Log :=
  mismatch F z.coordinates.c0 w.coordinates.c0 "assert_equal" ++
    (mismatch F z.coordinates.c1 w.coordinates.c1 "assert_equal" ++
      (mismatch F z.coordinates.c2 w.coordinates.c2 "assert_equal" ++
        mismatch F z.coordinates.c3 w.coordinates.c3 "assert_equal"))

theorem eq_iff_coordinates {z w : QuarticField} : z = w ↔
    z.coordinates.c0 = w.coordinates.c0 ∧ z.coordinates.c1 = w.coordinates.c1 ∧
      z.coordinates.c2 = w.coordinates.c2 ∧ z.coordinates.c3 = w.coordinates.c3 := by
  rw [← coordinates_injective.eq_iff, Quartic.ext_iff]

theorem mismatchExt_eq_nil_iff {F : NativeField} {z w : QuarticField} :
    mismatchExt F z w = [] ↔ z = w := by
  simp only [mismatchExt, List.append_eq_nil_iff, mismatch_eq_nil_iff, eq_iff_coordinates]

section Assertions

variable {a b : Element} {x y : ZMod BabyBear.prime} {v w : ExtensionValue} {z t : QuarticField}

/-- The flag for equality: whether the difference is zero. -/
theorem determines_equalFlag (hnative : C.native.order.Prime) (ha : C.Encodes a x)
    (hb : C.Encodes b y) :
    (do C.field.isZero (← C.field.sub a b)).Determines prover
      (C.native.lift (decide (x = y)).toNat) [] := by
  obtain ⟨d, hd, hsub⟩ : (C.field.sub a b).Gives prover [] fun d => C.Encodes d (x - y) :=
    ha.gives_sub hb
  have hflag : (C.field.isZero d).Determines prover
      (C.native.lift (decide (x - y = 0)).toNat) [] := hd.determines_isZero hnative
  simp only [sub_eq_zero] at hflag
  exact hsub.bind hflag

theorem determines_assertNotEqual (hnative : C.native.order.Prime) (ha : C.Encodes a x)
    (hb : C.Encodes b y) :
    (C.assertNotEqual a b).Determines prover ()
      (if x = y then [.equal (C.native.lift 1) (C.native.lift 0) "assert_not_equal"] else []) := by
  have hassert := C.native.determines_assertFalse (decide (x = y)) "assert_not_equal" prover
  simp only [decide_eq_true_eq] at hassert
  rw [assertNotEqual, ← LawfulMonad.bind_assoc]
  exact (determines_equalFlag hnative ha hb).bind hassert

theorem EncodesExt.determines_assertEqualExt (hv : C.EncodesExt v z) (hw : C.EncodesExt w t) :
    (C.assertEqualExt v w).Determines prover () (mismatchExt C.native z t) :=
  (hv.c0.determines_assertEqual hw.c0 _).bind ((hv.c1.determines_assertEqual hw.c1 _).bind
    ((hv.c2.determines_assertEqual hw.c2 _).bind (hv.c3.determines_assertEqual hw.c3 _)))

theorem EncodesExt.determines_assertNotEqualExt (hnative : C.native.order.Prime)
    (hv : C.EncodesExt v z) (hw : C.EncodesExt w t) :
    (C.assertNotEqualExt v w).Determines prover ()
      (if z = t then [.equal (C.native.lift 1) (C.native.lift 0) "assert_not_equal_e"]
        else []) := by
  have hflags : (v.zipWithM (fun x y => do C.field.isZero (← C.field.sub x y)) w).Gives prover []
      fun flags => Quartic.Rel (fun s (b : Bool) => s = C.native.lift b.toNat) flags
        (z.coordinates.zipWith (fun x y => decide (x = y)) t.coordinates) := by
    refine Quartic.Rel.gives_zipWithM ?_ hv hw
    intro a x b y hx hy
    exact ⟨_, rfl, determines_equalFlag hnative hx hy⟩
  obtain ⟨flags, ⟨h0, h1, h2, h3⟩, hdetermines⟩ := hflags
  have hassert := C.native.determines_assertFalse (decide (z = t)) "assert_not_equal_e" prover
  simp only [decide_eq_true_eq] at hassert
  have hall : decide (z = t) = (decide (z.coordinates.c0 = t.coordinates.c0) &&
      decide (z.coordinates.c1 = t.coordinates.c1) &&
        (decide (z.coordinates.c2 = t.coordinates.c2) &&
          decide (z.coordinates.c3 = t.coordinates.c3))) := by
    rw [← Bool.decide_and, ← Bool.decide_and, ← Bool.decide_and, decide_eq_decide,
      eq_iff_coordinates]
    exact and_assoc.symm
  rw [hall] at hassert
  refine hdetermines.bind ?_
  rw [h0, h1, h2, h3]
  exact (C.native.determines_and _ _ _).bind ((C.native.determines_and _ _ _).bind
    ((C.native.determines_and _ _ _).bind hassert))

end Assertions

/-! ### Inverses -/

/-- The canonical value of a point. -/
noncomputable def constantExt (C : Chip) (z : QuarticField) : ExtensionValue :=
  z.coordinates.map fun x => C.field.constant x.val

theorem encodesExt_constantExt (C : Chip) (z : QuarticField) :
    C.EncodesExt (C.constantExt z) z :=
  ⟨C.field.encodes_residue _, C.field.encodes_residue _, C.field.encodes_residue _,
    C.field.encodes_residue _⟩

theorem encodesExt_oneExt : overBn254.EncodesExt oneExt 1 := by
  rw [EncodesExt, coordinates_one]
  exact ⟨encodes_one _, encodes_zero _, encodes_zero _, encodes_zero _⟩

theorem encodesExt_zeroExt : overBn254.EncodesExt zeroExt 0 := by
  rw [EncodesExt, coordinates_zero]
  exact ⟨encodes_zero _, encodes_zero _, encodes_zero _, encodes_zero _⟩

/-- The representatives of the coordinates, from which the inverse is computed. -/
noncomputable def representatives (z : QuarticField) : Quartic ℤ :=
  z.coordinates.map fun (x : ZMod BabyBear.prime) => (x.val : ℤ)

theorem EncodesExt.determines_representatives {a : ExtensionValue} {z : QuarticField}
    (ha : C.EncodesExt a z) :
    (a.mapM fun c => do
      let reduced ← C.field.reduce c
      Circuit.ofExcept reduced.native.toInt).Determines prover (representatives z) [] := by
  have hcoordinates : (a.mapM fun c => do
      let reduced ← C.field.reduce c
      Circuit.ofExcept reduced.native.toInt).Gives prover [] fun residues =>
        Quartic.Rel Eq residues (representatives z) := by
    refine Quartic.Rel.gives_mapM ?_ ha
    intro c x hc
    exact ⟨_, rfl, hc.determines_toInt⟩
  obtain ⟨residues, hresidues, hdetermines⟩ := hcoordinates
  rwa [← hresidues.eq]

theorem point_representatives (z : QuarticField) :
    ((representatives z).map BabyBear.ofInt).point = z := by
  have h : ((representatives z).map BabyBear.ofInt).map BabyBear.toResidue = z.coordinates := by
    simp [representatives, Quartic.map]
  rw [Quartic.point, h, ofCoordinates_coordinates]

theorem honest_witnesses (a : Quartic BabyBear) :
    (a.mapM fun c => C.field.witness c.val).Determines .honest (C.constantExt a.point) [] := by
  have hconstant : C.constantExt a.point = a.map fun c => C.field.constant c.val := by
    simp [constantExt, Quartic.point, Quartic.map]
  rw [hconstant]
  exact Quartic.determines_mapM (fun c => C.field.honest_witness c.val) a

theorem forces_witnesses (a : Quartic BabyBear) :
    (a.mapM fun c => C.field.witness c.val).Forces fun w => ∃ y, w = C.constantExt y := by
  refine (Quartic.forces_mapM (fun c => C.field.forces_witness c.val) a).mono ?_
  rintro ⟨_, _, _, _⟩ ⟨⟨v0, h0, rfl⟩, ⟨v1, h1, rfl⟩, ⟨v2, h2, rfl⟩, ⟨v3, h3, rfl⟩⟩
  refine ⟨ofCoordinates ⟨v0, v1, v2, v3⟩, ?_⟩
  have hval {v : ℕ} (hv : v < BabyBear.prime) : (v : ZMod BabyBear.prime).val = v :=
    ZMod.val_cast_of_lt hv
  rw [constantExt, coordinates_ofCoordinates, Quartic.map, hval h0, hval h1, hval h2, hval h3]

/-- Zero times its inverse differs from one in the lowest coordinate. -/
theorem mismatchExt_mul_inv (F : NativeField) (z : QuarticField) :
    mismatchExt F (z * z⁻¹) 1 =
      if z = 0 then [.equal (F.lift 0) (F.lift 1) "assert_equal"] else [] := by
  by_cases hz : z = 0
  · rw [if_pos hz, hz, zero_mul, mismatchExt, coordinates_zero, coordinates_one]
    simp [mismatch, ZMod.val_one]
  · rw [if_neg hz, mul_inv_cancel₀ hz, mismatchExt_eq_nil_iff]

theorem EncodesExt.gives_divBase (hbudget : prover = .arbitrary → 2 ≤ C.field.maxOverflow)
    {a : ExtensionValue} {z : QuarticField} {c : Element} {x : ZMod BabyBear.prime}
    (ha : C.EncodesExt a z) (hc : C.Encodes c x) :
    (C.divBase a c).Gives prover (mismatch C.native (x * x⁻¹) 1 "inverse") fun d =>
      C.EncodesExt d (z / embed x) := by
  obtain ⟨_, rfl, hinverse⟩ : (C.field.inverse c).Gives prover _ _ :=
    hc.gives_inverse BabyBear.prime_prime C.peak_sq_lt_order hbudget
  obtain ⟨d, hd, hmul⟩ : (C.mulBase a (C.field.constant x⁻¹.val)).Gives prover []
      fun d => C.EncodesExt d (z * embed x⁻¹) :=
    ha.gives_mulBase hbudget (C.field.encodes_residue x⁻¹)
  rw [div_eq_mul_inv, ← map_inv₀, ← List.append_nil (mismatch _ _ _ _)]
  exact ⟨d, hd, hinverse.bind hmul⟩

section Bn254

theorem eq_overBn254 (C : Chip) (h : C.native.order = bn254.order) : C = overBn254 := by
  obtain ⟨⟨order, _⟩, _⟩ := C
  obtain rfl : order = bn254.order := h
  rfl

theorem two_le_maxOverflow : 2 ≤ overBn254.field.maxOverflow := by decide +kernel

variable {a b : ExtensionValue} {z w : QuarticField}

/-- A witness for the inverse, its product with the value and the comparison of
the product with one. -/
theorem EncodesExt.determines_invExt_body (ha : overBn254.EncodesExt a z) (y : QuarticField) :
    (do
      let product ← overBn254.mulExt a (overBn254.constantExt y)
      overBn254.assertEqualExt product oneExt
      return overBn254.constantExt y).Determines prover (overBn254.constantExt y)
        (mismatchExt bn254 (z * y) 1) := by
  obtain ⟨product, hproduct, hmul⟩ : (overBn254.mulExt a (overBn254.constantExt y)).Gives prover []
      fun c => overBn254.EncodesExt c (z * y) :=
    ha.gives_mulExt (fun _ => two_le_maxOverflow) (encodesExt_constantExt _ y)
  rw [← List.append_nil (mismatchExt _ _ _)]
  exact hmul.bind ((hproduct.determines_assertEqualExt encodesExt_oneExt).bind (.pure _))

theorem EncodesExt.determines_invExt (ha : overBn254.EncodesExt a z) :
    (overBn254.invExt a).Determines prover (overBn254.constantExt z⁻¹)
      (if z = 0 then [.equal (bn254.lift 0) (bn254.lift 1) "assert_equal"] else []) := by
  have hguess : (do
      let w ← ((representatives z).map BabyBear.ofInt).inv.mapM fun (c : BabyBear) =>
        overBn254.field.witness c.val
      let product ← overBn254.mulExt a w
      overBn254.assertEqualExt product oneExt
      return w).Determines prover (overBn254.constantExt z⁻¹) (mismatchExt bn254 (z * z⁻¹) 1) := by
    have hinverse : ((representatives z).map BabyBear.ofInt).inv.point = z⁻¹ := by
      rw [Quartic.point_inv, point_representatives]
    refine Determines.bind_guess (hinverse ▸ honest_witnesses _) (fun _ => forces_witnesses _)
      (ha.determines_invExt_body z⁻¹) fun harbitrary => ?_
    -- a guess whose product with the value is one is the inverse
    rintro _ ⟨y, rfl⟩
    refine ((ha.determines_invExt_body y).forced harbitrary).mono ?_
    rintro _ ⟨rfl, hblame⟩
    rw [mismatchExt_eq_nil_iff] at hblame
    rw [← eq_inv_of_mul_eq_one_right hblame, mismatchExt_eq_nil_iff]
    exact ⟨rfl, hblame⟩
  rw [← mismatchExt_mul_inv]
  refine ha.determines_representatives.bind ?_
  dsimp only
  -- for zero there is a warning first, and then the same circuit
  split
  · exact (Determines.tell _).bind hguess
  · exact hguess

theorem EncodesExt.gives_divExt (ha : overBn254.EncodesExt a z) (hb : overBn254.EncodesExt b w) :
    (overBn254.divExt a b).Gives prover
      (if w = 0 then [.equal (bn254.lift 0) (bn254.lift 1) "assert_equal"] else []) fun c =>
        overBn254.EncodesExt c (z / w) := by
  obtain ⟨c, hc, hmul⟩ : (overBn254.mulExt a (overBn254.constantExt w⁻¹)).Gives prover []
      fun c => overBn254.EncodesExt c (z * w⁻¹) :=
    ha.gives_mulExt (fun _ => two_le_maxOverflow) (encodesExt_constantExt _ _)
  rw [div_eq_mul_inv, ← List.append_nil (ite _ _ _)]
  exact ⟨c, hc, hb.determines_invExt.bind hmul⟩

end Bn254

/-! ### Unpacking -/

theorem chunks_map {α β : Type} (f : α → β) (w n : ℕ) (l : List α) :
    chunks w n (l.map f) = (chunks w n l).map (List.map f) := by
  induction n generalizing l with
  | zero => rfl
  | succ n ih => rw [chunks, chunks, List.map_cons, List.map_take, ← List.map_drop, ih]

/-- Chunks of `w` bits are digits in base `2 ^ w`, also where the bits run out. -/
theorem ofDigits_chunks {width x : ℕ} (hx : x < 2 ^ width) (w n : ℕ) :
    (chunks w n (bits width x)).map (ofDigits 1) = digits w n x := by
  induction n generalizing width x with
  | zero => rfl
  | succ n ih =>
      have hrest : x / 2 ^ w < 2 ^ (width - w) := by
        rw [Nat.div_lt_iff_lt_mul (Nat.two_pow_pos w), ← Nat.pow_add]
        exact hx.trans_le (Nat.pow_le_pow_right Nat.two_pos (by omega))
      rw [chunks, List.map_cons, ofDigits_take_bits hx, digits_succ, bits, digits_drop, Nat.one_mul,
        ← bits, ih hrest]

theorem mem_of_mem_chunks {α : Type} {w n : ℕ} {l chunk : List α} (h : chunk ∈ chunks w n l) :
    ∀ a ∈ chunk, a ∈ l := by
  induction n generalizing l with
  | zero => simp [chunks] at h
  | succ n ih =>
      rw [chunks, List.mem_cons] at h
      rcases h with rfl | h
      · exact fun a ha => List.mem_of_mem_take ha
      · exact fun a ha => List.mem_of_mem_drop (ih h a ha)

/-- Bits are packed into the digits of their number in base `2 ^ 32`. -/
theorem determines_pack {width y : ℕ} (hfits : y < 2 ^ width) (prover : Prover) :
    ((chunks BabyBear.limbBits BabyBear.packing
      ((bits width y).map fun (b : ℕ) => C.native.lift b)).mapM fun (chunk : List Scalar) => do
        let x ← C.native.ofBits (chunk.map .scalar)
        C.field.ofNative (.scalar x)).Determines prover
      ((digits BabyBear.limbBits BabyBear.packing y).map
        fun (d : ℕ) => ⟨.scalar (C.native.lift d), 0, []⟩) [] := by
  rw [← ofDigits_chunks hfits, List.map_map, chunks_map, List.mapM_map]
  refine Determines.mapM fun chunk hchunk => ?_
  have hbits : ∀ b ∈ chunk, b < C.native.order := fun b hb =>
    C.native.bit_lt_order (mem_of_mem_chunks hchunk b hb)
  have hlimb : ofDigits 1 chunk < 2 ^ BabyBear.limbBits := by
    have hmem := List.mem_map_of_mem (f := ofDigits 1) hchunk
    rw [ofDigits_chunks hfits] at hmem
    exact digits_lt hmem
  have hsum : C.native.ofBits ((chunk.map fun (b : ℕ) => C.native.lift b).map .scalar) =
      pure (C.native.lift (ofDigits 1 chunk)) := C.native.recompose_eq 1 hbits
  have horder : 2 * 2 ^ BabyBear.limbBits ≤ C.native.order := C.field.two_pow_totalBits_double_le
  have hnarrow : (C.field.narrowness (ofDigits 1 chunk)).Holds :=
    (narrowness_holds_iff (show ofDigits 1 chunk < C.native.order by omega)).2 hlimb
  dsimp only [Function.comp]
  rw [hsum, pure_bind, ← Constraint.blame_of_holds hnarrow]
  exact C.field.determines_ofNative (C.native.accept_lift _)

/-- A native value unpacks into its digits in base `2 ^ 32`. -/
theorem honest_unpack {a : Operand} {v : ℕ} (ha : C.native.StandsFor a v) :
    (C.unpack a).Determines .honest ((digits BabyBear.limbBits BabyBear.packing v).map
      fun (d : ℕ) => ⟨.scalar (C.native.lift d), 0, []⟩) [] := by
  have hfits : v < 2 ^ C.native.bits := ha.1.trans (lt_two_pow_bitLength _)
  rw [unpack, C.native.toBits_eq ha.2]
  exact (C.native.honest_toBits ha.1 hfits).bind (determines_pack hfits _)

theorem gives_unpack {a : Operand} {v : ℕ} (ha : C.native.StandsFor a v) :
    (C.unpack a).Gives .honest [] fun l => List.Forall₂ C.Encodes l
      ((digits BabyBear.limbBits BabyBear.packing v).map
        fun (d : ℕ) => (d : ZMod BabyBear.prime)) := by
  refine ⟨_, ?_, honest_unpack ha⟩
  dsimp only
  rw [List.forall₂_map_left_iff, List.forall₂_map_right_iff, List.forall₂_same]
  exact fun d hd => encodes_narrow (digits_lt hd)

/-! ### Printing -/

/-- The line that shows a residue. -/
def line (x : ZMod BabyBear.prime) : Message := .printed s!"{x.val}\n"

theorem print_eq {a : Element} {x : ZMod BabyBear.prime} (ha : C.Encodes a x) :
    print a = Circuit.tell (line x) := by
  obtain ⟨v, hv, hx⟩ := ha
  have hread : a.native.toInt = .ok (v : ℤ) := by
    rw [hv.native, Operand.toInt, hv.val_native]
  have hval : x.val = v % BabyBear.prime := hx ▸ ZMod.val_natCast _ v
  rw [print, hread, ofExcept_ok, pure_bind, line, hval, ← Int.natCast_mod]
  rfl

theorem printExt_eq {a : ExtensionValue} {z : QuarticField} (ha : C.EncodesExt a z) :
    printExt a = (do
      Circuit.tell (line z.coordinates.c0)
      Circuit.tell (line z.coordinates.c1)
      Circuit.tell (line z.coordinates.c2)
      Circuit.tell (line z.coordinates.c3)) := by
  rw [printExt, print_eq ha.c0, print_eq ha.c1, print_eq ha.c2, print_eq ha.c3]

end Chip

end NonNative
