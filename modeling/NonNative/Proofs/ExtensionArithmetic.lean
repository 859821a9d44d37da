import NonNative.Chip.Extension
import NonNative.Proofs.Arithmetic
import NonNative.Proofs.QuarticField

/-!
Arithmetic of extension values on the points of the quartic field that they
encode. A value encodes a point if its coordinates encode those of the point, so
sums, differences and multiples by a base element follow coordinate by
coordinate. Products are accumulated as coefficient lists; evaluated at the root
of `X ^ 4 - 11`, each row adds its multiple, and folding the upper coefficients
changes nothing.
-/

namespace NonNative

open Circuit

/-! ### Coordinate by coordinate -/

namespace Quartic

variable {α β γ δ ε ζ : Type}

/-- The coordinates are related one by one. -/
structure Rel (R : α → β → Prop) (a : Quartic α) (b : Quartic β) : Prop where
  c0 : R a.c0 b.c0
  c1 : R a.c1 b.c1
  c2 : R a.c2 b.c2
  c3 : R a.c3 b.c3

variable {prover : Prover} {R : α → β → Prop} {S : γ → δ → Prop} {T : ε → ζ → Prop}

theorem Rel.toList {a : Quartic α} {x : Quartic β} (h : Rel R a x) :
    List.Forall₂ R a.toList x.toList := .cons h.c0 (.cons h.c1 (.cons h.c2 (.cons h.c3 .nil)))

theorem Rel.gives_zipWithM {f : α → γ → Circuit ε} {g : β → δ → ζ}
    (hf : ∀ a x b y, R a x → S b y → (f a b).Gives prover [] fun c => T c (g x y))
    {a : Quartic α} {x : Quartic β} {b : Quartic γ} {y : Quartic δ} (ha : Rel R a x)
    (hb : Rel S b y) : (a.zipWithM f b).Gives prover [] fun c => Rel T c (x.zipWith g y) := by
  obtain ⟨c0, h0, hd0⟩ := hf _ _ _ _ ha.c0 hb.c0
  obtain ⟨c1, h1, hd1⟩ := hf _ _ _ _ ha.c1 hb.c1
  obtain ⟨c2, h2, hd2⟩ := hf _ _ _ _ ha.c2 hb.c2
  obtain ⟨c3, h3, hd3⟩ := hf _ _ _ _ ha.c3 hb.c3
  exact ⟨⟨c0, c1, c2, c3⟩, ⟨h0, h1, h2, h3⟩, hd0.bind (hd1.bind (hd2.bind (hd3.bind (.pure _))))⟩

theorem Rel.gives_mapM {f : α → Circuit ε} {g : β → ζ}
    (hf : ∀ a x, R a x → (f a).Gives prover [] fun c => T c (g x))
    {a : Quartic α} {x : Quartic β} (ha : Rel R a x) :
    (a.mapM f).Gives prover [] fun c => Rel T c (x.map g) :=
  gives_zipWithM (f := fun a _ => f a) (g := fun x _ => g x) (fun _ _ _ _ h _ => hf _ _ h) ha ha

end Quartic

namespace Chip

open QuarticField

variable {C : Chip} {prover : Prover}

/-- The element encodes a residue modulo the BabyBear prime. -/
abbrev Encodes (C : Chip) (a : Element) (x : ZMod BabyBear.prime) : Prop := C.field.Encodes a x

/-- The value encodes the point, coordinate by coordinate. -/
def EncodesExt (C : Chip) (a : ExtensionValue) (z : QuarticField) : Prop :=
  Quartic.Rel C.Encodes a z.coordinates

section Linear

variable {a b : ExtensionValue} {z w : QuarticField} {c : Element} {x : ZMod BabyBear.prime}

theorem EncodesExt.gives_addExt (ha : C.EncodesExt a z) (hb : C.EncodesExt b w) :
    (C.addExt a b).Gives prover [] fun c => C.EncodesExt c (z + w) := by
  refine (ha.gives_zipWithM (fun _ _ _ _ hx hy => hx.gives_add hy) hb).mono fun c hc => ?_
  rw [EncodesExt, coordinates_add]
  exact hc

theorem EncodesExt.gives_subExt (ha : C.EncodesExt a z) (hb : C.EncodesExt b w) :
    (C.subExt a b).Gives prover [] fun c => C.EncodesExt c (z - w) := by
  refine (ha.gives_zipWithM (fun _ _ _ _ hx hy => hx.gives_sub hy) hb).mono fun c hc => ?_
  rw [EncodesExt, coordinates_sub]
  exact hc

theorem EncodesExt.gives_negExt (ha : C.EncodesExt a z) :
    (C.negExt a).Gives prover [] fun c => C.EncodesExt c (-z) := by
  refine (ha.gives_mapM fun _ _ hx => hx.gives_neg).mono fun c hc => ?_
  rw [EncodesExt, coordinates_neg]
  exact hc

theorem EncodesExt.gives_selectExt {cond : Operand} {chosen : Bool}
    (hcond : C.native.accept cond = pure (C.native.lift chosen.toNat))
    (ha : C.EncodesExt a z) (hb : C.EncodesExt b w) :
    (C.selectExt cond a b).Gives prover [] fun c => C.EncodesExt c (if chosen then z else w) := by
  refine (ha.gives_zipWithM (fun _ _ _ _ hx hy => hx.gives_select hcond hy) hb).mono fun c hc => ?_
  cases chosen <;> exact hc

theorem encodesExt_ofBase (hc : C.Encodes c x) : C.EncodesExt (C.ofBase c) (embed x) := by
  rw [EncodesExt, coordinates_embed]
  exact ⟨hc, C.field.encodes_zero, C.field.encodes_zero, C.field.encodes_zero⟩

theorem EncodesExt.gives_addBase (ha : C.EncodesExt a z) (hc : C.Encodes c x) :
    (C.addBase a c).Gives prover [] fun d => C.EncodesExt d (z + embed x) := by
  refine (EmulatedField.Encodes.gives_add ha.c0 hc).bind fun d hd => .pure ?_
  rw [EncodesExt, coordinates_add, coordinates_embed]
  simp only [Quartic.zipWith, add_zero]
  exact ⟨hd, ha.c1, ha.c2, ha.c3⟩

theorem EncodesExt.gives_subBase (ha : C.EncodesExt a z) (hc : C.Encodes c x) :
    (C.subBase a c).Gives prover [] fun d => C.EncodesExt d (z - embed x) := by
  refine (EmulatedField.Encodes.gives_sub ha.c0 hc).bind fun d hd => .pure ?_
  rw [EncodesExt, coordinates_sub, coordinates_embed]
  simp only [Quartic.zipWith, sub_zero]
  exact ⟨hd, ha.c1, ha.c2, ha.c3⟩

end Linear

/-! ### Products -/

/-- The list encodes coefficients of the point, as many as stated. -/
def EncodesList (C : Chip) (l : List Element) (n : ℕ) (z : QuarticField) : Prop :=
  ∃ cs, List.Forall₂ C.Encodes l cs ∧ cs.length = n ∧ ofList cs = z

theorem EncodesList.toExt {l : List Element} {z : QuarticField} (hl : C.EncodesList l 4 z)
    (default : Element) : C.EncodesExt (.ofListD default l) z := by
  obtain ⟨cs, hcs, hlength, rfl⟩ := hl
  obtain ⟨x0, x1, x2, x3, rfl⟩ := List.length_eq_four.1 hlength
  have hcoordinates : coordinates (ofList [x0, x1, x2, x3]) = ⟨x0, x1, x2, x3⟩ :=
    coordinates_ofCoordinates ⟨x0, x1, x2, x3⟩
  obtain _ | ⟨h0, _ | ⟨h1, _ | ⟨h2, _ | ⟨h3, _ | _⟩⟩⟩⟩ := hcs
  rw [EncodesExt, hcoordinates]
  exact ⟨h0, h1, h2, h3⟩

/-- Already with a budget of a single bit, products of what the operations return do
not wrap around. -/
theorem peak_sq_lt_order (C : Chip) : C.field.peak ^ 2 < C.native.order := by
  have hpeak : C.field.peak = 4 * BabyBear.prime - 1 := by
    norm_num [EmulatedField.peak, EmulatedField.padding, EmulatedField.totalBits, field]
  have horder : 2 ^ 67 ≤ C.native.order := C.field.two_pow_le_order C.wide
  rw [hpeak]
  exact lt_of_lt_of_le (by norm_num) horder

section Accumulation

variable {R : Element → ZMod BabyBear.prime → Prop}

theorem gives_addMultiples {x : ZMod BabyBear.prime} {multiple : Element → Circuit Element}
    (hmultiple : ∀ b v, R b v → (multiple b).Gives prover [] fun c => C.Encodes c (x * v))
    {l l' : List Element} {n : ℕ} {z : QuarticField} {ds : List (ZMod BabyBear.prime)}
    (hl : C.EncodesList l n z) (hl' : List.Forall₂ R l' ds) (hle : ds.length ≤ n) :
    (C.addMultiples multiple l l').Gives prover [] fun r =>
      C.EncodesList r n (z + embed x * ofList ds) := by
  obtain ⟨cs, hcs, rfl, rfl⟩ := hl
  induction hcs generalizing l' ds with
  | nil =>
      obtain rfl : ds = [] := List.length_eq_zero_iff.1 (Nat.le_zero.1 hle)
      exact .pure ⟨[], .nil, rfl, by simp⟩
  | @cons a y l cs hay hcs ih =>
      cases hl' with
      | nil => exact .pure ⟨y :: cs, .cons hay hcs, rfl, by simp⟩
      | @cons b v l' ds hbv hds =>
          refine (hmultiple b v hbv).bind fun product hproduct => ?_
          refine (hay.gives_add hproduct).bind fun sum hsum => ?_
          refine (ih hds (Nat.le_of_succ_le_succ hle)).bind fun r hr => ?_
          obtain ⟨es, hes, hlength, hpoint⟩ := hr
          refine .pure ⟨(y + x * v) :: es, .cons hsum hes, by simp [hlength], ?_⟩
          rw [ofList_cons, ofList_cons, ofList_cons, hpoint, map_add, map_mul]
          ring

theorem gives_addProduct (hmul : ∀ {a b x y}, R a x → R b y →
      (C.field.mul a b).Gives prover [] fun c => C.Encodes c (x * y))
    {acc xs ys : List Element} {k : ℕ} {u : QuarticField}
    {cs ds : List (ZMod BabyBear.prime)} (hacc : C.EncodesList acc k u)
    (hxs : List.Forall₂ R xs cs) (hys : List.Forall₂ R ys ds) (hpos : 0 < ds.length)
    (hle : cs.length + ds.length ≤ k + 1) :
    (C.addProduct acc xs ys).Gives prover [] fun r =>
      C.EncodesList r k (u + ofList cs * ofList ds) := by
  -- a row leaves its lowest coefficient final, and the rest is one place shorter
  induction hxs generalizing acc k u with
  | nil => exact .pure (by simpa using hacc)
  | @cons c x xs cs hcx hcs ih =>
      rw [List.length_cons] at hle
      refine (gives_addMultiples (R := R) (fun _ _ => hmul hcx) hacc hys (by omega)).bind fun row hrow => ?_
      obtain ⟨rs, hrs, rfl, hpoint⟩ := hrow
      cases hrs with
      | nil => simp at hle; omega
      | @cons d y row rs hdy hrs =>
          rw [List.length_cons] at hle
          have hrest : C.EncodesList row rs.length (ofList rs) := ⟨rs, hrs, rfl, rfl⟩
          refine (ih hrest (by omega)).bind fun r hr => ?_
          obtain ⟨es, hes, hlength, hr⟩ := hr
          refine .pure ⟨y :: es, .cons hdy hes, by simp [hlength], ?_⟩
          rw [ofList_cons] at hpoint ⊢
          rw [ofList_cons, hr]
          linear_combination hpoint

end Accumulation

section Products

variable (hbudget : prover = .arbitrary → 2 ≤ C.field.maxOverflow)

include hbudget

theorem gives_mul {a b : Element} {x y : ZMod BabyBear.prime} (ha : C.Encodes a x)
    (hb : C.Encodes b y) : (C.field.mul a b).Gives prover [] fun c => C.Encodes c (x * y) :=
  EmulatedField.Encodes.gives_mul C.peak_sq_lt_order hbudget ha hb

theorem EncodesExt.gives_mulBase {a : ExtensionValue} {z : QuarticField} {c : Element}
    {x : ZMod BabyBear.prime} (ha : C.EncodesExt a z) (hc : C.Encodes c x) :
    (C.mulBase a c).Gives prover [] fun d => C.EncodesExt d (z * embed x) := by
  refine (ha.gives_mapM fun _ _ hy => gives_mul hbudget hy hc).mono fun d hd => ?_
  rw [EncodesExt, coordinates_mul_embed]
  exact hd

/-- Whatever the factors are, if the products of their coordinates are right: the
upper coefficients folded by `x ^ 4 = 11` leave the point as it is. -/
theorem gives_mulExt_of_gives_mul {R : Element → ZMod BabyBear.prime → Prop}
    (hmul : ∀ {a b x y}, R a x → R b y →
      (C.field.mul a b).Gives prover [] fun c => C.Encodes c (x * y))
    {a b : ExtensionValue} {x y : Quartic (ZMod BabyBear.prime)} (ha : Quartic.Rel R a x)
    (hb : Quartic.Rel R b y) :
    (C.mulExt a b).Gives prover [] fun c =>
      C.EncodesExt c (ofCoordinates x * ofCoordinates y) := by
  have hzero : C.EncodesList (List.replicate 7 C.field.zero) 7 0 := by
    have h := C.field.encodes_zero
    refine ⟨List.replicate 7 0, ?_, rfl, by simp [List.replicate]⟩
    exact .cons h (.cons h (.cons h (.cons h (.cons h (.cons h (.cons h .nil))))))
  refine (gives_addProduct hmul hzero ha.toList hb.toList (by simp [Quartic.toList])
    (by simp [Quartic.toList])).bind fun product hproduct => ?_
  obtain ⟨cs, hcs, hlength, hpoint⟩ := hproduct
  have hlow : C.EncodesList (product.take 4) 4 (ofList (cs.take 4)) :=
    ⟨_, List.forall₂_take 4 hcs, by simp [hlength], rfl⟩
  have hroot : C.Encodes (C.field.constant nonResidue) nonResidue := by
    have h := C.field.encodes_constant nonResidue
    rw [Int.cast_natCast] at h
    exact h
  have hfold : ofList (cs.take 4) + embed nonResidue * ofList (cs.drop 4) =
      ofCoordinates x * ofCoordinates y := by
    have hsplit := ofList_append (cs.take 4) (cs.drop 4)
    rw [List.take_append_drop, hpoint, zero_add, List.length_take_of_le (by omega),
      root_pow_four] at hsplit
    exact hsplit.symm
  have hscaled (c : Element) (v : ZMod BabyBear.prime) (hc : C.Encodes c v) :
      (C.field.mul c (C.field.constant nonResidue)).Gives prover [] fun d =>
        C.Encodes d (nonResidue * v) := by
    rw [mul_comm]
    exact gives_mul hbudget hc hroot
  refine (gives_addMultiples hscaled hlow (List.forall₂_drop 4 hcs)
    (by simp [hlength])).bind fun folded h => ?_
  rw [hfold] at h
  exact .pure (h.toExt _)

theorem EncodesExt.gives_mulExt {a b : ExtensionValue} {z w : QuarticField}
    (ha : C.EncodesExt a z) (hb : C.EncodesExt b w) :
    (C.mulExt a b).Gives prover [] fun c => C.EncodesExt c (z * w) := by
  have h := gives_mulExt_of_gives_mul hbudget (gives_mul hbudget) ha hb
  rwa [ofCoordinates_coordinates, ofCoordinates_coordinates] at h

end Products

end Chip

end NonNative
