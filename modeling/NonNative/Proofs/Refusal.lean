import NonNative.Proofs.ChipGadgets
import NonNative.Proofs.EveryRun

/-!
Gadgets on operands of any kind. Whatever the prover answers, what a gadget records
relates values of its own native field, and it is refused only for what is wrong with
one of its arguments. If it returns, the native field has taken the values that it
uses. A value may travel some way before it is met: a canonical element passes a
reduction untouched, and the number of an element is read for a hint before any gate
takes it.
-/

namespace NonNative

open Circuit

/-! ### Gates -/

namespace NativeField

/-- The constraint relates values of the field. -/
inductive Relates (F : NativeField) : Constraint → Prop where
  | equal {x y : Scalar} (hx : F.Contains x) (hy : F.Contains y) (label : String) :
      F.Relates (.equal x y label)
  | boolean {x : Scalar} (hx : F.Contains x) (label : String) : F.Relates (.boolean x label)
  | range {x : Scalar} (hx : F.Contains x) (width : ℤ) (label : String) :
      F.Relates (.range x width label)

/-- Whatever can be judged and relates values of the field has property `K`, if it is
recorded under the label. -/
def Admits (F : NativeField) (label : String) (K : Constraint → Prop) : Prop :=
  ∀ k, F.Relates k → k.IsJudged → k.label = label → K k

variable {F : NativeField} {K : Constraint → Prop} {N : Fault → Prop} {a b : Operand}
  {label : String}

/-- An integer that cannot be read is refused as an operand, for the same fault. -/
theorem Risks.every_toInt (h : F.Risks N a) :
    (Circuit.ofExcept a.toInt).Every K N fun _ => True := by
  refine every_ofExcept (fun _ _ => trivial) fun fault hfault => ?_
  cases a with
  | scalar s => cases hfault
  | int n => cases hfault
  | truth b => cases hfault
  | text s =>
      apply h
      rw [Operand.toInt] at hfault
      rw [accept, hfault]

section Operands

variable (ha : F.Risks N a) (hb : F.Risks N b)

include ha hb

theorem Risks.every_assertEqual (hK : F.Admits label K) :
    (F.assertEqual a b label).Every K N fun _ => F.Owns a ∧ F.Owns b := by
  refine ha.every_accept.bind fun x hx => hb.every_accept.bind fun y hy => ⟨?_, ⟨x, hx⟩, ⟨y, hy⟩⟩
  exact hK _ (.equal (F.order_eq_of_accept hx) (F.order_eq_of_accept hy) label)
    ⟨_, Constraint.equal_holds x y label⟩ rfl

omit hb in
theorem Risks.every_assertBoolean (hK : F.Admits label K) :
    (F.assertBoolean a label).Every K N fun _ => F.Owns a := by
  refine ha.every_accept.bind fun x hx => ⟨?_, ⟨x, hx⟩⟩
  exact hK _ (.boolean (F.order_eq_of_accept hx) label) ⟨_, Constraint.boolean_holds x label⟩ rfl

omit hb in
theorem Risks.every_rangeCheck (hK : F.Admits label K) {width : ℤ} (hwidth : 0 ≤ width) :
    (F.rangeCheck a width label).Every K N fun _ => F.Owns a := by
  refine ha.every_accept.bind fun x hx => ⟨?_, ⟨x, hx⟩⟩
  exact hK _ (.range (F.order_eq_of_accept hx) width label)
    ⟨_, Constraint.range_holds x hwidth label⟩ rfl

theorem Risks.every_and (hK : F.Admits "and" K) :
    (F.and a b).Every K N fun s => F.Contains s ∧ F.Owns a ∧ F.Owns b :=
  (ha.every_assertBoolean hK).bind fun _ _ =>
    (hb.every_assertBoolean hK).bind fun _ _ => ha.every_mul hb

omit hb in
theorem Risks.every_isZero (hK : F.Admits "is_zero" K) :
    (F.isZero a).Every K N fun s => F.Contains s ∧ F.Owns a := by
  refine ha.every_accept.bind fun x hx => ?_
  have hx' : F.Contains x := F.order_eq_of_accept hx
  refine (every_hint _).bind fun y hy => ?_
  refine (hx'.risks.every_mul hy.risks).bind fun product ⟨hproduct, _⟩ => ?_
  refine ((owns_int 1).risks.every_sub hproduct.risks).bind fun flag ⟨hflag, _⟩ => ?_
  refine (hx'.risks.every_mul hflag.risks).bind fun residue ⟨hresidue, _⟩ => ?_
  exact (hresidue.risks.every_assertEqual (owns_int 0).risks hK).bind
    fun _ _ => ⟨hflag, ⟨x, hx⟩⟩

end Operands

theorem owns_map_scalar {ss : List Scalar} (h : ∀ s ∈ ss, F.Contains s) :
    ∀ a ∈ ss.map Operand.scalar, F.Owns a :=
  List.forall_mem_map.2 fun s hs => (h s hs).owns

theorem every_recompose_scalars {w : ℕ} {ss : List Scalar} (h : ∀ s ∈ ss, F.Contains s) :
    (F.recompose w (ss.map .scalar)).Every K N F.Contains :=
  every_recompose fun d hd => (owns_map_scalar h d hd).risks

theorem Risks.every_toBits (ha : F.Risks N a) (hK : F.Admits "to_binary" K) (width : ℤ) :
    (F.toBits a width).Every K N fun bs => (∀ b ∈ bs, F.Contains b) ∧ F.Owns a := by
  refine ha.every_accept.bind fun x hx => ?_
  refine (every_hints _).bind fun bs hbs => ?_
  have hboolean : ∀ b ∈ bs, (F.assertBoolean (.scalar b) "to_binary").Every K N fun _ => True :=
    fun b hb => ((hbs b hb).risks.every_assertBoolean hK).imp fun _ _ => trivial
  refine (Every.forM hboolean).bind fun _ _ => ?_
  refine (every_recompose_scalars hbs).bind fun sum hsum => ?_
  exact (hsum.risks.every_assertEqual (Contains.risks (F.order_eq_of_accept hx)) hK).bind
    fun _ _ => ⟨hbs, ⟨x, hx⟩⟩

end NativeField

/-! ### Elements -/

namespace EmulatedField

open NativeField

/-- The parts of the element belong to the native field, and its bound is not below
the width of the limbs. -/
structure Owns (E : EmulatedField) (a : Element) : Prop where
  native : E.native.Owns a.native
  limbs : ∀ l ∈ a.limbs, E.native.Owns l
  overflow_nonneg : 0 ≤ a.overflow

/-- The native field takes the value of the element. Nothing is said about its
limbs. -/
def Takes (E : EmulatedField) (a : Element) : Prop := E.native.Owns a.native

/-- What may be wrong with the element, its limbs apart, are faults with property
`N`. A negative overflow may leave no width for a padding. -/
structure Risks (E : EmulatedField) (N : Fault → Prop) (a : Element) : Prop where
  native : E.native.Risks N a.native
  overflow : a.overflow < 0 → N .negativeWidth

/-- The element is made of values of the native field. Its overflow is negative only
where that of an argument was. -/
structure Yields (E : EmulatedField) (N : Fault → Prop) (a : Element) : Prop where
  native : E.native.Owns a.native
  limbs : ∀ l ∈ a.limbs, E.native.Owns l
  overflow : a.overflow < 0 → N .negativeWidth

/-- What a reduction returns: the argument as it was, or an element of the field in
place of an argument that the field has taken. -/
def ReducedFrom (E : EmulatedField) (a r : Element) : Prop := r = a ∨ E.Owns r ∧ E.Takes a

variable {E : EmulatedField} {K : Constraint → Prop} {N : Fault → Prop} {a b r : Element}
  {operand : Operand} {label : String}

theorem Owns.yields (h : E.Owns a) : E.Yields N a :=
  ⟨h.native, h.limbs, fun hneg => absurd h.overflow_nonneg (not_le.2 hneg)⟩

theorem risks_of_true (a : Element) : E.Risks (fun _ => True) a :=
  ⟨NativeField.risks_of_true _, fun _ => trivial⟩

theorem Yields.risks (h : E.Yields N a) : E.Risks N a := ⟨h.native.risks, h.overflow⟩

theorem Owns.risks (h : E.Owns a) : E.Risks N a := h.yields.risks

theorem Yields.owns (h : E.Yields (fun _ => False) a) : E.Owns a :=
  ⟨h.native, h.limbs, not_lt.1 h.overflow⟩

theorem yields_unreduced {s : Scalar} (hs : E.native.Contains s) {o : ℤ}
    (ho : o < 0 → N .negativeWidth) : E.Yields N ⟨.scalar s, o, []⟩ :=
  ⟨hs.owns, List.forall_mem_nil _, ho⟩

theorem owns_unreduced {s : Scalar} (hs : E.native.Contains s) {o : ℤ} (ho : 0 ≤ o) :
    E.Owns ⟨.scalar s, o, []⟩ := ⟨hs.owns, List.forall_mem_nil _, ho⟩

theorem owns_constant (E : EmulatedField) (n : ℤ) : E.Owns (E.constant n) where
  native := Contains.owns rfl
  limbs := List.forall_mem_map.2 fun _ _ => Contains.owns rfl
  overflow_nonneg := le_rfl

theorem ReducedFrom.risks (h : E.ReducedFrom a r) (ha : E.Risks N a) : E.Risks N r := by
  rcases h with rfl | ⟨hr, -⟩
  · exact ha
  · exact hr.risks

theorem ReducedFrom.takes (h : E.ReducedFrom a r) (hr : E.Takes r) : E.Takes a := by
  rcases h with rfl | ⟨-, ha⟩
  · exact hr
  · exact ha

theorem ReducedFrom.owns (h : E.ReducedFrom a r) (ha : E.Owns a) : E.Owns r := by
  rcases h with rfl | ⟨hr, -⟩
  · exact ha
  · exact hr

/-! ### Reduction -/

theorem every_ofNative (h : E.native.Risks N operand) (hK : E.native.Admits "new_element" K) :
    (E.ofNative operand).Every K N fun c => E.Owns c ∧ E.native.Owns operand := by
  refine h.every_accept.bind fun x hx => ?_
  have hx' : E.native.Contains x := E.native.order_eq_of_accept hx
  exact (hx'.risks.every_rangeCheck hK (Int.natCast_nonneg _)).bind
    fun _ _ => ⟨owns_unreduced hx' le_rfl, ⟨x, hx⟩⟩

theorem every_canonical (h : E.native.Risks N operand) (hK : E.native.Admits label K) :
    (E.canonical operand label).Every K N fun c => E.Owns c ∧ E.native.Owns operand := by
  refine h.every_accept.bind fun x hx => ?_
  have hown : E.native.Owns operand := ⟨x, hx⟩
  refine (every_hints _).bind fun limbs hlimbs => ?_
  have hrange : ∀ l ∈ limbs,
      (E.native.rangeCheck (.scalar l) E.limbBits label).Every K N fun _ => True := fun l hl =>
    ((hlimbs l hl).risks.every_rangeCheck hK (Int.natCast_nonneg _)).imp fun _ _ => trivial
  refine (Every.forM hrange).bind fun _ _ => ?_
  refine (every_recompose_scalars hlimbs).bind fun sum hsum => ?_
  refine (hsum.risks.every_assertEqual hown.risks hK).bind fun _ _ => ?_
  refine ((owns_int _).risks.every_sub hown.risks).bind fun gap ⟨hgap, _⟩ => ?_
  refine (hgap.risks.every_rangeCheck hK (Int.natCast_nonneg _)).bind fun _ _ => ?_
  exact ⟨⟨hown, owns_map_scalar hlimbs, le_rfl⟩, hown⟩

theorem every_witness (n : ℤ) (hK : E.native.Admits "new_witness" K) :
    (E.witness n).Every K N E.Owns :=
  (every_hint _).bind fun _ hx => (every_canonical hx.risks hK).imp fun _ hc => hc.1

theorem every_remainder (h : E.native.Risks N operand) (bound : ℤ)
    (hK : E.native.Admits label K) :
    (E.remainder operand bound label).Every K N fun c => E.Owns c ∧ E.native.Owns operand := by
  have hwidth : (0 : ℤ) ≤ max (bound - E.modulusBits + 1) 1 :=
    zero_le_one.trans (le_max_right _ _)
  refine h.every_accept.bind fun x hx => ?_
  have hown : E.native.Owns operand := ⟨x, hx⟩
  refine (every_hint _).bind fun q hq => ?_
  refine (every_hint _).bind fun r hr => ?_
  refine (hq.risks.every_rangeCheck hK hwidth).bind fun _ _ => ?_
  refine (every_canonical hr.risks hK).bind fun reduced ⟨hreduced, _⟩ => ?_
  refine (hq.risks.every_mul (owns_int _).risks).bind fun multiple ⟨hmultiple, _⟩ => ?_
  refine (hmultiple.risks.every_add hr.risks).bind fun total ⟨htotal, _⟩ => ?_
  exact (hown.risks.every_assertEqual htotal.risks hK).bind fun _ _ => ⟨hreduced, hown⟩

theorem Risks.every_reduce (h : E.Risks N a) (hK : E.native.Admits "reduce" K) :
    (E.reduce a).Every K N (E.ReducedFrom a) := by
  rw [reduce]
  split
  · exact .inl rfl
  · exact (every_remainder h.native _ hK).imp fun _ => .inr

theorem Risks.every_withRoom (h : E.Risks N a) (hK : E.native.Admits "reduce" K) :
    (E.withRoom a).Every K N (E.ReducedFrom a) := by
  rw [withRoom]
  split
  · exact h.every_reduce hK
  · exact .inl rfl

theorem Risks.every_negated (h : E.Risks N a) :
    (E.negated a).Every K N fun s => E.native.Contains s ∧ E.Takes a := by
  rw [negated, paddingMultiple]
  split
  · next hneg =>
      refine h.overflow ?_
      rw [boundBits] at hneg
      omega
  · rw [ofExcept_ok, pure_bind]
    exact ((owns_int _).risks.every_sub h.native).imp fun _ hs => ⟨hs.1, hs.2.2⟩

/-! ### Arithmetic -/

theorem Risks.every_add (ha : E.Risks N a) (hb : E.Risks N b)
    (hK : E.native.Admits "reduce" K) :
    (E.add a b).Every K N fun c => E.Yields N c ∧ E.Takes a ∧ E.Takes b := by
  refine (ha.every_withRoom hK).bind fun a' ha' => ?_
  refine (hb.every_withRoom hK).bind fun b' hb' => ?_
  have hrisk := ha'.risks ha
  refine (hrisk.native.every_add (hb'.risks hb).native).bind fun sum ⟨hsum, hta, htb⟩ => ?_
  exact ⟨yields_unreduced hsum fun hneg => hrisk.overflow (by omega), ha'.takes hta,
    hb'.takes htb⟩

theorem Risks.every_neg (ha : E.Risks N a) (hK : E.native.Admits "reduce" K) :
    (E.neg a).Every K N fun c => E.Yields N c ∧ E.Takes a := by
  refine (ha.every_withRoom hK).bind fun a' ha' => ?_
  have hrisk := ha'.risks ha
  refine hrisk.every_negated.bind fun difference ⟨hdifference, hta⟩ => ?_
  exact ⟨yields_unreduced hdifference fun hneg => hrisk.overflow (by omega), ha'.takes hta⟩

theorem Risks.every_sub (ha : E.Risks N a) (hb : E.Risks N b)
    (hK : E.native.Admits "reduce" K) :
    (E.sub a b).Every K N fun c => E.Yields N c ∧ E.Takes a ∧ E.Takes b := by
  refine (ha.every_withRoom hK).bind fun a' ha' => ?_
  refine (hb.every_withRoom hK).bind fun b' hb' => ?_
  have hrisk := ha'.risks ha
  refine (hb'.risks hb).every_negated.bind fun minus ⟨hminus, htb⟩ => ?_
  refine (hrisk.native.every_add hminus.risks).bind fun difference ⟨hdifference, hta, _⟩ => ?_
  exact ⟨yields_unreduced hdifference fun hneg => hrisk.overflow (by omega), ha'.takes hta,
    hb'.takes htb⟩

theorem Risks.every_mul (ha : E.Risks N a) (hb : E.Risks N b) (hK : E.native.Admits "mul" K) :
    (E.mul a b).Every K N fun c => E.Owns c ∧ E.Takes a ∧ E.Takes b :=
  (ha.native.every_mul hb.native).bind fun _ ⟨hproduct, htakes⟩ =>
    (every_remainder hproduct.risks _ hK).imp fun _ hc => ⟨hc.1, htakes⟩

/-- The witness for the inverse of an element and its product with the element, before
the product is compared with one. -/
def inverseGuess (E : EmulatedField) (a : Element) : Circuit (Element × Element) := do
  let a ← E.reduce a
  let n ← Circuit.ofExcept a.native.toInt
  let w ← E.witness (fermatInverse (n % (E.modulus : ℤ)).toNat E.modulus)
  let product ← E.mul a w
  return (w, product)

theorem inverse_eq (a : Element) :
    E.inverse a = do
      let guess ← E.inverseGuess a
      E.assertEqual guess.2 E.one "inverse"
      return guess.1 := by
  simp only [inverse, inverseGuess, LawfulMonad.bind_assoc, pure_bind]

/-- The number of the element is read for the witness before the product meets its
value. -/
theorem Risks.every_inverseGuess (ha : E.Risks N a) (hreduce : E.native.Admits "reduce" K)
    (hwitness : E.native.Admits "new_witness" K) (hmul : E.native.Admits "mul" K) :
    (E.inverseGuess a).Every K N fun guess => E.Owns guess.1 ∧ E.Owns guess.2 ∧ E.Takes a := by
  refine (ha.every_reduce hreduce).bind fun a' ha' => ?_
  have hrisk := ha'.risks ha
  refine hrisk.native.every_toInt.bind fun n _ => ?_
  refine (every_witness _ hwitness).bind fun w hw => ?_
  refine (hrisk.every_mul hw.risks hmul).bind fun product ⟨hproduct, hta, _⟩ => ?_
  exact ⟨hw, hproduct, ha'.takes hta⟩

/-- Limbs are met only if both elements have them. -/
theorem Risks.every_select {cond : Operand} (hcond : E.native.Risks N cond) (ha : E.Risks N a)
    (hb : E.Risks N b) (hla : ∀ l ∈ a.limbs, E.native.Risks N l)
    (hlb : ∀ l ∈ b.limbs, E.native.Risks N l) :
    (E.select cond a b).Every K N fun c => E.Yields N c ∧ E.Takes a ∧ E.Takes b := by
  have hoverflow : max a.overflow b.overflow < 0 → N .negativeWidth := fun hneg =>
    ha.overflow (by omega)
  refine (ha.native.every_select hb.native hcond).bind fun native ⟨hnative, htakes⟩ => ?_
  dsimp only
  split
  · have hpairs : ∀ p ∈ a.limbs.zip b.limbs,
        (E.native.select cond p.1 p.2).Every K N E.native.Contains := fun p hp =>
      ((hla _ (List.of_mem_zip hp).1).every_select (hlb _ (List.of_mem_zip hp).2) hcond).imp
        fun _ hs => hs.1
    refine (Every.mapM hpairs).bind fun limbs hlimbs => ?_
    exact ⟨⟨hnative.owns, owns_map_scalar hlimbs, hoverflow⟩, htakes⟩
  · exact ⟨yields_unreduced hnative hoverflow, htakes⟩

section Gadgets

variable (hK : ∀ label, E.native.Admits label K)

include hK

theorem Risks.every_assertEqual (ha : E.Risks N a) (hb : E.Risks N b) :
    (E.assertEqual a b label).Every K N fun _ => E.Takes a ∧ E.Takes b := by
  refine (ha.every_reduce (hK _)).bind fun a' ha' => ?_
  refine (hb.every_reduce (hK _)).bind fun b' hb' => ?_
  exact ((ha'.risks ha).native.every_assertEqual (hb'.risks hb).native (hK _)).imp
    fun _ htakes => ⟨ha'.takes htakes.1, hb'.takes htakes.2⟩

theorem Risks.every_inverse (ha : E.Risks N a) :
    (E.inverse a).Every K N fun c => E.Owns c ∧ E.Takes a := by
  rw [inverse_eq]
  refine (ha.every_inverseGuess (hK _) (hK _) (hK _)).bind fun guess ⟨hw, hproduct, hta⟩ => ?_
  exact (hproduct.risks.every_assertEqual hK (E.owns_constant 1).risks).bind
    fun _ _ => ⟨hw, hta⟩

theorem Risks.every_isZero (ha : E.Risks N a) :
    (E.isZero a).Every K N fun s => E.native.Contains s ∧ E.Takes a := by
  refine (ha.every_reduce (hK _)).bind fun a' ha' => ?_
  exact ((ha'.risks ha).native.every_isZero (hK _)).imp fun _ hs => ⟨hs.1, ha'.takes hs.2⟩

theorem Risks.every_toBits (ha : E.Risks N a) :
    (E.toBits a).Every K N fun bs => (∀ b ∈ bs, E.native.Contains b) ∧ E.Takes a := by
  refine (ha.every_reduce (hK _)).bind fun a' ha' => ?_
  exact ((ha'.risks ha).native.every_toBits (hK _) _).imp fun _ hs => ⟨hs.1, ha'.takes hs.2⟩

end Gadgets

end EmulatedField

/-! ### Extension values -/

namespace Chip

open EmulatedField NativeField

/-- All coordinates belong to the native field. -/
abbrev OwnsExt (C : Chip) (a : ExtensionValue) : Prop := a.All C.field.Owns

variable {C : Chip} {K : Constraint → Prop} {N : Fault → Prop} {a b : ExtensionValue}
  {x y : Element}

theorem ownsExt_extensionConstant (n : Quartic ℤ) : overBn254.OwnsExt (extensionConstant n) :=
  ⟨owns_constant _ _, owns_constant _ _, owns_constant _ _, owns_constant _ _⟩

theorem yields_ofListD {l : List Element} (hl : ∀ y ∈ l, C.field.Yields N y) :
    Quartic.All (C.field.Yields N) (.ofListD C.field.zero l) := by
  have hget (i : ℕ) : C.field.Yields N (l.getD i C.field.zero) := by
    rw [List.getD_eq_getElem?_getD]
    cases hi : l[i]? with
    | none => exact (C.field.owns_constant 0).yields
    | some y => exact hl y (List.mem_of_getElem? hi)
  exact ⟨hget 0, hget 1, hget 2, hget 3⟩

theorem every_selectExt {cond : Operand} (hcond : C.native.Risks N cond)
    (ha : a.All fun x => C.field.Risks N x ∧ ∀ l ∈ x.limbs, C.native.Risks N l)
    (hb : b.All fun x => C.field.Risks N x ∧ ∀ l ∈ x.limbs, C.native.Risks N l) :
    (C.selectExt cond a b).Every K N fun c =>
      c.All (C.field.Yields N) ∧ a.All C.field.Takes ∧ b.All C.field.Takes := by
  refine Quartic.every_zipWithM_of ?_ ha hb
  intro x hx y hy
  exact hx.1.every_select hcond hy.1 hx.2 hy.2

section Gadgets

variable (hK : ∀ label, C.native.Admits label K)

include hK

theorem every_equalFlag (hx : C.field.Risks N x) (hy : C.field.Risks N y) :
    (do C.field.isZero (← C.field.sub x y)).Every K N fun s =>
      C.native.Contains s ∧ C.field.Takes x ∧ C.field.Takes y := by
  refine (hx.every_sub hy (hK _)).bind fun difference ⟨hdifference, htakes⟩ => ?_
  exact (hdifference.risks.every_isZero hK).imp fun _ hs => ⟨hs.1, htakes⟩

theorem every_assertNotEqual (hx : C.field.Risks N x) (hy : C.field.Risks N y) :
    (C.assertNotEqual x y).Every K N fun _ => C.field.Takes x ∧ C.field.Takes y := by
  rw [assertNotEqual, ← LawfulMonad.bind_assoc]
  refine (every_equalFlag hK hx hy).bind fun flag hflag => ?_
  exact (hflag.1.risks.every_assertEqual (owns_int 0).risks (hK _)).imp fun _ _ => hflag.2

theorem every_unpack {operand : Operand} (h : C.native.Risks N operand) :
    (C.unpack operand).Every K N fun l => ∀ x ∈ l, C.field.Owns x := by
  refine (h.every_toBits (hK _) _).bind fun bs ⟨hbs, _⟩ => ?_
  refine Every.mapM fun chunk hchunk => ?_
  have hbits : ∀ b ∈ chunk, C.native.Contains b := fun b hb =>
    hbs b (mem_of_mem_chunks hchunk b hb)
  refine (every_recompose_scalars hbits).bind fun sum hsum => ?_
  exact (every_ofNative hsum.risks (hK _)).imp fun _ hc => hc.1

/-! ### Products -/

/-- A row of multiples meets whatever its multiples meet. -/
theorem every_addMultiples {multiple : Element → Circuit Element} {P : Element → Prop}
    (hmultiple : ∀ y, C.field.Risks N y →
      (multiple y).Every K N fun c => C.field.Owns c ∧ P y) {l l' : List Element}
    (hl : ∀ y ∈ l, C.field.Yields N y) (hl' : ∀ y ∈ l', C.field.Risks N y) :
    (C.addMultiples multiple l l').Every K N fun r =>
      (r.length = l.length ∧ ∀ y ∈ r, C.field.Yields N y) ∧
        (l'.length ≤ l.length → ∀ y ∈ l', P y) := by
  induction l generalizing l' with
  | nil =>
      refine ⟨⟨rfl, hl⟩, fun hlength => ?_⟩
      rw [List.length_eq_zero_iff.1 (Nat.le_zero.1 hlength)]
      exact List.forall_mem_nil _
  | cons c l ih =>
      cases l' with
      | nil => exact ⟨⟨rfl, hl⟩, fun _ => List.forall_mem_nil _⟩
      | cons y l' =>
          obtain ⟨hc, hl⟩ := List.forall_mem_cons.1 hl
          obtain ⟨hy, hl'⟩ := List.forall_mem_cons.1 hl'
          refine (hmultiple y hy).bind fun product ⟨hproduct, htakes⟩ => ?_
          refine (hc.risks.every_add hproduct.risks (hK _)).bind fun sum ⟨hsum, _⟩ => ?_
          refine (ih hl hl').bind fun rest ⟨⟨hlength, hrest⟩, hmet⟩ => ?_
          refine ⟨⟨congrArg (· + 1) hlength, List.forall_mem_cons.2 ⟨hsum, hrest⟩⟩, fun hle => ?_⟩
          exact List.forall_mem_cons.2 ⟨htakes, hmet (Nat.le_of_succ_le_succ hle)⟩

/-- All coefficients of two polynomials are met, if there is a place for each product:
row by row, one place is given up and one coefficient of the first is done. -/
theorem every_addProduct {acc xs ys : List Element} (hacc : ∀ y ∈ acc, C.field.Yields N y)
    (hxs : ∀ y ∈ xs, C.field.Risks N y) (hys : ∀ y ∈ ys, C.field.Risks N y) :
    (C.addProduct acc xs ys).Every K N fun r => (∀ y ∈ r, C.field.Yields N y) ∧
      (xs.length + ys.length ≤ acc.length + 1 →
        ∀ x ∈ xs, ∀ y ∈ ys, C.field.Takes x ∧ C.field.Takes y) := by
  induction xs generalizing acc with
  | nil => exact ⟨hacc, fun _ => List.forall_mem_nil _⟩
  | cons x xs ih =>
      obtain ⟨hx, hxs⟩ := List.forall_mem_cons.1 hxs
      refine (every_addMultiples hK (P := fun y => C.field.Takes x ∧ C.field.Takes y)
        (fun _ hy => hx.every_mul hy (hK _)) hacc hys).bind fun row ⟨⟨hlength, hrow⟩, hmet⟩ => ?_
      cases row with
      | nil =>
          refine ⟨hrow, fun hle => ?_⟩
          simp only [List.length_nil, List.length_cons] at hlength hle
          have hempty : ys = [] := List.length_eq_zero_iff.1 (by omega)
          simp [hempty]
      | cons c rest =>
          obtain ⟨hc, hrest⟩ := List.forall_mem_cons.1 hrow
          refine (ih hrest hxs).bind fun r ⟨hr, hmet'⟩ => ?_
          simp only [List.length_cons] at hlength ⊢
          refine ⟨List.forall_mem_cons.2 ⟨hc, hr⟩, fun hle => ?_⟩
          exact List.forall_mem_cons.2 ⟨hmet (by omega), hmet' (by omega)⟩

theorem every_mulExt (ha : a.All (C.field.Risks N)) (hb : b.All (C.field.Risks N)) :
    (C.mulExt a b).Every K N fun c =>
      c.All (C.field.Yields N) ∧ a.All C.field.Takes ∧ b.All C.field.Takes := by
  have hzero : ∀ y ∈ List.replicate 7 C.field.zero, C.field.Yields N y := by
    intro y hy
    rw [List.eq_of_mem_replicate hy]
    exact (C.field.owns_constant 0).yields
  refine (every_addProduct hK hzero (Quartic.all_iff_forall_mem.1 ha)
    (Quartic.all_iff_forall_mem.1 hb)).bind fun product hproducts => ?_
  obtain ⟨hproduct, hmet⟩ := hproducts
  have hpairs := hmet (by simp [Quartic.toList])
  refine (every_addMultiples hK (P := fun _ => True) (fun _ hy =>
      (hy.every_mul (C.field.owns_constant _).risks (hK _)).imp fun _ hc => ⟨hc.1, trivial⟩)
    (fun y hy => hproduct y (List.mem_of_mem_take hy))
    (fun y hy => (hproduct y (List.mem_of_mem_drop hy)).risks)).bind fun folded hfolded => ?_
  refine ⟨yields_ofListD hfolded.1.2, Quartic.all_iff_forall_mem.2 fun x hx => ?_,
    Quartic.all_iff_forall_mem.2 fun y hy => ?_⟩
  · exact (hpairs x hx b.c0 List.mem_cons_self).1
  · exact (hpairs a.c0 List.mem_cons_self y hy).2

/-! ### Coordinate by coordinate -/

theorem every_addExt (ha : a.All (C.field.Risks N)) (hb : b.All (C.field.Risks N)) :
    (C.addExt a b).Every K N fun c =>
      c.All (C.field.Yields N) ∧ a.All C.field.Takes ∧ b.All C.field.Takes := by
  refine Quartic.every_zipWithM_of ?_ ha hb
  intro x hx y hy
  exact hx.every_add hy (hK _)

theorem every_subExt (ha : a.All (C.field.Risks N)) (hb : b.All (C.field.Risks N)) :
    (C.subExt a b).Every K N fun c =>
      c.All (C.field.Yields N) ∧ a.All C.field.Takes ∧ b.All C.field.Takes := by
  refine Quartic.every_zipWithM_of ?_ ha hb
  intro x hx y hy
  exact hx.every_sub hy (hK _)

theorem every_negExt (ha : a.All (C.field.Risks N)) :
    (C.negExt a).Every K N fun c => c.All (C.field.Yields N) ∧ a.All C.field.Takes :=
  Quartic.every_mapM_of (fun _ hx => hx.every_neg (hK _)) ha

theorem every_assertEqualExt (ha : a.All (C.field.Risks N)) (hb : b.All (C.field.Risks N)) :
    (C.assertEqualExt a b).Every K N fun _ => a.All C.field.Takes ∧ b.All C.field.Takes := by
  obtain ⟨ha0, ha1, ha2, ha3⟩ := ha
  obtain ⟨hb0, hb1, hb2, hb3⟩ := hb
  refine (ha0.every_assertEqual hK hb0).bind fun _ ⟨ta0, tb0⟩ => ?_
  refine (ha1.every_assertEqual hK hb1).bind fun _ ⟨ta1, tb1⟩ => ?_
  refine (ha2.every_assertEqual hK hb2).bind fun _ ⟨ta2, tb2⟩ => ?_
  exact (ha3.every_assertEqual hK hb3).imp fun _ ⟨ta3, tb3⟩ =>
    ⟨⟨ta0, ta1, ta2, ta3⟩, ⟨tb0, tb1, tb2, tb3⟩⟩

theorem every_assertNotEqualExt (ha : a.All (C.field.Risks N)) (hb : b.All (C.field.Risks N)) :
    (C.assertNotEqualExt a b).Every K N fun _ => a.All C.field.Takes ∧ b.All C.field.Takes := by
  have hflags : (a.zipWithM (fun x y => do C.field.isZero (← C.field.sub x y)) b).Every K N
      fun flags => flags.All C.native.Contains ∧ a.All C.field.Takes ∧ b.All C.field.Takes := by
    refine Quartic.every_zipWithM_of ?_ ha hb
    intro x hx y hy
    exact every_equalFlag hK hx hy
  refine hflags.bind fun flags ⟨⟨h0, h1, h2, h3⟩, htakes⟩ => ?_
  refine (h0.risks.every_and h1.risks (hK _)).bind fun low ⟨hlow, _⟩ => ?_
  refine (h2.risks.every_and h3.risks (hK _)).bind fun high ⟨hhigh, _⟩ => ?_
  refine (hlow.risks.every_and hhigh.risks (hK _)).bind fun all ⟨hall, _⟩ => ?_
  exact (hall.risks.every_assertEqual (owns_int 0).risks (hK _)).imp fun _ _ => htakes

/-! ### An extension value and a base element -/

theorem every_mulBase (ha : a.All (C.field.Risks N)) (hx : C.field.Risks N x) :
    (C.mulBase a x).Every K N fun c =>
      c.All (C.field.Yields N) ∧ a.All C.field.Takes ∧ C.field.Takes x := by
  have hproduct (y : Element) (hy : C.field.Risks N y) :
      (C.field.mul y x).Every K N fun c =>
        C.field.Yields N c ∧ C.field.Takes y ∧ C.field.Takes x :=
    (hy.every_mul hx (hK _)).imp fun _ hc => ⟨hc.1.yields, hc.2⟩
  refine (Quartic.every_mapM_of hproduct ha).imp fun c ⟨hc, htakes⟩ => ?_
  exact ⟨hc, htakes.imp fun _ h => h.1, htakes.1.2⟩

theorem every_divBase (ha : a.All (C.field.Risks N)) (hx : C.field.Risks N x) :
    (C.divBase a x).Every K N fun c =>
      c.All (C.field.Yields N) ∧ a.All C.field.Takes ∧ C.field.Takes x := by
  refine (hx.every_inverse hK).bind fun w ⟨hw, htx⟩ => ?_
  exact (every_mulBase hK ha hw.risks).imp fun _ ⟨hc, hta, _⟩ => ⟨hc, hta, htx⟩

theorem every_addBase (ha : C.field.Risks N a.c0) (hx : C.field.Risks N x) :
    (C.addBase a x).Every K N fun c =>
      (C.field.Yields N c.c0 ∧ c.c1 = a.c1 ∧ c.c2 = a.c2 ∧ c.c3 = a.c3) ∧
        C.field.Takes a.c0 ∧ C.field.Takes x :=
  (ha.every_add hx (hK _)).bind fun _ ⟨h0, htakes⟩ => ⟨⟨h0, rfl, rfl, rfl⟩, htakes⟩

theorem every_subBase (ha : C.field.Risks N a.c0) (hx : C.field.Risks N x) :
    (C.subBase a x).Every K N fun c =>
      (C.field.Yields N c.c0 ∧ c.c1 = a.c1 ∧ c.c2 = a.c2 ∧ c.c3 = a.c3) ∧
        C.field.Takes a.c0 ∧ C.field.Takes x :=
  (ha.every_sub hx (hK _)).bind fun _ ⟨h0, htakes⟩ => ⟨⟨h0, rfl, rfl, rfl⟩, htakes⟩

/-! ### Inverses of extension values -/

/-- The product with the inverse is compared with a one over BN254, which is an
argument like the others. -/
theorem every_invExt (ha : a.All (C.field.Risks N)) (hone : oneExt.All (C.field.Risks N)) :
    (C.invExt a).Every K N fun w =>
      w.All (C.field.Yields N) ∧ a.All C.field.Takes ∧ oneExt.All C.field.Takes := by
  have hwitness (z : Quartic BabyBear) : (do
      let w ← z.mapM fun (c : BabyBear) => C.field.witness c.val
      let product ← C.mulExt a w
      C.assertEqualExt product oneExt
      return w).Every K N fun w =>
        w.All (C.field.Yields N) ∧ a.All C.field.Takes ∧ oneExt.All C.field.Takes := by
    have hguess : (z.mapM fun c => C.field.witness c.val).Every K N C.OwnsExt :=
      Quartic.every_mapM (P := fun _ => True) (fun (c : BabyBear) _ => every_witness c.val (hK _))
        ⟨trivial, trivial, trivial, trivial⟩
    refine hguess.bind fun w hw => ?_
    refine (every_mulExt hK ha (hw.imp fun _ => Owns.risks)).bind
      fun product ⟨hproduct, hta, _⟩ => ?_
    refine (every_assertEqualExt hK (hproduct.imp fun _ => Yields.risks) hone).bind
      fun _ ⟨_, htone⟩ => ?_
    exact ⟨hw.imp fun _ => Owns.yields, hta, htone⟩
  have hresidues : (a.mapM fun c => do
      let reduced ← C.field.reduce c
      Circuit.ofExcept reduced.native.toInt).Every K N fun r => r.All fun _ => True :=
    Quartic.every_mapM (fun _ hc => (hc.every_reduce (hK _)).bind
      fun _ hreduced => (hreduced.risks hc).native.every_toInt) ha
  refine hresidues.bind fun residues _ => ?_
  dsimp only
  split
  · exact hwitness _
  · exact hwitness _

theorem every_divExt (ha : a.All (C.field.Risks N)) (hb : b.All (C.field.Risks N))
    (hone : oneExt.All (C.field.Risks N)) :
    (C.divExt a b).Every K N fun c => c.All (C.field.Yields N) ∧ a.All C.field.Takes ∧
      b.All C.field.Takes ∧ oneExt.All C.field.Takes := by
  refine (every_invExt hK hb hone).bind fun w ⟨hw, htb, htone⟩ => ?_
  exact (every_mulExt hK ha (hw.imp fun _ => Yields.risks)).imp
    fun _ ⟨hc, hta, _⟩ => ⟨hc, hta, htb, htone⟩

end Gadgets

end Chip

end NonNative
