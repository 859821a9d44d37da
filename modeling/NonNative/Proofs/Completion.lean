import NonNative.Proofs.Refusal

/-!
Gadgets on values of their own native field. Whatever the numbers are, and
whatever the prover answers, such a gadget runs to its end, returns values of the
field again, and records only constraints that can be judged. The exception is
the inverse of an extension value: its product is compared with a one over BN254,
which another field refuses.
-/

namespace NonNative

open Circuit

/-- Every run ends with a result with property `P`, and all that is recorded can be
judged. -/
abbrev Circuit.Completes {α : Type} (c : Circuit α) (P : α → Prop) : Prop :=
  c.Every Constraint.IsJudged (fun _ => False) P

theorem Circuit.Completes.exists_result {α : Type} {c : Circuit α} {P : α → Prop}
    (h : c.Completes P) : ∃ a, c.run.result = .ok a ∧ P a := by
  rcases Every.result h with hresult | ⟨_, _, hfalse⟩
  · exact hresult
  · exact hfalse.elim

theorem NativeField.admits_isJudged (F : NativeField) (label : String) :
    F.Admits label Constraint.IsJudged := fun _ _ hjudged _ => hjudged

/-! ### Elements -/

namespace EmulatedField

open NativeField

variable {E : EmulatedField} {a b : Element} {operand : Operand}

theorem completes_ofNative (h : E.native.Owns operand) : (E.ofNative operand).Completes E.Owns :=
  (every_ofNative h.risks (admits_isJudged _ _)).imp fun _ hc => hc.1

theorem completes_canonical (h : E.native.Owns operand) (label : String) :
    (E.canonical operand label).Completes E.Owns :=
  (every_canonical h.risks (admits_isJudged _ _)).imp fun _ hc => hc.1

theorem completes_witness (n : ℤ) : (E.witness n).Completes E.Owns :=
  every_witness n (admits_isJudged _ _)

theorem completes_remainder (h : E.native.Owns operand) (bound : ℤ) (label : String) :
    (E.remainder operand bound label).Completes E.Owns :=
  (every_remainder h.risks bound (admits_isJudged _ _)).imp fun _ hc => hc.1

theorem completes_reduce (h : E.Owns a) : (E.reduce a).Completes E.Owns :=
  (h.risks.every_reduce (admits_isJudged _ _)).imp fun _ hr => hr.owns h

theorem completes_add (ha : E.Owns a) (hb : E.Owns b) : (E.add a b).Completes E.Owns :=
  (ha.risks.every_add hb.risks (admits_isJudged _ _)).imp fun _ hc => hc.1.owns

theorem completes_neg (ha : E.Owns a) : (E.neg a).Completes E.Owns :=
  (ha.risks.every_neg (admits_isJudged _ _)).imp fun _ hc => hc.1.owns

theorem completes_sub (ha : E.Owns a) (hb : E.Owns b) : (E.sub a b).Completes E.Owns :=
  (ha.risks.every_sub hb.risks (admits_isJudged _ _)).imp fun _ hc => hc.1.owns

theorem completes_mul (ha : E.Owns a) (hb : E.Owns b) : (E.mul a b).Completes E.Owns :=
  (ha.risks.every_mul hb.risks (admits_isJudged _ _)).imp fun _ hc => hc.1

theorem completes_elementsEqual (ha : E.Owns a) (hb : E.Owns b) (label : String) :
    (E.assertEqual a b label).Completes fun _ => True :=
  (ha.risks.every_assertEqual (admits_isJudged _) hb.risks).imp fun _ _ => trivial

theorem completes_inverse (ha : E.Owns a) : (E.inverse a).Completes E.Owns :=
  (ha.risks.every_inverse (admits_isJudged _)).imp fun _ hc => hc.1

theorem completes_select {cond : Operand} (hcond : E.native.Owns cond) (ha : E.Owns a)
    (hb : E.Owns b) : (E.select cond a b).Completes E.Owns :=
  (ha.risks.every_select hcond.risks hb.risks (fun l hl => (ha.limbs l hl).risks)
    fun l hl => (hb.limbs l hl).risks).imp fun _ hc => hc.1.owns

theorem completes_elementIsZero (ha : E.Owns a) : (E.isZero a).Completes E.native.Contains :=
  (ha.risks.every_isZero (admits_isJudged _)).imp fun _ hs => hs.1

theorem completes_elementBits (ha : E.Owns a) :
    (E.toBits a).Completes fun bs => ∀ b ∈ bs, E.native.Contains b :=
  (ha.risks.every_toBits (admits_isJudged _)).imp fun _ hs => hs.1

end EmulatedField

/-! ### Extension values -/

namespace Chip

open EmulatedField NativeField

variable {C : Chip} {a b : ExtensionValue} {x y : Element}

theorem OwnsExt.toList (ha : C.OwnsExt a) : ∀ x ∈ a.toList, C.field.Owns x :=
  Quartic.all_iff_forall_mem.1 ha

theorem OwnsExt.risks {N : Fault → Prop} (ha : C.OwnsExt a) : a.All (C.field.Risks N) :=
  ha.imp fun _ => Owns.risks

theorem ownsExt_of_yields (ha : a.All (C.field.Yields fun _ => False)) : C.OwnsExt a :=
  ha.imp fun _ => Yields.owns

theorem ownsExt_ofBase (hx : C.field.Owns x) : C.OwnsExt (C.ofBase x) :=
  ⟨hx, C.field.owns_constant 0, C.field.owns_constant 0, C.field.owns_constant 0⟩

theorem completes_assertNotEqual (hx : C.field.Owns x) (hy : C.field.Owns y) :
    (C.assertNotEqual x y).Completes fun _ => True :=
  (every_assertNotEqual (admits_isJudged _) hx.risks hy.risks).imp fun _ _ => trivial

theorem completes_unpack {operand : Operand} (h : C.native.Owns operand) :
    (C.unpack operand).Completes fun l => ∀ x ∈ l, C.field.Owns x :=
  every_unpack (admits_isJudged _) h.risks

theorem completes_print (hx : C.field.Owns x) : (print x).Completes fun _ => True :=
  hx.risks.native.every_toInt.bind fun _ _ => trivial

theorem completes_printExt (ha : C.OwnsExt a) : (printExt a).Completes fun _ => True := by
  obtain ⟨h0, h1, h2, h3⟩ := ha
  exact (completes_print h0).bind fun _ _ => (completes_print h1).bind fun _ _ =>
    (completes_print h2).bind fun _ _ => completes_print h3

theorem completes_mulExt (ha : C.OwnsExt a) (hb : C.OwnsExt b) :
    (C.mulExt a b).Completes C.OwnsExt :=
  (every_mulExt (admits_isJudged _) ha.risks hb.risks).imp fun _ hc => ownsExt_of_yields hc.1

theorem completes_assertEqualExt (ha : C.OwnsExt a) (hb : C.OwnsExt b) :
    (C.assertEqualExt a b).Completes fun _ => True :=
  (every_assertEqualExt (admits_isJudged _) ha.risks hb.risks).imp fun _ _ => trivial

theorem completes_assertNotEqualExt (ha : C.OwnsExt a) (hb : C.OwnsExt b) :
    (C.assertNotEqualExt a b).Completes fun _ => True :=
  (every_assertNotEqualExt (admits_isJudged _) ha.risks hb.risks).imp fun _ _ => trivial

theorem completes_addExt (ha : C.OwnsExt a) (hb : C.OwnsExt b) :
    (C.addExt a b).Completes C.OwnsExt :=
  (every_addExt (admits_isJudged _) ha.risks hb.risks).imp fun _ hc => ownsExt_of_yields hc.1

theorem completes_subExt (ha : C.OwnsExt a) (hb : C.OwnsExt b) :
    (C.subExt a b).Completes C.OwnsExt :=
  (every_subExt (admits_isJudged _) ha.risks hb.risks).imp fun _ hc => ownsExt_of_yields hc.1

theorem completes_negExt (ha : C.OwnsExt a) : (C.negExt a).Completes C.OwnsExt :=
  (every_negExt (admits_isJudged _) ha.risks).imp fun _ hc => ownsExt_of_yields hc.1

theorem completes_selectExt {cond : Operand} (hcond : C.native.Owns cond) (ha : C.OwnsExt a)
    (hb : C.OwnsExt b) : (C.selectExt cond a b).Completes C.OwnsExt := by
  have hparts {N : Fault → Prop} (x : Element) (hx : C.field.Owns x) :
      C.field.Risks N x ∧ ∀ l ∈ x.limbs, C.native.Risks N l :=
    ⟨hx.risks, fun l hl => (hx.limbs l hl).risks⟩
  exact (every_selectExt hcond.risks (ha.imp hparts) (hb.imp hparts)).imp
    fun _ hc => ownsExt_of_yields hc.1

theorem completes_mulBase (ha : C.OwnsExt a) (hx : C.field.Owns x) :
    (C.mulBase a x).Completes C.OwnsExt :=
  (every_mulBase (admits_isJudged _) ha.risks hx.risks).imp fun _ hc => ownsExt_of_yields hc.1

theorem completes_divBase (ha : C.OwnsExt a) (hx : C.field.Owns x) :
    (C.divBase a x).Completes C.OwnsExt :=
  (every_divBase (admits_isJudged _) ha.risks hx.risks).imp fun _ hc => ownsExt_of_yields hc.1

theorem completes_addBase (ha : C.OwnsExt a) (hx : C.field.Owns x) :
    (C.addBase a x).Completes C.OwnsExt := by
  refine (every_addBase (admits_isJudged _) ha.1.risks hx.risks).imp ?_
  rintro ⟨c0, _, _, _⟩ ⟨⟨h0, rfl, rfl, rfl⟩, -⟩
  exact ⟨h0.owns, ha.2⟩

theorem completes_subBase (ha : C.OwnsExt a) (hx : C.field.Owns x) :
    (C.subBase a x).Completes C.OwnsExt := by
  refine (every_subBase (admits_isJudged _) ha.1.risks hx.risks).imp ?_
  rintro ⟨c0, _, _, _⟩ ⟨⟨h0, rfl, rfl, rfl⟩, -⟩
  exact ⟨h0.owns, ha.2⟩

/-! ### Inverses of extension values -/

theorem completes_invExt (h : C.native.order = bn254.order) (ha : C.OwnsExt a) :
    (C.invExt a).Completes C.OwnsExt := by
  obtain rfl := C.eq_overBn254 h
  exact (every_invExt (admits_isJudged _) ha.risks (ownsExt_extensionConstant _).risks).imp
    fun _ hc => ownsExt_of_yields hc.1

theorem completes_divExt (h : C.native.order = bn254.order) (ha : C.OwnsExt a)
    (hb : C.OwnsExt b) : (C.divExt a b).Completes C.OwnsExt :=
  (completes_invExt h hb).bind fun _ hw => completes_mulExt ha hw

/-- The fault of a system that meets a value of BN254 and is over another field. -/
def foreignOne (C : Chip) : Fault := .foreignValue C.native.order bn254.order

theorem accept_constant (h : C.native.order ≠ bn254.order) (n : ℤ) :
    C.native.accept (constant n).native = .refuse C.foreignOne := if_neg h.symm

theorem risks_constant (h : C.native.order ≠ bn254.order) (n : ℤ) :
    C.field.Risks (· = C.foreignOne) (constant n) where
  native := by
    intro fault hfault
    rw [show C.field.native.accept _ = _ from accept_constant h n] at hfault
    exact (Circuit.refuse.inj hfault).symm
  overflow hneg := absurd hneg (lt_irrefl _)

theorem not_takes_constant (h : C.native.order ≠ bn254.order) (n : ℤ) :
    ¬ C.field.Takes (constant n) := by
  rintro ⟨s, hs⟩
  rw [show C.field.native.accept _ = _ from accept_constant h n] at hs
  cases hs

theorem refuses_invExt (h : C.native.order ≠ bn254.order) (ha : C.OwnsExt a) :
    (C.invExt a).Every Constraint.IsJudged (· = C.foreignOne) fun _ => False := by
  have hone : oneExt.All (C.field.Risks (· = C.foreignOne)) :=
    ⟨risks_constant h 1, risks_constant h 0, risks_constant h 0, risks_constant h 0⟩
  exact (every_invExt (admits_isJudged _) ha.risks hone).imp
    fun _ hw => not_takes_constant h 1 hw.2.2.1

theorem refuses_divExt (h : C.native.order ≠ bn254.order) (hb : C.OwnsExt b) :
    (C.divExt a b).Every Constraint.IsJudged (· = C.foreignOne) fun _ => False :=
  (refuses_invExt h hb).bind fun _ hfalse => hfalse.elim

end Chip

end NonNative
