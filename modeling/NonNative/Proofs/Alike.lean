import NonNative.Proofs.ExtensionArithmetic
import NonNative.Proofs.Program

/-!
Circuits of the same shape. Two circuits are alike if they record the same kinds
of constraints under the same labels, ask the same questions, refuse for the
same cause and return related values, whatever the prover answers on either
side; what they say may differ. Values are alike if they belong to the same
field, elements if overflow and number of limbs agree. Every gate and every
gadget turns alike arguments into alike circuits: its branches look at overflow
and limbs, never at a value.
-/

namespace NonNative

/-! ### Relations kept by sequencing -/

namespace MonadRelation

variable {m n : Type → Type} [Monad m] [Monad n] (Γ : MonadRelation m n)
  {α β γ δ ε ζ : Type} {R : α → β → Prop} {S : γ → δ → Prop} {T : ε → ζ → Prop}

theorem map [LawfulMonad m] [LawfulMonad n] {x : m α} {y : n β} {f : α → γ} {g : β → δ}
    (h : Γ.Rel R x y) (hf : ∀ a b, R a b → S (f a) (g b)) : Γ.Rel S (f <$> x) (g <$> y) := by
  rw [map_eq_pure_bind, map_eq_pure_bind]
  exact Γ.bind h fun a b hab => Γ.pure (hf a b hab)

theorem mono [LawfulMonad m] [LawfulMonad n] {x : m α} {y : n β} {R' : α → β → Prop}
    (h : Γ.Rel R x y) (hR : ∀ a b, R a b → R' a b) : Γ.Rel R' x y := by
  rw [← bind_pure x, ← bind_pure y]
  exact Γ.bind h fun a b hab => Γ.pure (hR a b hab)

theorem mapM [LawfulMonad m] [LawfulMonad n] {f : α → m γ} {g : β → n δ} {l : List α}
    {l' : List β} (hl : List.Forall₂ R l l') (hf : ∀ a b, R a b → Γ.Rel S (f a) (g b)) :
    Γ.Rel (List.Forall₂ S) (l.mapM f) (l'.mapM g) := by
  induction hl with
  | nil => exact Γ.pure .nil
  | cons hab _ ih =>
      rw [List.mapM_cons, List.mapM_cons]
      exact Γ.bind (hf _ _ hab) fun _ _ hcd => Γ.bind ih fun _ _ hrest => Γ.pure (.cons hcd hrest)

theorem forM {f : α → m PUnit} {g : β → n PUnit} {l : List α} {l' : List β}
    (hl : List.Forall₂ R l l') (hf : ∀ a b, R a b → Γ.Rel Eq (f a) (g b)) :
    Γ.Rel Eq (l.forM f) (l'.forM g) := by
  induction hl with
  | nil => exact Γ.pure rfl
  | cons hab _ ih => exact Γ.bind (hf _ _ hab) fun _ _ _ => ih

theorem foldlM {f : γ → α → m γ} {g : δ → β → n δ} {l : List α} {l' : List β}
    (hl : List.Forall₂ R l l') (hf : ∀ c d a b, S c d → R a b → Γ.Rel S (f c a) (g d b)) :
    ∀ {c d}, S c d → Γ.Rel S (l.foldlM f c) (l'.foldlM g d) := by
  induction hl with
  | nil => exact fun hcd => Γ.pure hcd
  | cons hab _ ih =>
      intro c d hcd
      rw [List.foldlM_cons, List.foldlM_cons]
      exact Γ.bind (hf _ _ _ _ hcd hab) fun _ _ hcd => ih hcd

theorem zipWithQuartic {f : α → γ → m ε} {g : β → δ → n ζ} {a : Quartic α} {a' : Quartic β}
    {b : Quartic γ} {b' : Quartic δ} (ha : a.Rel R a') (hb : b.Rel S b')
    (hf : ∀ x x' y y', R x x' → S y y' → Γ.Rel T (f x y) (g x' y')) :
    Γ.Rel (Quartic.Rel T) (a.zipWithM f b) (a'.zipWithM g b') :=
  Γ.bind (hf _ _ _ _ ha.c0 hb.c0) fun _ _ h0 => Γ.bind (hf _ _ _ _ ha.c1 hb.c1) fun _ _ h1 =>
    Γ.bind (hf _ _ _ _ ha.c2 hb.c2) fun _ _ h2 => Γ.bind (hf _ _ _ _ ha.c3 hb.c3) fun _ _ h3 =>
      Γ.pure ⟨h0, h1, h2, h3⟩

theorem mapQuartic {f : α → m γ} {g : β → n δ} {a : Quartic α} {a' : Quartic β} (ha : a.Rel R a')
    (hf : ∀ x x', R x x' → Γ.Rel S (f x) (g x')) :
    Γ.Rel (Quartic.Rel S) (a.mapM f) (a'.mapM g) :=
  Γ.zipWithQuartic (f := fun x _ => f x) (g := fun x _ => g x) ha ha fun _ _ _ _ h _ => hf _ _ h

end MonadRelation

/-- Both computations succeed with related values, or both fail for the same
cause. -/
inductive SameOutcome {α β : Type} (R : α → β → Prop) : Except Fault α → Except Fault β → Prop where
  | ok {a b} (h : R a b) : SameOutcome R (.ok a) (.ok b)
  | error (fault : Fault) : SameOutcome R (.error fault) (.error fault)

namespace SameOutcome

variable {α β γ δ : Type} {R : α → β → Prop} {S : γ → δ → Prop}

theorem refl {R : α → α → Prop} (hR : ∀ a, R a a) (x : Except Fault α) : SameOutcome R x x := by
  cases x with
  | ok a => exact .ok (hR a)
  | error fault => exact .error fault

theorem bind {x : Except Fault α} {y : Except Fault β} {f : α → Except Fault γ}
    {g : β → Except Fault δ} (h : SameOutcome R x y)
    (hf : ∀ a b, R a b → SameOutcome S (f a) (g b)) : SameOutcome S (x >>= f) (y >>= g) := by
  cases h with
  | ok hab => exact hf _ _ hab
  | error fault => exact .error fault

def relation : MonadRelation (Except Fault) (Except Fault) := ⟨SameOutcome, .ok, .bind⟩

end SameOutcome

/-! ### Alike circuits -/

/-- What of a constraint is fixed before any value is known. Only a range has a
width. -/
structure Shape where
  kind : ConstraintKind
  label : String
  width : Option ℤ
  deriving DecidableEq

def Constraint.shape (k : Constraint) : Shape :=
  ⟨k.kind, k.label, if k.kind = .range then k.terms[1]?.map (·.toInt) else none⟩

namespace Circuit

variable {α β γ δ : Type} {R : α → β → Prop} {S : γ → δ → Prop}

/-- The circuits have the same shape and return related values. Messages do not
count, and the answers to a question are unrelated. -/
inductive Alike (R : α → β → Prop) : Circuit α → Circuit β → Prop where
  | done {a b} (h : R a b) : Alike R (.done a) (.done b)
  | refuse (fault : Fault) : Alike R (.refuse fault) (.refuse fault)
  | record {k k' rest rest'} (hk : k.shape = k'.shape) (h : Alike R rest rest') :
      Alike R (.record k rest) (.record k' rest')
  | sayLeft {message rest c'} (h : Alike R rest c') : Alike R (.say message rest) c'
  | sayRight {message c rest'} (h : Alike R c rest') : Alike R c (.say message rest')
  | hint {honest honest' rest rest'} (h : ∀ x y, Alike R (rest x) (rest' y)) :
      Alike R (.hint honest rest) (.hint honest' rest')

theorem Alike.bind {c : Circuit α} {c' : Circuit β} {f : α → Circuit γ} {g : β → Circuit δ}
    (h : Alike R c c') (hf : ∀ a b, R a b → Alike S (f a) (g b)) :
    Alike S (c >>= f) (c' >>= g) := by
  rw [bind_eq, bind_eq]
  induction h with
  | done hab => exact hf _ _ hab
  | refuse fault => exact .refuse fault
  | record hk _ ih => exact .record hk ih
  | sayLeft _ ih => exact .sayLeft ih
  | sayRight _ ih => exact .sayRight ih
  | hint _ ih => exact .hint ih

def alike : MonadRelation Circuit Circuit := ⟨Alike, .done, .bind⟩

theorem alike_ofExcept {x : Except Fault α} {y : Except Fault β} (h : SameOutcome R x y) :
    Alike R (ofExcept x) (ofExcept y) := by
  cases h with
  | ok hab => exact .done hab
  | error fault => exact .refuse fault

theorem alike_assert {k k' : Constraint} (hk : k.shape = k'.shape) :
    Alike Eq (assert k) (assert k') := .record hk (.done rfl)

theorem alike_tell (message message' : Message) : Alike Eq (tell message) (tell message') :=
  .sayLeft (.sayRight (.done rfl))

end Circuit

/-- Two runs recorded constraints of the same shapes and ended in the same way. -/
structure Run.Alike {α β : Type} (R : α → β → Prop) (r : Run α) (r' : Run β) : Prop where
  constraints : r.constraints.map Constraint.shape = r'.constraints.map Constraint.shape
  result : SameOutcome R r.result r'.result

theorem Circuit.Alike.run {α β : Type} {R : α → β → Prop} {c : Circuit α} {c' : Circuit β}
    (h : c.Alike R c') : c.run.Alike R c'.run := by
  induction h with
  | done hab => exact ⟨rfl, .ok hab⟩
  | refuse fault => exact ⟨rfl, .error fault⟩
  | record hk _ ih => exact ⟨congrArg₂ List.cons hk ih.constraints, ih.result⟩
  | sayLeft _ ih => exact ⟨ih.constraints, ih.result⟩
  | sayRight _ ih => exact ⟨ih.constraints, ih.result⟩
  | hint _ ih => exact ih _ _

open Circuit

/-! ### Gates -/

/-- Two values of one field. -/
def Scalar.Alike (s s' : Scalar) : Prop := s.order = s'.order

/-- Operands of one sort, of which at most the number differs. -/
inductive Operand.Alike : Operand → Operand → Prop where
  | scalar {s s'} (h : s.Alike s') : Alike (.scalar s) (.scalar s')
  | int (n n' : ℤ) : Alike (.int n) (.int n')
  | truth (b b' : Bool) : Alike (.truth b) (.truth b')
  | text (s : String) : Alike (.text s) (.text s)

theorem Operand.forall₂_scalar {l l' : List Scalar} (h : List.Forall₂ Scalar.Alike l l') :
    List.Forall₂ Operand.Alike (l.map .scalar) (l'.map .scalar) := by
  rw [List.forall₂_map_left_iff, List.forall₂_map_right_iff]
  exact h.imp fun _ _ => .scalar

theorem Operand.Alike.toInt {a a' : Operand} (h : a.Alike a') :
    SameOutcome (fun _ _ => True) a.toInt a'.toInt := by
  cases h with
  | scalar | int | truth => exact .ok trivial
  | text s => exact .refl (fun _ => trivial) _

namespace NativeField

variable {F : NativeField} {cond cond' a a' b b' : Operand}

theorem alike_accept (ha : a.Alike a') : (F.accept a).Alike Scalar.Alike (F.accept a') := by
  cases ha with
  | @scalar s s' h =>
      rw [accept, accept, show s.order = s'.order from h]
      split
      · exact .done h
      · exact .refuse _
  | int | truth => exact .done rfl
  | text s =>
      rw [accept]
      split
      · exact .done rfl
      · exact .refuse _

section Arithmetic

variable (ha : a.Alike a') (hb : b.Alike b')

include ha

theorem alike_neg : (F.neg a).Alike Scalar.Alike (F.neg a') :=
  (alike_accept ha).bind fun _ _ _ => .done rfl

include hb

theorem alike_add : (F.add a b).Alike Scalar.Alike (F.add a' b') :=
  (alike_accept ha).bind fun _ _ _ => (alike_accept hb).bind fun _ _ _ => .done rfl

theorem alike_sub : (F.sub a b).Alike Scalar.Alike (F.sub a' b') :=
  (alike_accept ha).bind fun _ _ _ => (alike_accept hb).bind fun _ _ _ => .done rfl

theorem alike_mul : (F.mul a b).Alike Scalar.Alike (F.mul a' b') :=
  (alike_accept ha).bind fun _ _ _ => (alike_accept hb).bind fun _ _ _ => .done rfl

theorem alike_select (hcond : cond.Alike cond') :
    (F.select cond a b).Alike Scalar.Alike (F.select cond' a' b') := by
  refine (alike_sub ha hb).bind fun _ _ hdifference => ?_
  refine (alike_mul hcond (.scalar hdifference)).bind fun _ _ hstep => ?_
  exact alike_add hb (.scalar hstep)

theorem alike_assertEqual (label : String) :
    (F.assertEqual a b label).Alike Eq (F.assertEqual a' b' label) :=
  (alike_accept ha).bind fun _ _ _ => (alike_accept hb).bind fun _ _ _ => alike_assert rfl

omit hb in
theorem alike_assertBoolean (label : String) :
    (F.assertBoolean a label).Alike Eq (F.assertBoolean a' label) :=
  (alike_accept ha).bind fun _ _ _ => alike_assert rfl

omit hb in
theorem alike_rangeCheck (width : ℤ) (label : String) :
    (F.rangeCheck a width label).Alike Eq (F.rangeCheck a' width label) :=
  (alike_accept ha).bind fun _ _ _ => alike_assert rfl

theorem alike_and : (F.and a b).Alike Scalar.Alike (F.and a' b') :=
  (alike_assertBoolean ha "and").bind fun _ _ _ => (alike_assertBoolean hb "and").bind
    fun _ _ _ => alike_mul ha hb

end Arithmetic

theorem alike_hint (n n' : ℤ) : (F.hint n).Alike Scalar.Alike (F.hint n') :=
  .hint fun _ _ => .done rfl

theorem alike_hints {ns ns' : List ℕ} (h : ns.length = ns'.length) :
    (F.hints ns).Alike (List.Forall₂ Scalar.Alike) (F.hints ns') := by
  refine alike.mapM (R := fun _ _ => True) ?_ fun n n' _ => alike_hint n n'
  exact List.forall₂_iff_zip.2 ⟨h, fun _ => trivial⟩

theorem alike_isZero (ha : a.Alike a') : (F.isZero a).Alike Scalar.Alike (F.isZero a') := by
  refine (alike_accept ha).bind fun x x' hx => ?_
  refine (alike_hint _ _).bind fun _ _ hy => ?_
  refine (alike_mul (.scalar hx) (.scalar hy)).bind fun _ _ hproduct => ?_
  refine (alike_sub (.int 1 1) (.scalar hproduct)).bind fun _ _ hflag => ?_
  refine (alike_mul (.scalar hx) (.scalar hflag)).bind fun _ _ hresidue => ?_
  exact (alike_assertEqual (.scalar hresidue) (.int 0 0) "is_zero").bind fun _ _ _ => .done hflag

theorem alike_recompose (w : ℕ) {ds ds' : List Operand} (h : List.Forall₂ Operand.Alike ds ds') :
    (F.recompose w ds).Alike Scalar.Alike (F.recompose w ds') :=
  (alike.mapM h fun _ _ => alike_accept).bind fun _ _ _ => .done rfl

theorem alike_toBits (ha : a.Alike a') (width : ℤ) :
    (F.toBits a width).Alike (List.Forall₂ Scalar.Alike) (F.toBits a' width) := by
  refine (alike_accept ha).bind fun x x' hx => ?_
  refine (alike_hints (by simp [NonNative.bits])).bind fun bs bs' hbs => ?_
  refine (alike.forM hbs fun _ _ hb => alike_assertBoolean (.scalar hb) "to_binary").bind
    fun _ _ _ => ?_
  refine (alike_recompose 1 (Operand.forall₂_scalar hbs)).bind fun _ _ hsum => ?_
  exact (alike_assertEqual (.scalar hsum) (.scalar hx) "to_binary").bind fun _ _ _ => .done hbs

end NativeField

/-! ### Elements -/

theorem forall₂_zip_zip {α β γ δ : Type} {R : α → β → Prop} {S : γ → δ → Prop} {l : List α}
    {l' : List β} {k : List γ} {k' : List δ} (hl : List.Forall₂ R l l')
    (hk : List.Forall₂ S k k') :
    List.Forall₂ (fun p p' => R p.1 p'.1 ∧ S p.2 p'.2) (l.zip k) (l'.zip k') := by
  induction hl generalizing k k' with
  | nil => exact .nil
  | cons hab _ ih =>
      cases hk with
      | nil => exact .nil
      | cons hcd hk => exact .cons ⟨hab, hcd⟩ (ih hk)

/-- Elements that differ at most in their numbers. -/
structure Element.Alike (a a' : Element) : Prop where
  native : a.native.Alike a'.native
  overflow : a.overflow = a'.overflow
  limbs : List.Forall₂ Operand.Alike a.limbs a'.limbs

theorem Element.Alike.isCanonical_eq {a a' : Element} (h : a.Alike a') :
    a.isCanonical = a'.isCanonical := by
  have hempty : a.limbs.isEmpty = a'.limbs.isEmpty := by
    rw [Bool.eq_iff_iff, List.isEmpty_iff_length_eq_zero, List.isEmpty_iff_length_eq_zero,
      h.limbs.length_eq]
  rw [isCanonical, isCanonical, hempty]

namespace EmulatedField

variable {E : EmulatedField} {cond cond' v v' : Operand} {a a' b b' : Element}

open NativeField

theorem alike_constant (n n' : ℤ) : (E.constant n).Alike (E.constant n') where
  native := .scalar rfl
  overflow := rfl
  limbs := by
    rw [constant, constant, List.forall₂_map_left_iff, List.forall₂_map_right_iff,
      List.forall₂_iff_zip]
    exact ⟨by simp, fun _ => .scalar rfl⟩

theorem alike_ofNative (hv : v.Alike v') :
    (E.ofNative v).Alike Element.Alike (E.ofNative v') := by
  refine (alike_accept hv).bind fun _ _ hx => ?_
  exact (alike_rangeCheck (.scalar hx) _ "new_element").bind
    fun _ _ _ => .done ⟨.scalar hx, rfl, .nil⟩

theorem alike_canonical (hv : v.Alike v') (label : String) :
    (E.canonical v label).Alike Element.Alike (E.canonical v' label) := by
  refine (alike_accept hv).bind fun _ _ _ => ?_
  refine (alike_hints (by simp)).bind fun _ _ hlimbs => ?_
  refine (alike.forM hlimbs fun _ _ h => alike_rangeCheck (.scalar h) _ label).bind fun _ _ _ => ?_
  refine (alike_recompose _ (Operand.forall₂_scalar hlimbs)).bind fun _ _ hsum => ?_
  refine (alike_assertEqual (.scalar hsum) hv label).bind fun _ _ _ => ?_
  refine (alike_sub (.int _ _) hv).bind fun _ _ hgap => ?_
  exact (alike_rangeCheck (.scalar hgap) _ label).bind
    fun _ _ _ => .done ⟨hv, rfl, Operand.forall₂_scalar hlimbs⟩

theorem alike_witness (n n' : ℤ) : (E.witness n).Alike Element.Alike (E.witness n') :=
  (alike_hint _ _).bind fun _ _ hx => alike_canonical (.scalar hx) "new_witness"

theorem alike_remainder (hv : v.Alike v') (bound : ℤ) (label : String) :
    (E.remainder v bound label).Alike Element.Alike (E.remainder v' bound label) := by
  refine (alike_accept hv).bind fun _ _ _ => ?_
  refine (alike_hint _ _).bind fun _ _ hq => ?_
  refine (alike_hint _ _).bind fun _ _ hr => ?_
  refine (alike_rangeCheck (.scalar hq) _ label).bind fun _ _ _ => ?_
  refine (alike_canonical (.scalar hr) label).bind fun _ _ hreduced => ?_
  refine (alike_mul (.scalar hq) (.int _ _)).bind fun _ _ hmultiple => ?_
  refine (alike_add (.scalar hmultiple) (.scalar hr)).bind fun _ _ htotal => ?_
  exact (alike_assertEqual hv (.scalar htotal) label).bind fun _ _ _ => .done hreduced

theorem boundBits_eq (ha : a.Alike a') : E.boundBits a = E.boundBits a' := by
  rw [boundBits, boundBits, ha.overflow]

theorem paddingMultiple_eq (ha : a.Alike a') : E.paddingMultiple a = E.paddingMultiple a' := by
  rw [paddingMultiple, paddingMultiple, boundBits_eq ha]

section Gadgets

variable (ha : a.Alike a') (hb : b.Alike b')

include ha

theorem alike_reduce : (E.reduce a).Alike Element.Alike (E.reduce a') := by
  rw [reduce, reduce, ha.isCanonical_eq, boundBits_eq ha]
  split
  · exact .done ha
  · exact alike_remainder ha.native _ "reduce"

theorem alike_withRoom : (E.withRoom a).Alike Element.Alike (E.withRoom a') := by
  rw [withRoom, withRoom, ha.overflow]
  split
  · exact alike_reduce ha
  · exact .done ha

theorem alike_negated : (E.negated a).Alike Scalar.Alike (E.negated a') := by
  rw [negated, negated, paddingMultiple_eq ha]
  cases E.paddingMultiple a' with
  | ok multiple => exact alike_sub (.int _ _) ha.native
  | error fault => exact .refuse fault

theorem alike_neg : (E.neg a).Alike Element.Alike (E.neg a') := by
  refine (alike_withRoom ha).bind fun _ _ ha => ?_
  exact (alike_negated ha).bind
    fun _ _ hs => .done ⟨.scalar hs, congrArg (· + 1) ha.overflow, .nil⟩

theorem alike_isZero : (E.isZero a).Alike Scalar.Alike (E.isZero a') :=
  (alike_reduce ha).bind fun _ _ ha => NativeField.alike_isZero ha.native

theorem alike_toBits : (E.toBits a).Alike (List.Forall₂ Scalar.Alike) (E.toBits a') :=
  (alike_reduce ha).bind fun _ _ ha => NativeField.alike_toBits ha.native _

include hb

theorem alike_add : (E.add a b).Alike Element.Alike (E.add a' b') := by
  refine (alike_withRoom ha).bind fun _ _ ha => ?_
  refine (alike_withRoom hb).bind fun _ _ hb => ?_
  refine (NativeField.alike_add ha.native hb.native).bind
    fun _ _ hsum => .done ⟨.scalar hsum, ?_, .nil⟩
  rw [ha.overflow, hb.overflow]

theorem alike_sub : (E.sub a b).Alike Element.Alike (E.sub a' b') := by
  refine (alike_withRoom ha).bind fun _ _ ha => ?_
  refine (alike_withRoom hb).bind fun _ _ hb => ?_
  refine (alike_negated hb).bind fun _ _ hminus => ?_
  refine (NativeField.alike_add ha.native (.scalar hminus)).bind
    fun _ _ hs => .done ⟨.scalar hs, ?_, .nil⟩
  rw [ha.overflow, hb.overflow]

theorem alike_mul : (E.mul a b).Alike Element.Alike (E.mul a' b') := by
  refine (NativeField.alike_mul ha.native hb.native).bind fun _ _ hproduct => ?_
  rw [boundBits_eq ha, boundBits_eq hb]
  exact alike_remainder (.scalar hproduct) _ "mul"

theorem alike_assertEqual (label : String) :
    (E.assertEqual a b label).Alike Eq (E.assertEqual a' b' label) :=
  (alike_reduce ha).bind fun _ _ ha => (alike_reduce hb).bind
    fun _ _ hb => NativeField.alike_assertEqual ha.native hb.native label

omit hb in
theorem alike_inverse : (E.inverse a).Alike Element.Alike (E.inverse a') := by
  refine (alike_reduce ha).bind fun _ _ ha => ?_
  refine (alike_ofExcept ha.native.toInt).bind fun _ _ _ => ?_
  refine (alike_witness _ _).bind fun _ _ hw => ?_
  refine (alike_mul ha hw).bind fun _ _ hproduct => ?_
  exact (alike_assertEqual hproduct (alike_constant 1 1) "inverse").bind fun _ _ _ => .done hw

theorem alike_select (hcond : cond.Alike cond') :
    (E.select cond a b).Alike Element.Alike (E.select cond' a' b') := by
  refine (NativeField.alike_select ha.native hb.native hcond).bind fun _ _ hnative => ?_
  rw [ha.isCanonical_eq, hb.isCanonical_eq, ha.overflow, hb.overflow]
  dsimp only
  -- limbs are kept on both sides or on none
  split
  · have hselect : ((a.limbs.zip b.limbs).mapM fun x => E.native.select cond x.1 x.2).Alike
        (List.Forall₂ Scalar.Alike)
        ((a'.limbs.zip b'.limbs).mapM fun x => E.native.select cond' x.1 x.2) :=
      alike.mapM (forall₂_zip_zip ha.limbs hb.limbs)
        fun _ _ h => NativeField.alike_select h.1 h.2 hcond
    exact hselect.bind
      fun _ _ hlimbs => .done ⟨.scalar hnative, rfl, Operand.forall₂_scalar hlimbs⟩
  · exact .done ⟨.scalar hnative, rfl, .nil⟩

end Gadgets

end EmulatedField

/-! ### The chip -/

/-- Extension values that differ at most in their numbers. -/
abbrev ExtensionValue.Alike (a a' : ExtensionValue) : Prop := Quartic.Rel Element.Alike a a'

namespace Chip

variable {C : Chip} {cond cond' : Operand} {x x' y y' : Element} {a a' b b' : ExtensionValue}

open EmulatedField

theorem alike_constant (n n' : ℤ) : (constant n).Alike (constant n') :=
  EmulatedField.alike_constant n n'

theorem alike_extensionConstant (l l' : Quartic ℤ) :
    ExtensionValue.Alike (extensionConstant l) (extensionConstant l') :=
  ⟨alike_constant _ _, alike_constant _ _, alike_constant _ _, alike_constant _ _⟩

theorem alike_ofBase (hx : x.Alike x') : ExtensionValue.Alike (C.ofBase x) (C.ofBase x') :=
  ⟨hx, EmulatedField.alike_constant 0 0, EmulatedField.alike_constant 0 0,
    EmulatedField.alike_constant 0 0⟩

theorem alike_assertNotEqual (hx : x.Alike x') (hy : y.Alike y') :
    (C.assertNotEqual x y).Alike Eq (C.assertNotEqual x' y') := by
  refine (alike_sub hx hy).bind fun _ _ hdifference => ?_
  refine (alike_isZero hdifference).bind fun _ _ hflag => ?_
  exact NativeField.alike_assertEqual (.scalar hflag) (.int 0 0) "assert_not_equal"

theorem forall₂_chunks {α β : Type} {R : α → β → Prop} {l : List α} {l' : List β}
    (h : List.Forall₂ R l l') (w n : ℕ) :
    List.Forall₂ (List.Forall₂ R) (chunks w n l) (chunks w n l') := by
  induction n generalizing l l' with
  | zero => exact .nil
  | succ n ih => exact .cons (List.forall₂_take w h) (ih (List.forall₂_drop w h))

theorem alike_unpack {v v' : Operand} (hv : v.Alike v') :
    (C.unpack v).Alike (List.Forall₂ Element.Alike) (C.unpack v') := by
  refine (NativeField.alike_toBits hv _).bind fun _ _ hbits => ?_
  refine alike.mapM (forall₂_chunks hbits _ _) fun _ _ hchunk => ?_
  refine (NativeField.alike_recompose 1 (Operand.forall₂_scalar hchunk)).bind fun _ _ hx => ?_
  exact alike_ofNative (.scalar hx)

theorem alike_print (hx : x.Alike x') : (print x).Alike Eq (print x') :=
  (alike_ofExcept hx.native.toInt).bind fun _ _ _ => alike_tell _ _

theorem alike_addMultiples {f f' : Element → Circuit Element}
    (hf : ∀ y y', y.Alike y' → (f y).Alike Element.Alike (f' y'))
    {cs cs' ys ys' : List Element} (hcs : List.Forall₂ Element.Alike cs cs')
    (hys : List.Forall₂ Element.Alike ys ys') :
    (C.addMultiples f cs ys).Alike (List.Forall₂ Element.Alike) (C.addMultiples f' cs' ys') := by
  induction hcs generalizing ys ys' with
  | nil => exact .done .nil
  | cons hc hcs ih =>
      cases hys with
      | nil => exact .done (.cons hc hcs)
      | cons hy hys =>
          refine (hf _ _ hy).bind fun _ _ hproduct => ?_
          refine (alike_add hc hproduct).bind fun _ _ hsum => ?_
          exact (ih hys).bind fun _ _ hrest => .done (.cons hsum hrest)

theorem alike_addProduct {acc acc' xs xs' ys ys' : List Element}
    (hacc : List.Forall₂ Element.Alike acc acc') (hxs : List.Forall₂ Element.Alike xs xs')
    (hys : List.Forall₂ Element.Alike ys ys') :
    (C.addProduct acc xs ys).Alike (List.Forall₂ Element.Alike) (C.addProduct acc' xs' ys') := by
  induction hxs generalizing acc acc' with
  | nil =>
      rw [addProduct, addProduct]
      exact .done hacc
  | cons hx _ ih =>
      rw [addProduct, addProduct]
      refine (alike_addMultiples (fun _ _ => alike_mul hx) hacc hys).bind fun row row' hrow => ?_
      cases hrow with
      | nil => exact .done .nil
      | cons hc hrest => exact (ih hrest).bind fun _ _ hsum => .done (.cons hc hsum)

theorem alike_ofListD {d d' : Element} (hd : d.Alike d') {l l' : List Element}
    (hl : List.Forall₂ Element.Alike l l') :
    ExtensionValue.Alike (.ofListD d l) (.ofListD d' l') := by
  have hentry (i : ℕ) : (l.getD i d).Alike (l'.getD i d') := by
    induction hl generalizing i with
    | nil => exact hd
    | cons hhead _ ih =>
        cases i with
        | zero => exact hhead
        | succ i => exact ih i
  exact ⟨hentry 0, hentry 1, hentry 2, hentry 3⟩

section Extension

variable (ha : a.Alike a') (hb : b.Alike b') (hx : x.Alike x')

include ha

theorem alike_negExt : (C.negExt a).Alike ExtensionValue.Alike (C.negExt a') :=
  alike.mapQuartic ha fun _ _ => alike_neg

theorem alike_printExt : (printExt a).Alike Eq (printExt a') :=
  (alike_print ha.c0).bind fun _ _ _ => (alike_print ha.c1).bind fun _ _ _ =>
    (alike_print ha.c2).bind fun _ _ _ => alike_print ha.c3

include hb

theorem alike_addExt : (C.addExt a b).Alike ExtensionValue.Alike (C.addExt a' b') :=
  alike.zipWithQuartic ha hb fun _ _ _ _ => alike_add

theorem alike_subExt : (C.subExt a b).Alike ExtensionValue.Alike (C.subExt a' b') :=
  alike.zipWithQuartic ha hb fun _ _ _ _ => alike_sub

theorem alike_selectExt (hcond : cond.Alike cond') :
    (C.selectExt cond a b).Alike ExtensionValue.Alike (C.selectExt cond' a' b') :=
  alike.zipWithQuartic ha hb fun _ _ _ _ hx hy => alike_select hx hy hcond

theorem alike_mulExt : (C.mulExt a b).Alike ExtensionValue.Alike (C.mulExt a' b') := by
  have hzero : C.field.zero.Alike C.field.zero := EmulatedField.alike_constant 0 0
  have hzeros : List.Forall₂ Element.Alike (List.replicate 7 C.field.zero)
      (List.replicate 7 C.field.zero) := by
    rw [List.forall₂_same]
    intro c hc
    rwa [List.eq_of_mem_replicate hc]
  refine (alike_addProduct hzeros ha.toList hb.toList).bind fun _ _ hproduct => ?_
  refine (alike_addMultiples (fun _ _ hy => alike_mul hy (EmulatedField.alike_constant _ _))
    (List.forall₂_take 4 hproduct) (List.forall₂_drop 4 hproduct)).bind fun _ _ hfolded => ?_
  exact .done (alike_ofListD hzero hfolded)

theorem alike_assertEqualExt : (C.assertEqualExt a b).Alike Eq (C.assertEqualExt a' b') :=
  (alike_assertEqual ha.c0 hb.c0 _).bind fun _ _ _ => (alike_assertEqual ha.c1 hb.c1 _).bind
    fun _ _ _ => (alike_assertEqual ha.c2 hb.c2 _).bind fun _ _ _ => alike_assertEqual ha.c3 hb.c3 _

theorem alike_assertNotEqualExt :
    (C.assertNotEqualExt a b).Alike Eq (C.assertNotEqualExt a' b') := by
  refine (alike.zipWithQuartic (T := Scalar.Alike) ha hb fun _ _ _ _ hx hy =>
    (alike_sub hx hy).bind fun _ _ => alike_isZero).bind fun _ _ hflags => ?_
  refine (NativeField.alike_and (.scalar hflags.c0) (.scalar hflags.c1)).bind fun _ _ hlow => ?_
  refine (NativeField.alike_and (.scalar hflags.c2) (.scalar hflags.c3)).bind fun _ _ hhigh => ?_
  refine (NativeField.alike_and (.scalar hlow) (.scalar hhigh)).bind fun _ _ hall => ?_
  exact NativeField.alike_assertEqual (.scalar hall) (.int 0 0) "assert_not_equal_e"

omit hb in
/-- The notice about an inverse of zero is the only thing that a value decides. -/
theorem alike_invExt : (C.invExt a).Alike ExtensionValue.Alike (C.invExt a') := by
  have hguess (inverse inverse' : Quartic BabyBear) :
      (do
        let w ← inverse.mapM fun (c : BabyBear) => C.field.witness c.val
        let product ← C.mulExt a w
        C.assertEqualExt product oneExt
        return w).Alike ExtensionValue.Alike
      (do
        let w ← inverse'.mapM fun (c : BabyBear) => C.field.witness c.val
        let product ← C.mulExt a' w
        C.assertEqualExt product oneExt
        return w) := by
    have hall : inverse.Rel (fun _ _ => True) inverse' := ⟨trivial, trivial, trivial, trivial⟩
    refine (alike.mapQuartic hall fun _ _ _ => alike_witness _ _).bind fun _ _ hw => ?_
    refine (alike_mulExt ha hw).bind fun _ _ hproduct => ?_
    exact (alike_assertEqualExt hproduct (alike_extensionConstant _ _)).bind fun _ _ _ => .done hw
  refine (alike.mapQuartic (S := fun _ _ => True) ha fun _ _ hc =>
    (alike_reduce hc).bind fun _ _ hc => alike_ofExcept hc.native.toInt).bind
      fun residues residues' _ => ?_
  dsimp only
  -- each side may or may not warn, whatever the other does
  split <;> split
  · exact (alike_tell _ _).bind fun _ _ _ => hguess _ _
  · exact .sayLeft (hguess _ _)
  · exact .sayRight (hguess _ _)
  · exact hguess _ _

theorem alike_divExt : (C.divExt a b).Alike ExtensionValue.Alike (C.divExt a' b') :=
  (alike_invExt hb).bind fun _ _ hw => alike_mulExt ha hw

omit hb
include hx

theorem alike_addBase : (C.addBase a x).Alike ExtensionValue.Alike (C.addBase a' x') :=
  (alike_add ha.c0 hx).bind fun _ _ h0 => .done ⟨h0, ha.c1, ha.c2, ha.c3⟩

theorem alike_subBase : (C.subBase a x).Alike ExtensionValue.Alike (C.subBase a' x') :=
  (alike_sub ha.c0 hx).bind fun _ _ h0 => .done ⟨h0, ha.c1, ha.c2, ha.c3⟩

theorem alike_mulBase : (C.mulBase a x).Alike ExtensionValue.Alike (C.mulBase a' x') :=
  alike.mapQuartic ha fun _ _ hc => alike_mul hc hx

theorem alike_divBase : (C.divBase a x).Alike ExtensionValue.Alike (C.divBase a' x') :=
  (alike_inverse hx).bind fun _ _ hw => alike_mulBase ha hw

end Extension

end Chip

end NonNative
