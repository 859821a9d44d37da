import NonNative.Proofs.AppendOnly
import NonNative.Proofs.Refusal

/-!
Values of other native fields among the arguments. Every operation that computes with
an element is refused if the element is one of another field, however it is bounded
and whether or not it has limbs. A sum with a base element looks at the constant
coordinate alone. What has been recorded by then, and all that a session ever
records, relates values of the native field of the system.
-/

namespace NonNative

open Circuit

/-! ### Foreign operands -/

namespace Operand

/-- The operand is a value of another field. -/
def IsForeign (F : NativeField) : Operand → Prop
  | .scalar s => s.order ≠ F.order
  | _ => False

instance (F : NativeField) : (a : Operand) → Decidable (a.IsForeign F)
  | .scalar s => inferInstanceAs (Decidable (s.order ≠ F.order))
  | .int _ | .truth _ | .text _ => .isFalse id

/-- The operand is a value of some field, or stands for an integer. -/
def IsReadable (a : Operand) : Prop := ∃ n, a.toInt = .ok n

variable {F : NativeField} {a : Operand}

theorem not_isForeign_of_owns (h : F.Owns a) : ¬ a.IsForeign F := by
  obtain ⟨s, hs⟩ := h
  cases a with
  | scalar t =>
      intro hforeign
      rw [NativeField.accept, if_neg hforeign] at hs
      cases hs
  | int n => exact id
  | truth b => exact id
  | text t => exact id

/-- An operand that can be read is refused only for being foreign. -/
theorem IsReadable.isForeign_of_refused (h : a.IsReadable) {fault : Fault}
    (hfault : F.accept a = .refuse fault) :
    ∃ order, order ≠ F.order ∧ fault = .foreignValue F.order order ∧ a.IsForeign F := by
  obtain ⟨n, hn⟩ := h
  cases a with
  | scalar s =>
      rw [NativeField.accept] at hfault
      split at hfault
      · cases hfault
      · next hforeign => exact ⟨s.order, hforeign, (Circuit.refuse.inj hfault).symm, hforeign⟩
  | int n => cases hfault
  | truth b => cases hfault
  | text t =>
      rw [toInt] at hn
      rw [NativeField.accept, hn] at hfault
      cases hfault

theorem IsReadable.owns (h : a.IsReadable) (hown : ¬ a.IsForeign F) : F.Owns a := by
  rcases F.accept_cases a with ⟨s, hs⟩ | ⟨fault, hfault⟩
  · exact ⟨s, hs⟩
  · obtain ⟨-, -, -, hforeign⟩ := h.isForeign_of_refused hfault
    exact absurd hforeign hown

end Operand

namespace Element

/-- The value of the element is one of another field. -/
def IsForeign (F : NativeField) (a : Element) : Prop := a.native.IsForeign F

instance (F : NativeField) (a : Element) : Decidable (a.IsForeign F) :=
  inferInstanceAs (Decidable (a.native.IsForeign F))

/-- The parts of the element are values of some fields, or integers, and its bound is
not below the width of the limbs. -/
structure IsReadable (a : Element) : Prop where
  native : a.native.IsReadable
  limbs : ∀ l ∈ a.limbs, l.IsReadable
  overflow_nonneg : 0 ≤ a.overflow

end Element

/-- The fault of a system that meets a value of another field. -/
def NativeField.ForeignFault (F : NativeField) (fault : Fault) : Prop :=
  ∃ order, order ≠ F.order ∧ fault = .foreignValue F.order order

theorem Operand.IsReadable.risks {F : NativeField} {a : Operand} (h : a.IsReadable) :
    F.Risks F.ForeignFault a := by
  intro fault hfault
  obtain ⟨order, hne, rfl, -⟩ := h.isForeign_of_refused hfault
  exact ⟨order, hne, rfl⟩

theorem Element.IsReadable.risks {E : EmulatedField} {a : Element} (h : a.IsReadable) :
    E.Risks E.native.ForeignFault a :=
  ⟨h.native.risks, fun hneg => absurd h.overflow_nonneg (not_le.2 hneg)⟩

theorem Element.not_isForeign_of_takes {E : EmulatedField} {a : Element} (h : E.Takes a) :
    ¬ a.IsForeign E.native := Operand.not_isForeign_of_owns h

/-- The run has ended because the system has met a value of another field. -/
def Run.MetForeign {α : Type} (F : NativeField) (r : Run α) : Prop :=
  ∃ fault, F.ForeignFault fault ∧ r.result = .error fault

/-! ### What operations compute with -/

/-- The elements with whose values the operation computes. A reduction may hand its
argument on, and a padding looks only at the bound. -/
def FieldOp.used {ν β : Type} : FieldOp ν β → List β
  | .add a b | .sub a b | .mul a b | .select _ a b | .assertEqual a b _ => [a, b]
  | .neg a | .inverse a | .isZero a | .toBits a => [a]
  | _ => []

/-- The condition of a selection. -/
def FieldOp.condition {ν β : Type} : FieldOp ν β → List ν
  | .select cond _ _ => [cond]
  | _ => []

@[inherit_doc FieldOp.used]
def ChipOp.used {ν β : Type} : ChipOp ν β (Quartic β) → List β
  | .assertNotEqual a b => [a, b]
  | .addExt a b | .subExt a b | .mulExt a b | .divExt a b | .assertEqualExt a b
  | .assertNotEqualExt a b | .selectExt _ a b => a.toList ++ b.toList
  | .negExt a | .invExt a => a.toList
  | .addBase a b | .subBase a b => [a.c0, b]
  | .mulBase a b | .divBase a b => a.toList ++ [b]
  | _ => []

@[inherit_doc FieldOp.condition]
def ChipOp.condition {ν β ε : Type} : ChipOp ν β ε → List ν
  | .selectExt cond _ _ => [cond]
  | _ => []

theorem forall_mem_pair {α : Type} {P : α → Prop} {a b : α} :
    (∀ x ∈ [a, b], P x) ↔ P a ∧ P b := by
  simp

theorem Quartic.forall_mem_toList_append {α : Type} {P : α → Prop} {a b : Quartic α} :
    (∀ x ∈ a.toList ++ b.toList, P x) ↔ a.All P ∧ b.All P := by
  rw [List.forall_mem_append, all_iff_forall_mem, all_iff_forall_mem]

theorem Quartic.forall_mem_toList_concat {α : Type} {P : α → Prop} {a : Quartic α} {b : α} :
    (∀ x ∈ a.toList ++ [b], P x) ↔ a.All P ∧ P b := by
  rw [List.forall_mem_append, all_iff_forall_mem, List.forall_mem_singleton]

section Operations

variable {K : Constraint → Prop} {N : Fault → Prop}

/-- An operation of the field meets every element that it computes with. -/
theorem FieldOp.every_used {E : EmulatedField} (hK : ∀ label, E.native.Admits label K)
    {op : FieldOp Operand Element} (hcondition : ∀ c ∈ op.condition, E.native.Risks N c)
    (hused : ∀ a ∈ op.used, E.Risks N a ∧ ∀ l ∈ a.limbs, E.native.Risks N l)
    (hsome : op.used ≠ []) :
    (op.circuit E).Every K N fun _ => ∀ a ∈ op.used, E.Takes a := by
  cases op with
  | add a b =>
      obtain ⟨ha, hb⟩ := forall_mem_pair.1 hused
      exact (ha.1.every_add hb.1 (hK _)).map fun _ hc => forall_mem_pair.2 hc.2
  | sub a b =>
      obtain ⟨ha, hb⟩ := forall_mem_pair.1 hused
      exact (ha.1.every_sub hb.1 (hK _)).map fun _ hc => forall_mem_pair.2 hc.2
  | mul a b =>
      obtain ⟨ha, hb⟩ := forall_mem_pair.1 hused
      exact (ha.1.every_mul hb.1 (hK _)).map fun _ hc => forall_mem_pair.2 hc.2
  | select cond a b =>
      obtain ⟨ha, hb⟩ := forall_mem_pair.1 hused
      have hcond := List.forall_mem_singleton.1 hcondition
      exact (ha.1.every_select hcond hb.1 ha.2 hb.2).map fun _ hc => forall_mem_pair.2 hc.2
  | assertEqual a b label =>
      obtain ⟨ha, hb⟩ := forall_mem_pair.1 hused
      exact (ha.1.every_assertEqual hK hb.1).map fun _ hc => forall_mem_pair.2 hc
  | neg a =>
      have ha := List.forall_mem_singleton.1 hused
      exact (ha.1.every_neg (hK _)).map fun _ hc => List.forall_mem_singleton.2 hc.2
  | inverse a =>
      have ha := List.forall_mem_singleton.1 hused
      exact (ha.1.every_inverse hK).map fun _ hc => List.forall_mem_singleton.2 hc.2
  | isZero a =>
      have ha := List.forall_mem_singleton.1 hused
      exact (ha.1.every_isZero hK).map fun _ hc => List.forall_mem_singleton.2 hc.2
  | toBits a =>
      have ha := List.forall_mem_singleton.1 hused
      exact (ha.1.every_toBits hK).map fun _ hc => List.forall_mem_singleton.2 hc.2
  | constant | zero | one | ofNative | witness | canonical | remainder | reduce
  | paddingMultiple => exact absurd rfl hsome

open Chip Quartic in
/-- An operation of the chip meets every element that it computes with. -/
theorem ChipOp.every_used {C : Chip} (hK : ∀ label, C.native.Admits label K)
    (hone : Chip.oneExt.All (C.field.Risks N)) {op : ChipOp Operand Element ExtensionValue}
    (hcondition : ∀ c ∈ op.condition, C.native.Risks N c)
    (hused : ∀ a ∈ op.used, C.field.Risks N a ∧ ∀ l ∈ a.limbs, C.native.Risks N l)
    (hsome : op.used ≠ []) :
    (op.circuit C).Every K N fun _ => ∀ a ∈ op.used, C.field.Takes a := by
  have hrisks : ∀ a ∈ op.used, C.field.Risks N a := fun a ha => (hused a ha).1
  cases op with
  | assertNotEqual a b =>
      obtain ⟨ha, hb⟩ := forall_mem_pair.1 hrisks
      exact (every_assertNotEqual hK ha hb).map fun _ hc => forall_mem_pair.2 hc
  | addBase a b =>
      obtain ⟨ha, hb⟩ := forall_mem_pair.1 hrisks
      exact (every_addBase hK ha hb).map fun _ hc => forall_mem_pair.2 hc.2
  | subBase a b =>
      obtain ⟨ha, hb⟩ := forall_mem_pair.1 hrisks
      exact (every_subBase hK ha hb).map fun _ hc => forall_mem_pair.2 hc.2
  | negExt a =>
      have ha := all_iff_forall_mem.2 hrisks
      exact (every_negExt hK ha).map fun _ hc => all_iff_forall_mem.1 hc.2
  | invExt a =>
      have ha := all_iff_forall_mem.2 hrisks
      exact (every_invExt hK ha hone).map fun _ hc => all_iff_forall_mem.1 hc.2.1
  | addExt a b =>
      obtain ⟨ha, hb⟩ := forall_mem_toList_append.1 hrisks
      exact (every_addExt hK ha hb).map fun _ hc => forall_mem_toList_append.2 hc.2
  | subExt a b =>
      obtain ⟨ha, hb⟩ := forall_mem_toList_append.1 hrisks
      exact (every_subExt hK ha hb).map fun _ hc => forall_mem_toList_append.2 hc.2
  | mulExt a b =>
      obtain ⟨ha, hb⟩ := forall_mem_toList_append.1 hrisks
      exact (every_mulExt hK ha hb).map fun _ hc => forall_mem_toList_append.2 hc.2
  | divExt a b =>
      obtain ⟨ha, hb⟩ := forall_mem_toList_append.1 hrisks
      exact (every_divExt hK ha hb hone).map fun _ hc =>
        forall_mem_toList_append.2 ⟨hc.2.1, hc.2.2.1⟩
  | assertEqualExt a b =>
      obtain ⟨ha, hb⟩ := forall_mem_toList_append.1 hrisks
      exact (every_assertEqualExt hK ha hb).map fun _ hc => forall_mem_toList_append.2 hc
  | assertNotEqualExt a b =>
      obtain ⟨ha, hb⟩ := forall_mem_toList_append.1 hrisks
      exact (every_assertNotEqualExt hK ha hb).map fun _ hc => forall_mem_toList_append.2 hc
  | selectExt cond a b =>
      obtain ⟨ha, hb⟩ := forall_mem_toList_append.1 hused
      have hcond := List.forall_mem_singleton.1 hcondition
      exact (every_selectExt hcond ha hb).map fun _ hc => forall_mem_toList_append.2 hc.2
  | mulBase a b =>
      obtain ⟨ha, hb⟩ := forall_mem_toList_concat.1 hrisks
      exact (every_mulBase hK ha hb).map fun _ hc => forall_mem_toList_concat.2 hc.2
  | divBase a b =>
      obtain ⟨ha, hb⟩ := forall_mem_toList_concat.1 hrisks
      exact (every_divBase hK ha hb).map fun _ hc => forall_mem_toList_concat.2 hc.2
  | unpack | print | zeroExt | oneExt | ofBase | printExt => exact absurd rfl hsome

end Operations

/-! ### Refusal of foreign elements -/

theorem NativeField.admits_relates (F : NativeField) (label : String) :
    F.Admits label F.Relates := fun _ hrelates _ _ => hrelates

/-- A circuit that meets all elements of a list is refused if one of them is
foreign. -/
theorem Circuit.Every.metForeign {E : EmulatedField} {c : Circuit Value} {K : Constraint → Prop}
    {l : List Element} (h : c.Every K E.native.ForeignFault fun _ => ∀ a ∈ l, E.Takes a)
    (hforeign : ∃ a ∈ l, a.IsForeign E.native) : c.run.MetForeign E.native := by
  obtain ⟨a, ha, hforeign⟩ := hforeign
  rcases h.result with ⟨_, _, htakes⟩ | ⟨fault, hresult, hfault⟩
  · exact absurd hforeign (Element.not_isForeign_of_takes (htakes a ha))
  · exact ⟨fault, hfault, hresult⟩

theorem FieldOp.metForeign {E : EmulatedField} {op : FieldOp Operand Element}
    (hcondition : ∀ c ∈ op.condition, c.IsReadable) (hused : ∀ a ∈ op.used, a.IsReadable)
    (hforeign : ∃ a ∈ op.used, a.IsForeign E.native) :
    (op.circuit E).run.MetForeign E.native := by
  have hsome : op.used ≠ [] := by
    intro hnil
    simp [hnil] at hforeign
  exact (every_used E.native.admits_relates (fun c hc => (hcondition c hc).risks)
    (fun a ha => ⟨(hused a ha).risks, fun l hl => ((hused a ha).limbs l hl).risks⟩)
    hsome).metForeign hforeign

/-- The constants over BN254 are readable like any other element. -/
theorem Chip.isReadable_constant (n : ℤ) : (constant n).IsReadable where
  native := ⟨_, rfl⟩
  limbs := List.forall_mem_map.2 fun _ _ => ⟨_, rfl⟩
  overflow_nonneg := le_rfl

theorem ChipOp.metForeign {C : Chip} {op : ChipOp Operand Element ExtensionValue}
    (hcondition : ∀ c ∈ op.condition, c.IsReadable) (hused : ∀ a ∈ op.used, a.IsReadable)
    (hforeign : ∃ a ∈ op.used, a.IsForeign C.native) :
    (op.circuit C).run.MetForeign C.native := by
  have hsome : op.used ≠ [] := by
    intro hnil
    simp [hnil] at hforeign
  have hone : Chip.oneExt.All (C.field.Risks C.native.ForeignFault) :=
    ⟨(Chip.isReadable_constant 1).risks, (Chip.isReadable_constant 0).risks,
      (Chip.isReadable_constant 0).risks, (Chip.isReadable_constant 0).risks⟩
  exact (every_used C.native.admits_relates hone (fun c hc => (hcondition c hc).risks)
    (fun a ha => ⟨(hused a ha).risks, fun l hl => ((hused a ha).limbs l hl).risks⟩)
    hsome).metForeign (E := C.field) hforeign

/-- A sum or a difference with a base element meets the constant coordinate and the
base element, and hands the other coordinates on. -/
theorem ChipOp.metForeign_iff {C : Chip} {a : ExtensionValue} {b : Element}
    (ha : a.c0.IsReadable) (hb : b.IsReadable) {op : ChipOp Operand Element ExtensionValue}
    (hop : op = .addBase a b ∨ op = .subBase a b) :
    (op.circuit C).run.MetForeign C.native ↔ a.c0.IsForeign C.native ∨ b.IsForeign C.native := by
  have hused : op.used = [a.c0, b] := by
    rcases hop with rfl | rfl <;> rfl
  have hcondition : op.condition = [] := by
    rcases hop with rfl | rfl <;> rfl
  constructor
  · rintro ⟨fault, -, hresult⟩
    by_contra hown
    obtain ⟨hown₀, hown₁⟩ := not_or.1 hown
    -- both are taken, so nothing is left that could go wrong
    have hrisks {x : Element} (hx : x.IsReadable) (hown : ¬ x.IsForeign C.native) :
        C.field.Risks (fun _ => False) x :=
      ⟨(hx.native.owns hown).risks, fun hneg => absurd hx.overflow_nonneg (not_le.2 hneg)⟩
    have hreturns : (op.circuit C).Every C.native.Relates (fun _ => False) fun _ => True := by
      rcases hop with rfl | rfl
      · exact (Chip.every_addBase C.native.admits_relates (hrisks ha hown₀)
          (hrisks hb hown₁)).map fun _ _ => trivial
      · exact (Chip.every_subBase C.native.admits_relates (hrisks ha hown₀)
          (hrisks hb hown₁)).map fun _ _ => trivial
    rcases hreturns.result with ⟨v, hv, -⟩ | ⟨_, _, hfalse⟩
    · rw [hv] at hresult
      cases hresult
    · exact hfalse
  · intro hforeign
    apply ChipOp.metForeign
    · simp [hcondition]
    · simp [hused, ha, hb]
    · simpa [hused] using hforeign

/-! ### What a session records -/

section Recorded

variable {F : NativeField} {E : EmulatedField} {C : Chip}

theorem Circuit.Silent.relates {c : Circuit Value} (h : c.Silent) :
    c.Every F.Relates (fun _ => True) fun _ => True :=
  h.mono (fun _ => False.elim) (fun _ => id) fun _ => id

open NativeField in
theorem Gate.every_relates (op : Gate Operand) :
    (op.circuit F).Every F.Relates (fun _ => True) fun _ => True := by
  have hK := F.admits_relates
  cases hquiet : op.isQuiet with
  | true => exact (Gate.silent hquiet).relates
  | false =>
      cases op with
      | and a b =>
          exact ((risks_of_true a).every_and (risks_of_true b) (hK _)).map fun _ _ => trivial
      | isZero a => exact ((risks_of_true a).every_isZero (hK _)).map fun _ _ => trivial
      | toBits a width => exact ((risks_of_true a).every_toBits (hK _) _).map fun _ _ => trivial
      | assertEqual a b label =>
          exact ((risks_of_true a).every_assertEqual (risks_of_true b) (hK _)).map
            fun _ _ => trivial
      | assertBoolean a label =>
          exact ((risks_of_true a).every_assertBoolean (hK _)).map fun _ _ => trivial
      | rangeCheck a width label =>
          -- the width may be negative, and then the constraint cannot be judged
          refine Every.map (P := fun _ => True) ?_ fun _ _ => trivial
          exact (risks_of_true a).every_accept.bind fun x hx =>
            ⟨.range (F.order_eq_of_accept hx) width label, trivial⟩
      | constant | hint | add | sub | mul | neg | select | ofBits | print => cases hquiet

open EmulatedField NativeField in
theorem FieldOp.every_relates (op : FieldOp Operand Element) :
    (op.circuit E).Every E.native.Relates (fun _ => True) fun _ => True := by
  have hK := E.native.admits_relates
  by_cases hused : op.used = []
  · cases op with
    | ofNative a => exact (every_ofNative (risks_of_true a) (hK _)).map fun _ _ => trivial
    | witness n => exact (every_witness n (hK _)).map fun _ _ => trivial
    | canonical a label =>
        exact (every_canonical (risks_of_true a) (hK _)).map fun _ _ => trivial
    | remainder a bound label =>
        exact (every_remainder (risks_of_true a) bound (hK _)).map fun _ _ => trivial
    | reduce a => exact ((risks_of_true a).every_reduce (hK _)).map fun _ _ => trivial
    | constant | zero | one | paddingMultiple => exact (FieldOp.silent rfl).relates
    | add | neg | sub | mul | inverse | select | isZero | assertEqual | toBits => cases hused
  · exact (every_used hK (fun c _ => risks_of_true c)
      (fun a _ => ⟨risks_of_true a, fun l _ => risks_of_true l⟩) hused).imp fun _ _ => trivial

open EmulatedField NativeField in
theorem ChipOp.every_relates (op : ChipOp Operand Element ExtensionValue) :
    (op.circuit C).Every C.native.Relates (fun _ => True) fun _ => True := by
  have hK := C.native.admits_relates
  have hone : Chip.oneExt.All (C.field.Risks fun _ => True) :=
    ⟨risks_of_true _, risks_of_true _, risks_of_true _, risks_of_true _⟩
  by_cases hused : op.used = []
  · cases op with
    | unpack a => exact (Chip.every_unpack hK (risks_of_true a)).map fun _ _ => trivial
    | print | zeroExt | oneExt | ofBase | printExt => exact (ChipOp.silent rfl).relates
    | assertNotEqual | addExt | subExt | negExt | mulExt | invExt | divExt | assertEqualExt
    | assertNotEqualExt | selectExt | addBase | subBase | mulBase | divBase => cases hused
  · exact (every_used hK hone (fun c _ => risks_of_true c)
      (fun a _ => ⟨risks_of_true a, fun l _ => risks_of_true l⟩) hused).imp fun _ _ => trivial

end Recorded

/-- The terms that a constraint relates, without the width of a range. -/
def Constraint.related (k : Constraint) : List Term :=
  if k.kind = .range then k.terms.take 1 else k.terms

/-- The related terms are values of the field themselves, not integers. -/
theorem NativeField.Relates.value {F : NativeField} {k : Constraint} (h : F.Relates k) :
    ∀ t ∈ k.related, ∃ s : Scalar, t = .value s ∧ s.order = F.order := by
  cases h with
  | @equal x y hx hy label => exact forall_mem_pair.2 ⟨⟨x, rfl, hx⟩, ⟨y, rfl, hy⟩⟩
  | @boolean x hx label => exact List.forall_mem_singleton.2 ⟨x, rfl, hx⟩
  | @range x hx width label => exact List.forall_mem_singleton.2 ⟨x, rfl, hx⟩

theorem Call.relates (S : Setting) (log : Log) (call : Call) :
    ∀ k ∈ (call.run S log).constraints, S.native.Relates k := by
  cases call with
  | gate op => exact (Gate.every_relates op).constraints
  | field op =>
      rw [run]
      cases S with
      | system F => exact List.forall_mem_nil _
      | field E => exact (FieldOp.every_relates op).constraints
      | chip C => exact (FieldOp.every_relates (E := C.field) op).constraints
  | chip op =>
      rw [run]
      cases S with
      | system F => exact List.forall_mem_nil _
      | field E => exact List.forall_mem_nil _
      | chip C => exact (ChipOp.every_relates op).constraints
  | load l => exact List.forall_mem_nil _
  | loadExtension ls => exact List.forall_mem_nil _
  | give v => exact List.forall_mem_nil _
  | report r =>
      rw [constraints_report]
      exact List.forall_mem_nil _

namespace Session

/-- A step appends relations of values of the native field, also if it fails. -/
theorem relates_step {s : Session} (hs : ∀ k ∈ s.log, s.setting.native.Relates k) (st : Step) :
    ∀ k ∈ (s.step st).1.log, s.setting.native.Relates k := by
  rw [log_step, added]
  refine List.forall_mem_append.2 ⟨hs, ?_⟩
  split
  · exact Call.relates _ _ _
  · exact List.forall_mem_nil _

theorem relates_play {s : Session} (hs : ∀ k ∈ s.log, s.setting.native.Relates k)
    (steps : List Step) : ∀ k ∈ (s.play steps).log, s.setting.native.Relates k := by
  induction steps generalizing s with
  | nil => exact hs
  | cons st steps ih => exact ih (s := (s.step st).1) (relates_step hs st)

end Session

/-- Values of other fields are never used. -/
theorem foreign_never_used :
    -- an operation of an emulated field is refused for a foreign element
    (∀ (E : EmulatedField) (op : FieldOp Operand Element),
      (∀ c ∈ op.condition, c.IsReadable) → (∀ a ∈ op.used, a.IsReadable) →
      (∃ a ∈ op.used, a.IsForeign E.native) → (op.circuit E).run.MetForeign E.native) ∧
    -- so is an operation of a chip for a foreign element or coordinate
    (∀ (C : Chip) (op : ChipOp Operand Element ExtensionValue),
      (∀ c ∈ op.condition, c.IsReadable) → (∀ a ∈ op.used, a.IsReadable) →
      (∃ a ∈ op.used, a.IsForeign C.native) → (op.circuit C).run.MetForeign C.native) ∧
    -- sums and differences with a base element for nothing else
    (∀ (C : Chip) (a : ExtensionValue) (b : Element), a.c0.IsReadable → b.IsReadable →
      ∀ op : ChipOp Operand Element ExtensionValue, op = .addBase a b ∨ op = .subBase a b →
        ((op.circuit C).run.MetForeign C.native ↔
          a.c0.IsForeign C.native ∨ b.IsForeign C.native)) ∧
    -- what a session has recorded, before and after faults, relates values of its own field
    ∀ (S : Setting) (steps : List Step), ∀ k ∈ ((Session.start S).play steps).log,
      S.native.Relates k ∧ ∀ t ∈ k.related, ∃ s : Scalar, t = .value s ∧ s.order = S.native.order :=
  ⟨fun _ _ hcondition hused => FieldOp.metForeign hcondition hused,
    fun _ _ hcondition hused => ChipOp.metForeign hcondition hused,
    fun _ _ _ ha hb _ => ChipOp.metForeign_iff ha hb,
    fun _ steps k hk =>
      have hrelates := Session.relates_play (List.forall_mem_nil _) steps k hk
      ⟨hrelates, hrelates.value⟩⟩

/-- Three in the field of order seven, as an element with a limb. -/
def foreignThree : Element :=
  let three := fieldOfSeven.lift 3
  ⟨.scalar three, 0, [.scalar three]⟩

/-- Inverts the foreign element, which records the constraints on a witness first. -/
def inverseOfForeign : Step := ⟨[], fun _ => .ok (.field (.inverse foreignThree)), none⟩

theorem foreignThree_refused :
    let C := Chip.overBn254
    let log := ((Session.start (.chip C)).play [inverseOfForeign, inverseOfForeign]).log
    (foreignThree.IsReadable ∧ foreignThree.IsForeign C.native) ∧
      ((FieldOp.inverse foreignThree).circuit C.field).run.MetForeign C.native ∧
      ((ChipOp.mulExt (C.ofBase C.field.one) ⟨C.field.one, C.field.one, C.field.one,
        foreignThree⟩).circuit C).run.MetForeign C.native ∧
      ¬ ((ChipOp.addBase ⟨C.field.one, foreignThree, foreignThree, foreignThree⟩
        C.field.one).circuit C).run.MetForeign C.native ∧
      log.length = 6 ∧ ∀ k ∈ log, ∀ t ∈ k.related, ∃ s : Scalar, t = .value s ∧
        s.order = C.native.order := by
  intro C log
  have hreadable : foreignThree.IsReadable :=
    ⟨⟨_, rfl⟩, List.forall_mem_singleton.2 ⟨_, rfl⟩, le_rfl⟩
  have hforeign : foreignThree.IsForeign C.native := by decide +kernel
  have hown (n : ℤ) : (C.field.constant n).IsReadable := Chip.isReadable_constant n
  obtain ⟨hfield, hchip, hbase, hlog⟩ := foreign_never_used
  refine ⟨⟨hreadable, hforeign⟩, ?_, ?_, ?_, by decide +kernel,
    fun k hk => (hlog (.chip C) _ k hk).2⟩
  · refine hfield C.field _ (List.forall_mem_nil _) (List.forall_mem_singleton.2 hreadable) ?_
    exact ⟨_, List.mem_singleton_self _, hforeign⟩
  · refine hchip C _ (List.forall_mem_nil _) ?_ ⟨foreignThree, ?_, hforeign⟩
    · refine Quartic.forall_mem_toList_append.2 ⟨⟨hown 1, hown 0, hown 0, hown 0⟩, ?_⟩
      exact ⟨hown 1, hown 1, hown 1, hreadable⟩
    · simp [ChipOp.used, Quartic.toList]
  · intro hmet
    have hsum := hbase C ⟨C.field.one, foreignThree, foreignThree, foreignThree⟩ C.field.one
      (hown 1) (hown 1) _ (.inl rfl)
    rcases hsum.1 hmet with h | h <;> exact h rfl

end NonNative
