import NonNative.Proofs.Alike
import NonNative.Proofs.ChipProgram
import NonNative.Proofs.LiteralGrammar

/-!
The shape of a circuit does not depend on the numbers in it. Programs here may
use every operation of the constraint system, of an emulated field and of a
chip, except hints with a rule of their own; a fault does not end them. Two such
programs with the same operations and the same wiring, which differ only in the
integers they are given, record constraints of the same kinds, labels and widths
in the same order, return elements with the same overflow and the same number of
limbs, and fail at the same instructions for the same causes. A literal given as
a text is one of those integers only if it denotes one, and a text with too many
digits does not.
-/

namespace NonNative

open Circuit

/-! ### Results -/

/-- Results of one sort that differ at most in their numbers. -/
inductive Value.Alike : Value → Value → Prop where
  | nothing : Alike .nothing .nothing
  | int (n : ℤ) : Alike (.int n) (.int n)
  | scalar {s s'} (h : s.Alike s') : Alike (.scalar s) (.scalar s')
  | element {a a'} (h : a.Alike a') : Alike (.element a) (.element a')
  | extension {a a'} (h : ExtensionValue.Alike a a') : Alike (.extension a) (.extension a')
  | scalars {l l'} (h : List.Forall₂ Scalar.Alike l l') : Alike (.scalars l) (.scalars l')
  | elements {l l'} (h : List.Forall₂ Element.Alike l l') : Alike (.elements l) (.elements l')

namespace Value.Alike

variable {v v' : Value}

theorem nativeResults (h : v.Alike v') :
    List.Forall₂ Scalar.Alike v.nativeResults v'.nativeResults := by
  cases h with
  | scalar h => exact .cons h .nil
  | scalars h => simpa using h
  | elements h => simp
  | nothing | int | element | extension => exact .nil

theorem elementResults (h : v.Alike v') :
    List.Forall₂ Element.Alike v.elementResults v'.elementResults := by
  cases h with
  | element h => exact .cons h .nil
  | elements h => simpa using h
  | scalars h => simp
  | nothing | int | scalar | extension => exact .nil

theorem extensionResults (h : v.Alike v') :
    List.Forall₂ ExtensionValue.Alike v.extensionResults v'.extensionResults := by
  cases h with
  | extension h => exact .cons h .nil
  | _ => exact .nil

end Value.Alike

namespace Circuit.Alike

theorem nothing {c c' : Circuit Unit} (h : c.Alike Eq c') :
    ((fun _ => Value.nothing) <$> c).Alike Value.Alike ((fun _ => Value.nothing) <$> c') :=
  alike.map h fun _ _ _ => .nothing

theorem scalar {c c' : Circuit Scalar} (h : c.Alike Scalar.Alike c') :
    (Value.scalar <$> c).Alike Value.Alike (Value.scalar <$> c') :=
  alike.map h fun _ _ => .scalar

theorem scalars {c c' : Circuit (List Scalar)} (h : c.Alike (List.Forall₂ Scalar.Alike) c') :
    (Value.scalars <$> c).Alike Value.Alike (Value.scalars <$> c') :=
  alike.map h fun _ _ => .scalars

theorem element {c c' : Circuit Element} (h : c.Alike Element.Alike c') :
    (Value.element <$> c).Alike Value.Alike (Value.element <$> c') :=
  alike.map h fun _ _ => .element

theorem extension {c c' : Circuit ExtensionValue} (h : c.Alike ExtensionValue.Alike c') :
    (Value.extension <$> c).Alike Value.Alike (Value.extension <$> c') :=
  alike.map h fun _ _ => .extension

end Circuit.Alike

/-! ### Operations of the constraint system -/

inductive Piece.Related {ν ν' : Type} (R : ν → ν' → Prop) : Piece ν → Piece ν' → Prop where
  | text (s : String) : Related R (.text s) (.text s)
  | value {x x'} (h : R x x') : Related R (.value x) (.value x')

def Piece.resolve {ν ν' : Type} {m : Type → Type} [Monad m] (native : ν → m ν') :
    Piece ν → m (Piece ν')
  | .text s => return .text s
  | .value x => return .value (← native x)

/-- The operation with its references looked up, from left to right. -/
def Gate.resolve {ν ν' : Type} {m : Type → Type} [Monad m] (native : ν → m ν') :
    Gate ν → m (Gate ν')
  | .constant a => return .constant (← native a)
  | .hint rule inputs => return .hint rule (← inputs.mapM native)
  | .add a b more => return .add (← native a) (← native b) (← more.mapM native)
  | .sub a b => return .sub (← native a) (← native b)
  | .mul a b more => return .mul (← native a) (← native b) (← more.mapM native)
  | .neg a => return .neg (← native a)
  | .and a b => return .and (← native a) (← native b)
  | .select cond a b => return .select (← native cond) (← native a) (← native b)
  | .isZero a => return .isZero (← native a)
  | .toBits a width => return .toBits (← native a) width
  | .ofBits bits => return .ofBits (← bits.mapM native)
  | .assertEqual a b label => return .assertEqual (← native a) (← native b) label
  | .assertBoolean a label => return .assertBoolean (← native a) label
  | .rangeCheck a width label => return .rangeCheck (← native a) width label
  | .print pieces => return .print (← pieces.mapM (·.resolve native))

/-- Two operations are of the same kind and have related operands. Hints are
left out: how many values one returns depends on a rule. -/
inductive Gate.Related {ν ν' : Type} (R : ν → ν' → Prop) : Gate ν → Gate ν' → Prop where
  | constant {a a'} (ha : R a a') : Related R (.constant a) (.constant a')
  | add {a a' b b' more more'} (ha : R a a') (hb : R b b') (hmore : List.Forall₂ R more more') :
      Related R (.add a b more) (.add a' b' more')
  | sub {a a' b b'} (ha : R a a') (hb : R b b') : Related R (.sub a b) (.sub a' b')
  | mul {a a' b b' more more'} (ha : R a a') (hb : R b b') (hmore : List.Forall₂ R more more') :
      Related R (.mul a b more) (.mul a' b' more')
  | neg {a a'} (ha : R a a') : Related R (.neg a) (.neg a')
  | and {a a' b b'} (ha : R a a') (hb : R b b') : Related R (.and a b) (.and a' b')
  | select {c c' a a' b b'} (hc : R c c') (ha : R a a') (hb : R b b') :
      Related R (.select c a b) (.select c' a' b')
  | isZero {a a'} (ha : R a a') : Related R (.isZero a) (.isZero a')
  | toBits {a a'} (ha : R a a') (width : Option ℤ) : Related R (.toBits a width) (.toBits a' width)
  | ofBits {bits bits'} (h : List.Forall₂ R bits bits') : Related R (.ofBits bits) (.ofBits bits')
  | assertEqual {a a' b b'} (ha : R a a') (hb : R b b') (label : String) :
      Related R (.assertEqual a b label) (.assertEqual a' b' label)
  | assertBoolean {a a'} (ha : R a a') (label : String) :
      Related R (.assertBoolean a label) (.assertBoolean a' label)
  | rangeCheck {a a'} (ha : R a a') (width : ℤ) (label : String) :
      Related R (.rangeCheck a width label) (.rangeCheck a' width label)
  | print {pieces pieces'} (h : List.Forall₂ (Piece.Related R) pieces pieces') :
      Related R (.print pieces) (.print pieces')

/-- Operations that refer to related things, looked up in two ways. -/
theorem Gate.Related.resolve {m n : Type → Type} [Monad m] [Monad n] [LawfulMonad m]
    [LawfulMonad n] (Γ : MonadRelation m n) {ν ν' ν₁ ν₂ : Type} {R₀ : ν → ν' → Prop}
    {R : ν₁ → ν₂ → Prop} {native₁ : ν → m ν₁} {native₂ : ν' → n ν₂} {op : Gate ν} {op' : Gate ν'}
    (h : Related R₀ op op') (hnative : ∀ a a', R₀ a a' → Γ.Rel R (native₁ a) (native₂ a')) :
    Γ.Rel (Related R) (op.resolve native₁) (op'.resolve native₂) := by
  cases h with
  | constant ha => exact Γ.bind (hnative _ _ ha) fun _ _ ha => Γ.pure (.constant ha)
  | neg ha => exact Γ.bind (hnative _ _ ha) fun _ _ ha => Γ.pure (.neg ha)
  | isZero ha => exact Γ.bind (hnative _ _ ha) fun _ _ ha => Γ.pure (.isZero ha)
  | toBits ha width => exact Γ.bind (hnative _ _ ha) fun _ _ ha => Γ.pure (.toBits ha width)
  | assertBoolean ha label =>
      exact Γ.bind (hnative _ _ ha) fun _ _ ha => Γ.pure (.assertBoolean ha label)
  | rangeCheck ha width label =>
      exact Γ.bind (hnative _ _ ha) fun _ _ ha => Γ.pure (.rangeCheck ha width label)
  | sub ha hb =>
      exact Γ.bind (hnative _ _ ha) fun _ _ ha => Γ.bind (hnative _ _ hb) fun _ _ hb =>
        Γ.pure (.sub ha hb)
  | and ha hb =>
      exact Γ.bind (hnative _ _ ha) fun _ _ ha => Γ.bind (hnative _ _ hb) fun _ _ hb =>
        Γ.pure (.and ha hb)
  | assertEqual ha hb label =>
      exact Γ.bind (hnative _ _ ha) fun _ _ ha => Γ.bind (hnative _ _ hb) fun _ _ hb =>
        Γ.pure (.assertEqual ha hb label)
  | select hc ha hb =>
      exact Γ.bind (hnative _ _ hc) fun _ _ hc => Γ.bind (hnative _ _ ha) fun _ _ ha =>
        Γ.bind (hnative _ _ hb) fun _ _ hb => Γ.pure (.select hc ha hb)
  | add ha hb hmore =>
      exact Γ.bind (hnative _ _ ha) fun _ _ ha => Γ.bind (hnative _ _ hb) fun _ _ hb =>
        Γ.bind (Γ.mapM hmore hnative) fun _ _ hmore => Γ.pure (.add ha hb hmore)
  | mul ha hb hmore =>
      exact Γ.bind (hnative _ _ ha) fun _ _ ha => Γ.bind (hnative _ _ hb) fun _ _ hb =>
        Γ.bind (Γ.mapM hmore hnative) fun _ _ hmore => Γ.pure (.mul ha hb hmore)
  | ofBits h => exact Γ.bind (Γ.mapM h hnative) fun _ _ h => Γ.pure (.ofBits h)
  | print h =>
      refine Γ.bind (Γ.mapM h fun _ _ hpiece => ?_) fun _ _ h => Γ.pure (.print h)
      cases hpiece with
      | text s => exact Γ.pure (.text s)
      | value hx => exact Γ.bind (hnative _ _ hx) fun _ _ hx => Γ.pure (.value hx)

theorem Gate.Related.circuit {op op' : Gate Operand} (h : Related Operand.Alike op op')
    (F : NativeField) : (op.circuit F).Alike Value.Alike (op'.circuit F) := by
  cases h with
  | constant ha => exact (NativeField.alike_accept ha).scalar
  | add ha hb hmore =>
      refine (NativeField.alike_add ha hb).bind fun _ _ hsum => ?_
      exact (alike.foldlM hmore (fun _ _ _ _ hs hx => NativeField.alike_add (.scalar hs) hx)
        hsum).scalar
  | sub ha hb => exact (NativeField.alike_sub ha hb).scalar
  | mul ha hb hmore =>
      refine (NativeField.alike_mul ha hb).bind fun _ _ hproduct => ?_
      exact (alike.foldlM hmore (fun _ _ _ _ hs hx => NativeField.alike_mul (.scalar hs) hx)
        hproduct).scalar
  | neg ha => exact (NativeField.alike_neg ha).scalar
  | and ha hb => exact (NativeField.alike_and ha hb).scalar
  | select hc ha hb => exact (NativeField.alike_select ha hb hc).scalar
  | isZero ha => exact (NativeField.alike_isZero ha).scalar
  | toBits ha width => exact (NativeField.alike_toBits ha _).scalars
  | ofBits h => exact (NativeField.alike_recompose 1 h).scalar
  | assertEqual ha hb label => exact (NativeField.alike_assertEqual ha hb label).nothing
  | assertBoolean ha label => exact (NativeField.alike_assertBoolean ha label).nothing
  | rangeCheck ha width label => exact (NativeField.alike_rangeCheck ha width label).nothing
  | print h => exact (alike_tell _ _).bind fun _ _ _ => .done .nothing

/-! ### Operations of a field and of a chip -/

/-- An integer, or a text that denotes one. -/
def Literal.IsNumeral : Literal → Prop
  | .int _ => True
  | .text s => ∃ k, Denotes s k

theorem Literal.IsNumeral.exists_value {l : Literal} (h : l.IsNumeral) : ∃ k, l.value = .ok k := by
  cases l with
  | int k => exact ⟨k, rfl⟩
  | text s =>
      obtain ⟨k, hk⟩ := h
      exact ⟨k, by rw [value, readInt?_eq_some_iff.2 hk]⟩

theorem Literal.value_of_not_isNumeral {l : Literal} (h : ¬ l.IsNumeral) :
    l.value = .error .malformedLiteral := by
  cases l with
  | int k => exact absurd trivial h
  | text s => rw [value, readInt?_eq_none_iff.2 h]

/-- Both literals are numerals, or neither is. -/
def Literal.Alike (l l' : Literal) : Prop := l.IsNumeral ↔ l'.IsNumeral

theorem Literal.Alike.value {l l' : Literal} (h : l.Alike l') :
    SameOutcome (fun _ _ => True) l.value l'.value := by
  by_cases hl : l.IsNumeral
  · obtain ⟨k, hk⟩ := hl.exists_value
    obtain ⟨k', hk'⟩ := (h.1 hl).exists_value
    rw [hk, hk']
    exact .ok trivial
  · rw [value_of_not_isNumeral hl, value_of_not_isNumeral fun hl' => hl (h.2 hl')]
    exact .error _

/-- Two operations are of the same kind and have related arguments; the integers
of constants and witnesses may be any. -/
inductive FieldOp.Alike {ν β ν' β' : Type} (R : ν → ν' → Prop) (S : β → β' → Prop) :
    FieldOp ν β → FieldOp ν' β' → Prop where
  | constant {l l'} (h : l.Alike l') : Alike R S (.constant l) (.constant l')
  | witness (n n' : ℤ) : Alike R S (.witness n) (.witness n')
  | related {op op'} (h : op.Related R S op') : Alike R S op op'

theorem FieldOp.Alike.resolve {m n : Type → Type} [Monad m] [Monad n] [LawfulMonad m]
    [LawfulMonad n] (Γ : MonadRelation m n) {ν β ν' β' ν₁ β₁ ν₂ β₂ : Type} {R₀ : ν → ν' → Prop}
    {S₀ : β → β' → Prop} {R : ν₁ → ν₂ → Prop} {S : β₁ → β₂ → Prop} {native₁ : ν → m ν₁}
    {element₁ : β → m β₁} {native₂ : ν' → n ν₂} {element₂ : β' → n β₂} {op : FieldOp ν β}
    {op' : FieldOp ν' β'} (h : op.Alike R₀ S₀ op')
    (hnative : ∀ a a', R₀ a a' → Γ.Rel R (native₁ a) (native₂ a'))
    (helement : ∀ a a', S₀ a a' → Γ.Rel S (element₁ a) (element₂ a')) :
    Γ.Rel (Alike R S) (op.resolve native₁ element₁) (op'.resolve native₂ element₂) := by
  cases h with
  | constant h => exact Γ.pure (.constant h)
  | witness n n' => exact Γ.pure (.witness n n')
  | related h => exact Γ.mono (h.resolve Γ hnative helement) fun _ _ => .related

theorem FieldOp.Alike.circuit {op op' : FieldOp Operand Element}
    (h : op.Alike Operand.Alike Element.Alike op') (E : EmulatedField) :
    (op.circuit E).Alike Value.Alike (op'.circuit E) := by
  cases h with
  | constant h =>
      exact alike.map (alike_ofExcept h.value)
        fun n n' _ => .element (EmulatedField.alike_constant n n')
  | witness n n' => exact (EmulatedField.alike_witness n n').element
  | related h =>
      cases h with
      | constant l =>
          exact alike.map (alike_ofExcept (.refl (R := Eq) (fun _ => rfl) l.value))
            fun n n' _ => .element (EmulatedField.alike_constant n n')
      | zero => exact .done (.element (EmulatedField.alike_constant 0 0))
      | one => exact .done (.element (EmulatedField.alike_constant 1 1))
      | ofNative ha => exact (EmulatedField.alike_ofNative ha).element
      | witness n => exact (EmulatedField.alike_witness n n).element
      | canonical hr label => exact (EmulatedField.alike_canonical hr label).element
      | remainder hv bound label => exact (EmulatedField.alike_remainder hv bound label).element
      | reduce ha => exact (EmulatedField.alike_reduce ha).element
      | paddingMultiple ha =>
          rw [FieldOp.circuit, FieldOp.circuit, EmulatedField.paddingMultiple_eq ha]
          refine alike.map (alike_ofExcept (.refl (R := Eq) (fun _ => rfl) _)) ?_
          rintro n _ rfl
          exact .int n
      | add ha hb => exact (EmulatedField.alike_add ha hb).element
      | neg ha => exact (EmulatedField.alike_neg ha).element
      | sub ha hb => exact (EmulatedField.alike_sub ha hb).element
      | mul ha hb => exact (EmulatedField.alike_mul ha hb).element
      | inverse ha => exact (EmulatedField.alike_inverse ha).element
      | select hc ha hb => exact (EmulatedField.alike_select ha hb hc).element
      | isZero ha => exact (EmulatedField.alike_isZero ha).scalar
      | assertEqual ha hb label => exact (EmulatedField.alike_assertEqual ha hb label).nothing
      | toBits ha => exact (EmulatedField.alike_toBits ha).scalars

theorem ChipOp.Related.circuit {op op' : ChipOp Operand Element ExtensionValue}
    (h : op.Related Operand.Alike Element.Alike ExtensionValue.Alike op') (C : Chip) :
    (op.circuit C).Alike Value.Alike (op'.circuit C) := by
  cases h with
  | assertNotEqual ha hb => exact (Chip.alike_assertNotEqual ha hb).nothing
  | unpack ha => exact alike.map (Chip.alike_unpack ha) fun _ _ => .elements
  | print ha => exact (Chip.alike_print ha).nothing
  | zeroExt => exact .done (.extension (Chip.alike_extensionConstant _ _))
  | oneExt => exact .done (.extension (Chip.alike_extensionConstant _ _))
  | ofBase ha => exact .done (.extension (Chip.alike_ofBase ha))
  | addExt ha hb => exact (Chip.alike_addExt ha hb).extension
  | subExt ha hb => exact (Chip.alike_subExt ha hb).extension
  | negExt ha => exact (Chip.alike_negExt ha).extension
  | mulExt ha hb => exact (Chip.alike_mulExt ha hb).extension
  | invExt ha => exact (Chip.alike_invExt ha).extension
  | divExt ha hb => exact (Chip.alike_divExt ha hb).extension
  | assertEqualExt ha hb => exact (Chip.alike_assertEqualExt ha hb).nothing
  | assertNotEqualExt ha hb => exact (Chip.alike_assertNotEqualExt ha hb).nothing
  | selectExt hc ha hb => exact (Chip.alike_selectExt ha hb hc).extension
  | addBase ha hb => exact (Chip.alike_addBase ha hb).extension
  | subBase ha hb => exact (Chip.alike_subBase ha hb).extension
  | mulBase ha hb => exact (Chip.alike_mulBase ha hb).extension
  | divBase ha hb => exact (Chip.alike_divBase ha hb).extension
  | printExt ha => exact (Chip.alike_printExt ha).nothing

/-! ### Calls -/

/-- Calls of one operation with arguments that differ at most in their numbers. -/
inductive Call.Alike : Call → Call → Prop where
  | gate {op op'} (h : op.Related Operand.Alike op') : Alike (.gate op) (.gate op')
  | field {op op'} (h : op.Alike Operand.Alike Element.Alike op') : Alike (.field op) (.field op')
  | chip {op op'} (h : op.Related Operand.Alike Element.Alike ExtensionValue.Alike op') :
      Alike (.chip op) (.chip op')
  | load {l l'} (h : l.Alike l') : Alike (.load l) (.load l')
  | loadExtension {ls ls'} (h : List.Forall₂ Literal.Alike ls ls') :
      Alike (.loadExtension ls) (.loadExtension ls')
  | give {v v'} (h : v.Alike v') : Alike (.give v) (.give v')

theorem Quartic.ofList?_eq_none {α : Type} {l : List α} (hl : l.length ≠ 4) :
    ofList? l = none := by
  rw [ofList?]
  rintro a b c d rfl
  exact hl rfl

theorem alike_extensionOfLiterals {ls ls' : List Literal} (h : List.Forall₂ Literal.Alike ls ls') :
    SameOutcome ExtensionValue.Alike (extensionOfLiterals ls) (extensionOfLiterals ls') := by
  by_cases hfour : ls.length = 4
  · obtain ⟨a, b, c, d, rfl⟩ := List.length_eq_four.1 hfour
    obtain ⟨a', b', c', d', rfl⟩ := List.length_eq_four.1 (h.length_eq.symm.trans hfour)
    have hrel : Quartic.Rel Literal.Alike ⟨a, b, c, d⟩ ⟨a', b', c', d'⟩ := by
      simp only [List.forall₂_cons, List.Forall₂.nil, and_true] at h
      exact ⟨h.1, h.2.1, h.2.2.1, h.2.2.2⟩
    exact SameOutcome.bind (SameOutcome.relation.mapQuartic hrel fun _ _ h => h.value)
      fun l l' _ => .ok (Chip.alike_extensionConstant l l')
  · have hfour' : ls'.length ≠ 4 := h.length_eq ▸ hfour
    rw [extensionOfLiterals, extensionOfLiterals, Quartic.ofList?_eq_none hfour,
      Quartic.ofList?_eq_none hfour', h.length_eq]
    exact .error _

theorem Call.Alike.run {call call' : Call} (h : call.Alike call') (S : Setting) (log log' : Log) :
    (call.run S log).Alike Value.Alike (call'.run S log') := by
  cases h with
  | gate h => exact (h.circuit S.native).run
  | field h =>
      rw [Call.run, Call.run]
      cases S.field? with
      | some E => exact (h.circuit E).run
      | none => exact ⟨rfl, .error _⟩
  | chip h =>
      rw [Call.run, Call.run]
      cases S.chip? with
      | some C => exact (h.circuit C).run
      | none => exact ⟨rfl, .error _⟩
  | load h =>
      exact ⟨rfl, SameOutcome.relation.map h.value
        fun n n' _ => .element (Chip.alike_constant n n')⟩
  | loadExtension h =>
      exact ⟨rfl, SameOutcome.relation.map (alike_extensionOfLiterals h) fun _ _ => .extension⟩
  | give h => exact ⟨rfl, .ok h⟩

/-! ### Programs -/

/-- The native values among the parts of an element. -/
def Element.scalars (a : Element) : List Scalar :=
  (a.native :: a.limbs).filterMap fun
    | .scalar s => some s
    | _ => none

/-- An instruction on what earlier instructions returned. -/
inductive Instruction where
  | gate (op : Gate Source)
  | gadget (i : ChipInstruction)
  /-- The native value and the limbs of an element. -/
  | parts (a : ℕ)

abbrev Program := List Instruction

/-- The call of an instruction, with its references looked up. -/
def ChipInstruction.call (M : ChipMemory) : ChipInstruction → Except Fault Call
  | .field op => return .field (← op.resolve M.operand M.element)
  | .chip op => return .chip (← op.resolve M.operand M.element M.extension)
  | .load l => return .load l
  | .loadExtension ls => return .loadExtension ls
  | .coordinates a => return .give (.elements (← M.extension a).toList)
  | .assemble c => return .give (.extension (← c.mapM M.element))

namespace Instruction

def call (M : ChipMemory) : Instruction → Except Fault Call
  | .gate op => return .gate (← op.resolve M.operand)
  | .gadget i => i.call M
  | .parts a => return .give (.scalars (← M.element a).scalars)

/-- The run of an instruction after the given log. -/
def run (S : Setting) (M : ChipMemory) (log : Log) (i : Instruction) : Run Value :=
  match i.call M with
  | .ok call => call.run S log
  | .error fault => ⟨[], [], .error fault⟩

end Instruction

/-- The memory after an instruction; a fault leaves it as it is. -/
def ChipMemory.after (M : ChipMemory) : Except Fault Value → ChipMemory
  | .ok v => M.store v
  | .error _ => M

/-- The runs of the instructions of a program, and what they leave behind. -/
structure Trace where
  runs : List (Run Value)
  memory : ChipMemory
  log : Log

/-- Runs the instructions in order. One that fails leaves the memory as it is, and
the next one follows. -/
def Program.trace (S : Setting) : Program → ChipMemory → Log → Trace
  | [], M, log => ⟨[], M, log⟩
  | i :: p, M, log =>
      let r := i.run S M log
      let rest := Program.trace S p (M.after r.result) (log ++ r.constraints)
      { rest with runs := r :: rest.runs }

/-! ### Alike programs -/

/-- Integers may be any; what is wired stays. -/
inductive Source.Alike : Source → Source → Prop where
  | int (n n' : ℤ) : Alike (.int n) (.int n')
  | wire (i : ℕ) : Alike (.wire i) (.wire i)

/-- Instructions that differ at most in the integers they are given. -/
inductive ChipInstruction.Alike : ChipInstruction → ChipInstruction → Prop where
  | field {op op'} (h : op.Alike Source.Alike Eq op') : Alike (.field op) (.field op')
  | chip {op op'} (h : op.Related Source.Alike Eq Eq op') : Alike (.chip op) (.chip op')
  | load {l l'} (h : l.Alike l') : Alike (.load l) (.load l')
  | loadExtension {ls ls'} (h : List.Forall₂ Literal.Alike ls ls') :
      Alike (.loadExtension ls) (.loadExtension ls')
  | coordinates (a : ℕ) : Alike (.coordinates a) (.coordinates a)
  | assemble (c : Quartic ℕ) : Alike (.assemble c) (.assemble c)

@[inherit_doc ChipInstruction.Alike]
inductive Instruction.Alike : Instruction → Instruction → Prop where
  | gate {op op'} (h : op.Related Source.Alike op') : Alike (.gate op) (.gate op')
  | gadget {i i'} (h : i.Alike i') : Alike (.gadget i) (.gadget i')
  | parts (a : ℕ) : Alike (.parts a) (.parts a)

/-- Memories that hold as many values of each sort, and alike ones. -/
structure ChipMemory.Alike (M M' : ChipMemory) : Prop where
  natives : List.Forall₂ Scalar.Alike M.natives M'.natives
  elements : List.Forall₂ Element.Alike M.elements M'.elements
  extensions : List.Forall₂ ExtensionValue.Alike M.extensions M'.extensions

@[elab_as_elim]
theorem forall₂_getElem?_cases {α β : Type} {R : α → β → Prop} {l : List α} {l' : List β}
    {P : Option α → Option β → Prop} (i : ℕ) (h : List.Forall₂ R l l')
    (hsome : ∀ a b, R a b → P (some a) (some b)) (hnone : P none none) : P l[i]? l'[i]? := by
  induction h generalizing i with
  | nil => exact hnone
  | cons hab _ ih =>
      cases i with
      | zero => exact hsome _ _ hab
      | succ i => exact ih i

namespace ChipMemory.Alike

variable {M M' : ChipMemory}

theorem native (hM : M.Alike M') (i : ℕ) :
    SameOutcome Scalar.Alike (M.native i) (M'.native i) := by
  rw [Memory.native, Memory.native]
  exact forall₂_getElem?_cases i hM.natives (fun _ _ => .ok) (.error _)

theorem element (hM : M.Alike M') (i : ℕ) :
    SameOutcome Element.Alike (M.element i) (M'.element i) := by
  rw [Memory.element, Memory.element]
  exact forall₂_getElem?_cases i hM.elements (fun _ _ => .ok) (.error _)

theorem extension (hM : M.Alike M') (i : ℕ) :
    SameOutcome ExtensionValue.Alike (M.extension i) (M'.extension i) := by
  rw [ChipMemory.extension, ChipMemory.extension]
  exact forall₂_getElem?_cases i hM.extensions (fun _ _ => .ok) (.error _)

theorem operand (hM : M.Alike M') {a a' : Source} (ha : a.Alike a') :
    SameOutcome Operand.Alike (M.operand a) (M'.operand a') := by
  cases ha with
  | int n n' => exact .ok (.int n n')
  | wire i => exact SameOutcome.relation.map (hM.native i) fun _ _ => .scalar

theorem store (hM : M.Alike M') {v v' : Value} (hv : v.Alike v') :
    (M.store v).Alike (M'.store v') where
  natives := List.rel_append hM.natives hv.nativeResults
  elements := List.rel_append hM.elements hv.elementResults
  extensions := List.rel_append hM.extensions hv.extensionResults

theorem after (hM : M.Alike M') {x x' : Except Fault Value} (hx : SameOutcome Value.Alike x x') :
    (M.after x).Alike (M'.after x') := by
  cases hx with
  | ok hv => exact hM.store hv
  | error fault => exact hM

end ChipMemory.Alike

theorem Element.Alike.scalars {a a' : Element} (h : a.Alike a') :
    List.Forall₂ Scalar.Alike a.scalars a'.scalars := by
  refine List.rel_filterMap ?_ (List.Forall₂.cons h.native h.limbs)
  rintro _ _ (hs | _ | _ | _)
  · exact .some hs
  · exact .none
  · exact .none
  · exact .none

theorem ChipInstruction.Alike.call {M M' : ChipMemory} (hM : M.Alike M') {i i' : ChipInstruction}
    (h : i.Alike i') : SameOutcome Call.Alike (i.call M) (i'.call M') := by
  have helement : ∀ a a', a = a' → SameOutcome Element.Alike (M.element a) (M'.element a') := by
    rintro a _ rfl
    exact hM.element a
  have hextension : ∀ a a', a = a' →
      SameOutcome ExtensionValue.Alike (M.extension a) (M'.extension a') := by
    rintro a _ rfl
    exact hM.extension a
  have hoperand : ∀ a a', Source.Alike a a' →
      SameOutcome Operand.Alike (M.operand a) (M'.operand a') := fun _ _ => hM.operand
  cases h with
  | field h =>
      exact SameOutcome.bind (h.resolve SameOutcome.relation hoperand helement)
        fun _ _ h => .ok (.field h)
  | chip h =>
      exact SameOutcome.bind (h.resolve SameOutcome.relation hoperand helement hextension)
        fun _ _ h => .ok (.chip h)
  | load h => exact .ok (.load h)
  | loadExtension h => exact .ok (.loadExtension h)
  | coordinates a =>
      exact (hM.extension a).bind fun _ _ h => .ok (.give (.elements h.toList))
  | assemble c =>
      have hc : c.Rel Eq c := ⟨rfl, rfl, rfl, rfl⟩
      exact SameOutcome.bind (SameOutcome.relation.mapQuartic hc helement)
        fun _ _ h => .ok (.give (.extension h))

theorem Instruction.Alike.call {M M' : ChipMemory} (hM : M.Alike M') {i i' : Instruction}
    (h : i.Alike i') : SameOutcome Call.Alike (i.call M) (i'.call M') := by
  cases h with
  | gate h =>
      exact SameOutcome.bind (h.resolve SameOutcome.relation fun _ _ => hM.operand)
        fun _ _ h => .ok (.gate h)
  | gadget h => exact h.call hM
  | parts a => exact (hM.element a).bind fun _ _ h => .ok (.give (.scalars h.scalars))

/-! ### Runs -/

theorem Instruction.Alike.run {M M' : ChipMemory} (hM : M.Alike M') {i i' : Instruction}
    (h : i.Alike i') (S : Setting) (log log' : Log) :
    (i.run S M log).Alike Value.Alike (i'.run S M' log') := by
  have hcall := h.call hM
  rw [Instruction.run, Instruction.run]
  generalize i.call M = x at hcall ⊢
  generalize i'.call M' = x' at hcall ⊢
  cases hcall with
  | ok hcall => exact hcall.run S log log'
  | error fault => exact ⟨rfl, .error fault⟩

structure Trace.Alike (t t' : Trace) : Prop where
  runs : List.Forall₂ (Run.Alike Value.Alike) t.runs t'.runs
  memory : t.memory.Alike t'.memory
  log : t.log.map Constraint.shape = t'.log.map Constraint.shape

theorem Program.trace_alike (S : Setting) {p p' : Program}
    (h : List.Forall₂ Instruction.Alike p p') {M M' : ChipMemory} (hM : M.Alike M') {log log' : Log}
    (hlog : log.map Constraint.shape = log'.map Constraint.shape) :
    (Program.trace S p M log).Alike (Program.trace S p' M' log') := by
  induction h generalizing M M' log log' with
  | nil => exact ⟨.nil, hM, hlog⟩
  | @cons i i' p p' hi _ ih =>
      have hrun : (i.run S M log).Alike Value.Alike (i'.run S M' log') := hi.run hM S log log'
      have hlog : (log ++ (i.run S M log).constraints).map Constraint.shape =
          (log' ++ (i'.run S M' log').constraints).map Constraint.shape := by
        rw [List.map_append, List.map_append, hlog, hrun.constraints]
      have hrest := ih (hM.after hrun.result) hlog
      exact ⟨.cons hrun hrest.runs, hrest.memory, hrest.log⟩

/-- Overflow and number of limbs agree. -/
structure Element.SameForm (a a' : Element) : Prop where
  overflow : a.overflow = a'.overflow
  limbs : a.limbs.length = a'.limbs.length

theorem Element.Alike.sameForm {a a' : Element} (h : a.Alike a') : a.SameForm a' :=
  ⟨h.overflow, h.limbs.length_eq⟩

theorem SameOutcome.map_eq {α β : Type} {R : α → β → Prop} {x : Except Fault α}
    {y : Except Fault β} (h : SameOutcome R x y) :
    (x.map fun _ => ()) = y.map fun _ => () := by
  cases h with
  | ok | error => rfl

/-- Programs with the same operations and wiring build circuits of the same shape,
and fail at the same instructions for the same causes. -/
theorem Program.shape_independent (S : Setting) {p p' : Program}
    (h : List.Forall₂ Instruction.Alike p p') :
    let t := Program.trace S p .empty []
    let t' := Program.trace S p' .empty []
    t.log.map Constraint.shape = t'.log.map Constraint.shape ∧
    List.Forall₂ (fun r r' =>
      r.constraints.map Constraint.shape = r'.constraints.map Constraint.shape ∧
        (r.result.map fun _ => ()) = r'.result.map fun _ => ()) t.runs t'.runs ∧
    List.Forall₂ Element.SameForm t.memory.elements t'.memory.elements ∧
    List.Forall₂ (Quartic.Rel Element.SameForm) t.memory.extensions t'.memory.extensions := by
  have htrace : (Program.trace S p .empty []).Alike (Program.trace S p' .empty []) :=
    Program.trace_alike S h ⟨.nil, .nil, .nil⟩ rfl
  refine ⟨htrace.log, ?_, ?_, ?_⟩
  · exact htrace.runs.imp fun _ _ hrun => ⟨hrun.constraints, hrun.result.map_eq⟩
  · exact htrace.memory.elements.imp fun _ _ ha => ha.sameForm
  · exact htrace.memory.extensions.imp
      fun _ _ ha => ⟨ha.c0.sameForm, ha.c1.sameForm, ha.c2.sameForm, ha.c3.sameForm⟩

/-- Inverts a number in the field and in its extension, and negates a flag of it. -/
def inversions (n : ℤ) : Program :=
  [.gadget (.load (.int n)), .gadget (.field (.inverse 0)),
    .gadget (.field (.select (.int n) 0 1)),
    .gadget (.loadExtension [.int n, .int 0, .int 0, .int 0]), .gadget (.chip (.invExt 0)),
    .gadget (.chip (.unpack (.int n))), .gadget (.field (.isZero 0)), .gate (.isZero (.wire 0))]

theorem inversions_alike (n n' : ℤ) :
    List.Forall₂ Instruction.Alike (inversions n) (inversions n') := by
  have hint (n n' : ℤ) : (Literal.int n).Alike (.int n') := Iff.rfl
  refine .cons (.gadget (.load (hint n n'))) <|
    .cons (.gadget (.field (.related (.inverse rfl)))) <|
    .cons (.gadget (.field (.related (.select (.int n n') rfl rfl)))) <|
    .cons (.gadget (.loadExtension ?_)) <| .cons (.gadget (.chip (.invExt rfl))) <|
    .cons (.gadget (.chip (.unpack (.int n n')))) <|
    .cons (.gadget (.field (.related (.isZero rfl)))) <| .cons (.gate (.isZero (.wire 0))) .nil
  exact .cons (hint n n') <| .cons (hint 0 0) <| .cons (hint 0 0) <| .cons (hint 0 0) .nil

theorem shape_inversions :
    ((inversions 0).trace (.chip .overBn254) .empty []).log.map Constraint.shape =
      ((inversions 7).trace (.chip .overBn254) .empty []).log.map Constraint.shape :=
  (Program.shape_independent (.chip .overBn254) (inversions_alike 0 7)).1

/-- Loads the number that is written with so many sevens. -/
def loadSevens (n : ℕ) : Program :=
  [.gadget (.load (.text (String.ofList (List.replicate n '7'))))]

/-- One seven is loaded and 4301 are not, although both texts are runs of digits. -/
theorem loadSevens_digit_limit :
    let outcomes := fun n =>
      ((loadSevens n).trace (.chip .overBn254) .empty []).runs.map (·.result.map fun _ => ())
    IsDigitRun (List.replicate 1 '7') (List.replicate 1 7) ∧
    IsDigitRun (List.replicate 4301 '7') (List.replicate 4301 7) ∧
    outcomes 1 = [.ok ()] ∧ outcomes 4301 = [.error .malformedLiteral] := by
  have hseven : IsDecimalDigit '7' 7 := ⟨by decide, '0'.toNat, by decide, by decide⟩
  have hlong := isDigitRun_replicate hseven 4300
  refine ⟨isDigitRun_replicate hseven 0, hlong, by decide +kernel, ?_⟩
  have hrefused : ¬ (Literal.text (String.ofList (List.replicate 4301 '7'))).IsNumeral := by
    rw [← String.toList_ofList (l := List.replicate 4301 '7')] at hlong
    refine hlong.not_denotes ?_
    rw [List.length_replicate]
    exact Nat.lt_succ_self 4300
  have hvalue := Literal.value_of_not_isNumeral hrefused
  simp only [loadSevens, Program.trace, Instruction.run, Instruction.call, ChipInstruction.call,
    Call.run, hvalue, pure, Except.pure]
  rfl

end NonNative
