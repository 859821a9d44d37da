import Mathlib.NumberTheory.LucasLehmer
import NonNative.Proofs.ChipRuns
import NonNative.Proofs.Completion
import NonNative.Proofs.ShapeIndependence

/-!
Programs on a chip over any native field, on values of that field. No instruction
is refused for the numbers that it meets: a false assertion and the inverse of zero
are recorded as constraints that fail, and the run goes on. What is refused is the
inversion of an extension value, by every native field but BN254, because it
compares with a constant over BN254.
-/

namespace NonNative

open Circuit

/-! ### Values of a chip -/

/-- Whatever the value holds belongs to the native field of the chip. -/
structure Value.BelongsTo (C : Chip) (v : Value) : Prop where
  natives : ∀ s ∈ v.nativeResults, C.native.Contains s
  elements : ∀ a ∈ v.elementResults, C.field.Owns a
  extensions : ∀ a ∈ v.extensionResults, C.OwnsExt a

namespace Value

variable {C : Chip}

theorem belongsTo_nothing : Value.nothing.BelongsTo C :=
  ⟨List.forall_mem_nil _, List.forall_mem_nil _, List.forall_mem_nil _⟩

theorem belongsTo_scalar {s : Scalar} (h : C.native.Contains s) : (Value.scalar s).BelongsTo C :=
  ⟨List.forall_mem_singleton.2 h, List.forall_mem_nil _, List.forall_mem_nil _⟩

theorem belongsTo_scalars {l : List Scalar} (h : ∀ s ∈ l, C.native.Contains s) :
    (Value.scalars l).BelongsTo C :=
  ⟨by rwa [nativeResults_scalars], by simp, List.forall_mem_nil _⟩

theorem belongsTo_element {a : Element} (h : C.field.Owns a) : (Value.element a).BelongsTo C :=
  ⟨List.forall_mem_nil _, List.forall_mem_singleton.2 h, List.forall_mem_nil _⟩

theorem belongsTo_elements {l : List Element} (h : ∀ a ∈ l, C.field.Owns a) :
    (Value.elements l).BelongsTo C :=
  ⟨by simp, by rwa [elementResults_elements], List.forall_mem_nil _⟩

theorem belongsTo_extension {a : ExtensionValue} (h : C.OwnsExt a) :
    (Value.extension a).BelongsTo C :=
  ⟨List.forall_mem_nil _, List.forall_mem_nil _, List.forall_mem_singleton.2 h⟩

end Value

/-! ### Arguments -/

/-- The native field takes the operand: it is a value of the field, or a number. -/
def Operand.isOver (F : NativeField) (a : Operand) : Bool :=
  match F.accept a with
  | .done _ => true
  | _ => false

def Element.isOver (F : NativeField) (a : Element) : Bool :=
  a.native.isOver F && a.limbs.all (·.isOver F)

def ExtensionValue.isOver (F : NativeField) (a : ExtensionValue) : Bool :=
  a.toList.all (·.isOver F)

theorem Operand.owns_of_isOver {F : NativeField} {a : Operand} (h : a.isOver F) : F.Owns a := by
  rw [isOver] at h
  split at h
  · next s hs => exact ⟨s, hs⟩
  · cases h

theorem Element.owns_of_isOver {E : EmulatedField} {a : Element} (h : a.isOver E.native)
    (hoverflow : 0 ≤ a.overflow) : E.Owns a := by
  rw [isOver, Bool.and_eq_true, List.all_eq_true] at h
  exact ⟨Operand.owns_of_isOver h.1, fun l hl => Operand.owns_of_isOver (h.2 l hl), hoverflow⟩

namespace ChipMemory

/-- An argument as the memory gives it, if it is over the native field. -/
def ownOperand (F : NativeField) (M : ChipMemory) (a : Source) : Option Operand :=
  (M.operand a).toOption.filter (·.isOver F)

@[inherit_doc ownOperand]
def ownElement (F : NativeField) (M : ChipMemory) (i : ℕ) : Option Element :=
  (M.element i).toOption.filter (·.isOver F)

@[inherit_doc ownOperand]
def ownExtension (F : NativeField) (M : ChipMemory) (i : ℕ) : Option ExtensionValue :=
  (M.extension i).toOption.filter (ExtensionValue.isOver F)

/-- No element states a bound below the width of its limbs. -/
structure IsProper (M : ChipMemory) : Prop where
  elements : ∀ a ∈ M.elements, 0 ≤ a.overflow
  extensions : ∀ a ∈ M.extensions, a.All fun x => 0 ≤ x.overflow

variable {M : ChipMemory}

theorem isProper_empty : empty.IsProper := ⟨List.forall_mem_nil _, List.forall_mem_nil _⟩

theorem IsProper.store (hM : M.IsProper) {C : Chip} {v : Value} (hv : v.BelongsTo C) :
    (M.store v).IsProper where
  elements := List.forall_mem_append.2 ⟨hM.elements, fun a ha => (hv.elements a ha).overflow_nonneg⟩
  extensions := by
    refine List.forall_mem_append.2 ⟨hM.extensions, fun a ha => ?_⟩
    obtain ⟨h0, h1, h2, h3⟩ := hv.extensions a ha
    exact ⟨h0.overflow_nonneg, h1.overflow_nonneg, h2.overflow_nonneg, h3.overflow_nonneg⟩

/-- What passes a filter is there, and has the property that the filter ensures. -/
theorem refines_filter {α : Type} {x : Except Fault α} {p : α → Bool} {P : α → Prop}
    (h : ∀ a, x = .ok a → p a → P a) : Refines (fun a _ => P a) x (x.toOption.filter p) := by
  intro b hb
  cases x with
  | error fault => simp [Except.toOption] at hb
  | ok a =>
      obtain ⟨hab, hp⟩ := Option.filter_eq_some_iff.1 hb
      obtain rfl := Option.some.inj hab
      exact ⟨a, rfl, h a rfl hp⟩

variable {C : Chip}

theorem refines_ownOperand (M : ChipMemory) (a : Source) :
    Refines (fun a _ => C.native.Owns a) (M.operand a) (M.ownOperand C.native a) :=
  refines_filter fun _ _ => Operand.owns_of_isOver

theorem IsProper.refines_ownElement (hM : M.IsProper) (i : ℕ) :
    Refines (fun a _ => C.field.Owns a) (M.element i) (M.ownElement C.native i) :=
  refines_filter fun a ha hover =>
    Element.owns_of_isOver hover (hM.elements a (Memory.mem_of_element ha))

theorem IsProper.refines_ownExtension (hM : M.IsProper) (i : ℕ) :
    Refines (fun a _ => C.OwnsExt a) (M.extension i) (M.ownExtension C.native i) := by
  refine refines_filter fun a ha hover => ?_
  obtain ⟨h0, h1, h2, h3⟩ := hM.extensions a (mem_of_extension ha)
  simp only [ExtensionValue.isOver, Quartic.toList, List.all_cons, List.all_nil, Bool.and_true,
    Bool.and_eq_true] at hover
  obtain ⟨o0, o1, o2, o3⟩ := hover
  exact ⟨Element.owns_of_isOver o0 h0, Element.owns_of_isOver o1 h1, Element.owns_of_isOver o2 h2,
    Element.owns_of_isOver o3 h3⟩

end ChipMemory

/-! ### Programs -/

/-- The literal of a constant can be read. A padding is left out: it is a number
and no value of the field, and may be too long to be written. -/
def FieldOp.isReadable {ν β : Type} : FieldOp ν β → Bool
  | .constant l => l.value.isOk
  | .paddingMultiple _ => false
  | _ => true

namespace ChipInstruction

/-- The arguments of the instruction are in the memory and over the native field of
the chip, and its literals can be read. -/
def isAdmissible (C : Chip) (M : ChipMemory) : ChipInstruction → Bool
  | .field op =>
      (op.resolve (M.ownOperand C.native) (M.ownElement C.native)).any (·.isReadable)
  | .chip op =>
      (op.resolve (M.ownOperand C.native) (M.ownElement C.native)
        (M.ownExtension C.native)).isSome
  | .load l => l.value.isOk
  | .loadExtension ls => (extensionOfLiterals ls).isOk
  | .coordinates a => (M.ownExtension C.native a).isSome
  | .assemble c => (c.mapM (M.ownElement C.native)).isSome

def isInversion : ChipInstruction → Bool
  | .chip op => op.isInversion
  | _ => false

/-- The chip whose values the instruction returns. Literals are loaded over BN254. -/
def home (C : Chip) : ChipInstruction → Chip
  | .chip op => op.home C
  | .load _ | .loadExtension _ => .overBn254
  | _ => C

end ChipInstruction

/-- Every instruction is admissible when the run gets to it. -/
def ChipProgram.isAdmissible (C : Chip) : ChipProgram → ChipMemory → Bool
  | [], _ => true
  | i :: p, M =>
      i.isAdmissible C M &&
        ChipProgram.isAdmissible C p (M.after ((Instruction.gadget i).run (.chip C) M []).result)

/-! ### One step -/

theorem Instruction.run_gadget {i : ChipInstruction} {M : ChipMemory} {call : Call}
    (hcall : i.call M = .ok call) (S : Setting) (log : Log) :
    (Instruction.gadget i).run S M log = call.run S log := by
  rw [Instruction.run, Instruction.call, hcall]

/-- The run of an instruction defers failures. It returns a value, and what it has
recorded can be judged later. Only an inversion over a field other than BN254 is
refused: the field meets a constant over BN254. -/
structure Chip.Defers (C : Chip) (i : ChipInstruction) (r : Run Value) : Prop where
  judged : ∀ k ∈ r.constraints, k.IsJudged
  returned : (i.isInversion → C.native.order = bn254.order) →
    ∃ v, r.result = .ok v ∧ v.BelongsTo (i.home C)
  refused : i.isInversion → C.native.order ≠ bn254.order →
    r.result = .error (.foreignValue C.native.order bn254.order)

namespace Chip.Defers

variable {C : Chip} {i : ChipInstruction}

theorem of_completes {c : Circuit Value} (h : c.Completes (Value.BelongsTo (i.home C)))
    (hi : i.isInversion → C.native.order = bn254.order) : C.Defers i c.run where
  judged := Every.constraints h
  returned _ := h.exists_result
  refused hinversion hforeign := absurd (hi hinversion) hforeign

theorem of_refuses {c : Circuit Value}
    (h : c.Every Constraint.IsJudged (· = C.foreignOne) fun _ => False) (hi : i.isInversion)
    (hforeign : C.native.order ≠ bn254.order) : C.Defers i c.run where
  judged := h.constraints
  returned hhome := absurd (hhome hi) hforeign
  refused _ _ := by
    obtain ⟨_, _, hfalse⟩ | ⟨fault, hfault, rfl⟩ := h.result
    · exact hfalse.elim
    · exact hfault

theorem of_silent {v : Value} (hv : v.BelongsTo (i.home C)) (hi : i.isInversion = false) :
    C.Defers i ⟨[], [], .ok v⟩ where
  judged := List.forall_mem_nil _
  returned _ := ⟨v, rfl, hv⟩
  refused h := by simp [hi] at h

end Chip.Defers

section Step

variable {C : Chip}

open EmulatedField Value in
/-- An operation of the field on values of the native field. -/
theorem FieldOp.completes {op op' : FieldOp Operand Element}
    (h : op.Related (fun a _ => C.native.Owns a) (fun a _ => C.field.Owns a) op')
    (hop : op'.isReadable) : (op.circuit C.field).Completes (Value.BelongsTo C) := by
  cases h with
  | constant l =>
      obtain ⟨n, hn⟩ := exists_of_isOk hop
      rw [FieldOp.circuit, hn, ofExcept_ok, map_pure]
      exact belongsTo_element (C.field.owns_constant n)
  | zero => exact belongsTo_element (C.field.owns_constant 0)
  | one => exact belongsTo_element (C.field.owns_constant 1)
  | ofNative ha => exact (completes_ofNative ha).map fun _ => belongsTo_element
  | witness n => exact (completes_witness n).map fun _ => belongsTo_element
  | canonical hr label => exact (completes_canonical hr label).map fun _ => belongsTo_element
  | remainder hv bound label =>
      exact (completes_remainder hv bound label).map fun _ => belongsTo_element
  | reduce ha => exact (completes_reduce ha).map fun _ => belongsTo_element
  | paddingMultiple ha => simp [FieldOp.isReadable] at hop
  | add ha hb => exact (completes_add ha hb).map fun _ => belongsTo_element
  | neg ha => exact (completes_neg ha).map fun _ => belongsTo_element
  | sub ha hb => exact (completes_sub ha hb).map fun _ => belongsTo_element
  | mul ha hb => exact (completes_mul ha hb).map fun _ => belongsTo_element
  | inverse ha => exact (completes_inverse ha).map fun _ => belongsTo_element
  | select hc ha hb => exact (completes_select hc ha hb).map fun _ => belongsTo_element
  | isZero ha => exact (completes_elementIsZero ha).map fun _ => belongsTo_scalar
  | assertEqual ha hb label =>
      exact (completes_elementsEqual ha hb label).map fun _ _ => belongsTo_nothing
  | toBits ha => exact (completes_elementBits ha).map fun _ => belongsTo_scalars

open EmulatedField Chip Value in
/-- An operation of the chip that is no inversion, or is one over BN254. -/
theorem ChipOp.completes {op op' : ChipOp Operand Element ExtensionValue}
    (h : op.Related (fun a _ => C.native.Owns a) (fun a _ => C.field.Owns a)
      (fun a _ => C.OwnsExt a) op')
    (hop : op'.isInversion → C.native.order = bn254.order) :
    (op.circuit C).Completes (Value.BelongsTo (op'.home C)) := by
  cases h with
  | assertNotEqual ha hb =>
      exact (completes_assertNotEqual ha hb).map fun _ _ => belongsTo_nothing
  | unpack ha => exact (completes_unpack ha).map fun _ => belongsTo_elements
  | print ha => exact (completes_print ha).map fun _ _ => belongsTo_nothing
  | zeroExt => exact belongsTo_extension (ownsExt_extensionConstant _)
  | oneExt => exact belongsTo_extension (ownsExt_extensionConstant _)
  | ofBase ha => exact belongsTo_extension (ownsExt_ofBase ha)
  | addExt ha hb => exact (completes_addExt ha hb).map fun _ => belongsTo_extension
  | subExt ha hb => exact (completes_subExt ha hb).map fun _ => belongsTo_extension
  | negExt ha => exact (completes_negExt ha).map fun _ => belongsTo_extension
  | mulExt ha hb => exact (completes_mulExt ha hb).map fun _ => belongsTo_extension
  | invExt ha => exact (completes_invExt (hop rfl) ha).map fun _ => belongsTo_extension
  | divExt ha hb => exact (completes_divExt (hop rfl) ha hb).map fun _ => belongsTo_extension
  | assertEqualExt ha hb =>
      exact (completes_assertEqualExt ha hb).map fun _ _ => belongsTo_nothing
  | assertNotEqualExt ha hb =>
      exact (completes_assertNotEqualExt ha hb).map fun _ _ => belongsTo_nothing
  | selectExt hc ha hb => exact (completes_selectExt hc ha hb).map fun _ => belongsTo_extension
  | addBase ha hb => exact (completes_addBase ha hb).map fun _ => belongsTo_extension
  | subBase ha hb => exact (completes_subBase ha hb).map fun _ => belongsTo_extension
  | mulBase ha hb => exact (completes_mulBase ha hb).map fun _ => belongsTo_extension
  | divBase ha hb => exact (completes_divBase ha hb).map fun _ => belongsTo_extension
  | printExt ha => exact (completes_printExt ha).map fun _ _ => belongsTo_nothing

open Chip in
theorem ChipOp.refuses {op op' : ChipOp Operand Element ExtensionValue}
    (h : op.Related (fun a _ => C.native.Owns a) (fun a _ => C.field.Owns a)
      (fun a _ => C.OwnsExt a) op')
    (hop : op'.isInversion) (hforeign : C.native.order ≠ bn254.order) :
    (op.circuit C).Every Constraint.IsJudged (· = C.foreignOne) fun _ => False := by
  cases h with
  | invExt ha => exact (refuses_invExt hforeign ha).map fun _ => id
  | divExt ha hb => exact (refuses_divExt hforeign hb).map fun _ => id
  | _ => cases hop

theorem ownsExt_of_literals {ls : List Literal} {a : ExtensionValue}
    (h : extensionOfLiterals ls = .ok a) : Chip.overBn254.OwnsExt a := by
  rw [extensionOfLiterals] at h
  split at h
  · cases h
  · next l _ =>
      cases hl : l.mapM (·.value) with
      | error fault =>
          rw [hl] at h
          cases h
      | ok ns =>
          rw [hl] at h
          obtain rfl := Except.ok.inj h
          exact Chip.ownsExt_extensionConstant ns

/-- Looking up the arguments does not change the operation. -/
theorem ChipOp.kind_resolve {ν β ε ν' β' ε' : Type} {native : ν → Option ν'}
    {element : β → Option β'} {extension : ε → Option ε'} {op : ChipOp ν β ε}
    {op' : ChipOp ν' β' ε'} (h : op.resolve native element extension = some op') :
    op'.isInversion = op.isInversion ∧ op'.home C = op.home C := by
  cases op <;> simp only [ChipOp.resolve, Option.bind_eq_bind, Option.bind_eq_some_iff,
    Option.pure_def, Option.some.injEq] at h <;> grind [ChipOp.isInversion, ChipOp.home]

variable {M : ChipMemory}

/-- One instruction on values of the native field. -/
theorem ChipInstruction.defers (hM : M.IsProper) {i : ChipInstruction}
    (hi : i.isAdmissible C M) (log : Log) :
    C.Defers i ((Instruction.gadget i).run (.chip C) M log) := by
  cases i with
  | field op =>
      cases hop : op.resolve (M.ownOperand C.native) (M.ownElement C.native) with
      | none => simp [isAdmissible, hop] at hi
      | some op' =>
          rw [isAdmissible, hop] at hi
          obtain ⟨fieldCall, hresolve, hargs⟩ := FieldOp.refines_resolve M.refines_ownOperand
            hM.refines_ownElement op op' hop
          have hcall : call M (.field op) = .ok (.field fieldCall) := by rw [call, hresolve]; rfl
          rw [Instruction.run_gadget hcall]
          exact .of_completes (FieldOp.completes hargs hi) (absurd · Bool.false_ne_true)
  | chip op =>
      obtain ⟨op', hop⟩ := Option.isSome_iff_exists.1 hi
      obtain ⟨hinversion, hhome⟩ := ChipOp.kind_resolve hop
      obtain ⟨chipCall, hresolve, hargs⟩ := ChipOp.refines_resolve M.refines_ownOperand
        hM.refines_ownElement hM.refines_ownExtension op op' hop
      have hcall : call M (.chip op) = .ok (.chip chipCall) := by rw [call, hresolve]; rfl
      rw [Instruction.run_gadget hcall]
      by_cases hone : op.isInversion → C.native.order = bn254.order
      · refine .of_completes ?_ hone
        rw [home, ← hhome]
        exact ChipOp.completes hargs (hinversion ▸ hone)
      · obtain ⟨hop, hforeign⟩ := Classical.not_imp.1 hone
        exact .of_refuses (ChipOp.refuses hargs (hinversion ▸ hop) hforeign) hop hforeign
  | load l =>
      obtain ⟨n, hn⟩ := exists_of_isOk hi
      rw [Instruction.run_gadget rfl, Call.run, hn]
      exact .of_silent (Value.belongsTo_element (Chip.overBn254.field.owns_constant n)) rfl
  | loadExtension ls =>
      obtain ⟨a, ha⟩ := exists_of_isOk hi
      rw [Instruction.run_gadget rfl, Call.run, ha]
      exact .of_silent (Value.belongsTo_extension (ownsExt_of_literals ha)) rfl
  | coordinates a =>
      obtain ⟨_, hown⟩ := Option.isSome_iff_exists.1 hi
      obtain ⟨c, hc, hargs⟩ := hM.refines_ownExtension a _ hown
      have hcall : call M (.coordinates a) = .ok (.give (.elements c.toList)) := by
        rw [call, hc]
        rfl
      rw [Instruction.run_gadget hcall]
      exact .of_silent (Value.belongsTo_elements (Chip.OwnsExt.toList hargs)) rfl
  | assemble c =>
      obtain ⟨_, hown⟩ := Option.isSome_iff_exists.1 hi
      obtain ⟨a, ha, hargs⟩ := Quartic.refines_mapM hM.refines_ownElement c _ hown
      have hcall : call M (.assemble c) = .ok (.give (.extension a)) := by
        rw [call, ha]
        rfl
      rw [Instruction.run_gadget hcall]
      exact .of_silent (Value.belongsTo_extension ⟨hargs.c0, hargs.c1, hargs.c2, hargs.c3⟩) rfl

end Step

/-! ### Violations -/

/-- Operations on values with a meaning leave failing what they demand in vain, and
nothing else. -/
structure Chip.RecordsViolations (C : Chip) : Prop where
  field {op : FieldOp Operand Element} {op' : FieldOp ℕ (ZMod C.field.modulus)}
    {e : Meaning C.field.modulus} (h : op.Related C.native.StandsFor C.field.Encodes op')
    (he : op'.meaning C.field = some e) :
    Log.unsatisfied (op.circuit C.field).run.constraints =
      .ok (e.demands.flatMap (Demand.blame C.field))
  chip {op : ChipOp Operand Element ExtensionValue}
    {op' : ChipOp ℕ (ZMod BabyBear.prime) QuarticField} {e : ChipMeaning}
    (h : op.Related C.native.StandsFor C.Encodes C.EncodesExt op')
    (hone : op'.isInversion → C.native.order = bn254.order) (he : op'.meaning = some e) :
    Log.unsatisfied (op.circuit C).run.constraints = .ok (e.demands.flatMap (ChipDemand.blame C))

theorem Chip.recordsViolations {C : Chip} (hnative : C.native.order.Prime) :
    C.RecordsViolations := by
  have hhonest : Prover.honest ≠ .arbitrary := nofun
  constructor
  · intro op op' e h he
    obtain ⟨v, -, hcircuit⟩ := FieldOp.gives_circuit hnative C.peak_sq_lt_order
      (absurd · hhonest) h (absurd · hhonest) he
    exact hcircuit.unsatisfied
  · intro op op' e h hone he
    obtain ⟨v, -, hcircuit⟩ := ChipOp.gives_circuit hnative (absurd · hhonest) h hone
      (absurd · hhonest) he
    exact hcircuit.unsatisfied

/-! ### Whole runs -/

namespace ChipProgram

variable {C : Chip} {p : ChipProgram}

/-- No instruction looks at the log. -/
theorem run_gadget_eq (i : ChipInstruction) (S : Setting) (M : ChipMemory) (log log' : Log) :
    (Instruction.gadget i).run S M log = (Instruction.gadget i).run S M log' := by
  simp only [Instruction.run, Instruction.call]
  cases i with
  | field op =>
      rw [ChipInstruction.call]
      cases op.resolve M.operand M.element <;> rfl
  | chip op =>
      rw [ChipInstruction.call]
      cases op.resolve M.operand M.element M.extension <;> rfl
  | load l => rfl
  | loadExtension ls => rfl
  | coordinates a =>
      rw [ChipInstruction.call]
      cases M.extension a <;> rfl
  | assemble c =>
      rw [ChipInstruction.call]
      cases c.mapM M.element <;> rfl

/-- The run of a program. That no overflow is negative is kept by every step,
because constants over BN254 have none either. -/
theorem trace_defers {M : ChipMemory} (hM : M.IsProper) (hp : p.isAdmissible C M) {log : Log}
    (hlog : ∀ k ∈ log, k.IsJudged) :
    let t := Program.trace (.chip C) (p.map .gadget) M log
    List.Forall₂ C.Defers p t.runs ∧ ∀ k ∈ t.log, k.IsJudged := by
  induction p generalizing M log with
  | nil => exact ⟨.nil, hlog⟩
  | cons i p ih =>
      rw [isAdmissible, Bool.and_eq_true] at hp
      have hstep := ChipInstruction.defers hM hp.1 log
      rw [run_gadget_eq i _ M [] log] at hp
      have hafter : (M.after ((Instruction.gadget i).run (.chip C) M log).result).IsProper := by
        by_cases hone : i.isInversion → C.native.order = bn254.order
        · obtain ⟨v, hv, hbelongs⟩ := hstep.returned hone
          rw [hv]
          exact hM.store hbelongs
        · -- what is refused returns nothing to be stored
          obtain ⟨hinversion, hforeign⟩ := Classical.not_imp.1 hone
          rw [hstep.refused hinversion hforeign]
          exact hM
      obtain ⟨hruns, hrest⟩ := ih hafter hp.2 (List.forall_mem_append.2 ⟨hlog, hstep.judged⟩)
      exact ⟨.cons hstep hruns, hrest⟩

/-- Failures are deferred: on values of its native field every instruction of a
program runs to its end, unless it inverts an extension value and the field is not
BN254. All that has been recorded can be judged, and what an operation demands in
vain is there as a constraint that fails. -/
theorem failures_deferred (hnative : C.native.order.Prime) (hp : p.isAdmissible C .empty) :
    let t := Program.trace (.chip C) (p.map .gadget) .empty []
    List.Forall₂ C.Defers p t.runs ∧
      t.log.unsatisfied = .ok (t.log.filter fun k => ¬ k.Holds) ∧ C.RecordsViolations := by
  obtain ⟨hruns, hlog⟩ := trace_defers ChipMemory.isProper_empty hp (List.forall_mem_nil _)
  exact ⟨hruns, Log.unsatisfied_eq_filter hlog, C.recordsViolations hnative⟩

/-- A chip over the field of a Mersenne prime. -/
def overMersenne : Chip := ⟨⟨2 ^ 89 - 1, by decide⟩, by decide⟩

theorem overMersenne_prime : overMersenne.native.order.Prime :=
  lucas_lehmer_sufficiency 89 (by norm_num) (by norm_num)

/-- Inverts zero and divides by it, asserts what is false, and goes on after an
inversion that is refused. The constant over BN254 is not touched again. -/
def vainOperations : ChipProgram :=
  [.field .zero, .field (.constant (.int 5)), .field (.inverse 0),
    .field (.assertEqual 0 1 "assert_equal"), .chip (.unpack (.int (-1))), .chip (.ofBase 3),
    .chip (.divBase 0 0), .chip (.assertNotEqualExt 0 0), .chip .oneExt, .chip (.mulExt 0 1),
    .chip (.invExt 0), .field (.add 1 3)]

theorem deferred_vainOperations :
    let t := Program.trace (.chip overMersenne) (vainOperations.map .gadget) .empty []
    overMersenne.native.order.Prime ∧ vainOperations.isAdmissible overMersenne .empty ∧
      List.Forall₂ overMersenne.Defers vainOperations t.runs ∧
      t.log.unsatisfied = .ok (t.log.filter fun k => ¬ k.Holds) ∧
      (t.log.filter fun k => ¬ k.Holds).map (·.label) =
        ["inverse", "assert_equal", "inverse", "assert_not_equal_e"] := by
  have hadmissible : vainOperations.isAdmissible overMersenne .empty := by decide +kernel
  obtain ⟨hruns, hlog, -⟩ := failures_deferred overMersenne_prime hadmissible
  exact ⟨overMersenne_prime, hadmissible, hruns, hlog, by decide +kernel⟩

/-- Takes one as an extension value and inverts it. -/
def inverseOfOne : ChipProgram := [.field .one, .chip (.ofBase 0), .chip (.invExt 0)]

/-- Over another field than BN254 even one has no inverse in the extension. -/
theorem inverseOfOne_refused :
    overMersenne.native.order.Prime ∧ inverseOfOne.isAdmissible overMersenne .empty ∧
      ∃ r ∈ (Program.trace (.chip overMersenne) (inverseOfOne.map .gadget) .empty []).runs,
        r.result = .error (.foreignValue (2 ^ 89 - 1) bn254.order) := by
  have hadmissible : inverseOfOne.isAdmissible overMersenne .empty := by decide +kernel
  obtain ⟨hruns, -⟩ := trace_defers ChipMemory.isProper_empty hadmissible (List.forall_mem_nil _)
  have hlast : 2 < inverseOfOne.length := by decide
  have hlast' := hruns.length_eq ▸ hlast
  have hforeign : overMersenne.native.order ≠ bn254.order := by decide +kernel
  exact ⟨overMersenne_prime, hadmissible, _, List.get_mem _ ⟨2, hlast'⟩,
    (hruns.get hlast hlast').refused rfl hforeign⟩

end ChipProgram

end NonNative
