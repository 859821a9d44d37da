import NonNative.Proofs.Agreement
import NonNative.Script.Session

/-!
The log of a session is only appended to, and only the reports read it. An action is given
the log; that it leaves the log followed by constraints which depend on the call alone, also
where it fails on its way, is known from the circuit that it carries out. So a constraint
that fails stays in the log, and no later report finds the log satisfied.
-/

namespace NonNative

open Circuit

/-! ### Calls -/

namespace Call

def isReport : Call → Bool
  | .report _ => true
  | _ => false

variable (S : Setting)

theorem run_eq_of_not_report {call : Call} (h : call.isReport = false) (log log' : Log) :
    call.run S log = call.run S log' := by
  cases call with
  | report r => cases h
  | gate | field | chip | load | loadExtension | give => rfl

theorem constraints_report (r : Report) (log : Log) :
    ((Call.report r).run S log).constraints = [] := by
  cases r <;> rfl

/-- A call that is no report appends the same to every log, and ends in the same way. -/
theorem execute_live_of_not_report {call : Call} (h : call.isReport = false) (log : Log) :
    let alone := (call.live S).execute []
    (call.live S).execute log = ⟨alone.result, log ++ alone.log, alone.messages⟩ := by
  rw [execute_live, execute_live, run_eq_of_not_report S h log [], List.nil_append]

end Call

/-! ### Operations that record nothing -/

/-- On no run is anything recorded. -/
abbrev Circuit.Silent {α : Type} (c : Circuit α) : Prop :=
  c.Every (fun _ => False) (fun _ => True) fun _ => True

theorem Circuit.Silent.constraints_eq_nil {α : Type} {c : Circuit α} (h : c.Silent) :
    c.run.constraints = [] :=
  List.eq_nil_iff_forall_not_mem.2 h.constraints

theorem Circuit.Every.silent {α β : Type} {c : Circuit α} {P : α → Prop} {f : α → β}
    (h : c.Every (fun _ => False) (fun _ => True) P) : (f <$> c).Silent :=
  h.map fun _ _ => trivial

theorem Circuit.silent_ofExcept {α : Type} (x : Except Fault α) : (ofExcept x).Silent :=
  every_ofExcept (fun _ _ => trivial) fun _ _ => trivial

/-- Values, arithmetic, free hints, selection, recomposition and printing. -/
def Gate.isQuiet {ν : Type} : Gate ν → Bool
  | .constant _ | .hint _ _ | .add _ _ _ | .sub _ _ | .mul _ _ _ | .neg _ | .select _ _ _
  | .ofBits _ | .print _ => true
  | _ => false

@[inherit_doc Gate.isQuiet]
def FieldOp.isQuiet {ν β : Type} : FieldOp ν β → Bool
  | .constant _ | .zero | .one | .paddingMultiple _ | .select _ _ _ => true
  | _ => false

@[inherit_doc Gate.isQuiet]
def ChipOp.isQuiet {ν β ε : Type} : ChipOp ν β ε → Bool
  | .print _ | .printExt _ | .zeroExt | .oneExt | .ofBase _ | .selectExt _ _ _ => true
  | _ => false

def Call.isQuiet : Call → Bool
  | .gate op => op.isQuiet
  | .field op => op.isQuiet
  | .chip op => op.isQuiet
  | .load _ | .loadExtension _ | .give _ | .report _ => true

theorem NativeField.silent_answer {F : NativeField} (a : Operand) : (F.answer a).Silent :=
  (risks_of_true a).every_accept.bind fun _ _ => (every_hint _).imp fun _ _ => trivial

open NativeField in
theorem Gate.silent {F : NativeField} {op : Gate Operand} (h : op.isQuiet) :
    (op.circuit F).Silent := by
  cases op with
  | constant a => exact (risks_of_true a).every_accept.silent
  | hint rule inputs =>
      refine (Every.mapM fun a _ => (risks_of_true a).every_accept.imp fun _ _ => trivial).bind
        fun values _ => ?_
      refine (silent_ofExcept _).bind fun answer _ => ?_
      cases answer with
      | one a => exact (silent_answer a).silent
      | many l => exact (Every.mapM fun a _ => silent_answer a).silent
  | add a b more =>
      refine ((risks_of_true a).every_add (risks_of_true b)).bind fun sum _ => ?_
      exact (Every.foldlM (Q := fun _ => True) (fun _ _ x _ =>
        ((risks_of_true _).every_add (risks_of_true x)).imp fun _ _ => trivial) trivial).silent
  | sub a b => exact ((risks_of_true a).every_sub (risks_of_true b)).silent
  | mul a b more =>
      refine ((risks_of_true a).every_mul (risks_of_true b)).bind fun product _ => ?_
      exact (Every.foldlM (Q := fun _ => True) (fun _ _ x _ =>
        ((risks_of_true _).every_mul (risks_of_true x)).imp fun _ _ => trivial) trivial).silent
  | neg a => exact (risks_of_true a).every_neg.silent
  | select cond a b =>
      exact ((risks_of_true a).every_select (risks_of_true b) (risks_of_true cond)).silent
  | ofBits bits => exact (every_recompose fun a _ => risks_of_true a).silent
  | print pieces => exact trivial
  | and | isZero | toBits | assertEqual | assertBoolean | rangeCheck => cases h

theorem EmulatedField.silent_select (E : EmulatedField) (cond : Operand) (a b : Element) :
    (E.select cond a b).Silent := by
  have hrisks (x : Operand) : E.native.Risks (fun _ => True) x := NativeField.risks_of_true x
  have hselect (x y : Operand) : (E.native.select cond x y).Silent :=
    ((hrisks x).every_select (hrisks y) (hrisks cond)).imp fun _ _ => trivial
  refine (hselect a.native b.native).bind fun native _ => ?_
  dsimp only
  split
  · exact (Every.mapM fun p _ => hselect p.1 p.2).bind fun _ _ => trivial
  · exact trivial

theorem FieldOp.silent {E : EmulatedField} {op : FieldOp Operand Element} (h : op.isQuiet) :
    (op.circuit E).Silent := by
  cases op with
  | constant l => exact (silent_ofExcept _).silent
  | zero => exact trivial
  | one => exact trivial
  | paddingMultiple a => exact (silent_ofExcept _).silent
  | select cond a b => exact (E.silent_select cond a b).silent
  | ofNative | witness | canonical | remainder | reduce | add | neg | sub | mul | inverse | isZero
  | assertEqual | toBits => cases h

theorem Chip.silent_print (a : Element) : (print a).Silent :=
  (silent_ofExcept _).bind fun _ _ => trivial

theorem ChipOp.silent {C : Chip} {op : ChipOp Operand Element ExtensionValue} (h : op.isQuiet) :
    (op.circuit C).Silent := by
  have hall (a : ExtensionValue) : a.All fun _ => True := ⟨trivial, trivial, trivial, trivial⟩
  cases op with
  | print a => exact (Chip.silent_print a).silent
  | printExt a =>
      exact Every.silent <| (Chip.silent_print a.c0).bind fun _ _ =>
        (Chip.silent_print a.c1).bind fun _ _ => (Chip.silent_print a.c2).bind fun _ _ =>
          Chip.silent_print a.c3
  | zeroExt => exact trivial
  | oneExt => exact trivial
  | ofBase a => exact trivial
  | selectExt cond a b =>
      exact (Quartic.every_zipWithM (fun x _ y _ => C.field.silent_select cond x y) (hall a)
        (hall b)).silent
  | assertNotEqual | unpack | addExt | subExt | negExt | mulExt | invExt | divExt
  | assertEqualExt | assertNotEqualExt | addBase | subBase | mulBase | divBase => cases h

theorem Call.constraints_eq_nil_of_quiet (S : Setting) (log : Log) {call : Call}
    (h : call.isQuiet) : (call.run S log).constraints = [] := by
  cases call with
  | gate op => exact (Gate.silent h).constraints_eq_nil
  | field op =>
      rw [run]
      cases S.field? with
      | some E => exact (FieldOp.silent h).constraints_eq_nil
      | none => rfl
  | chip op =>
      rw [run]
      cases S.chip? with
      | some C => exact (ChipOp.silent h).constraints_eq_nil
      | none => rfl
  | load l => rfl
  | loadExtension ls => rfl
  | give v => rfl
  | report r => exact constraints_report S r log

/-! ### Sessions -/

namespace Session

/-- The session after several steps. -/
def play (s : Session) (steps : List Step) : Session :=
  steps.foldl (fun s st => (s.step st).1) s

/-- What a step adds to the log. -/
def added (s : Session) (st : Step) : Log :=
  match s.request st with
  | .ok call => (call.run s.setting s.log).constraints
  | .error _ => []

theorem log_step (s : Session) (st : Step) : (s.step st).1.log = s.log ++ s.added st := by
  simp only [step, advance, perform, added]
  cases s.request st with
  | ok call => exact congrArg Execution.log (call.execute_live s.setting s.log)
  | error fault => exact (List.append_nil _).symm

/-- A step leaves the log as the beginning of the new one. -/
theorem log_prefix_step (s : Session) (st : Step) : s.log <+: (s.step st).1.log := by
  rw [log_step]
  exact List.prefix_append _ _

theorem log_prefix_play (s : Session) (steps : List Step) : s.log <+: (s.play steps).log := by
  induction steps generalizing s with
  | nil => exact List.prefix_refl _
  | cons st steps ih => exact (s.log_prefix_step st).trans (ih _)

end Session

/-- A log with a constraint that fails is neither found satisfied nor does a check of
it succeed. -/
theorem Log.not_satisfied_of_failing {log : Log} {k : Constraint} (hk : k ∈ log)
    (hfails : k.holds = .ok false) : log.isSatisfied ≠ .ok true ∧ log.check ≠ .ok () := by
  have hnot : ¬ ∀ c ∈ log, c.Holds := by
    intro hall
    have hholds : k.holds = .ok true := hall k hk
    rw [hfails] at hholds
    cases hholds
  refine ⟨fun h => hnot (Log.isSatisfied_eq_true_iff.1 h), fun h => hnot ?_⟩
  exact Log.unsatisfied_eq_nil_iff.1 (Log.check_eq_ok_iff.1 h)

theorem Report.not_satisfied_of_failing {log : Log} {k : Constraint} (hk : k ∈ log)
    (hfails : k.holds = .ok false) :
    (Report.isSatisfied.live.execute log).result ≠ .ok (.bool true) ∧
      (Report.check.live.execute log).result ≠ .ok .nothing := by
  obtain ⟨hsatisfied, hcheck⟩ := Log.not_satisfied_of_failing hk hfails
  simp only [Report.execute_live, Report.run]
  constructor
  · cases hreport : log.isSatisfied with
    | error fault =>
        intro h
        cases h
    | ok satisfied =>
        intro h
        cases h
        exact hsatisfied hreport
  · cases hreport : log.check with
    | error fault =>
        intro h
        cases h
    | ok u => exact fun _ => hcheck hreport

/-- The log is append-only, and but for the reports write-only. -/
theorem log_append_only :
    -- a call other than a report appends the same to every log, and ends in the same way
    (∀ (S : Setting) (call : Call) (log : Log), call.isReport = false →
      let alone := (call.live S).execute []
      (call.live S).execute log = ⟨alone.result, log ++ alone.log, alone.messages⟩) ∧
    -- quiet calls leave the log as it is, reports among them
    (∀ (S : Setting) (call : Call) (log : Log), call.isQuiet →
      ((call.live S).execute log).log = log) ∧
    -- what has failed once stays failed
    ∀ (s : Session) (steps : List Step), s.log <+: (s.play steps).log ∧
      ∀ k ∈ s.log, k.holds = .ok false →
        (Report.isSatisfied.live.execute (s.play steps).log).result ≠ .ok (.bool true) ∧
        (Report.check.live.execute (s.play steps).log).result ≠ .ok .nothing := by
  refine ⟨fun S call log hcall => Call.execute_live_of_not_report S hcall log,
    fun S call log hquiet => ?_,
    fun s steps => ⟨s.log_prefix_play steps, fun k hk hfails => ?_⟩⟩
  · rw [call.execute_live, Call.constraints_eq_nil_of_quiet S log hquiet, List.append_nil]
  · exact Report.not_satisfied_of_failing ((s.log_prefix_play steps).subset hk) hfails

def fieldOfSeven : NativeField := ⟨7, Nat.le_add_left 2 5⟩

/-- A session in which one is taken for two. -/
def violated : Session :=
  ⟨.system fieldOfSeven,
    [.equal (fieldOfSeven.lift 1) (fieldOfSeven.lift 2) "assert_is_equal"], []⟩

/-- A conjunction that is refused for its second operand, a free hint that sees how many
inputs it has, and an assertion that holds. -/
def vainSteps : List Step :=
  [⟨[], fun _ => .ok (.gate (.and (.int 1) (.scalar (bn254.lift 0)))), none⟩,
    ⟨[], fun _ => .ok (.gate (.hint (fun l => .ok (.one (.int l.length))) [.int 9, .int 2])), none⟩,
    ⟨[], fun _ => .ok (.gate (.assertEqual (.int 9) (.int 2) "assert_is_equal")), none⟩]

theorem violated_stays :
    let F := fieldOfSeven
    (violated.play vainSteps).log = [.equal (F.lift 1) (F.lift 2) "assert_is_equal",
      .boolean (F.lift 1) "and", .equal (F.lift 2) (F.lift 2) "assert_is_equal"] ∧
    (Report.isSatisfied.live.execute (violated.play vainSteps).log).result ≠ .ok (.bool true) ∧
    (Report.check.live.execute (violated.play vainSteps).log).result ≠ .ok .nothing :=
  ⟨by decide +kernel, (log_append_only.2.2 violated vainSteps).2 _ List.mem_cons_self rfl⟩

/-- The number of recorded constraints is read off the log as well. -/
theorem numConstraints_reads_log :
    ¬ ∀ (S : Setting) (call : Call) (log : Log), call ≠ .report .unsatisfied →
      call ≠ .report .isSatisfied → call ≠ .report .check →
      ((call.live S).execute log).result = ((call.live S).execute []).result := by
  intro h
  have hsame := h violated.setting (.report .numConstraints) violated.log (by simp) (by simp)
    (by simp)
  cases hsame

end NonNative
