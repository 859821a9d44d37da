import NonNative.Proofs.Determined

/-!
The three reports on a log, malformed constraints included. A constraint holds, fails or
cannot be judged. The list of failing constraints and the check judge every entry, so the
first malformed one ends them; the question whether all hold stops at the first failure and
may never reach a malformed entry. Where no entry is malformed the three agree on what
fails, and on every log they agree on whether anything is wrong.
-/

namespace NonNative

/-- How many terms a kind needs. -/
def ConstraintKind.arity : ConstraintKind → ℕ
  | .equal => 2
  | .boolean => 1
  | .range => 2
  | .other _ => 0

namespace Constraint

/-- The ways in which a constraint cannot be judged, each with its fault. -/
inductive Malformed : Constraint → Fault → Prop where
  | unknownKind (name : String) (terms : List Term) (label : String) :
      Malformed ⟨.other name, terms, label⟩ (.unknownKind name)
  | missingOperand {c : Constraint} (h : c.terms.length < c.kind.arity) :
      Malformed c .missingOperand
  | negativeWidth {width : Term} (h : width.toInt < 0) (a : Term) (terms : List Term)
      (label : String) : Malformed ⟨.range, a :: width :: terms, label⟩ .negativeWidth

theorem Malformed.holds_eq {c : Constraint} {fault : Fault} (h : c.Malformed fault) :
    c.holds = .error fault := by
  cases h with
  | unknownKind name terms label => rfl
  | missingOperand hshort =>
      obtain ⟨kind, terms, label⟩ := c
      match kind, terms, hshort with
      | .equal, [], _ | .equal, [_], _ | .boolean, [], _ | .range, [], _ | .range, [_], _ => rfl
  | negativeWidth hwidth a terms label => exact if_pos hwidth

/-- What is not malformed holds or fails. -/
theorem isJudged_or_malformed (c : Constraint) : c.IsJudged ∨ ∃ fault, c.Malformed fault := by
  obtain ⟨kind, terms, label⟩ := c
  match kind, terms with
  | .other name, terms => exact .inr ⟨_, .unknownKind name terms label⟩
  | .equal, [] | .equal, [_] | .boolean, [] | .range, [] | .range, [_] =>
      exact .inr ⟨_, .missingOperand (by simp [ConstraintKind.arity])⟩
  | .equal, a :: b :: rest => exact .inl ⟨_, rfl⟩
  | .boolean, a :: rest => exact .inl ⟨_, rfl⟩
  | .range, a :: width :: rest =>
      by_cases hwidth : width.toInt < 0
      · exact .inr ⟨_, .negativeWidth hwidth a rest label⟩
      · exact .inl ⟨_, if_neg hwidth⟩

theorem Malformed.not_isJudged {c : Constraint} {fault : Fault} (h : c.Malformed fault) :
    ¬ c.IsJudged := by
  rintro ⟨held, hheld⟩
  rw [h.holds_eq] at hheld
  cases hheld

end Constraint

namespace Log

variable {log front : Log} {first : Constraint} {fault : Fault}

/-- A log is well formed up to its first malformed entry. -/
theorem exists_first_malformed (h : ∃ c ∈ log, ∃ fault, c.Malformed fault) :
    ∃ front first rest fault, log = front ++ first :: rest ∧ (∀ c ∈ front, c.IsJudged) ∧
      first.Malformed fault := by
  induction log with
  | nil => simp at h
  | cons c log ih =>
      rcases c.isJudged_or_malformed with hjudged | ⟨fault, hmalformed⟩
      · have hlater : ∃ k ∈ log, ∃ fault, k.Malformed fault := by
          obtain ⟨k, hk, fault, hmalformed⟩ := h
          rcases List.mem_cons.1 hk with rfl | hk
          · exact absurd hjudged hmalformed.not_isJudged
          · exact ⟨k, hk, fault, hmalformed⟩
        obtain ⟨front, first, rest, fault, rfl, hfront, hfirst⟩ := ih hlater
        exact ⟨c :: front, first, rest, fault, rfl,
          List.forall_mem_cons.2 ⟨hjudged, hfront⟩, hfirst⟩
      · exact ⟨[], c, log, fault, rfl, List.forall_mem_nil _, hmalformed⟩

/-! ### Each report up to an entry -/

theorem unsatisfied_of_malformed (hfront : ∀ c ∈ front, c.IsJudged)
    (hfirst : first.Malformed fault) (rest : Log) :
    unsatisfied (front ++ first :: rest) = .error fault := by
  rw [unsatisfied_append_of_judged hfront, unsatisfied, hfirst.holds_eq]
  rfl

/-- A failure at the front settles the question, and otherwise the rest does. -/
theorem isSatisfied_append_of_judged (hfront : ∀ c ∈ front, c.IsJudged) (rest : Log) :
    isSatisfied (front ++ rest) =
      if ∃ c ∈ front, ¬ c.Holds then .ok false else isSatisfied rest := by
  induction front with
  | nil => simp
  | cons c front ih =>
      obtain ⟨⟨held, hheld⟩, hfront⟩ := List.forall_mem_cons.1 hfront
      have hholds : c.Holds ↔ held = true := by rw [Constraint.Holds, hheld, Except.ok.injEq]
      rw [List.cons_append, isSatisfied, hheld]
      cases held with
      | false => simp [hholds, bind, Except.bind, pure, Except.pure]
      | true => simpa [hholds, bind, Except.bind] using ih hfront

theorem isSatisfied_eq_filter (h : ∀ c ∈ log, c.IsJudged) :
    log.isSatisfied = .ok (decide ((log.filter fun c => ¬ c.Holds) = [])) := by
  have hnil : (log.filter fun c => ¬ c.Holds) = [] ↔ ¬ ∃ c ∈ log, ¬ c.Holds := by
    simp [List.filter_eq_nil_iff]
  have hall := isSatisfied_append_of_judged h []
  rw [List.append_nil, isSatisfied] at hall
  by_cases hsome : ∃ c ∈ log, ¬ c.Holds
  · rw [hall, if_pos hsome, decide_eq_false (mt hnil.1 (not_not_intro hsome))]
  · rw [hall, if_neg hsome, decide_eq_true (hnil.2 hsome)]

theorem isSatisfied_of_malformed (hfront : ∀ c ∈ front, c.IsJudged)
    (hfirst : first.Malformed fault) (rest : Log) :
    isSatisfied (front ++ first :: rest) =
      if ∃ c ∈ front, ¬ c.Holds then .ok false else .error fault := by
  rw [isSatisfied_append_of_judged hfront, isSatisfied, hfirst.holds_eq]
  rfl

theorem check_of_error (h : log.unsatisfied = .error fault) : log.check = .error fault := by
  rw [check, h]
  rfl

theorem check_of_ok {failed : List Constraint} (h : log.unsatisfied = .ok failed) :
    log.check = if failed = [] then .ok () else .error (.unsatisfied failed) := by
  rw [check, h]
  cases failed <;> rfl

/-- The reports agree on every log. -/
theorem reports_agree (log : Log) :
    (log.isSatisfied = .ok true ↔ log.unsatisfied = .ok []) ∧
    (log.unsatisfied = .ok [] ↔ log.check = .ok ()) ∧
    ((∀ c ∈ log, ¬ ∃ fault, c.Malformed fault) →
      let failed := log.filter fun c => ¬ c.Holds
      log.unsatisfied = .ok failed ∧ log.isSatisfied = .ok (decide (failed = [])) ∧
      log.check = if failed = [] then .ok () else .error (.unsatisfied failed)) ∧
    ((∃ c ∈ log, ∃ fault, c.Malformed fault) →
      ∃ front first rest fault, log = front ++ first :: rest ∧
        (∀ c ∈ front, ¬ ∃ fault, c.Malformed fault) ∧ first.Malformed fault ∧
        first.holds = .error fault ∧
        log.unsatisfied = .error fault ∧ log.check = .error fault ∧
        log.isSatisfied = if ∃ c ∈ front, ¬ c.Holds then .ok false else .error fault) ∧
    ∀ failed : List Constraint,
      (Fault.unsatisfied failed).message? =
        some (toString failed.length ++ " unsatisfied constraint(s): " ++
          ", ".intercalate ((failed.take 5).map (·.label)) ++
          if 5 < failed.length then " (+" ++ toString (failed.length - 5) ++ " more)" else "") := by
  refine ⟨isSatisfied_eq_true_iff.trans unsatisfied_eq_nil_iff.symm, check_eq_ok_iff.symm,
    fun hformed => ?_, fun hmalformed => ?_, fun failed => ?_⟩
  · have hjudged : ∀ c ∈ log, c.IsJudged := fun c hc =>
      c.isJudged_or_malformed.resolve_right (hformed c hc)
    exact ⟨unsatisfied_eq_filter hjudged, isSatisfied_eq_filter hjudged,
      check_of_ok (unsatisfied_eq_filter hjudged)⟩
  · obtain ⟨front, first, rest, fault, rfl, hfront, hfirst⟩ := exists_first_malformed hmalformed
    have hunsatisfied := unsatisfied_of_malformed hfront hfirst rest
    have hformed : ∀ c ∈ front, ¬ ∃ fault, c.Malformed fault := by
      rintro c hc ⟨fault, hc'⟩
      exact hc'.not_isJudged (hfront c hc)
    exact ⟨front, first, rest, fault, rfl, hformed, hfirst, hfirst.holds_eq, hunsatisfied,
      check_of_error hunsatisfied, isSatisfied_of_malformed hfront hfirst rest⟩
  · simp only [Fault.message?, unsatisfiedMessage, shownLabels, List.length_map, List.map_take]
    split <;> rfl

/-- A failure, a range of negative width and a constraint of no known kind. -/
def mixedLog : Log :=
  [⟨.boolean, [.int 2], "and"⟩, ⟨.range, [.int 5, .int (-1)], "range_check"⟩,
    ⟨.other "xor", [], "xor"⟩]

theorem reports_mixedLog :
    (∃ c ∈ mixedLog, ∃ fault, c.Malformed fault) ∧
    ∃ front first rest fault, mixedLog = front ++ first :: rest ∧ first.holds = .error fault ∧
      mixedLog.unsatisfied = .error fault ∧ mixedLog.check = .error fault ∧
      fault = .negativeWidth ∧ mixedLog.isSatisfied = .ok false := by
  have hmalformed : ∃ c ∈ mixedLog, ∃ fault, c.Malformed fault :=
    ⟨_, List.mem_cons_of_mem _ List.mem_cons_self, _, .negativeWidth (by decide) (.int 5) [] "range_check"⟩
  obtain ⟨-, -, -, hreports, -⟩ := reports_agree mixedLog
  obtain ⟨front, first, rest, fault, hsplit, -, -, hfirst, hunsatisfied, hcheck, -⟩ :=
    hreports hmalformed
  refine ⟨hmalformed, front, first, rest, fault, hsplit, hfirst, hunsatisfied, hcheck, ?_, rfl⟩
  exact (Except.error.inj hunsatisfied).symm

end Log

end NonNative
