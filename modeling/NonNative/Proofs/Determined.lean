import Mathlib.Data.Int.Notation
import Mathlib.Data.Nat.Notation
import Mathlib.Logic.Basic
import NonNative.Circuit.Basic
import NonNative.Constraint.Report

/-!
Runs of a circuit against an arbitrary prover, and what it means that a circuit
determines its result. The honest run returns the result and leaves a known
list of constraints unsatisfied, the blame; a run with other answers either
violates a constraint or returns the same result. Both halves compose, so each
gadget needs one such statement and no caller opens it again.
-/

namespace NonNative

/-! ### Satisfied and failing constraints -/

namespace Constraint

/-- The constraint is well formed and its relation holds. -/
def Holds (c : Constraint) : Prop := c.holds = .ok true

instance (c : Constraint) : Decidable c.Holds :=
  match h : c.holds with
  | .ok true => .isTrue h
  | .ok false => .isFalse (by simp [Holds, h])
  | .error _ => .isFalse (by simp [Holds, h])

/-- The constraint is well formed: it holds or it fails. -/
def IsJudged (k : Constraint) : Prop := ∃ held, k.holds = .ok held

/-- The list of the constraint alone, if it does not hold. -/
def blame (c : Constraint) : Log := if c.Holds then [] else [c]

theorem blame_of_holds {c : Constraint} (h : c.Holds) : c.blame = [] := if_pos h

theorem blame_eq_nil_iff {c : Constraint} : c.blame = [] ↔ c.Holds := by
  by_cases h : c.Holds <;> simp [blame, h]

end Constraint

namespace Log

theorem unsatisfied_append {l₁ l₂ blame₁ blame₂ : Log} (h₁ : unsatisfied l₁ = .ok blame₁)
    (h₂ : unsatisfied l₂ = .ok blame₂) :
    unsatisfied (l₁ ++ l₂) = .ok (blame₁ ++ blame₂) := by
  induction l₁ generalizing blame₁ with
  | nil =>
      obtain rfl : blame₁ = [] := by simpa [unsatisfied] using h₁.symm
      exact h₂
  | cons c l₁ ih =>
      cases hc : c.holds with
      | error fault => simp [unsatisfied, hc, bind, Except.bind] at h₁
      | ok held =>
          cases hl : unsatisfied l₁ with
          | error fault => simp [unsatisfied, hc, hl, bind, Except.bind] at h₁
          | ok failed =>
              have hrest := ih hl
              simp only [unsatisfied, hc, hl, bind, Except.bind, pure, Except.pure,
                Except.ok.injEq] at h₁
              subst h₁
              cases held <;>
                simp [unsatisfied, hc, hrest, bind, Except.bind, pure, Except.pure]

theorem unsatisfied_eq_nil_iff {l : Log} : unsatisfied l = .ok [] ↔ ∀ c ∈ l, c.Holds := by
  induction l with
  | nil => simp [unsatisfied]
  | cons c l ih =>
      rw [List.forall_mem_cons, ← ih]
      cases hc : c.holds with
      | error fault => simp [unsatisfied, Constraint.Holds, hc, bind, Except.bind]
      | ok held =>
          cases hl : unsatisfied l with
          | error fault => simp [unsatisfied, hc, hl, bind, Except.bind]
          | ok failed =>
              cases held <;>
                simp [unsatisfied, Constraint.Holds, hc, hl, bind, Except.bind, pure, Except.pure]

/-- A constraint that fails after others that hold is the only one to blame. -/
theorem unsatisfied_concat {l : Log} (hl : ∀ c ∈ l, c.Holds) {last : Constraint}
    (hlast : last.holds = .ok false) : unsatisfied (l ++ [last]) = .ok [last] := by
  refine unsatisfied_append (unsatisfied_eq_nil_iff.2 hl) ?_
  simp [unsatisfied, hlast, bind, Except.bind, pure, Except.pure]

/-- Well-formed constraints at the front add those of them that fail to the report on
the rest, and do not hide its fault. -/
theorem unsatisfied_append_of_judged {front : Log} (h : ∀ k ∈ front, k.IsJudged) (rest : Log) :
    unsatisfied (front ++ rest) =
      (unsatisfied rest).map ((front.filter fun k => ¬ k.Holds) ++ ·) := by
  induction front with
  | nil => cases hrest : unsatisfied rest <;> simp [hrest, Except.map]
  | cons k front ih =>
      obtain ⟨⟨held, hheld⟩, hfront⟩ := List.forall_mem_cons.1 h
      have hholds : k.Holds ↔ held = true := by rw [Constraint.Holds, hheld, Except.ok.injEq]
      rw [List.cons_append, unsatisfied, hheld, ih hfront]
      cases held <;> cases unsatisfied rest <;>
        simp [hholds, bind, Except.bind, pure, Except.pure, Except.map]

theorem unsatisfied_eq_filter {log : Log} (h : ∀ k ∈ log, k.IsJudged) :
    log.unsatisfied = .ok (log.filter fun k => ¬ k.Holds) := by
  simpa [unsatisfied, Except.map] using unsatisfied_append_of_judged h []

theorem isSatisfied_eq_true_iff {l : Log} : l.isSatisfied = .ok true ↔ ∀ c ∈ l, c.Holds := by
  induction l with
  | nil => simp [isSatisfied]
  | cons c l ih =>
      rw [List.forall_mem_cons, ← ih]
      cases hc : c.holds with
      | error fault => simp [isSatisfied, Constraint.Holds, hc, bind, Except.bind]
      | ok held =>
          cases held <;>
            simp [isSatisfied, Constraint.Holds, hc, bind, Except.bind, pure, Except.pure]

theorem check_eq_ok_iff {l : Log} : l.check = .ok () ↔ unsatisfied l = .ok [] := by
  cases hl : unsatisfied l with
  | error fault => simp [check, hl, bind, Except.bind]
  | ok failed => cases failed <;> simp [check, hl, bind, Except.bind, pure, Except.pure]

end Log

namespace Circuit

variable {α β : Type}

theorem bind_eq (c : Circuit α) (f : α → Circuit β) : c >>= f = c.bind f := rfl

theorem pure_eq (a : α) : (pure a : Circuit α) = .done a := rfl

@[simp] theorem ofExcept_ok (a : α) : ofExcept (.ok a) = (pure a : Circuit α) := rfl

/-! ### Honest runs of a sequence -/

theorem run_bind_of_ok {c : Circuit α} {f : α → Circuit β} {a : α} (h : c.run.result = .ok a) :
    (c >>= f).run.result = (f a).run.result ∧
      (c >>= f).run.constraints = c.run.constraints ++ (f a).run.constraints := by
  rw [bind_eq]
  induction c with
  | done b =>
      obtain rfl : b = a := by simpa [run] using h
      exact ⟨rfl, rfl⟩
  | refuse fault => simp [run] at h
  | record c rest ih => exact ⟨(ih h).1, congrArg (c :: ·) (ih h).2⟩
  | say message rest ih => exact ih h
  | hint honest rest ih => exact ih honest h

theorem run_bind_of_error {c : Circuit α} (f : α → Circuit β) {fault : Fault}
    (h : c.run.result = .error fault) :
    (c >>= f).run.result = .error fault ∧ (c >>= f).run.constraints = c.run.constraints := by
  rw [bind_eq]
  induction c with
  | done a => simp [run] at h
  | refuse fault' =>
      obtain rfl : fault' = fault := by simpa [run] using h
      exact ⟨rfl, rfl⟩
  | record c rest ih => exact ⟨(ih h).1, congrArg (c :: ·) (ih h).2⟩
  | say message rest ih => exact ih h
  | hint honest rest ih => exact ih honest h

theorem run_map (f : α → β) (c : Circuit α) :
    (f <$> c).run = ⟨c.run.constraints, c.run.messages, c.run.result.map f⟩ := by
  rw [map_eq_pure_bind, bind_eq]
  induction c with
  | done a => rfl
  | refuse fault => rfl
  | record c rest ih =>
      exact congrArg (fun r : Run β => { r with constraints := c :: r.constraints }) ih
  | say message rest ih =>
      exact congrArg (fun r : Run β => { r with messages := message :: r.messages }) ih
  | hint honest rest ih => exact ih honest

/-- What comes later does not remove what has been recorded. -/
theorem mem_constraints_bind {c : Circuit α} (f : α → Circuit β) {k : Constraint}
    (hk : k ∈ c.run.constraints) : k ∈ (c >>= f).run.constraints := by
  rw [bind_eq]
  induction c with
  | done b => simp [run] at hk
  | refuse fault => simp [run] at hk
  | record c rest ih =>
      rcases List.mem_cons.1 hk with rfl | hk
      · exact List.mem_cons_self
      · exact List.mem_cons_of_mem _ (ih hk)
  | say message rest ih => exact ih hk
  | hint honest rest ih => exact ih honest hk

theorem run_assert_bind (k : Constraint) (f : Unit → Circuit α) :
    (Circuit.assert k >>= f).run =
      ⟨k :: (f ()).run.constraints, (f ()).run.messages, (f ()).run.result⟩ := rfl

theorem run_forM_assert_bind (ks : Log) (f : PUnit → Circuit α) :
    (forM ks Circuit.assert >>= f).run =
      ⟨ks ++ (f ⟨⟩).run.constraints, (f ⟨⟩).run.messages, (f ⟨⟩).run.result⟩ := by
  induction ks with
  | nil => rfl
  | cons k ks ih =>
      rw [List.forM_cons, LawfulMonad.bind_assoc, run_assert_bind, ih]
      rfl

/-! ### Runs with other answers -/

/-- The run in which the prover answers the questions in order with the given
integers. -/
def runWith : Circuit α → (ℕ → ℤ) → Run α
  | .done a, _ => ⟨[], [], .ok a⟩
  | .refuse fault, _ => ⟨[], [], .error fault⟩
  | .record c rest, answers =>
      let r := rest.runWith answers
      ⟨c :: r.constraints, r.messages, r.result⟩
  | .say message rest, answers =>
      let r := rest.runWith answers
      ⟨r.constraints, message :: r.messages, r.result⟩
  | .hint _ rest, answers => (rest (answers 0)).runWith fun i => answers (i + 1)

/-- Whatever the prover answers, a run that violates no constraint returns a
value with property `P`. -/
def Forces : Circuit α → (α → Prop) → Prop
  | .done a, P => P a
  | .refuse _, _ => False
  | .record c rest, P => c.Holds → rest.Forces P
  | .say _ rest, P => rest.Forces P
  | .hint _ rest, P => ∀ answer, (rest answer).Forces P

theorem Forces.mono {c : Circuit α} {P Q : α → Prop} (h : c.Forces P) (hPQ : ∀ a, P a → Q a) :
    c.Forces Q := by
  induction c with
  | done a => exact hPQ a h
  | refuse fault => exact h
  | record c rest ih => exact fun hc => ih (h hc)
  | say message rest ih => exact ih h
  | hint honest rest ih => exact fun answer => ih answer (h answer)

theorem Forces.bind {c : Circuit α} {f : α → Circuit β} {P : α → Prop} {Q : β → Prop}
    (h : c.Forces P) (hf : ∀ a, P a → (f a).Forces Q) : (c >>= f).Forces Q := by
  rw [bind_eq]
  induction c with
  | done a => exact hf a h
  | refuse fault => exact h
  | record c rest ih => exact fun hc => ih (h hc)
  | say message rest ih => exact ih h
  | hint honest rest ih => exact fun answer => ih answer (h answer)

/-- The predicate speaks about all runs: one that violates no constraint has a
result, and the result has the property. -/
theorem Forces.of_runWith {c : Circuit α} {P : α → Prop} (h : c.Forces P) (answers : ℕ → ℤ)
    (hall : ∀ k ∈ (c.runWith answers).constraints, k.Holds) :
    ∃ a, (c.runWith answers).result = .ok a ∧ P a := by
  induction c generalizing answers with
  | done a => exact ⟨a, rfl, h⟩
  | refuse fault => exact h.elim
  | record c rest ih =>
      rw [runWith, List.forall_mem_cons] at hall
      exact ih (h hall.1) answers hall.2
  | say message rest ih => exact ih h answers hall
  | hint honest rest ih => exact ih (answers 0) (h _) _ hall

/-! ### Circuits that determine their result -/

/-- Whose answers a statement is about. -/
inductive Prover where
  | honest
  | arbitrary

/-- The circuit determines `a`: the honest run returns it and leaves exactly
the constraints of the list unsatisfied. Against an arbitrary prover, also every
other run that violates no constraint returns `a`, and there is one only if the
list is empty. -/
structure Determines (prover : Prover) (c : Circuit α) (a : α) (blame : Log) : Prop where
  result : c.run.result = .ok a
  unsatisfied : Log.unsatisfied c.run.constraints = .ok blame
  forced : prover = .arbitrary → c.Forces fun b => b = a ∧ blame = []

/-- The circuit determines a value with property `P`. -/
def Gives (prover : Prover) (c : Circuit α) (blame : Log) (P : α → Prop) : Prop :=
  ∃ a, P a ∧ c.Determines prover a blame

section Rules

variable {prover : Prover} {c : Circuit α} {f : α → Circuit β} {a : α} {b : β}
  {blame blame₁ blame₂ : Log} {P : α → Prop} {Q : β → Prop}

theorem Determines.pure (a : α) : (Pure.pure a : Circuit α).Determines prover a [] where
  result := rfl
  unsatisfied := rfl
  forced _ := ⟨rfl, rfl⟩

theorem Determines.bind (hc : c.Determines prover a blame₁)
    (hf : (f a).Determines prover b blame₂) :
    (c >>= f).Determines prover b (blame₁ ++ blame₂) where
  result := (run_bind_of_ok hc.result).1.trans hf.result
  unsatisfied := by
    rw [(run_bind_of_ok hc.result).2]
    exact Log.unsatisfied_append hc.unsatisfied hf.unsatisfied
  forced hprover := by
    refine (hc.forced hprover).bind ?_
    rintro _ ⟨rfl, hblame₁⟩
    refine (hf.forced hprover).mono ?_
    rintro _ ⟨rfl, hblame₂⟩
    exact ⟨rfl, by rw [hblame₁, hblame₂, List.append_nil]⟩

theorem Determines.assert (k : Constraint) {held : Bool} (hk : k.holds = .ok held) :
    (Circuit.assert k).Determines prover () k.blame where
  result := rfl
  unsatisfied := by
    cases held <;>
      simp [Circuit.assert, run, Log.unsatisfied, Constraint.blame, Constraint.Holds, hk, Bind.bind,
        Except.bind, Pure.pure, Except.pure]
  forced _ hholds := ⟨rfl, Constraint.blame_of_holds hholds⟩

theorem Determines.assert_of_holds {k : Constraint} (hk : k.Holds) :
    (Circuit.assert k).Determines prover () [] :=
  Constraint.blame_of_holds hk ▸ Determines.assert k hk

theorem Determines.tell (message : Message) : (Circuit.tell message).Determines prover () [] where
  result := rfl
  unsatisfied := rfl
  forced _ := ⟨rfl, rfl⟩

/-- A guess of the prover: the circuit `c` leaves a choice among the values with
property `P`, and whatever follows a choice forces the result of the honest
one. -/
theorem Determines.bind_guess (hc : c.Determines .honest a [])
    (hforces : prover = .arbitrary → c.Forces P) (hf : (f a).Determines .honest b blame)
    (hguess : prover = .arbitrary → ∀ u, P u → (f u).Forces fun w => w = b ∧ blame = []) :
    (c >>= f).Determines prover b blame where
  result := (run_bind_of_ok hc.result).1.trans hf.result
  unsatisfied := by
    rw [(run_bind_of_ok hc.result).2]
    exact Log.unsatisfied_append hc.unsatisfied hf.unsatisfied
  forced hprover := (hforces hprover).bind (hguess hprover)

theorem Determines.honest (hc : c.Determines prover a blame) : c.Determines .honest a blame where
  result := hc.result
  unsatisfied := hc.unsatisfied
  forced h := nomatch h

theorem Determines.map (hc : c.Determines prover a blame) (g : α → β) :
    (g <$> c).Determines prover (g a) blame := by
  rw [map_eq_pure_bind, ← List.append_nil blame]
  exact hc.bind (.pure (g a))

theorem Determines.mapM {f : α → Circuit β} {g : α → β} {l : List α}
    (hf : ∀ a ∈ l, (f a).Determines prover (g a) []) :
    (l.mapM f).Determines prover (l.map g) [] := by
  induction l with
  | nil => exact .pure []
  | cons a l ih =>
      rw [List.mapM_cons]
      have hrest := ih fun b hb => hf b (List.mem_cons_of_mem a hb)
      exact (hf a List.mem_cons_self).bind (hrest.bind (.pure _))

theorem Gives.pure (h : P a) : (Pure.pure a : Circuit α).Gives prover [] P :=
  ⟨a, h, .pure a⟩

theorem Gives.bind (hc : c.Gives prover blame₁ P)
    (hf : ∀ a, P a → (f a).Gives prover blame₂ Q) :
    (c >>= f).Gives prover (blame₁ ++ blame₂) Q := by
  obtain ⟨a, ha, hca⟩ := hc
  obtain ⟨b, hb, hfb⟩ := hf a ha
  exact ⟨b, hb, hca.bind hfb⟩

theorem Gives.map (hc : c.Gives prover blame P) {g : α → β} (h : ∀ a, P a → Q (g a)) :
    (g <$> c).Gives prover blame Q := by
  obtain ⟨a, ha, hca⟩ := hc
  exact ⟨g a, h a ha, hca.map g⟩

theorem Gives.mono {P' : α → Prop} (hc : c.Gives prover blame P) (h : ∀ a, P a → P' a) :
    c.Gives prover blame P' := by
  obtain ⟨a, ha, hca⟩ := hc
  exact ⟨a, h a ha, hca⟩

end Rules

end Circuit

end NonNative
