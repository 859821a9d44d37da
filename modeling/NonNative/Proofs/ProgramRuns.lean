import NonNative.Proofs.AppendOnly
import NonNative.Proofs.ShapeIndependence

/-!
Programs are run in several ways: as one circuit, which ends at the first fault;
instruction by instruction, where a fault does not end the run; and as the steps of a
session. All three make the same calls. A circuit is the beginning of the trace of its
instructions, and all of it if it returns, and a trace is what the session goes through
that makes its calls.
-/

namespace NonNative

open Circuit

/-! ### Circuits in a trace -/

theorem Program.log_prefix_trace (S : Setting) (p : Program) (M : ChipMemory) (log : Log) :
    log <+: (p.trace S M log).log := by
  induction p generalizing M log with
  | nil => exact List.prefix_refl _
  | cons i p ih => exact (List.prefix_append _ _).trans (ih _ _)

/-- The circuit returns if all instructions of the trace do, with what is then seen of the
memory; otherwise its fault is the first one of the trace. What it has recorded by then
follows on the log. -/
structure Circuit.RunsIn {μ : Type} (c : Circuit μ) (view : ChipMemory → μ) (log : Log)
    (t : Trace) : Prop where
  result : c.run.result = (t.runs.mapM Run.result).map fun _ => view t.memory
  recorded : log ++ c.run.constraints <+: t.log
  recorded_all : ∀ N, c.run.result = .ok N → t.log = log ++ c.run.constraints

/-- If one step of a circuit is what one instruction does, then so is the whole. -/
theorem Circuit.runsIn_trace {ι μ : Type} {S : Setting} {instruction : ι → Instruction}
    (view : ChipMemory → μ) (step : ι → μ → Circuit μ) (circuit : List ι → μ → Circuit μ)
    (hnil : ∀ N, circuit [] N = pure N)
    (hcons : ∀ i p N, circuit (i :: p) N = step i N >>= circuit p)
    (hstep : ∀ i M log, (step i (view M)).run.constraints =
        ((instruction i).run S M log).constraints ∧
      (step i (view M)).run.result =
        ((instruction i).run S M log).result.map fun v => view (M.store v))
    (p : List ι) (M : ChipMemory) (log : Log) :
    (circuit p (view M)).RunsIn view log (Program.trace S (p.map instruction) M log) := by
  induction p generalizing M log with
  | nil =>
      have hlog : log = log ++ [] := (List.append_nil log).symm
      rw [hnil]
      exact ⟨rfl, hlog ▸ List.prefix_refl _, fun _ _ => hlog⟩
  | cons i p ih =>
      obtain ⟨hconstraints, hresult⟩ := hstep i M log
      rw [hcons, List.map_cons, Program.trace]
      generalize (instruction i).run S M log = r at hconstraints hresult ⊢
      obtain ⟨ks, ms, x⟩ := r
      cases x with
      | error fault =>
          obtain ⟨hfault, hks⟩ := run_bind_of_error (circuit p) hresult
          refine ⟨hfault.trans rfl, ?_, fun N hN => ?_⟩
          · rw [hks, hconstraints]
            exact Program.log_prefix_trace _ _ _ _
          · rw [hfault] at hN
            cases hN
      | ok v =>
          obtain ⟨hreturned, hks⟩ := run_bind_of_ok (f := circuit p) hresult
          obtain ⟨hrest, hrecorded, hall⟩ := ih (M.store v) (log ++ ks)
          rw [List.append_assoc] at hrecorded hall
          dsimp only [ChipMemory.after]
          refine ⟨?_, ?_, fun N hN => ?_⟩
          · rw [hreturned, hrest, List.mapM_cons]
            generalize List.mapM Run.result _ = xs
            cases xs with
            | error | ok => rfl
          · rw [hks, hconstraints]
            exact hrecorded
          · rw [hks, hconstraints]
            exact hall N (hreturned.symm.trans hN)

theorem Instruction.run_field {S : Setting} {E : EmulatedField} (hS : S.field? = some E)
    (op : FieldOp Source ℕ) (M : ChipMemory) (log : Log) :
    (Instruction.gadget (.field op)).run S M log =
      (Circuit.ofExcept (op.resolve M.operand M.element) >>= FieldOp.circuit E).run := by
  rw [run, call, ChipInstruction.call]
  cases op.resolve M.operand M.element with
  | error fault => rfl
  | ok op =>
      change Call.run S log (.field op) = _
      rw [Call.run, hS]
      rfl

/-- A program on an emulated field runs wherever there is that field, on a chip as well. -/
theorem FieldProgram.runsIn_trace {S : Setting} {E : EmulatedField} (hS : S.field? = some E)
    (p : FieldProgram) (M : ChipMemory) (log : Log) :
    (FieldProgram.circuit E p M.toMemory).RunsIn (·.toMemory) log
      (Program.trace S (p.map fun op => .gadget (.field op)) M log) := by
  refine Circuit.runsIn_trace ChipMemory.toMemory (FieldOp.step E) (FieldProgram.circuit E)
    (fun _ => rfl) (fun _ _ _ => rfl) (fun op M log => ?_) p M log
  have hstep : op.step E M.toMemory = M.toMemory.store <$>
      (Circuit.ofExcept (op.resolve M.operand M.element) >>= FieldOp.circuit E) := by
    rw [FieldOp.step, map_bind]
    rfl
  rw [hstep, run_map, Instruction.run_field hS]
  exact ⟨rfl, rfl⟩

theorem ChipInstruction.run_circuit (i : ChipInstruction) (M : ChipMemory) (log : Log) :
    (Instruction.gadget i).run (.chip .overBn254) M log = (i.circuit M).run := by
  rw [Instruction.run, Instruction.call]
  cases i with
  | field op =>
      rw [call, circuit]
      cases op.resolve M.operand M.element <;> rfl
  | chip op =>
      rw [call, circuit]
      cases op.resolve M.operand M.element M.extension <;> rfl
  | load l =>
      change Call.run _ log (.load l) = _
      rw [Call.run, circuit]
      cases l.value <;> rfl
  | loadExtension ls =>
      change Call.run _ log (.loadExtension ls) = _
      rw [Call.run, circuit]
      cases extensionOfLiterals ls <;> rfl
  | coordinates a =>
      rw [call, circuit]
      cases M.extension a <;> rfl
  | assemble c =>
      rw [call, circuit]
      cases c.mapM M.element <;> rfl

theorem ChipProgram.runsIn_trace (p : ChipProgram) (M : ChipMemory) (log : Log) :
    (p.circuit M).RunsIn id log (Program.trace (.chip .overBn254) (p.map .gadget) M log) := by
  let step (i : ChipInstruction) (N : ChipMemory) : Circuit ChipMemory := N.store <$> i.circuit N
  refine Circuit.runsIn_trace id step ChipProgram.circuit (fun _ => rfl) (fun i p N => ?_)
    (fun i M log => ?_) p M log
  · rw [bind_map_left]
    rfl
  · rw [id, run_map, ChipInstruction.run_circuit]
    exact ⟨rfl, rfl⟩

/-! ### Traces of a session -/

/-- The steps that make the calls of a program, each on what has been returned before. -/
def Program.steps (S : Setting) : Program → ChipMemory → Log → List Step
  | [], _, _ => []
  | i :: p, M, log =>
      let r := i.run S M log
      ⟨[], fun _ => i.call M, none⟩ ::
        Program.steps S p (M.after r.result) (log ++ r.constraints)

theorem Session.perform_call (s : Session) (i : Instruction) (M : ChipMemory) :
    let r := i.run s.setting M s.log
    s.perform ⟨[], fun _ => i.call M, none⟩ = ⟨r.result, s.log ++ r.constraints, r.messages⟩ := by
  have hrequest : s.request ⟨[], fun _ => i.call M, none⟩ = i.call M := rfl
  rw [perform, hrequest, Instruction.run]
  cases i.call M with
  | ok call => exact call.execute_live s.setting s.log
  | error fault => exact congrArg (Execution.mk _ · _) (List.append_nil _).symm

/-- The session that makes the calls of a program ends with the log of its trace. -/
theorem Session.play_steps (S : Setting) (p : Program) (M : ChipMemory) (log : Log)
    (R : Registers) :
    (⟨S, log, R⟩ : Session).play (p.steps S M log) = ⟨S, (p.trace S M log).log, R⟩ := by
  induction p generalizing M log with
  | nil => rfl
  | cons i p ih =>
      have hstep : ((⟨S, log, R⟩ : Session).step ⟨[], fun _ => i.call M, none⟩).1 =
          ⟨S, log ++ (i.run S M log).constraints, R⟩ := by
        rw [Session.step, Session.perform_call]
        rfl
      rw [Program.steps, Session.play, List.foldl_cons, hstep]
      exact ih _ _

/-- A session in which the calls of a chip program are made has recorded the constraints of
its circuit, if that returns. -/
theorem ChipProgram.log_play {p : ChipProgram} {M : ChipMemory}
    (h : (p.circuit .empty).run.result = .ok M) :
    ((Session.start (.chip .overBn254)).play
      (Program.steps (.chip .overBn254) (p.map .gadget) .empty [])).log =
        (p.circuit .empty).run.constraints := by
  rw [Session.start, Session.play_steps]
  exact (p.runsIn_trace .empty []).recorded_all M h

end NonNative
