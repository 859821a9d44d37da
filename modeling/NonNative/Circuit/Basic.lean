import NonNative.Circuit.Message
import NonNative.Fault

/-!
Circuits under construction. A circuit computes a value and on its way records
constraints, gives messages, and asks the prover for values that nothing
constrains yet. It cannot read what has been recorded. A question to the
prover carries the answer of an honest one, so the same circuit describes the
honest run and the runs with any other answers.
-/

namespace NonNative

inductive Circuit (α : Type) : Type where
  | done (a : α)
  | refuse (fault : Fault)
  | record (c : Constraint) (rest : Circuit α)
  | say (message : Message) (rest : Circuit α)
  | hint (honest : Int) (rest : Int → Circuit α)

/-- What a finished construction has recorded and said, and its result. What
came before a fault is kept. -/
structure Run (α : Type) where
  constraints : List Constraint
  messages : List Message
  result : Except Fault α

namespace Circuit

variable {α β γ : Type}

def bind : Circuit α → (α → Circuit β) → Circuit β
  | .done a, f => f a
  | .refuse fault, _ => .refuse fault
  | .record c rest, f => .record c (rest.bind f)
  | .say message rest, f => .say message (rest.bind f)
  | .hint honest rest, f => .hint honest fun answer => (rest answer).bind f

instance : Monad Circuit where
  pure := .done
  bind := bind

theorem bind_done (c : Circuit α) : c.bind .done = c := by
  induction c with
  | done a => rfl
  | refuse fault => rfl
  | record c rest ih => exact congrArg (Circuit.record c) ih
  | say message rest ih => exact congrArg (Circuit.say message) ih
  | hint honest rest ih => exact congrArg (Circuit.hint honest) (funext ih)

theorem bind_assoc (c : Circuit α) (f : α → Circuit β) (g : β → Circuit γ) :
    (c.bind f).bind g = c.bind fun a => (f a).bind g := by
  induction c with
  | done a => rfl
  | refuse fault => rfl
  | record c rest ih => exact congrArg (Circuit.record c) ih
  | say message rest ih => exact congrArg (Circuit.say message) ih
  | hint honest rest ih => exact congrArg (Circuit.hint honest) (funext ih)

instance : LawfulMonad Circuit :=
  LawfulMonad.mk' Circuit bind_done (fun _ _ => rfl) bind_assoc

def ofExcept : Except Fault α → Circuit α
  | .ok a => .done a
  | .error fault => .refuse fault

/-- Records one constraint. -/
def assert (c : Constraint) : Circuit Unit := .record c (.done ())

def tell (message : Message) : Circuit Unit := .say message (.done ())

/-- The run in which every question gets the honest answer. -/
def run : Circuit α → Run α
  | .done a => ⟨[], [], .ok a⟩
  | .refuse fault => ⟨[], [], .error fault⟩
  | .record c rest =>
      let r := rest.run
      ⟨c :: r.constraints, r.messages, r.result⟩
  | .say message rest =>
      let r := rest.run
      ⟨r.constraints, message :: r.messages, r.result⟩
  | .hint honest rest => (rest honest).run

end Circuit

end NonNative
