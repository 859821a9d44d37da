import NonNative.Circuit.Message
import NonNative.Constraint.Report

/-!
Constraint systems at work. A circuit is a description, which knows nothing of
what has been recorded before. An action of a system is given all of it, may look
at it and could change it; it ends with a value or with a fault, and a fault does
not undo what came before.
-/

namespace NonNative

/-- What a system at work holds: what has been recorded and what has been said,
oldest first. -/
structure Ledger where
  recorded : Array Constraint
  said : Array Message

/-- An action of a system at work. -/
abbrev Live := ExceptT Fault (StateM Ledger)

/-- What an action leaves behind, the log as a whole included. -/
structure Execution (α : Type) where
  result : Except Fault α
  log : Log
  messages : List Message

namespace Live

variable {α : Type}

def ofExcept : Except Fault α → Live α
  | .ok a => pure a
  | .error fault => throw fault

/-- Appends a constraint to what has been recorded. -/
def record (c : Constraint) : Live Unit :=
  modify fun s => { s with recorded := s.recorded.push c }

def tell (message : Message) : Live Unit :=
  modify fun s => { s with said := s.said.push message }

/-- Everything that has been recorded so far. -/
def log : Live Log := do
  let s ← get
  return s.recorded.toList

/-- Executes an action after the given log. -/
def execute (x : Live α) (log : Log) : Execution α :=
  let (result, ledger) := x.run.run ⟨log.toArray, #[]⟩
  ⟨result, ledger.recorded.toList, ledger.said.toList⟩

end Live

end NonNative
