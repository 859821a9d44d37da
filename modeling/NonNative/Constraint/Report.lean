import NonNative.Constraint.Judgement

/-!
Reports on a log of recorded constraints: which of them fail, whether all of
them hold, and a check that refuses a log with a failing constraint. A report
ends with the fault of the first malformed constraint that it reaches.
-/

namespace NonNative

/-- Recorded constraints, oldest first. -/
abbrev Log := List Constraint

namespace Log

/-- The constraints that do not hold, in order. All of them are judged. -/
def unsatisfied : Log → Except Fault (List Constraint)
  | [] => .ok []
  | c :: log => do
      let held ← c.holds
      let failed ← unsatisfied log
      return if held then failed else c :: failed

/-- Whether all constraints hold. The first that fails settles it. -/
def isSatisfied : Log → Except Fault Bool
  | [] => .ok true
  | c :: log => do
      if ← c.holds then isSatisfied log else return false

/-- Refuses a log in which some constraint does not hold. -/
def check (log : Log) : Except Fault Unit := do
  let failed ← unsatisfied log
  if failed.isEmpty then return () else .error (.unsatisfied failed)

/-- The positions of the constraints that do not hold, counted from `start`. -/
def failingPositions (start : Nat) : Log → Except Fault (List Nat)
  | [] => .ok []
  | c :: log => do
      let held ← c.holds
      let failed ← failingPositions (start + 1) log
      return if held then failed else start :: failed

end Log

end NonNative
