import NonNative.Fault

/-!
Whether a constraint holds. A term counts as its integer, whatever field it
belongs to. Judging a malformed constraint is a fault.
-/

namespace NonNative

/-- Whether the relation holds. The kind is looked at before the terms, and
terms beyond those that the kind needs do not matter. -/
def Constraint.holds (c : Constraint) : Except Fault Bool :=
  match c.kind, c.terms.map (·.toInt) with
  | .other name, _ => .error (.unknownKind name)
  | .equal, a :: b :: _ => .ok (a == b)
  | .boolean, a :: _ => .ok (a == 0 || a == 1)
  | .range, a :: width :: _ =>
      if width < 0 then .error .negativeWidth
      else .ok (a < 0 || bitLength a.toNat ≤ width.toNat)
  | _, _ => .error .missingOperand

end NonNative
