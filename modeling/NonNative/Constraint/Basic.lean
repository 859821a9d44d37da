import NonNative.Native.Scalar

/-!
Recorded constraints. The three known kinds say that two terms are equal, that
a term is zero or one, and that a term has at most a given number of bits. A
native value is recorded with the field it belongs to.
-/

namespace NonNative

inductive ConstraintKind where
  | equal
  | boolean
  | range
  | other (name : String)
  deriving DecidableEq

namespace ConstraintKind

def ofName : String → ConstraintKind
  | "equal" => .equal
  | "boolean" => .boolean
  | "range" => .range
  | name => .other name

def name : ConstraintKind → String
  | .equal => "equal"
  | .boolean => "boolean"
  | .range => "range"
  | .other name => name

end ConstraintKind

/-- What a constraint relates: a native value, or a plain integer, such as the
width of a range. -/
inductive Term where
  | value (s : Scalar)
  | int (n : Int)
  deriving DecidableEq

/-- The integer of a term, for a native value its representative. -/
def Term.toInt : Term → Int
  | .value s => s.val
  | .int n => n

/-- A relation on terms, under the name of the operation that recorded it. A
range has its width as second term. -/
structure Constraint where
  kind : ConstraintKind
  terms : List Term
  label : String
  deriving DecidableEq

namespace Constraint

def equal (a b : Scalar) (label : String) : Constraint :=
  ⟨.equal, [.value a, .value b], label⟩

def boolean (a : Scalar) (label : String) : Constraint :=
  ⟨.boolean, [.value a], label⟩

def range (a : Scalar) (width : Int) (label : String) : Constraint :=
  ⟨.range, [.value a, .int width], label⟩

/-- A constraint in one line: kind, terms, label. -/
def render (c : Constraint) : String :=
  let terms := c.terms.map fun a => s!" {a.toInt}"
  s!"{c.kind.name}{String.join terms} #{c.label}"

end Constraint

end NonNative
