import NonNative.Literal.Reader
import NonNative.Native.Scalar

/-!
How integers and other operands come into a native field. An integer stands for
its class, unless it is asked to be the representative itself.
-/

namespace NonNative

/-- The value with exactly this representative. -/
def NativeField.exactly (F : NativeField) (n : Int) : Except Fault Scalar :=
  if h : 0 ≤ n ∧ n < F.order then .ok ⟨F.order, n.toNat, by omega⟩
  else .error (.outOfField F.order n)

/-- What a gate takes: a native value, or something that stands for the class
of an integer. A text is read only where the operand is used. -/
inductive Operand where
  | scalar (s : Scalar)
  | int (n : Int)
  | truth (b : Bool)
  | text (s : String)
  deriving DecidableEq

namespace Operand

/-- The integer of an operand. -/
def toInt : Operand → Except Fault Int
  | .scalar s => .ok s.val
  | .int n => .ok n
  | .truth b => .ok b.toInt
  | .text s => (Literal.text s).value

/-- How an operand is printed. -/
def render : Operand → String
  | .scalar s => toString s.val
  | .int n => toString n
  | .truth b => if b then "True" else "False"
  | .text s => s

end Operand

end NonNative
