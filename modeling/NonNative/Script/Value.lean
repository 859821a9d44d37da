import NonNative.Chip.Extension
import NonNative.Literal.Reader

/-!
The values that the steps of a script pass on, and the registers that hold
them. An operation states the sort of each argument; a value of another sort is
refused.
-/

namespace NonNative

inductive Value where
  | nothing
  | bool (b : Bool)
  | int (n : Int)
  | text (s : String)
  | scalar (s : Scalar)
  | element (a : Element)
  | extension (a : ExtensionValue)
  | constraint (c : Constraint)
  | list (items : List Value)

namespace Value

def scalars (l : List Scalar) : Value := .list (l.map .scalar)

def elements (l : List Element) : Value := .list (l.map .element)

def toInt : Value → Except Fault Int
  | .int n => .ok n
  | .bool b => .ok b.toInt
  | _ => .error .wrongSort

def toOperand : Value → Except Fault Operand
  | .scalar s => .ok (.scalar s)
  | .int n => .ok (.int n)
  | .bool b => .ok (.truth b)
  | .text s => .ok (.text s)
  | _ => .error .wrongSort

def toElement : Value → Except Fault Element
  | .element a => .ok a
  | _ => .error .wrongSort

/-- An extension value, or the list of its coordinates. -/
def toExtension : Value → Except Fault ExtensionValue
  | .extension a => .ok a
  | .list [a, b, c, d] => (⟨a, b, c, d⟩ : Quartic Value).mapM toElement
  | _ => .error .wrongSort

/-- The items of a list, the coordinates of an extension value, or the
characters of a text. -/
def toList : Value → Except Fault (List Value)
  | .list items => .ok items
  | .extension a => .ok (a.toList.map .element)
  | .text s => .ok (s.toList.map fun c => .text c.toString)
  | _ => .error .wrongSort

/-- The items that a position can pick; a native value has none. -/
def items : Value → Except Fault (List Value)
  | .scalar _ => .ok []
  | v => v.toList

/-- The item at a position; negative positions count from the end. -/
def item (v : Value) (i : Int) : Except Fault Value := do
  let items ← v.items
  let position := if i < 0 then i + items.length else i
  if position < 0 then .error .indexOutOfRange
  else
    match items[position.toNat]? with
    | some x => .ok x
    | none => .error .indexOutOfRange

/-- The extension value with the given coordinates. -/
def ofCoordinates (coordinates : List Value) : Except Fault Value :=
  match Quartic.ofList? coordinates with
  | none => .error (.coordinateCount coordinates.length)
  | some c => do return .extension (← c.mapM toElement)

/-- An element from its parts, which nothing checks. -/
def ofParts (native overflow limbs : Value) : Except Fault Value := do
  let native ← native.toOperand
  let overflow ← overflow.toInt
  let limbs ← (← limbs.toList).mapM toOperand
  return .element ⟨native, overflow, limbs⟩

/-- The value of the field of the given order with this representative. -/
def ofRepresentative (order n : Int) : Except Fault Value :=
  match NativeField.ofOrder? order.toNat with
  | none => .error .wrongSort
  | some F => (F.exactly n).map .scalar

end Value

/-- Registers by name, the latest assignment first. -/
abbrev Registers := List (String × Value)

/-- An argument of a step, before registers are looked up. A malformed one was
meant as an integer and is none. The position of an item is read only after its
register has been found. -/
inductive Arg where
  | nothing
  | malformed
  | int (n : Int)
  | text (s : String)
  | register (name : String)
  | item (name : String) (position : Literal)
  | list (items : List Arg)

/-- The argument that a text spells: `$name` is a register and `$name.i` an item
of one, where the first dot ends the name; any other text is an integer. -/
def Arg.ofText (s : String) : Arg :=
  match s.toList with
  | '$' :: reference =>
      let name := String.ofList (reference.takeWhile (· != '.'))
      match reference.dropWhile (· != '.') with
      | [] => .register name
      | _ :: position => .item name (.text (String.ofList position))
  | _ =>
      match readInt? s with
      | some n => .int n
      | none => .malformed

namespace Registers

def get (R : Registers) (name : String) : Except Fault Value :=
  match R.lookup name with
  | some v => .ok v
  | none => .error (.unsetRegister name)

mutual

/-- The value of an argument. -/
def resolve (R : Registers) : Arg → Except Fault Value
  | .nothing => .ok .nothing
  | .malformed => .error .malformedLiteral
  | .int n => .ok (.int n)
  | .text s => .ok (.text s)
  | .register name => R.get name
  | .item name position => do
      let v ← R.get name
      v.item (← position.value)
  | .list items => do return .list (← resolveAll R items)

/-- The values of a list of arguments, from left to right. -/
def resolveAll (R : Registers) : List Arg → Except Fault (List Value)
  | [] => .ok []
  | a :: rest => do
      let v ← resolve R a
      let vs ← resolveAll R rest
      return v :: vs

end

end Registers

end NonNative
