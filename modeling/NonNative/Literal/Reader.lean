import NonNative.Fault
import NonNative.Literal.Blank
import NonNative.Literal.DecimalDigit
import NonNative.Number.Decimal

/-!
Integer literals. A literal is either an integer or a text; a text stands for
an integer if, without the white space around it, it is an optional sign and a
run of decimal digits in which single underscores may separate digits. Leading
zeros count for the limit on the number of digits.
-/

namespace NonNative

/-- The digits of a run; a single underscore may stand between two digits. -/
def digitRun? : List Char → Option (List Nat)
  | [] => none
  | c :: cs =>
      match decimalDigit? c, cs with
      | none, _ => none
      | some d, [] => some [d]
      | some d, '_' :: rest => (digitRun? rest).map (d :: ·)
      | some d, next :: rest => (digitRun? (next :: rest)).map (d :: ·)

/-- The number with the given decimal digits, most significant first. -/
def ofDecimalDigits (ds : List Nat) : Nat := ds.foldl (10 * · + ·) 0

/-- The value of a run of digits that is not too long. -/
def unsigned? (cs : List Char) : Option Nat :=
  match digitRun? cs with
  | some ds => if ds.length ≤ maxDecimalDigits then some (ofDecimalDigits ds) else none
  | none => none

def signed? : List Char → Option Int
  | '-' :: cs => (unsigned? cs).map fun (n : Nat) => -(n : Int)
  | '+' :: cs => (unsigned? cs).map fun (n : Nat) => (n : Int)
  | cs => (unsigned? cs).map fun (n : Nat) => (n : Int)

/-- A list of characters without the white space at its two ends. -/
def trimBlanks (cs : List Char) : List Char :=
  ((cs.dropWhile isBlank).reverse.dropWhile isBlank).reverse

def readInt? (s : String) : Option Int := signed? (trimBlanks s.toList)

inductive Literal where
  | int (n : Int)
  | text (s : String)
  deriving DecidableEq

/-- The integer a literal stands for. -/
def Literal.value : Literal → Except Fault Int
  | .int n => .ok n
  | .text s =>
      match readInt? s with
      | some n => .ok n
      | none => .error .malformedLiteral

end NonNative
