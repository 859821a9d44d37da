import NonNative.Constraint.Basic
import NonNative.Number.Decimal

/-!
The ways in which an operation can be refused. Each constructor is a cause;
the wording of the causes that are reported with a text is in one function.
-/

namespace NonNative

/-- Why a modulus cannot be emulated in a native field. -/
inductive SetupFault where
  | limbLayout (limbs bits : Int)
  | modulusTooSmall (modulus : Int)
  | modulusTooWide (modulusBits : Nat) (capacity : Int)
  | compositeModulus (modulus : Int)
  | nativeTooSmall (nativeBits : Nat) (elementBits : Int)
  deriving DecidableEq

def SetupFault.message : SetupFault → String
  | .limbLayout limbs bits => s!"Invalid limb layout: {limbs} limbs of {bits} bits"
  | .modulusTooSmall modulus => s!"Modulus must be at least 2, got {modulus}"
  | .modulusTooWide modulusBits capacity =>
      s!"Modulus has {modulusBits} bits, limb layout only holds {capacity}"
  | .compositeModulus modulus => s!"Modulus {modulus} is declared prime but is composite"
  | .nativeTooSmall nativeBits elementBits =>
      s!"Native field ({nativeBits} bits) is too small to emulate {elementBits}-bit elements"

/-- The integers that the message of a setup fault shows. -/
def SetupFault.numbers : SetupFault → List Int
  | .limbLayout limbs bits => [limbs, bits]
  | .modulusTooSmall modulus => [modulus]
  | .modulusTooWide modulusBits capacity => [modulusBits, capacity]
  | .compositeModulus modulus => [modulus]
  | .nativeTooSmall nativeBits elementBits => [nativeBits, elementBits]

/-- Why an operation gave no result. -/
inductive Fault where
  /-- The modulus cannot be emulated. -/
  | setup (cause : SetupFault)
  /-- A value of one prime field met a system over another. -/
  | foreignValue (expected found : Nat)
  /-- A list of coefficients of an extension element does not have four entries. -/
  | coefficientCount (found : Nat)
  /-- A list of coordinates of an extension value does not have four entries. -/
  | coordinateCount (found : Nat)
  /-- A constraint is of no known kind. -/
  | unknownKind (kind : String)
  /-- A constraint of a known kind lacks an operand. -/
  | missingOperand
  /-- A text is not an integer literal. -/
  | malformedLiteral
  /-- An integer has too many digits to be written. -/
  | numberTooLong
  /-- A power of two with a negative exponent was asked for. -/
  | negativeWidth
  /-- An integer is not a representative of the field it was given for. -/
  | outOfField (order : Nat) (value : Int)
  /-- An inverse was asked for that does not exist. -/
  | notInvertible
  | divisionByZero
  | indexOutOfRange
  /-- A report found constraints that do not hold, in the order of the log. -/
  | unsatisfied (failed : List Constraint)
  /-- A register was read before it was set. -/
  | unsetRegister (name : String)
  /-- An argument is of the wrong sort for its operation. -/
  | wrongSort
  deriving DecidableEq

/-- A setup fault is reported as such if its message can be written. -/
def SetupFault.toFault (cause : SetupFault) : Fault :=
  if cause.numbers.all isWritable then .setup cause else .numberTooLong

/-- How many labels of failing constraints a report names. -/
def shownLabels : Nat := 5

/-- The report on failing constraints: their number, the first few labels, and
how many more there are. -/
def unsatisfiedMessage (labels : List String) : String :=
  let named := ", ".intercalate (labels.take shownLabels)
  let more :=
    if shownLabels < labels.length then s!" (+{labels.length - shownLabels} more)" else ""
  s!"{labels.length} unsatisfied constraint(s): {named}{more}"

/-- The text reported with a fault, for the faults that have one. -/
def Fault.message? : Fault → Option String
  | .setup cause => some cause.message
  | .foreignValue expected found => some s!"Expected GF({expected}) element, got GF({found})"
  | .coefficientCount found => some s!"Expected 4 coefficients, got {found}"
  | .coordinateCount found => some s!"Extension element needs 4 coefficients, got {found}"
  | .unknownKind kind => some s!"Unknown constraint kind: {kind}"
  | .unsatisfied failed => some (unsatisfiedMessage (failed.map (·.label)))
  | .unsetRegister name => some s!"no register {name}"
  | _ => none

end NonNative
