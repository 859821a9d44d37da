/-!
What a circuit says while it is built: lines it prints, and notices about
itself. A notice has a level and the name of the part that gives it.
-/

namespace NonNative

inductive Notice where
  | systemReady (nativeBits : Nat)
  | emulationReady (modulusBits limbCount limbBits maxOverflow : Nat)
  | chipReady (order : Nat)
  | allSatisfied (count : Nat)
  | inverseOfZero
  deriving DecidableEq

def Notice.render : Notice → String
  | .systemReady nativeBits =>
      s!"DEBUG constraints.api constraint system over {nativeBits}-bit native field"
  | .emulationReady modulusBits limbCount limbBits maxOverflow =>
      s!"DEBUG constraints.emulated emulating {modulusBits}-bit modulus as " ++
        s!"{limbCount} x {limbBits}-bit limbs (overflow budget {maxOverflow})"
  | .chipReady order => s!"DEBUG babybear.chip BabyBear chip over GF({order})"
  | .allSatisfied count => s!"DEBUG constraints.api {count} constraints satisfied"
  | .inverseOfZero =>
      "WARNING babybear.chip inv_e called on the zero extension element; " ++
        "circuit is unsatisfiable"

inductive Message where
  | printed (text : String)
  | notice (n : Notice)
  deriving DecidableEq

/-- The text printed by a list of messages. -/
def printedText (messages : List Message) : String :=
  String.join <| messages.filterMap fun
    | .printed text => some text
    | .notice _ => none

/-- The notices among a list of messages. -/
def notices (messages : List Message) : List Notice :=
  messages.filterMap fun
    | .printed _ => none
    | .notice n => some n

end NonNative
