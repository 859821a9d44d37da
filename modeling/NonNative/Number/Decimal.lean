/-!
The length limit on decimal texts. It holds for texts that are read and for
integers that are written.
-/

namespace NonNative

/-- The most decimal digits of an integer that is read or written. -/
def maxDecimalDigits : Nat := 4300

/-- Whether an integer has few enough digits to be written. -/
def isWritable (n : Int) : Bool := n.natAbs < Nat.pow 10 maxDecimalDigits

end NonNative
