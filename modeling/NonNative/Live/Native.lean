import NonNative.Live.Basic
import NonNative.Native.Operand
import NonNative.Number.Power

/-!
The gates of a constraint system as actions on its log. A hint is computed at
once, from the integers of its inputs, and sums over digits are carried out gate
by gate.
-/

namespace NonNative

namespace Live

namespace Native

variable (F : NativeField)

/-- Takes a value of the field, or the class of an integer. -/
def constant : Operand → Live Scalar
  | .scalar s =>
      if s.order = F.order then return s else throw (.foreignValue F.order s.order)
  | a => do
      let n ← ofExcept a.toInt
      return F.lift n

/-- The integers of the inputs of a hint. -/
def integers (inputs : List Operand) : Live (List Int) := do
  let values ← inputs.mapM (constant F)
  return values.map fun x => (x.val : Int)

/-- A value computed from one input, which nothing constrains. -/
def hint (f : Nat → Nat) (a : Operand) : Live Scalar := do
  let x ← constant F a
  return F.lift (f x.val)

def hints (f : Nat → List Nat) (a : Operand) : Live (List Scalar) := do
  let x ← constant F a
  return (f x.val).map fun (n : Nat) => F.lift n

/-! ### Arithmetic -/

def add (a b : Operand) : Live Scalar := do
  let x ← constant F a
  let y ← constant F b
  return F.lift ((x.val : Int) + y.val)

def sub (a b : Operand) : Live Scalar := do
  let x ← constant F a
  let y ← constant F b
  return F.lift ((x.val : Int) - y.val)

def mul (a b : Operand) : Live Scalar := do
  let x ← constant F a
  let y ← constant F b
  return F.lift ((x.val : Int) * y.val)

def neg (a : Operand) : Live Scalar := do
  let x ← constant F a
  return F.lift (-(x.val : Int))

def select (cond a b : Operand) : Live Scalar := do
  let difference ← sub F a b
  let step ← mul F cond (.scalar difference)
  add F b (.scalar step)

/-! ### Assertions -/

def assertEqual (a b : Operand) (label : String) : Live Unit := do
  let x ← constant F a
  let y ← constant F b
  record (.equal x y label)

def assertBoolean (a : Operand) (label : String) : Live Unit := do
  let x ← constant F a
  record (.boolean x label)

def rangeCheck (a : Operand) (width : Int) (label : String) : Live Unit := do
  let x ← constant F a
  record (.range x width label)

/-! ### Booleans and digits -/

def and (a b : Operand) : Live Scalar := do
  assertBoolean F a "and"
  assertBoolean F b "and"
  mul F a b

def isZero (a : Operand) : Live Scalar := do
  let x ← constant F a
  let y ← hint F (fermatInverse · F.order) (.scalar x)
  let product ← mul F (.scalar x) (.scalar y)
  let flag ← sub F (.int 1) (.scalar product)
  let residue ← mul F (.scalar x) (.scalar flag)
  assertEqual F (.scalar residue) (.int 0) "is_zero"
  return flag

/-- The sum of limbs of `w` bits, from place `i` on, added to `sum`. -/
def recomposeFrom (w : Nat) : Nat → Scalar → List Scalar → Live Scalar
  | _, sum, [] => return sum
  | i, sum, limb :: limbs => do
      let term ← mul F (.scalar limb) (.int (1 <<< (w * i) : Nat))
      let sum ← add F (.scalar sum) (.scalar term)
      recomposeFrom w (i + 1) sum limbs

/-- The value with the given limbs, least significant first. -/
def recompose (w : Nat) (limbs : List Scalar) : Live Scalar := do
  let zero ← constant F (.int 0)
  recomposeFrom F w 0 zero limbs

/-- The value with the given bits, least significant first, each shifted to its
place. -/
def ofBits (bits : List Operand) : Live Scalar := do
  let values ← bits.mapM (constant F)
  let sum : Nat := values.zipIdx.foldl (fun sum b => sum + b.1.val <<< b.2) 0
  return F.lift sum

def toBits (a : Operand) (width : Int) : Live (List Scalar) := do
  let x ← constant F a
  let bits ← hints F (NonNative.bits width.toNat) (.scalar x)
  bits.forM fun b => assertBoolean F (.scalar b) "to_binary"
  let sum ← ofBits F (bits.map .scalar)
  assertEqual F (.scalar sum) (.scalar x) "to_binary"
  return bits

end Native

end Live

end NonNative
