import NonNative.Circuit.Basic
import NonNative.Native.Operand
import NonNative.Number.Power

/-!
The gates of a constraint system over a native field. Every gate accepts
values of its own field and whatever stands for an integer, and refuses values
of other fields.
Arithmetic records nothing; assertions record one constraint and never fail by
themselves.
-/

namespace NonNative

namespace NativeField

variable (F : NativeField)

/-- The value of an operand in the field. -/
def accept : Operand → Circuit Scalar
  | .scalar s =>
      if s.order = F.order then .done s else .refuse (.foreignValue F.order s.order)
  | .int n => .done (F.lift n)
  | .truth b => .done (F.lift b.toInt)
  | .text s =>
      match (Literal.text s).value with
      | .ok n => .done (F.lift n)
      | .error fault => .refuse fault

/-- A value from the prover. -/
def hint (honest : Int) : Circuit Scalar :=
  .hint honest fun answer => .done (F.lift answer)

/-- A value from the prover, for which an honest one takes the given operand. -/
def answer (a : Operand) : Circuit Scalar := do
  let x ← F.accept a
  F.hint x.val

def hints (honest : List Nat) : Circuit (List Scalar) := honest.mapM fun (n : Nat) => F.hint n

/-! ### Arithmetic -/

def add (a b : Operand) : Circuit Scalar := do
  let x ← F.accept a
  let y ← F.accept b
  return F.lift ((x.val : Int) + y.val)

def sub (a b : Operand) : Circuit Scalar := do
  let x ← F.accept a
  let y ← F.accept b
  return F.lift ((x.val : Int) - y.val)

def mul (a b : Operand) : Circuit Scalar := do
  let x ← F.accept a
  let y ← F.accept b
  return F.lift ((x.val : Int) * y.val)

def neg (a : Operand) : Circuit Scalar := do
  let x ← F.accept a
  return F.lift (-(x.val : Int))

/-- `a` if the condition is one and `b` if it is zero, as `b + cond * (a - b)`.
The condition is not constrained. -/
def select (cond a b : Operand) : Circuit Scalar := do
  let difference ← F.sub a b
  let step ← F.mul cond (.scalar difference)
  F.add b (.scalar step)

/-! ### Assertions -/

def assertEqual (a b : Operand) (label : String) : Circuit Unit := do
  let x ← F.accept a
  let y ← F.accept b
  .assert (.equal x y label)

def assertBoolean (a : Operand) (label : String) : Circuit Unit := do
  let x ← F.accept a
  .assert (.boolean x label)

def rangeCheck (a : Operand) (width : Int) (label : String) : Circuit Unit := do
  let x ← F.accept a
  .assert (.range x width label)

/-! ### Booleans and digits -/

/-- The conjunction of two operands, both constrained to be boolean. -/
def and (a b : Operand) : Circuit Scalar := do
  F.assertBoolean a "and"
  F.assertBoolean b "and"
  F.mul a b

/-- One if the operand is zero, and zero otherwise. The prover supplies an
inverse `y`; the flag is `1 - x * y`, and `x` times the flag must vanish. -/
def isZero (a : Operand) : Circuit Scalar := do
  let x ← F.accept a
  let y ← F.hint (fermatInverse x.val F.order)
  let product ← F.mul (.scalar x) (.scalar y)
  let flag ← F.sub (.int 1) (.scalar product)
  let residue ← F.mul (.scalar x) (.scalar flag)
  F.assertEqual (.scalar residue) (.int 0) "is_zero"
  return flag

/-- The value with the given digits in base `2 ^ w`, least significant
first. -/
def recompose (w : Nat) (ds : List Operand) : Circuit Scalar := do
  let values ← ds.mapM F.accept
  return F.lift (ofDigits w (values.map (·.val)))

def ofBits (bs : List Operand) : Circuit Scalar := F.recompose 1 bs

/-- The lowest `width` bits of a value, from the prover. Each is constrained to
be boolean, and together they are constrained to recompose to the value. A
negative width counts as zero. -/
def toBits (a : Operand) (width : Int) : Circuit (List Scalar) := do
  let x ← F.accept a
  let bs ← F.hints (NonNative.bits width.toNat x.val)
  bs.forM fun b => F.assertBoolean (.scalar b) "to_binary"
  let sum ← F.ofBits (bs.map .scalar)
  F.assertEqual (.scalar sum) (.scalar x) "to_binary"
  return bs

end NativeField

end NonNative
