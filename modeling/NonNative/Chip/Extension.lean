import NonNative.Chip.Basic
import NonNative.Extension.Field

/-!
Gadgets for the quartic extension of the BabyBear field. An extension value has
four base elements as coordinates. Products are accumulated without reduction
in seven coefficients, of which the upper three are folded back by
`x ^ 4 = 11`.
-/

namespace NonNative

abbrev ExtensionValue := Quartic Element

namespace Chip

/-- Four constants, over BN254 whatever field a chip is over. -/
def extensionConstant (a : Quartic Int) : ExtensionValue := a.map constant

def zeroExt : ExtensionValue := extensionConstant ⟨0, 0, 0, 0⟩

def oneExt : ExtensionValue := extensionConstant ⟨1, 0, 0, 0⟩

variable (C : Chip)

/-- A base element as an extension value. -/
def ofBase (a : Element) : ExtensionValue :=
  ⟨a, C.field.zero, C.field.zero, C.field.zero⟩

def addExt (a b : ExtensionValue) : Circuit ExtensionValue := a.zipWithM C.field.add b

def subExt (a b : ExtensionValue) : Circuit ExtensionValue := a.zipWithM C.field.sub b

def negExt (a : ExtensionValue) : Circuit ExtensionValue := a.mapM C.field.neg

def selectExt (cond : Operand) (a b : ExtensionValue) : Circuit ExtensionValue :=
  a.zipWithM (C.field.select cond) b

/-- Adds the multiples of the entries of the second list to the entries of the
first. -/
def addMultiples (multiple : Element → Circuit Element) :
    List Element → List Element → Circuit (List Element)
  | c :: cs, y :: ys => do
      let product ← multiple y
      let sum ← C.field.add c product
      let rest ← addMultiples multiple cs ys
      return sum :: rest
  | cs, _ => .done cs

/-- Adds the product of two polynomials to the first list: one row for each
coefficient of `xs`, the next row one place further up. -/
def addProduct : List Element → List Element → List Element → Circuit (List Element)
  | acc, [], _ => .done acc
  | acc, x :: xs, ys => do
      match ← C.addMultiples (C.field.mul x) acc ys with
      | [] => return []
      | c :: rest => return c :: (← addProduct rest xs ys)

/-- The product modulo `x ^ 4 - 11`. -/
def mulExt (a b : ExtensionValue) : Circuit ExtensionValue := do
  let zero := C.field.zero
  let product ← C.addProduct (List.replicate 7 zero) a.toList b.toList
  let folded ← C.addMultiples (C.field.mul · (C.field.constant nonResidue)) (product.take 4)
    (product.drop 4)
  return .ofListD zero folded

def assertEqualExt (a b : ExtensionValue) : Circuit Unit := do
  let assertEqual (x y : Element) := C.field.assertEqual x y "assert_equal"
  assertEqual a.c0 b.c0
  assertEqual a.c1 b.c1
  assertEqual a.c2 b.c2
  assertEqual a.c3 b.c3

/-- Constrains two values to differ in some coordinate. -/
def assertNotEqualExt (a b : ExtensionValue) : Circuit Unit := do
  let flags ← a.zipWithM (fun x y => do C.field.isZero (← C.field.sub x y)) b
  let low ← C.native.and (.scalar flags.c0) (.scalar flags.c1)
  let high ← C.native.and (.scalar flags.c2) (.scalar flags.c3)
  let all ← C.native.and (.scalar low) (.scalar high)
  C.native.assertEqual (.scalar all) (.int 0) "assert_not_equal_e"

/-- The inverse, supplied by the prover and constrained by its product with
`a`. Zero has none: a notice says so, and that constraint fails. -/
def invExt (a : ExtensionValue) : Circuit ExtensionValue := do
  let residues ← a.mapM fun c => do
    let reduced ← C.field.reduce c
    Circuit.ofExcept reduced.native.toInt
  if residues.toList.all (· == 0) then
    .tell (.notice .inverseOfZero)
  let inverse := (residues.map BabyBear.ofInt).inv
  let w ← inverse.mapM fun c => C.field.witness c.val
  let product ← C.mulExt a w
  C.assertEqualExt product oneExt
  return w

def divExt (a b : ExtensionValue) : Circuit ExtensionValue := do
  let w ← C.invExt b
  C.mulExt a w

/-! ### An extension value and a base element -/

def addBase (a : ExtensionValue) (b : Element) : Circuit ExtensionValue := do
  let c0 ← C.field.add a.c0 b
  return { a with c0 }

def subBase (a : ExtensionValue) (b : Element) : Circuit ExtensionValue := do
  let c0 ← C.field.sub a.c0 b
  return { a with c0 }

def mulBase (a : ExtensionValue) (b : Element) : Circuit ExtensionValue :=
  a.mapM fun x => C.field.mul x b

def divBase (a : ExtensionValue) (b : Element) : Circuit ExtensionValue := do
  let w ← C.field.inverse b
  C.mulBase a w

/-- Prints the coordinates, one line each. -/
def printExt (a : ExtensionValue) : Circuit Unit := do
  print a.c0
  print a.c1
  print a.c2
  print a.c3

end Chip

end NonNative
