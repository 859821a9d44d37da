import NonNative.Chip.Extension
import NonNative.Live.Field

/-!
The operations of a chip as actions on the log of its system.
-/

namespace NonNative

namespace Live

namespace Gadget

variable (C : Chip)

def assertNotEqual (a b : Element) : Live Unit := do
  let difference ← Field.sub C.field a b
  let flag ← Field.isZero C.field difference
  Native.assertEqual C.native (.scalar flag) (.int 0) "assert_not_equal"

def unpack (a : Operand) : Live (List Element) := do
  let bits ← Native.toBits C.native a C.native.bits
  (Chip.chunks BabyBear.limbBits BabyBear.packing bits).mapM fun chunk => do
    let x ← Native.ofBits C.native (chunk.map .scalar)
    Field.ofNative C.field (.scalar x)

def print (a : Element) : Live Unit := do
  let n ← ofExcept a.native.toInt
  tell (.printed s!"{n % (BabyBear.prime : Int)}\n")

/-! ### Extension values -/

def addExt (a b : ExtensionValue) : Live ExtensionValue := a.zipWithM (Field.add C.field) b

def subExt (a b : ExtensionValue) : Live ExtensionValue := a.zipWithM (Field.sub C.field) b

def negExt (a : ExtensionValue) : Live ExtensionValue := a.mapM (Field.neg C.field)

def selectExt (cond : Operand) (a b : ExtensionValue) : Live ExtensionValue :=
  a.zipWithM (Field.select C.field cond) b

/-- Adds the multiples of the entries of the second list to the entries of the
first. -/
def addMultiples (multiple : Element → Live Element) :
    List Element → List Element → Live (List Element)
  | c :: cs, y :: ys => do
      let product ← multiple y
      let sum ← Field.add C.field c product
      let rest ← addMultiples multiple cs ys
      return sum :: rest
  | cs, _ => return cs

/-- Adds the product of two polynomials to the first list, row by row. -/
def addProduct : List Element → List Element → List Element → Live (List Element)
  | acc, [], _ => return acc
  | acc, x :: xs, ys => do
      match ← addMultiples C (Field.mul C.field x) acc ys with
      | [] => return []
      | c :: rest => return c :: (← addProduct rest xs ys)

def mulExt (a b : ExtensionValue) : Live ExtensionValue := do
  let zero := C.field.zero
  let product ← addProduct C (List.replicate 7 zero) a.toList b.toList
  let folded ← addMultiples C (Field.mul C.field · (C.field.constant nonResidue))
    (product.take 4) (product.drop 4)
  return .ofListD zero folded

def assertEqualExt (a b : ExtensionValue) : Live Unit := do
  Field.assertEqual C.field a.c0 b.c0 "assert_equal"
  Field.assertEqual C.field a.c1 b.c1 "assert_equal"
  Field.assertEqual C.field a.c2 b.c2 "assert_equal"
  Field.assertEqual C.field a.c3 b.c3 "assert_equal"

def assertNotEqualExt (a b : ExtensionValue) : Live Unit := do
  let flags ← a.zipWithM (fun x y => do Field.isZero C.field (← Field.sub C.field x y)) b
  let low ← Native.and C.native (.scalar flags.c0) (.scalar flags.c1)
  let high ← Native.and C.native (.scalar flags.c2) (.scalar flags.c3)
  let all ← Native.and C.native (.scalar low) (.scalar high)
  Native.assertEqual C.native (.scalar all) (.int 0) "assert_not_equal_e"

def invExt (a : ExtensionValue) : Live ExtensionValue := do
  let residues ← a.mapM fun c => do
    let reduced ← Field.reduce C.field c
    ofExcept reduced.native.toInt
  if residues.toList.all (· == 0) then
    tell (.notice .inverseOfZero)
  let inverse := (residues.map BabyBear.ofInt).inv
  let w ← inverse.mapM fun c => Field.witness C.field c.val
  let product ← mulExt C a w
  assertEqualExt C product Chip.oneExt
  return w

def divExt (a b : ExtensionValue) : Live ExtensionValue := do
  let w ← invExt C b
  mulExt C a w

/-! ### An extension value and a base element -/

def addBase (a : ExtensionValue) (b : Element) : Live ExtensionValue := do
  let c0 ← Field.add C.field a.c0 b
  return { a with c0 }

def subBase (a : ExtensionValue) (b : Element) : Live ExtensionValue := do
  let c0 ← Field.sub C.field a.c0 b
  return { a with c0 }

def mulBase (a : ExtensionValue) (b : Element) : Live ExtensionValue :=
  a.mapM fun x => Field.mul C.field x b

def divBase (a : ExtensionValue) (b : Element) : Live ExtensionValue := do
  let w ← Field.inverse C.field b
  mulBase C a w

def printExt (a : ExtensionValue) : Live Unit := do
  print a.c0
  print a.c1
  print a.c2
  print a.c3

end Gadget

end Live

end NonNative
