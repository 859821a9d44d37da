import NonNative.Live.Chip
import NonNative.Script.Value

/-!
The operations that a script can call, as data, the circuit that each of them
builds and the action by which a system carries it out. They are stated over
types of operands: a call has values for them, a program may have references
instead.
-/

namespace NonNative

/-- One answer to a free hint, or a list of answers. -/
inductive HintAnswer where
  | one (a : Operand)
  | many (l : List Operand)

/-- How the caller of a free hint computes its values from the integers of the
inputs. -/
abbrev HintRule := List Int → Except Fault HintAnswer

/-- A piece of a printed line. -/
inductive Piece (ν : Type) where
  | text (s : String)
  | value (x : ν)

/-- Operations of the constraint system; `ν` stands for native operands. -/
inductive Gate (ν : Type) where
  | constant (a : ν)
  | hint (rule : HintRule) (inputs : List ν)
  | add (a b : ν) (more : List ν)
  | sub (a b : ν)
  | mul (a b : ν) (more : List ν)
  | neg (a : ν)
  | and (a b : ν)
  | select (cond a b : ν)
  | isZero (a : ν)
  | toBits (a : ν) (width : Option Int)
  | ofBits (bits : List ν)
  | assertEqual (a b : ν) (label : String)
  | assertBoolean (a : ν) (label : String)
  | rangeCheck (a : ν) (width : Int) (label : String)
  | print (pieces : List (Piece ν))

/-- Operations of an emulated field; `β` stands for its elements. -/
inductive FieldOp (ν β : Type) where
  | constant (l : Literal)
  | zero
  | one
  | ofNative (a : ν)
  | witness (n : Int)
  | canonical (r : ν) (label : String)
  | remainder (v : ν) (bound : Int) (label : String)
  | reduce (a : β)
  | paddingMultiple (a : β)
  | add (a b : β)
  | neg (a : β)
  | sub (a b : β)
  | mul (a b : β)
  | inverse (a : β)
  | select (cond : ν) (a b : β)
  | isZero (a : β)
  | assertEqual (a b : β) (label : String)
  | toBits (a : β)

/-- Operations of a chip beyond those of its field; `ε` stands for extension
values. -/
inductive ChipOp (ν β ε : Type) where
  | assertNotEqual (a b : β)
  | unpack (a : ν)
  | print (a : β)
  | zeroExt
  | oneExt
  | ofBase (a : β)
  | addExt (a b : ε)
  | subExt (a b : ε)
  | negExt (a : ε)
  | mulExt (a b : ε)
  | invExt (a : ε)
  | divExt (a b : ε)
  | assertEqualExt (a b : ε)
  | assertNotEqualExt (a b : ε)
  | selectExt (cond : ν) (a b : ε)
  | addBase (a : ε) (b : β)
  | subBase (a : ε) (b : β)
  | mulBase (a : ε) (b : β)
  | divBase (a : ε) (b : β)
  | printExt (a : ε)

def Piece.render : Piece Operand → String
  | .text s => s
  | .value x => x.render

def Value.toPiece : Value → Except Fault (Piece Operand)
  | .nothing => .ok (.text "None")
  | v => Piece.value <$> v.toOperand

/-- A value as a label, written as it is printed. -/
def Value.toLabel (v : Value) : Except Fault String := v.toPiece.map (·.render)

/-! ### Circuits -/

def Gate.circuit (F : NativeField) : Gate Operand → Circuit Value
  | .constant a => .scalar <$> F.accept a
  | .hint rule inputs => do
      let values ← inputs.mapM F.accept
      match ← Circuit.ofExcept (rule (values.map fun x => (x.val : Int))) with
      | .one a => .scalar <$> F.answer a
      | .many l => .scalars <$> l.mapM F.answer
  | .add a b more => do
      let sum ← F.add a b
      .scalar <$> more.foldlM (fun total x => F.add (.scalar total) x) sum
  | .sub a b => .scalar <$> F.sub a b
  | .mul a b more => do
      let product ← F.mul a b
      .scalar <$> more.foldlM (fun total x => F.mul (.scalar total) x) product
  | .neg a => .scalar <$> F.neg a
  | .and a b => .scalar <$> F.and a b
  | .select cond a b => .scalar <$> F.select cond a b
  | .isZero a => .scalar <$> F.isZero a
  | .toBits a width => .scalars <$> F.toBits a (width.getD F.bits)
  | .ofBits bits => .scalar <$> F.ofBits bits
  | .assertEqual a b label => (fun _ => .nothing) <$> F.assertEqual a b label
  | .assertBoolean a label => (fun _ => .nothing) <$> F.assertBoolean a label
  | .rangeCheck a width label => (fun _ => .nothing) <$> F.rangeCheck a width label
  | .print pieces => do
      .tell (.printed (" ".intercalate (pieces.map (·.render)) ++ "\n"))
      return .nothing

/-- A number as an integer to be shown. -/
def written (n : Nat) : Except Fault Int :=
  if isWritable n then .ok n else .error .numberTooLong

def FieldOp.circuit (E : EmulatedField) : FieldOp Operand Element → Circuit Value
  | .constant l => (fun n => .element (E.constant n)) <$> Circuit.ofExcept l.value
  | .zero => return .element E.zero
  | .one => return .element E.one
  | .ofNative a => .element <$> E.ofNative a
  | .witness n => .element <$> E.witness n
  | .canonical r label => .element <$> E.canonical r label
  | .remainder v bound label => .element <$> E.remainder v bound label
  | .reduce a => .element <$> E.reduce a
  | .paddingMultiple a => .int <$> Circuit.ofExcept (E.paddingMultiple a >>= written)
  | .add a b => .element <$> E.add a b
  | .neg a => .element <$> E.neg a
  | .sub a b => .element <$> E.sub a b
  | .mul a b => .element <$> E.mul a b
  | .inverse a => .element <$> E.inverse a
  | .select cond a b => .element <$> E.select cond a b
  | .isZero a => .scalar <$> E.isZero a
  | .assertEqual a b label => (fun _ => .nothing) <$> E.assertEqual a b label
  | .toBits a => .scalars <$> E.toBits a

def ChipOp.circuit (C : Chip) : ChipOp Operand Element ExtensionValue → Circuit Value
  | .assertNotEqual a b => (fun _ => .nothing) <$> C.assertNotEqual a b
  | .unpack a => .elements <$> C.unpack a
  | .print a => (fun _ => .nothing) <$> Chip.print a
  | .zeroExt => return .extension Chip.zeroExt
  | .oneExt => return .extension Chip.oneExt
  | .ofBase a => return .extension (C.ofBase a)
  | .addExt a b => .extension <$> C.addExt a b
  | .subExt a b => .extension <$> C.subExt a b
  | .negExt a => .extension <$> C.negExt a
  | .mulExt a b => .extension <$> C.mulExt a b
  | .invExt a => .extension <$> C.invExt a
  | .divExt a b => .extension <$> C.divExt a b
  | .assertEqualExt a b => (fun _ => .nothing) <$> C.assertEqualExt a b
  | .assertNotEqualExt a b => (fun _ => .nothing) <$> C.assertNotEqualExt a b
  | .selectExt cond a b => .extension <$> C.selectExt cond a b
  | .addBase a b => .extension <$> C.addBase a b
  | .subBase a b => .extension <$> C.subBase a b
  | .mulBase a b => .extension <$> C.mulBase a b
  | .divBase a b => .extension <$> C.divBase a b
  | .printExt a => (fun _ => .nothing) <$> Chip.printExt a

/-! ### Actions -/

open Live in
def Gate.live (F : NativeField) : Gate Operand → Live Value
  | .constant a => .scalar <$> Native.constant F a
  | .hint rule inputs => do
      let integers ← Native.integers F inputs
      match ← Live.ofExcept (rule integers) with
      | .one a => .scalar <$> Native.constant F a
      | .many l => .scalars <$> l.mapM (Native.constant F)
  | .add a b more => do
      let sum ← Native.add F a b
      .scalar <$> more.foldlM (fun total x => Native.add F (.scalar total) x) sum
  | .sub a b => .scalar <$> Native.sub F a b
  | .mul a b more => do
      let product ← Native.mul F a b
      .scalar <$> more.foldlM (fun total x => Native.mul F (.scalar total) x) product
  | .neg a => .scalar <$> Native.neg F a
  | .and a b => .scalar <$> Native.and F a b
  | .select cond a b => .scalar <$> Native.select F cond a b
  | .isZero a => .scalar <$> Native.isZero F a
  | .toBits a width => .scalars <$> Native.toBits F a (width.getD F.bits)
  | .ofBits bits => .scalar <$> Native.ofBits F bits
  | .assertEqual a b label => (fun _ => .nothing) <$> Native.assertEqual F a b label
  | .assertBoolean a label => (fun _ => .nothing) <$> Native.assertBoolean F a label
  | .rangeCheck a width label => (fun _ => .nothing) <$> Native.rangeCheck F a width label
  | .print pieces => do
      Live.tell (.printed (" ".intercalate (pieces.map (·.render)) ++ "\n"))
      return .nothing

open Live in
def FieldOp.live (E : EmulatedField) : FieldOp Operand Element → Live Value
  | .constant l => (fun n => .element (E.constant n)) <$> Live.ofExcept l.value
  | .zero => return .element E.zero
  | .one => return .element E.one
  | .ofNative a => .element <$> Field.ofNative E a
  | .witness n => .element <$> Field.witness E n
  | .canonical r label => .element <$> Field.canonical E r label
  | .remainder v bound label => .element <$> Field.remainder E v bound label
  | .reduce a => .element <$> Field.reduce E a
  | .paddingMultiple a => .int <$> Live.ofExcept (E.paddingMultiple a >>= written)
  | .add a b => .element <$> Field.add E a b
  | .neg a => .element <$> Field.neg E a
  | .sub a b => .element <$> Field.sub E a b
  | .mul a b => .element <$> Field.mul E a b
  | .inverse a => .element <$> Field.inverse E a
  | .select cond a b => .element <$> Field.select E cond a b
  | .isZero a => .scalar <$> Field.isZero E a
  | .assertEqual a b label => (fun _ => .nothing) <$> Field.assertEqual E a b label
  | .toBits a => .scalars <$> Field.toBits E a

open Live in
def ChipOp.live (C : Chip) : ChipOp Operand Element ExtensionValue → Live Value
  | .assertNotEqual a b => (fun _ => .nothing) <$> Gadget.assertNotEqual C a b
  | .unpack a => .elements <$> Gadget.unpack C a
  | .print a => (fun _ => .nothing) <$> Gadget.print a
  | .zeroExt => return .extension Chip.zeroExt
  | .oneExt => return .extension Chip.oneExt
  | .ofBase a => return .extension (C.ofBase a)
  | .addExt a b => .extension <$> Gadget.addExt C a b
  | .subExt a b => .extension <$> Gadget.subExt C a b
  | .negExt a => .extension <$> Gadget.negExt C a
  | .mulExt a b => .extension <$> Gadget.mulExt C a b
  | .invExt a => .extension <$> Gadget.invExt C a
  | .divExt a b => .extension <$> Gadget.divExt C a b
  | .assertEqualExt a b => (fun _ => .nothing) <$> Gadget.assertEqualExt C a b
  | .assertNotEqualExt a b => (fun _ => .nothing) <$> Gadget.assertNotEqualExt C a b
  | .selectExt cond a b => .extension <$> Gadget.selectExt C cond a b
  | .addBase a b => .extension <$> Gadget.addBase C a b
  | .subBase a b => .extension <$> Gadget.subBase C a b
  | .mulBase a b => .extension <$> Gadget.mulBase C a b
  | .divBase a b => .extension <$> Gadget.divBase C a b
  | .printExt a => (fun _ => .nothing) <$> Gadget.printExt a

end NonNative
