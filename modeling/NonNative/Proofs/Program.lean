import NonNative.Proofs.Arithmetic
import NonNative.Script.Operation

/-!
Programs on an emulated field. An instruction is an operation whose arguments
refer to results of earlier instructions; what it returns is appended to the
memory, so the memory of a finished program holds every value that any
instruction returned. Beside the circuit stands an interpretation of the program
on residues. It says what each result should be and what the program demands of
its values, and it is undefined for a program that is not wired properly.
-/

namespace NonNative

/-! ### Instructions and their circuits -/

/-- Where a native operand comes from: an integer, or a native value returned
earlier. -/
inductive Source where
  | int (n : ℤ)
  | wire (i : ℕ)

/-- The native values and the elements that have been returned, oldest first. -/
structure Memory where
  natives : List Scalar
  elements : List Element

namespace Memory

def empty : Memory := ⟨[], []⟩

def native (M : Memory) (i : ℕ) : Except Fault Scalar :=
  match M.natives[i]? with
  | some s => .ok s
  | none => .error .indexOutOfRange

def operand (M : Memory) : Source → Except Fault Operand
  | .int n => .ok (.int n)
  | .wire i => (M.native i).map .scalar

def element (M : Memory) (i : ℕ) : Except Fault Element :=
  match M.elements[i]? with
  | some a => .ok a
  | none => .error .indexOutOfRange

theorem mem_of_element {M : Memory} {i : ℕ} {a : Element} (h : M.element i = .ok a) :
    a ∈ M.elements := by
  rw [element] at h
  split at h
  · next hi =>
      cases h
      exact List.mem_of_getElem? hi
  · cases h

end Memory

namespace Value

/-- The native values in a result. -/
def nativeResults : Value → List Scalar
  | .scalar s => [s]
  | .list items => items.filterMap fun
      | .scalar s => some s
      | _ => none
  | _ => []

/-- The elements in a result. -/
def elementResults : Value → List Element
  | .element a => [a]
  | .list items => items.filterMap fun
      | .element a => some a
      | _ => none
  | _ => []

/-- The extension values in a result. -/
def extensionResults : Value → List ExtensionValue
  | .extension a => [a]
  | _ => []

end Value

/-- The memory after a result has been returned. -/
def Memory.store (M : Memory) (v : Value) : Memory :=
  ⟨M.natives ++ v.nativeResults, M.elements ++ v.elementResults⟩

/-- A relation of computations in two monads that is kept by sequencing. -/
structure MonadRelation (m n : Type → Type) [Monad m] [Monad n] where
  Rel {α β : Type} (R : α → β → Prop) : m α → n β → Prop
  pure {α β : Type} {R : α → β → Prop} {a : α} {b : β} : R a b → Rel R (Pure.pure a) (Pure.pure b)
  bind {α β γ δ : Type} {R : α → β → Prop} {S : γ → δ → Prop} {x : m α} {y : n β} {f : α → m γ}
    {g : β → n δ} : Rel R x y → (∀ a b, R a b → Rel S (f a) (g b)) → Rel S (x >>= f) (y >>= g)

/-- Where the option has a value, the computation succeeds with a related one. -/
def Refines {α β : Type} (R : α → β → Prop) (x : Except Fault α) (y : Option β) : Prop :=
  ∀ b, y = some b → ∃ a, x = .ok a ∧ R a b

namespace Refines

variable {α β γ δ : Type} {R : α → β → Prop} {S : γ → δ → Prop}

theorem pure {a : α} {b : β} (h : R a b) : Refines R (Pure.pure a) (Pure.pure b) := by
  intro c hc
  obtain rfl := Option.some.inj hc
  exact ⟨a, rfl, h⟩

theorem bind {x : Except Fault α} {y : Option β} {f : α → Except Fault γ} {g : β → Option δ}
    (hx : Refines R x y) (hf : ∀ a b, R a b → Refines S (f a) (g b)) :
    Refines S (x >>= f) (y >>= g) := by
  intro d hd
  obtain ⟨b, hb, hd⟩ := Option.bind_eq_some_iff.1 hd
  obtain ⟨a, rfl, hab⟩ := hx b hb
  exact hf a b hab d hd

def relation : MonadRelation (Except Fault) Option := ⟨Refines, .pure, .bind⟩

end Refines

/-- The operation with its references looked up, from left to right. -/
def FieldOp.resolve {ν β ν' β' : Type} {m : Type → Type} [Monad m] (native : ν → m ν')
    (element : β → m β') : FieldOp ν β → m (FieldOp ν' β')
  | .constant l => return .constant l
  | .zero => return .zero
  | .one => return .one
  | .ofNative a => return .ofNative (← native a)
  | .witness n => return .witness n
  | .canonical r label => return .canonical (← native r) label
  | .remainder v bound label => return .remainder (← native v) bound label
  | .reduce a => return .reduce (← element a)
  | .paddingMultiple a => return .paddingMultiple (← element a)
  | .add a b => return .add (← element a) (← element b)
  | .neg a => return .neg (← element a)
  | .sub a b => return .sub (← element a) (← element b)
  | .mul a b => return .mul (← element a) (← element b)
  | .inverse a => return .inverse (← element a)
  | .select cond a b => return .select (← native cond) (← element a) (← element b)
  | .isZero a => return .isZero (← element a)
  | .assertEqual a b label => return .assertEqual (← element a) (← element b) label
  | .toBits a => return .toBits (← element a)

/-- Two operations are of the same kind and have related arguments. -/
inductive FieldOp.Related {ν β ν' β' : Type} (R : ν → ν' → Prop) (S : β → β' → Prop) :
    FieldOp ν β → FieldOp ν' β' → Prop where
  | constant (l : Literal) : Related R S (.constant l) (.constant l)
  | zero : Related R S .zero .zero
  | one : Related R S .one .one
  | ofNative {a a'} (ha : R a a') : Related R S (.ofNative a) (.ofNative a')
  | witness (n : ℤ) : Related R S (.witness n) (.witness n)
  | canonical {r r'} (hr : R r r') (label : String) :
      Related R S (.canonical r label) (.canonical r' label)
  | remainder {v v'} (hv : R v v') (bound : ℤ) (label : String) :
      Related R S (.remainder v bound label) (.remainder v' bound label)
  | reduce {a a'} (ha : S a a') : Related R S (.reduce a) (.reduce a')
  | paddingMultiple {a a'} (ha : S a a') :
      Related R S (.paddingMultiple a) (.paddingMultiple a')
  | add {a a' b b'} (ha : S a a') (hb : S b b') : Related R S (.add a b) (.add a' b')
  | neg {a a'} (ha : S a a') : Related R S (.neg a) (.neg a')
  | sub {a a' b b'} (ha : S a a') (hb : S b b') : Related R S (.sub a b) (.sub a' b')
  | mul {a a' b b'} (ha : S a a') (hb : S b b') : Related R S (.mul a b) (.mul a' b')
  | inverse {a a'} (ha : S a a') : Related R S (.inverse a) (.inverse a')
  | select {c c' a a' b b'} (hc : R c c') (ha : S a a') (hb : S b b') :
      Related R S (.select c a b) (.select c' a' b')
  | isZero {a a'} (ha : S a a') : Related R S (.isZero a) (.isZero a')
  | assertEqual {a a' b b'} (ha : S a a') (hb : S b b') (label : String) :
      Related R S (.assertEqual a b label) (.assertEqual a' b' label)
  | toBits {a a'} (ha : S a a') : Related R S (.toBits a) (.toBits a')

theorem FieldOp.related_refl {ν β : Type} (op : FieldOp ν β) : Related Eq Eq op op := by
  cases op <;> constructor <;> rfl

/-- Operations that refer to related things, looked up in two ways. -/
theorem FieldOp.Related.resolve {m n : Type → Type} [Monad m] [Monad n] (Γ : MonadRelation m n)
    {ν β ν' β' ν₁ β₁ ν₂ β₂ : Type} {R₀ : ν → ν' → Prop} {S₀ : β → β' → Prop} {R : ν₁ → ν₂ → Prop}
    {S : β₁ → β₂ → Prop} {native₁ : ν → m ν₁} {element₁ : β → m β₁} {native₂ : ν' → n ν₂}
    {element₂ : β' → n β₂} {op : FieldOp ν β} {op' : FieldOp ν' β'} (h : Related R₀ S₀ op op')
    (hnative : ∀ a a', R₀ a a' → Γ.Rel R (native₁ a) (native₂ a'))
    (helement : ∀ a a', S₀ a a' → Γ.Rel S (element₁ a) (element₂ a')) :
    Γ.Rel (Related R S) (op.resolve native₁ element₁) (op'.resolve native₂ element₂) := by
  cases h with
  | constant l => exact Γ.pure (.constant l)
  | zero => exact Γ.pure .zero
  | one => exact Γ.pure .one
  | witness k => exact Γ.pure (.witness k)
  | ofNative ha => exact Γ.bind (hnative _ _ ha) fun _ _ ha => Γ.pure (.ofNative ha)
  | canonical hr label =>
      exact Γ.bind (hnative _ _ hr) fun _ _ hr => Γ.pure (.canonical hr label)
  | remainder hv bound label =>
      exact Γ.bind (hnative _ _ hv) fun _ _ hv => Γ.pure (.remainder hv bound label)
  | reduce ha => exact Γ.bind (helement _ _ ha) fun _ _ ha => Γ.pure (.reduce ha)
  | paddingMultiple ha =>
      exact Γ.bind (helement _ _ ha) fun _ _ ha => Γ.pure (.paddingMultiple ha)
  | neg ha => exact Γ.bind (helement _ _ ha) fun _ _ ha => Γ.pure (.neg ha)
  | inverse ha => exact Γ.bind (helement _ _ ha) fun _ _ ha => Γ.pure (.inverse ha)
  | isZero ha => exact Γ.bind (helement _ _ ha) fun _ _ ha => Γ.pure (.isZero ha)
  | toBits ha => exact Γ.bind (helement _ _ ha) fun _ _ ha => Γ.pure (.toBits ha)
  | add ha hb =>
      exact Γ.bind (helement _ _ ha) fun _ _ ha => Γ.bind (helement _ _ hb) fun _ _ hb =>
        Γ.pure (.add ha hb)
  | sub ha hb =>
      exact Γ.bind (helement _ _ ha) fun _ _ ha => Γ.bind (helement _ _ hb) fun _ _ hb =>
        Γ.pure (.sub ha hb)
  | mul ha hb =>
      exact Γ.bind (helement _ _ ha) fun _ _ ha => Γ.bind (helement _ _ hb) fun _ _ hb =>
        Γ.pure (.mul ha hb)
  | assertEqual ha hb label =>
      exact Γ.bind (helement _ _ ha) fun _ _ ha => Γ.bind (helement _ _ hb) fun _ _ hb =>
        Γ.pure (.assertEqual ha hb label)
  | select hc ha hb =>
      exact Γ.bind (hnative _ _ hc) fun _ _ hc => Γ.bind (helement _ _ ha) fun _ _ ha =>
        Γ.bind (helement _ _ hb) fun _ _ hb => Γ.pure (.select hc ha hb)

/-- References that can be looked up on the one side can be looked up on the
other, with related results. -/
theorem FieldOp.refines_resolve {ν β ν₁ β₁ ν₂ β₂ : Type} {R : ν₁ → ν₂ → Prop}
    {S : β₁ → β₂ → Prop} {native₁ : ν → Except Fault ν₁} {element₁ : β → Except Fault β₁}
    {native₂ : ν → Option ν₂} {element₂ : β → Option β₂}
    (hnative : ∀ a, Refines R (native₁ a) (native₂ a))
    (helement : ∀ a, Refines S (element₁ a) (element₂ a)) (op : FieldOp ν β) :
    Refines (Related R S) (op.resolve native₁ element₁) (op.resolve native₂ element₂) := by
  refine op.related_refl.resolve Refines.relation ?_ ?_
  · rintro a _ rfl
    exact hnative a
  · rintro a _ rfl
    exact helement a

/-- The operation leaves the prover no choice. A witness may be any residue. -/
def FieldOp.IsDetermined {ν β : Type} : FieldOp ν β → Prop
  | .witness _ => False
  | _ => True

theorem FieldOp.IsDetermined.resolve {ν β ν' β' : Type} {native : ν → Option ν'}
    {element : β → Option β'} {op : FieldOp ν β} {op' : FieldOp ν' β'} (hop : op.IsDetermined)
    (h : op.resolve native element = some op') : op'.IsDetermined := by
  cases op <;> simp only [FieldOp.resolve, Option.bind_eq_bind, Option.bind_eq_some_iff,
    Option.pure_def, Option.some.injEq] at h <;> grind [FieldOp.IsDetermined]

/-- The circuit of an instruction, from one memory to the next. -/
def FieldOp.step (E : EmulatedField) (op : FieldOp Source ℕ) (M : Memory) : Circuit Memory := do
  let op ← Circuit.ofExcept (op.resolve M.operand M.element)
  let result ← op.circuit E
  return M.store result

/-- A straight-line program on an emulated field. -/
abbrev FieldProgram := List (FieldOp Source ℕ)

def FieldProgram.circuit (E : EmulatedField) : FieldProgram → Memory → Circuit Memory
  | [], M => pure M
  | op :: p, M => do
      let M' ← op.step E M
      FieldProgram.circuit E p M'

/-! ### Interpretation -/

/-- What the values of a memory stand for: native values for truth values, and
elements for residues. -/
structure Reading (m : ℕ) where
  flags : List Bool
  residues : List (ZMod m)

namespace Reading

variable {m : ℕ}

def empty : Reading m := ⟨[], []⟩

/-- The representative of a native operand. -/
def value (F : NativeField) (σ : Reading m) : Source → Option ℕ
  | .int n => some (F.lift n).val
  | .wire i => σ.flags[i]?.map Bool.toNat

def residue (σ : Reading m) (i : ℕ) : Option (ZMod m) := σ.residues[i]?

end Reading

/-- What a program demands of its values. -/
inductive Demand (m : ℕ) where
  /-- A native value has to fit into the limbs of an element. -/
  | narrow (v : ℕ)
  | equal (x y : ZMod m) (label : String)
  | invertible (x : ZMod m)

/-- The constraint that fails if the demand is not met. -/
def Demand.blame (E : EmulatedField) : Demand E.modulus → Log
  | .narrow v =>
      if v < 2 ^ E.totalBits then [] else [.range (E.native.lift v) E.totalBits "new_element"]
  | .equal x y label => EmulatedField.mismatch E.native x y label
  | .invertible x =>
      if x = 0 then [.equal (E.native.lift 0) (E.native.lift 1) "inverse"] else []

theorem Demand.blame_narrow_eq_nil_iff {E : EmulatedField} {v : ℕ} :
    (Demand.narrow v).blame E = [] ↔ v < 2 ^ E.totalBits := by
  simp [blame]

theorem Demand.blame_invertible_eq_nil_iff {E : EmulatedField} {x : ZMod E.modulus} :
    (Demand.invertible x).blame E = [] ↔ x ≠ 0 := by
  simp [blame]

/-- What an operation returns, and what it demands. -/
structure Meaning (m : ℕ) where
  flags : List Bool
  residues : List (ZMod m)
  demands : List (Demand m)

namespace Meaning

variable {m : ℕ}

def ofFlags (bs : List Bool) : Meaning m := ⟨bs, [], []⟩

def ofResidue (x : ZMod m) : Meaning m := ⟨[], [x], []⟩

end Meaning

/-- The meaning of an operation on residues. A condition has to be zero or one,
and inverses have a meaning modulo a prime only. -/
def FieldOp.meaning (E : EmulatedField) :
    FieldOp ℕ (ZMod E.modulus) → Option (Meaning E.modulus)
  | .constant l => l.value.toOption.map fun (n : ℤ) => .ofResidue (n : ZMod E.modulus)
  | .zero => some (.ofResidue 0)
  | .one => some (.ofResidue 1)
  | .ofNative v => some ⟨[], [(v : ZMod E.modulus)], [.narrow v]⟩
  | .witness n => some (.ofResidue n)
  | .reduce x => some (.ofResidue x)
  | .add x y => some (.ofResidue (x + y))
  | .neg x => some (.ofResidue (-x))
  | .sub x y => some (.ofResidue (x - y))
  | .mul x y => some (.ofResidue (x * y))
  | .inverse x => if E.modulus.Prime then some ⟨[], [x⁻¹], [.invertible x]⟩ else none
  | .select 0 _ y => some (.ofResidue y)
  | .select 1 x _ => some (.ofResidue x)
  | .isZero x => some (.ofFlags [decide (x = 0)])
  | .assertEqual x y label => some ⟨[], [], [.equal x y label]⟩
  | .toBits x => some (.ofFlags ((bits E.modulusBits x.val).map (· == 1)))
  | .select _ _ _ | .canonical _ _ | .remainder _ _ _ | .paddingMultiple _ => none

/-- The reading of the memory after an operation with the given meaning. -/
def Reading.extend {m : ℕ} (σ : Reading m) (e : Meaning m) : Reading m :=
  ⟨σ.flags ++ e.flags, σ.residues ++ e.residues⟩

/-- The interpretation of a program: the final reading and all demands in
order. -/
def FieldProgram.interpret (E : EmulatedField) :
    FieldProgram → Reading E.modulus → Option (Reading E.modulus × List (Demand E.modulus))
  | [], σ => some (σ, [])
  | op :: p, σ => do
      let op ← op.resolve (σ.value E.native) σ.residue
      let e ← op.meaning E
      let (σ', demands) ← FieldProgram.interpret E p (σ.extend e)
      return (σ', e.demands ++ demands)

end NonNative
