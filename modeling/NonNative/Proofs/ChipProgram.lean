import NonNative.Proofs.ChipGadgets
import NonNative.Proofs.FieldRuns
import NonNative.Script.Session

/-!
Programs of chip operations over BN254. Beside native values and elements the
memory holds extension values; an instruction is an operation of the field or of
the chip on earlier results, a literal, or one that takes an extension value
apart or puts one together. The interpretation is on residues modulo the
BabyBear prime and on points of the quartic field.
-/

namespace NonNative

/-! ### Instructions and their circuits -/

structure ChipMemory extends Memory where
  extensions : List ExtensionValue

namespace ChipMemory

def empty : ChipMemory := ⟨.empty, []⟩

def extension (M : ChipMemory) (i : ℕ) : Except Fault ExtensionValue :=
  match M.extensions[i]? with
  | some a => .ok a
  | none => .error .indexOutOfRange

theorem mem_of_extension {M : ChipMemory} {i : ℕ} {a : ExtensionValue}
    (h : M.extension i = .ok a) : a ∈ M.extensions := by
  rw [extension] at h
  split at h
  · next hi =>
      cases h
      exact List.mem_of_getElem? hi
  · cases h

/-- The memory after a result has been returned. -/
def store (M : ChipMemory) (v : Value) : ChipMemory :=
  ⟨M.toMemory.store v, M.extensions ++ v.extensionResults⟩

end ChipMemory

/-- The operation with its references looked up, from left to right. -/
def ChipOp.resolve {ν β ε ν' β' ε' : Type} {m : Type → Type} [Monad m] (native : ν → m ν')
    (element : β → m β') (extension : ε → m ε') : ChipOp ν β ε → m (ChipOp ν' β' ε')
  | .assertNotEqual a b => return .assertNotEqual (← element a) (← element b)
  | .unpack a => return .unpack (← native a)
  | .print a => return .print (← element a)
  | .zeroExt => return .zeroExt
  | .oneExt => return .oneExt
  | .ofBase a => return .ofBase (← element a)
  | .addExt a b => return .addExt (← extension a) (← extension b)
  | .subExt a b => return .subExt (← extension a) (← extension b)
  | .negExt a => return .negExt (← extension a)
  | .mulExt a b => return .mulExt (← extension a) (← extension b)
  | .invExt a => return .invExt (← extension a)
  | .divExt a b => return .divExt (← extension a) (← extension b)
  | .assertEqualExt a b => return .assertEqualExt (← extension a) (← extension b)
  | .assertNotEqualExt a b => return .assertNotEqualExt (← extension a) (← extension b)
  | .selectExt cond a b =>
      return .selectExt (← native cond) (← extension a) (← extension b)
  | .addBase a b => return .addBase (← extension a) (← element b)
  | .subBase a b => return .subBase (← extension a) (← element b)
  | .mulBase a b => return .mulBase (← extension a) (← element b)
  | .divBase a b => return .divBase (← extension a) (← element b)
  | .printExt a => return .printExt (← extension a)

/-- Two operations are of the same kind and have related arguments. -/
inductive ChipOp.Related {ν β ε ν' β' ε' : Type} (R : ν → ν' → Prop) (S : β → β' → Prop)
    (T : ε → ε' → Prop) : ChipOp ν β ε → ChipOp ν' β' ε' → Prop where
  | assertNotEqual {a a' b b'} (ha : S a a') (hb : S b b') :
      Related R S T (.assertNotEqual a b) (.assertNotEqual a' b')
  | unpack {a a'} (ha : R a a') : Related R S T (.unpack a) (.unpack a')
  | print {a a'} (ha : S a a') : Related R S T (.print a) (.print a')
  | zeroExt : Related R S T .zeroExt .zeroExt
  | oneExt : Related R S T .oneExt .oneExt
  | ofBase {a a'} (ha : S a a') : Related R S T (.ofBase a) (.ofBase a')
  | addExt {a a' b b'} (ha : T a a') (hb : T b b') : Related R S T (.addExt a b) (.addExt a' b')
  | subExt {a a' b b'} (ha : T a a') (hb : T b b') : Related R S T (.subExt a b) (.subExt a' b')
  | negExt {a a'} (ha : T a a') : Related R S T (.negExt a) (.negExt a')
  | mulExt {a a' b b'} (ha : T a a') (hb : T b b') : Related R S T (.mulExt a b) (.mulExt a' b')
  | invExt {a a'} (ha : T a a') : Related R S T (.invExt a) (.invExt a')
  | divExt {a a' b b'} (ha : T a a') (hb : T b b') : Related R S T (.divExt a b) (.divExt a' b')
  | assertEqualExt {a a' b b'} (ha : T a a') (hb : T b b') :
      Related R S T (.assertEqualExt a b) (.assertEqualExt a' b')
  | assertNotEqualExt {a a' b b'} (ha : T a a') (hb : T b b') :
      Related R S T (.assertNotEqualExt a b) (.assertNotEqualExt a' b')
  | selectExt {c c' a a' b b'} (hc : R c c') (ha : T a a') (hb : T b b') :
      Related R S T (.selectExt c a b) (.selectExt c' a' b')
  | addBase {a a' b b'} (ha : T a a') (hb : S b b') : Related R S T (.addBase a b) (.addBase a' b')
  | subBase {a a' b b'} (ha : T a a') (hb : S b b') : Related R S T (.subBase a b) (.subBase a' b')
  | mulBase {a a' b b'} (ha : T a a') (hb : S b b') : Related R S T (.mulBase a b) (.mulBase a' b')
  | divBase {a a' b b'} (ha : T a a') (hb : S b b') : Related R S T (.divBase a b) (.divBase a' b')
  | printExt {a a'} (ha : T a a') : Related R S T (.printExt a) (.printExt a')

theorem ChipOp.related_refl {ν β ε : Type} (op : ChipOp ν β ε) : Related Eq Eq Eq op op := by
  cases op <;> constructor <;> rfl

/-- Operations that refer to related things, looked up in two ways. -/
theorem ChipOp.Related.resolve {m n : Type → Type} [Monad m] [Monad n] (Γ : MonadRelation m n)
    {ν β ε ν' β' ε' ν₁ β₁ ε₁ ν₂ β₂ ε₂ : Type} {R₀ : ν → ν' → Prop} {S₀ : β → β' → Prop}
    {T₀ : ε → ε' → Prop} {R : ν₁ → ν₂ → Prop} {S : β₁ → β₂ → Prop} {T : ε₁ → ε₂ → Prop}
    {native₁ : ν → m ν₁} {element₁ : β → m β₁} {extension₁ : ε → m ε₁} {native₂ : ν' → n ν₂}
    {element₂ : β' → n β₂} {extension₂ : ε' → n ε₂} {op : ChipOp ν β ε} {op' : ChipOp ν' β' ε'}
    (h : Related R₀ S₀ T₀ op op') (hnative : ∀ a a', R₀ a a' → Γ.Rel R (native₁ a) (native₂ a'))
    (helement : ∀ a a', S₀ a a' → Γ.Rel S (element₁ a) (element₂ a'))
    (hextension : ∀ a a', T₀ a a' → Γ.Rel T (extension₁ a) (extension₂ a')) :
    Γ.Rel (Related R S T) (op.resolve native₁ element₁ extension₁)
      (op'.resolve native₂ element₂ extension₂) := by
  cases h with
  | zeroExt => exact Γ.pure .zeroExt
  | oneExt => exact Γ.pure .oneExt
  | unpack ha => exact Γ.bind (hnative _ _ ha) fun _ _ ha => Γ.pure (.unpack ha)
  | print ha => exact Γ.bind (helement _ _ ha) fun _ _ ha => Γ.pure (.print ha)
  | ofBase ha => exact Γ.bind (helement _ _ ha) fun _ _ ha => Γ.pure (.ofBase ha)
  | negExt ha => exact Γ.bind (hextension _ _ ha) fun _ _ ha => Γ.pure (.negExt ha)
  | invExt ha => exact Γ.bind (hextension _ _ ha) fun _ _ ha => Γ.pure (.invExt ha)
  | printExt ha => exact Γ.bind (hextension _ _ ha) fun _ _ ha => Γ.pure (.printExt ha)
  | assertNotEqual ha hb =>
      exact Γ.bind (helement _ _ ha) fun _ _ ha => Γ.bind (helement _ _ hb) fun _ _ hb =>
        Γ.pure (.assertNotEqual ha hb)
  | addExt ha hb =>
      exact Γ.bind (hextension _ _ ha) fun _ _ ha => Γ.bind (hextension _ _ hb) fun _ _ hb =>
        Γ.pure (.addExt ha hb)
  | subExt ha hb =>
      exact Γ.bind (hextension _ _ ha) fun _ _ ha => Γ.bind (hextension _ _ hb) fun _ _ hb =>
        Γ.pure (.subExt ha hb)
  | mulExt ha hb =>
      exact Γ.bind (hextension _ _ ha) fun _ _ ha => Γ.bind (hextension _ _ hb) fun _ _ hb =>
        Γ.pure (.mulExt ha hb)
  | divExt ha hb =>
      exact Γ.bind (hextension _ _ ha) fun _ _ ha => Γ.bind (hextension _ _ hb) fun _ _ hb =>
        Γ.pure (.divExt ha hb)
  | assertEqualExt ha hb =>
      exact Γ.bind (hextension _ _ ha) fun _ _ ha => Γ.bind (hextension _ _ hb) fun _ _ hb =>
        Γ.pure (.assertEqualExt ha hb)
  | assertNotEqualExt ha hb =>
      exact Γ.bind (hextension _ _ ha) fun _ _ ha => Γ.bind (hextension _ _ hb) fun _ _ hb =>
        Γ.pure (.assertNotEqualExt ha hb)
  | addBase ha hb =>
      exact Γ.bind (hextension _ _ ha) fun _ _ ha => Γ.bind (helement _ _ hb) fun _ _ hb =>
        Γ.pure (.addBase ha hb)
  | subBase ha hb =>
      exact Γ.bind (hextension _ _ ha) fun _ _ ha => Γ.bind (helement _ _ hb) fun _ _ hb =>
        Γ.pure (.subBase ha hb)
  | mulBase ha hb =>
      exact Γ.bind (hextension _ _ ha) fun _ _ ha => Γ.bind (helement _ _ hb) fun _ _ hb =>
        Γ.pure (.mulBase ha hb)
  | divBase ha hb =>
      exact Γ.bind (hextension _ _ ha) fun _ _ ha => Γ.bind (helement _ _ hb) fun _ _ hb =>
        Γ.pure (.divBase ha hb)
  | selectExt hc ha hb =>
      exact Γ.bind (hnative _ _ hc) fun _ _ hc => Γ.bind (hextension _ _ ha) fun _ _ ha =>
        Γ.bind (hextension _ _ hb) fun _ _ hb => Γ.pure (.selectExt hc ha hb)

theorem ChipOp.refines_resolve {ν β ε ν₁ β₁ ε₁ ν₂ β₂ ε₂ : Type} {R : ν₁ → ν₂ → Prop}
    {S : β₁ → β₂ → Prop} {T : ε₁ → ε₂ → Prop} {native₁ : ν → Except Fault ν₁}
    {element₁ : β → Except Fault β₁} {extension₁ : ε → Except Fault ε₁} {native₂ : ν → Option ν₂}
    {element₂ : β → Option β₂} {extension₂ : ε → Option ε₂}
    (hnative : ∀ a, Refines R (native₁ a) (native₂ a))
    (helement : ∀ a, Refines S (element₁ a) (element₂ a))
    (hextension : ∀ a, Refines T (extension₁ a) (extension₂ a)) (op : ChipOp ν β ε) :
    Refines (Related R S T) (op.resolve native₁ element₁ extension₁)
      (op.resolve native₂ element₂ extension₂) := by
  refine op.related_refl.resolve Refines.relation ?_ ?_ ?_
  · rintro a _ rfl
    exact hnative a
  · rintro a _ rfl
    exact helement a
  · rintro a _ rfl
    exact hextension a

/-- The operation leaves the prover no choice. Unpacking may: the bits of a native
value need not stay below the native order. -/
def ChipOp.IsDetermined {ν β ε : Type} : ChipOp ν β ε → Prop
  | .unpack _ => False
  | _ => True

theorem ChipOp.IsDetermined.resolve {ν β ε ν' β' ε' : Type} {native : ν → Option ν'}
    {element : β → Option β'} {extension : ε → Option ε'} {op : ChipOp ν β ε}
    {op' : ChipOp ν' β' ε'} (hop : op.IsDetermined)
    (h : op.resolve native element extension = some op') : op'.IsDetermined := by
  cases op <;> simp only [ChipOp.resolve, Option.bind_eq_bind, Option.bind_eq_some_iff,
    Option.pure_def, Option.some.injEq] at h <;> grind [ChipOp.IsDetermined]

/-- The operation compares a product with one. -/
def ChipOp.isInversion {ν β ε : Type} : ChipOp ν β ε → Bool
  | .invExt _ | .divExt _ _ => true
  | _ => false

/-- The chip whose values the operation returns. The constants are over BN254,
whatever field a chip is over. -/
def ChipOp.home {ν β ε : Type} (C : Chip) : ChipOp ν β ε → Chip
  | .zeroExt | .oneExt => .overBn254
  | _ => C

@[simp] theorem ChipOp.home_overBn254 {ν β ε : Type} (op : ChipOp ν β ε) :
    op.home .overBn254 = .overBn254 := by
  cases op <;> rfl

/-- An instruction on what earlier ones have returned. A chip over any field can carry it
out. -/
inductive ChipInstruction where
  | field (op : FieldOp Source ℕ)
  | chip (op : ChipOp Source ℕ ℕ)
  | load (l : Literal)
  | loadExtension (ls : List Literal)
  /-- The coordinates of an extension value. -/
  | coordinates (a : ℕ)
  /-- The extension value with the given coordinates. -/
  | assemble (coordinates : Quartic ℕ)

def ChipInstruction.IsDetermined : ChipInstruction → Prop
  | .field op => op.IsDetermined
  | .chip op => op.IsDetermined
  | _ => True

/-- What an instruction returns on the chip over BN254, given the memory. -/
def ChipInstruction.circuit (M : ChipMemory) : ChipInstruction → Circuit Value
  | .field op => do
      let op ← Circuit.ofExcept (op.resolve M.operand M.element)
      op.circuit Chip.overBn254.field
  | .chip op => do
      let op ← Circuit.ofExcept (op.resolve M.operand M.element M.extension)
      op.circuit Chip.overBn254
  | .load l => do
      let n ← Circuit.ofExcept l.value
      return .element (Chip.constant n)
  | .loadExtension ls => .extension <$> Circuit.ofExcept (extensionOfLiterals ls)
  | .coordinates a => do
      let a ← Circuit.ofExcept (M.extension a)
      return .elements a.toList
  | .assemble c => .extension <$> Circuit.ofExcept (c.mapM M.element)

abbrev ChipProgram := List ChipInstruction

def ChipProgram.circuit : ChipProgram → ChipMemory → Circuit ChipMemory
  | [], M => pure M
  | i :: p, M => do
      let v ← i.circuit M
      ChipProgram.circuit p (M.store v)

/-! ### Interpretation -/

structure ChipReading extends Reading BabyBear.prime where
  points : List QuarticField

namespace ChipReading

def empty : ChipReading := ⟨.empty, []⟩

def point (σ : ChipReading) (i : ℕ) : Option QuarticField := σ.points[i]?

end ChipReading

/-- What a program demands of its values. -/
inductive ChipDemand where
  | base (d : Demand BabyBear.prime)
  | distinct (x y : ZMod BabyBear.prime)
  | equalExt (z w : QuarticField)
  | distinctExt (z w : QuarticField)
  | invertibleExt (z : QuarticField)

namespace ChipDemand

/-- The constraints of a chip that fail if the demand is not met. -/
noncomputable def blame (C : Chip) : ChipDemand → Log
  | .base d => d.blame C.field
  | .distinct x y =>
      if x = y then [.equal (C.native.lift 1) (C.native.lift 0) "assert_not_equal"] else []
  | .equalExt z w => Chip.mismatchExt C.native z w
  | .distinctExt z w =>
      if z = w then [.equal (C.native.lift 1) (C.native.lift 0) "assert_not_equal_e"] else []
  | .invertibleExt z =>
      if z = 0 then [.equal (C.native.lift 0) (C.native.lift 1) "assert_equal"] else []

/-- The demand is met. -/
def Holds : ChipDemand → Prop
  | .base (.narrow n) => n < 2 ^ BabyBear.limbBits
  | .base (.equal x y _) => x = y
  | .base (.invertible x) => x ≠ 0
  | .distinct x y => x ≠ y
  | .equalExt z w => z = w
  | .distinctExt z w => z ≠ w
  | .invertibleExt z => z ≠ 0

theorem blame_eq_nil_iff {C : Chip} {d : ChipDemand} : d.blame C = [] ↔ d.Holds := by
  cases d with
  | base d =>
      cases d with
      | narrow n =>
          have hwidth : C.field.totalBits = BabyBear.limbBits := Nat.one_mul _
          have hnarrow := Demand.blame_narrow_eq_nil_iff (E := C.field) (v := n)
          rw [hwidth] at hnarrow
          exact hnarrow
      | equal x y label => exact EmulatedField.mismatch_eq_nil_iff
      | invertible x => exact Demand.blame_invertible_eq_nil_iff (E := C.field)
  | distinct x y => simp [blame, Holds]
  | equalExt z w => exact Chip.mismatchExt_eq_nil_iff
  | distinctExt z w => simp [blame, Holds]
  | invertibleExt z => simp [blame, Holds]

theorem flatMap_blame_eq_nil_iff {C : Chip} {demands : List ChipDemand} :
    demands.flatMap (blame C) = [] ↔ ∀ d ∈ demands, d.Holds := by
  simp only [List.flatMap_eq_nil_iff, blame_eq_nil_iff]

end ChipDemand

/-- What an instruction returns, and what it demands. -/
structure ChipMeaning where
  flags : List Bool
  residues : List (ZMod BabyBear.prime)
  points : List QuarticField
  demands : List ChipDemand

namespace ChipMeaning

def ofField (e : Meaning Chip.overBn254.field.modulus) : ChipMeaning :=
  ⟨e.flags, e.residues, [], e.demands.map fun d => .base d⟩

def ofResidues (xs : List (ZMod BabyBear.prime)) : ChipMeaning := ⟨[], xs, [], []⟩

def ofPoint (z : QuarticField) : ChipMeaning := ⟨[], [], [z], []⟩

def ofDemands (demands : List ChipDemand) : ChipMeaning := ⟨[], [], [], demands⟩

end ChipMeaning

/-- The meaning of an operation on residues and points. Zero is its own inverse,
and a condition has to be zero or one. -/
noncomputable def ChipOp.meaning :
    ChipOp ℕ (ZMod BabyBear.prime) QuarticField → Option ChipMeaning
  | .assertNotEqual x y => some (.ofDemands [.distinct x y])
  | .unpack v => some (.ofResidues
      ((digits BabyBear.limbBits BabyBear.packing v).map fun (d : ℕ) => (d : ZMod BabyBear.prime)))
  | .print _ => some (.ofDemands [])
  | .zeroExt => some (.ofPoint 0)
  | .oneExt => some (.ofPoint 1)
  | .ofBase x => some (.ofPoint (QuarticField.embed x))
  | .addExt z w => some (.ofPoint (z + w))
  | .subExt z w => some (.ofPoint (z - w))
  | .negExt z => some (.ofPoint (-z))
  | .mulExt z w => some (.ofPoint (z * w))
  | .invExt z => some ⟨[], [], [z⁻¹], [.invertibleExt z]⟩
  | .divExt z w => some ⟨[], [], [z / w], [.invertibleExt w]⟩
  | .assertEqualExt z w => some (.ofDemands [.equalExt z w])
  | .assertNotEqualExt z w => some (.ofDemands [.distinctExt z w])
  | .selectExt 0 _ w => some (.ofPoint w)
  | .selectExt 1 z _ => some (.ofPoint z)
  | .selectExt _ _ _ => none
  | .addBase z x => some (.ofPoint (z + QuarticField.embed x))
  | .subBase z x => some (.ofPoint (z - QuarticField.embed x))
  | .mulBase z x => some (.ofPoint (z * QuarticField.embed x))
  | .divBase z x => some ⟨[], [], [z / QuarticField.embed x], [.base (.invertible x)]⟩
  | .printExt _ => some (.ofDemands [])

noncomputable def ChipInstruction.meaning (σ : ChipReading) : ChipInstruction → Option ChipMeaning
  | .field op => do
      let op ← op.resolve (σ.value bn254) σ.residue
      let e ← op.meaning Chip.overBn254.field
      return .ofField e
  | .chip op => do
      let op ← op.resolve (σ.value bn254) σ.residue σ.point
      op.meaning
  | .load l => l.value.toOption.map fun (n : ℤ) => .ofResidues [(n : ZMod BabyBear.prime)]
  | .loadExtension ls => do
      let l ← Quartic.ofList? ls
      let c ← l.mapM fun l => l.value.toOption
      return .ofPoint (.ofCoordinates (c.map fun (n : ℤ) => (n : ZMod BabyBear.prime)))
  | .coordinates a => (σ.point a).map fun z => .ofResidues z.coordinates.toList
  | .assemble c => do
      let c ← c.mapM σ.residue
      return .ofPoint (.ofCoordinates c)

def ChipReading.extend (σ : ChipReading) (e : ChipMeaning) : ChipReading :=
  ⟨⟨σ.flags ++ e.flags, σ.residues ++ e.residues⟩, σ.points ++ e.points⟩

/-- The interpretation of a program: the final reading and all demands in
order. -/
noncomputable def ChipProgram.interpret :
    ChipProgram → ChipReading → Option (ChipReading × List ChipDemand)
  | [], σ => some (σ, [])
  | i :: p, σ => do
      let e ← i.meaning σ
      let (σ', demands) ← ChipProgram.interpret p (σ.extend e)
      return (σ', e.demands ++ demands)

theorem ChipProgram.interpret_cons {i : ChipInstruction} {p : ChipProgram} {σ σ' : ChipReading}
    {demands : List ChipDemand} (h : ChipProgram.interpret (i :: p) σ = some (σ', demands)) :
    ∃ e later, i.meaning σ = some e ∧ p.interpret (σ.extend e) = some (σ', later) ∧
      demands = e.demands ++ later := by
  simp only [interpret, Option.bind_eq_bind, Option.bind_eq_some_iff, Option.pure_def,
    Option.some.injEq, Prod.mk.injEq, Prod.exists] at h
  obtain ⟨e, he, _, later, hlater, rfl, rfl⟩ := h
  exact ⟨e, later, he, hlater, rfl⟩

end NonNative
