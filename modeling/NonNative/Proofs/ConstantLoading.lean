import NonNative.Proofs.LiteralGrammar
import NonNative.Proofs.QuotientRemainder
import NonNative.Script.Operation

/-!
Loading constants. An integer becomes the canonical element of its residue, and
nothing is recorded or asked for it. A text is loaded exactly if it denotes an
integer, and then as that integer; every other text is refused.
-/

namespace NonNative

/-- The canonical element of a residue in a layout: a native value without overflow,
and as many limbs as the layout has, each within its width, that add up to the
residue at their positions. -/
structure Element.IsCanonicalFor (a : Element) (F : NativeField) (L : FieldLayout) (residue : ℤ) :
    Prop where
  isCanonical : a.isCanonical
  overflow_eq : a.overflow = 0
  native_eq : ∃ x : Scalar, a.native = .scalar x ∧ x.order = F.order ∧ x.val = residue
  limbs_eq : ∃ xs : Fin L.limbCount.toNat → Scalar,
    a.limbs = List.ofFn (fun i => .scalar (xs i)) ∧
    (∀ i, (xs i).order = F.order ∧ (xs i).val < 2 ^ L.limbBits.toNat) ∧
    ((∑ i, (xs i).val * 2 ^ (L.limbBits.toNat * i) : ℕ) : ℤ) = residue

namespace EmulatedField

variable {F : NativeField} {L : FieldLayout} {E : EmulatedField}

/-- What the constructor keeps of a layout that it accepts. -/
theorem layout_of_create (h : create F L = .ok E) :
    E.native = F ∧ (E.modulus : ℤ) = L.modulus ∧ (E.limbCount : ℤ) = L.limbCount ∧
      (E.limbBits : ℤ) = L.limbBits := by
  unfold create at h
  split_ifs at h with hlayout hmodulus
  cases h
  exact ⟨rfl, Int.toNat_of_nonneg (by omega), Int.toNat_of_nonneg (by omega),
    Int.toNat_of_nonneg (by omega)⟩

variable (E)

/-- Every constant is loaded by its residue. -/
theorem constant_eq_of_residue (k : ℤ) :
    ∃ v : ℕ, (v : ℤ) = k % E.modulus ∧ v < E.modulus ∧ E.constant k =
      ⟨.scalar (E.native.lift v), 0,
        (digits E.limbBits E.limbCount v).map fun (d : ℕ) => .scalar (E.native.lift d)⟩ := by
  have hpos : (0 : ℤ) < E.modulus := Int.natCast_pos.2 E.modulus_pos
  have hnonneg := Int.emod_nonneg k hpos.ne'
  have hlt := Int.emod_lt_of_pos k hpos
  exact ⟨(k % E.modulus).toNat, Int.toNat_of_nonneg hnonneg, by omega, rfl⟩

variable {E}

theorem load_eq_constant (h : create F L = .ok E) (k : ℤ) : L.load F k = .ok (E.constant k) := by
  obtain ⟨rfl, hmodulus, hcount, hbits⟩ := layout_of_create h
  obtain ⟨v, hv, hlt, hconstant⟩ := E.constant_eq_of_residue k
  have hpos := E.modulus_pos
  have horder := E.lt_order_of_lt_modulus hlt
  have hresidue : E.native.exactly (k.fmod L.modulus) = .ok (E.native.lift v) := by
    rw [Int.fmod_eq_emod_of_nonneg k (by omega), ← hmodulus, ← hv, NativeField.exactly,
      dif_pos ⟨Int.natCast_nonneg v, Int.ofNat_lt.2 horder⟩]
    exact congrArg Except.ok (E.native.lift_val_self rfl).symm
  rw [FieldLayout.load, if_neg (by omega), if_neg (by omega), hresidue, hconstant, ← hcount,
    ← hbits]
  simp only [bind, Except.bind, pure, Except.pure, Int.toNat_natCast,
    E.native.lift_val_of_lt horder]

theorem isCanonicalFor_constant (h : create F L = .ok E) (k : ℤ) :
    (E.constant k).IsCanonicalFor F L (k % L.modulus) := by
  obtain ⟨rfl, hmodulus, hcount, hbits⟩ := layout_of_create h
  obtain ⟨v, hv, hlt, hconstant⟩ := E.constant_eq_of_residue k
  have hlimb : ∀ i : Fin E.limbCount, v / 2 ^ (E.limbBits * i) % 2 ^ E.limbBits < E.native.order :=
    fun i => E.limb_lt_order E.limbBits_le_totalBits (n := E.limbCount) (x := v)
      (by rw [digits_eq_ofFn]; exact List.mem_ofFn.2 ⟨i, rfl⟩)
  rw [← hmodulus, ← hv]
  refine ⟨E.isCanonical_constant k, rfl, ?_, ?_⟩
  · rw [hconstant]
    exact ⟨_, rfl, rfl, congrArg Nat.cast (E.native.lift_val_of_lt (E.lt_order_of_lt_modulus hlt))⟩
  · rw [← hcount, ← hbits, Int.toNat_natCast, Int.toNat_natCast, hconstant]
    refine ⟨fun i => E.native.lift (v / 2 ^ (E.limbBits * i) % 2 ^ E.limbBits : ℕ), ?_, ?_, ?_⟩
    · rw [digits_eq_ofFn, List.map_ofFn]
      rfl
    · intro i
      refine ⟨rfl, ?_⟩
      rw [E.native.lift_val_of_lt (hlimb i)]
      exact Nat.mod_lt _ (Nat.two_pow_pos _)
    · simp only [E.native.lift_val_of_lt (hlimb _)]
      rw [← ofDigits_ofFn, ← digits_eq_ofFn, E.ofDigits_limbs hlt]

/-! ### Texts -/

theorem circuit_constant_of_denotes (E : EmulatedField) {s : String} {k : ℤ} (hk : Denotes s k) :
    FieldOp.circuit E (.constant (.text s)) = .done (.element (E.constant k)) := by
  rw [FieldOp.circuit, Literal.value, readInt?_eq_some_iff.2 hk]
  rfl

theorem circuit_constant_of_not_denotes (E : EmulatedField) {s : String}
    (hs : ¬ ∃ k, Denotes s k) :
    FieldOp.circuit E (.constant (.text s)) = .refuse .malformedLiteral := by
  rw [FieldOp.circuit, Literal.value, readInt?_eq_none_iff.2 hs]
  rfl

theorem exists_result_text_iff (E : EmulatedField) (s : String) :
    (∃ v, (FieldOp.circuit E (.constant (.text s))).run.result = .ok v) ↔ ∃! k, Denotes s k := by
  constructor
  · rintro ⟨v, hv⟩
    by_cases hs : ∃ k, Denotes s k
    · obtain ⟨k, hk⟩ := hs
      exact ⟨k, hk, fun k' hk' => hk.unique hk'⟩
    · rw [E.circuit_constant_of_not_denotes hs] at hv
      cases hv
  · rintro ⟨k, hk, -⟩
    rw [E.circuit_constant_of_denotes hk]
    exact ⟨_, rfl⟩

/-- Integers of any sign and size are loaded as the canonical elements of their
residues, without a constraint. A text is loaded exactly if it denotes an integer, and
then as that integer; the others are refused. Numerals are loaded as their integers. -/
theorem constant_loads_denoted (hE : create F L = .ok E) :
    let load := fun l : Literal => FieldOp.circuit E (.constant l)
    (∀ k : ℤ, ∃ a : Element, load (.int k) = .done (.element a) ∧ L.load F k = .ok a ∧
      a.IsCanonicalFor F L (k % L.modulus)) ∧
    (∀ s, (∃ v, (load (.text s)).run.result = .ok v) ↔ ∃! k, Denotes s k) ∧
    (∀ s k, Denotes s k → load (.text s) = load (.int k)) ∧
    (∀ s, (¬ ∃ k, Denotes s k) → load (.text s) = .refuse .malformedLiteral) ∧
    ∀ k : ℤ, k.natAbs < 10 ^ 4300 → load (.text (toString k)) = load (.int k) := by
  refine ⟨fun k => ?_, E.exists_result_text_iff, ?_, ?_, ?_⟩
  · exact ⟨E.constant k, rfl, load_eq_constant hE k, isCanonicalFor_constant hE k⟩
  · intro s k hk
    exact E.circuit_constant_of_denotes hk
  · intro s hs
    exact E.circuit_constant_of_not_denotes hs
  · intro k hk
    exact E.circuit_constant_of_denotes (denotes_toString hk)

/-- White space, a sign and two scripts around one underscore; and two underscores,
which no text may have together. -/
theorem constant_mixedScripts :
    create twoLimbs.native ⟨31, 2, 3, true, 1⟩ = .ok twoLimbs ∧
    Denotes "\u2003-\u0664_2 " (-42) ∧
    FieldOp.circuit twoLimbs (.constant (.text "\u2003-\u0664_2 ")) =
      .done (.element ⟨.scalar (twoLimbs.native.lift 20), 0,
        [.scalar (twoLimbs.native.lift 4), .scalar (twoLimbs.native.lift 2)]⟩) ∧
    (¬ ∃ k, Denotes "4__2" k) ∧
    FieldOp.circuit twoLimbs (.constant (.text "4__2")) = .refuse .malformedLiteral ∧
    (-42 : ℤ).natAbs < 10 ^ 4300 ∧
    FieldOp.circuit twoLimbs (.constant (.text "-42")) =
      FieldOp.circuit twoLimbs (.constant (.int (-42))) := by
  have hcreate : create twoLimbs.native ⟨31, 2, 3, true, 1⟩ = .ok twoLimbs := rfl
  have hdenotes : Denotes "\u2003-\u0664_2 " (-42) := readInt?_eq_some_iff.1 (by decide +kernel)
  have hrefused : ¬ ∃ k, Denotes "4__2" k := readInt?_eq_none_iff.1 (by decide +kernel)
  have hsmall : (-42 : ℤ).natAbs < 10 ^ 4300 := by decide +kernel
  obtain ⟨-, -, htext, hother, hnumeral⟩ := constant_loads_denoted hcreate
  exact ⟨hcreate, hdenotes, htext _ _ hdenotes, hrefused, hother _ hrefused, hsmall,
    hnumeral (-42) hsmall⟩

end EmulatedField

end NonNative
