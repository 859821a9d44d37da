import NonNative.Proofs.ChipGadgets
import NonNative.Proofs.ExtensionProduct

/-!
The limbs of a native value. A chip unpacks a value into eight elements of 32 bits
that are not reduced, whatever the width of the native field: past the width the
limbs are zero, and what exceeds 256 bits is lost. Up to 256 bits nothing is lost,
so the limbs identify the value.
-/

namespace NonNative

namespace Chip

variable (C : Chip)

/-- The element is a limb with the number `l` of 32 bits: it is not canonical and has
no overflow, it reads as `l`, and it reduces to the residue of `l`. -/
structure IsLimb (a : Element) (l : ℕ) : Prop where
  native : a.native = .scalar (C.native.lift l)
  not_canonical : ¬ a.isCanonical
  overflow : a.overflow = 0
  toInt : a.native.toInt = .ok (l : ℤ)
  lt : l < 2 ^ 32
  reducesTo : C.field.ReducesTo a (l % BabyBear.prime : ℕ)

variable {C}

theorem isLimb_of_lt {l : ℕ} (hl : l < 2 ^ 32) :
    C.IsLimb ⟨.scalar (C.native.lift l), 0, []⟩ l where
  native := rfl
  not_canonical := by simp [Element.isCanonical]
  overflow := rfl
  toInt := by
    have horder : 2 * 2 ^ 32 ≤ C.native.order := C.field.two_pow_totalBits_double_le
    rw [Operand.toInt, C.native.lift_val_of_lt (by omega)]
  lt := hl
  reducesTo := by
    have hencodes : C.field.Encodes ⟨.scalar (C.native.lift l), 0, []⟩ l :=
      EmulatedField.encodes_narrow hl
    have hreduces := hencodes.reducesTo
    rwa [ZMod.val_natCast] at hreduces

theorem IsLimb.unique {a : Element} {l l' : ℕ} (h : C.IsLimb a l) (h' : C.IsLimb a l') :
    l = l' := by
  have hsame := h.toInt.symm.trans h'.toInt
  simpa using hsame

theorem exists_limbs {operand : Operand} {s : Scalar}
    (haccept : C.native.accept operand = .done s) :
    ∃ (a : Fin 8 → Element) (l : Fin 8 → ℕ),
      (C.unpack operand).run.result = .ok (List.ofFn a) ∧
      (∀ k ∈ (C.unpack operand).run.constraints, k.Holds) ∧
      (∀ i, C.IsLimb (a i) (l i)) ∧ ∑ i, l i * 2 ^ (32 * (i : ℕ)) = s.val % 2 ^ 256 := by
  have hunpack := honest_unpack (C := C)
    ⟨C.native.val_lt_of_accept haccept, C.native.accept_eq_lift haccept⟩
  rw [digits_eq_ofFn, List.map_ofFn] at hunpack
  refine ⟨_, fun i => s.val / 2 ^ (32 * (i : ℕ)) % 2 ^ 32, hunpack.result,
    Log.unsatisfied_eq_nil_iff.1 hunpack.unsatisfied, fun i => ?_, ?_⟩
  · exact isLimb_of_lt (Nat.mod_lt _ (Nat.two_pow_pos 32))
  · rw [← ofDigits_ofFn 32 fun i : Fin 8 => s.val / 2 ^ (32 * (i : ℕ)) % 2 ^ 32,
      ← digits_eq_ofFn, ofDigits_digits]

theorem val_mod_eq_val (hbits : C.native.bits ≤ 256) {s : Scalar}
    (hs : s.order = C.native.order) : s.val % 2 ^ 256 = s.val := by
  apply Nat.mod_eq_of_lt
  calc
    s.val < C.native.order := hs ▸ s.val_lt
    _ < 2 ^ C.native.bits := lt_two_pow_bitLength _
    _ ≤ 2 ^ 256 := Nat.pow_le_pow_right Nat.two_pos hbits

/-- Unpacking is exact: eight limbs whose positional sum is the value up to 256 bits,
and every constraint holds. In a native field of at most 256 bits the sum is the
value, and no other value has the same limbs. -/
theorem unpack_exact {operand : Operand} {s : Scalar}
    (haccept : C.native.accept operand = .done s) :
    ∃ (a : Fin 8 → Element) (l : Fin 8 → ℕ),
      (C.unpack operand).run.result = .ok (List.ofFn a) ∧
      (∀ k ∈ (C.unpack operand).run.constraints, k.Holds) ∧
      (∀ i, C.IsLimb (a i) (l i)) ∧
      ∑ i, l i * 2 ^ (32 * (i : ℕ)) = s.val % 2 ^ 256 ∧
      (C.native.bits ≤ 256 → ∑ i, l i * 2 ^ (32 * (i : ℕ)) = s.val ∧
        ∀ (operand' : Operand) (s' : Scalar), C.native.accept operand' = .done s' →
          (C.unpack operand').run.result = .ok (List.ofFn a) → s' = s) := by
  obtain ⟨a, l, hresult, hholds, hlimbs, hsum⟩ := exists_limbs haccept
  refine ⟨a, l, hresult, hholds, hlimbs, hsum, fun hbits => ?_⟩
  have horder := C.native.order_eq_of_accept haccept
  have hvalue := hsum.trans (val_mod_eq_val hbits horder)
  refine ⟨hvalue, fun operand' s' haccept' hsame => ?_⟩
  obtain ⟨a', l', hresult', -, hlimbs', hsum'⟩ := exists_limbs haccept'
  have horder' := C.native.order_eq_of_accept haccept'
  -- equal elements read as equal numbers, and the numbers sum up to the values
  obtain rfl : a' = a := List.ofFn_injective (Except.ok.inj (hresult'.symm.trans hsame))
  obtain rfl : l' = l := funext fun i => (hlimbs' i).unique (hlimbs i)
  have hval : s'.val = s.val := by rw [← val_mod_eq_val hbits horder', ← hsum', hvalue]
  rw [← C.native.lift_val_self horder, ← C.native.lift_val_self horder', hval]

/-- The largest native value, given as an integer that is first reduced. -/
theorem unpack_minusOne :
    overBn254.native.accept (.int (-1)) = .done (bn254.lift (-1)) ∧
    overBn254.native.bits ≤ 256 ∧
    ∃ (a : Fin 8 → Element) (l : Fin 8 → ℕ),
      (overBn254.unpack (.int (-1))).run.result = .ok (List.ofFn a) ∧
      (∀ i, overBn254.IsLimb (a i) (l i)) ∧
      ∑ i, l i * 2 ^ (32 * (i : ℕ)) = bn254.order - 1 := by
  have haccept : overBn254.native.accept (.int (-1)) = .done (bn254.lift (-1)) := rfl
  have hbits : overBn254.native.bits ≤ 256 := by decide
  have hval : (bn254.lift (-1)).val = bn254.order - 1 := by decide
  obtain ⟨a, l, hresult, -, hlimbs, -, hvalue⟩ := unpack_exact haccept
  exact ⟨haccept, hbits, a, l, hresult, hlimbs, (hvalue hbits).1.trans hval⟩

end Chip

end NonNative
