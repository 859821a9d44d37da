import NonNative.Proofs.Arithmetic

/-!
Division by the modulus against an arbitrary prover. The answers of a prover to a
reduction are a quotient, a remainder and the limbs of the remainder, and the
recorded constraints are known for any answers. Up to the largest bound of a
product of two elements within the budget they hold for one choice only: the
quotient and the remainder of the division, and the digits of the remainder.
-/

namespace NonNative

namespace NativeField

variable (F : NativeField) {α : Type}

/-- The native value that the prover gives with an answer. -/
def answered (answers : ℕ → ℤ) (i : ℕ) : ℕ := (F.lift (answers i)).val

theorem lift_answered (answers : ℕ → ℤ) (i : ℕ) :
    F.lift (F.answered answers i) = F.lift (answers i) := F.lift_lift_val _

theorem answered_lt (answers : ℕ → ℤ) (i : ℕ) : F.answered answers i < F.order :=
  F.lift_val_lt _

theorem runWith_hint_bind (n : ℤ) (f : Scalar → Circuit α) (answers : ℕ → ℤ) :
    (F.hint n >>= f).runWith answers =
      (f (F.lift (F.answered answers 0))).runWith fun i => answers (i + 1) := by
  rw [lift_answered]
  rfl

/-- Several questions take as many answers, and what follows gets the others. -/
theorem runWith_hints_bind (ns : List ℕ) (f : List Scalar → Circuit α) (answers : ℕ → ℤ) :
    (F.hints ns >>= f).runWith answers =
      (f (((List.range ns.length).map (F.answered answers)).map fun (v : ℕ) => F.lift v)).runWith
        fun i => answers (i + ns.length) := by
  induction ns generalizing f answers with
  | nil => rfl
  | cons n ns ih =>
      rw [hints, List.mapM_cons, LawfulMonad.bind_assoc, runWith_hint_bind]
      simp only [LawfulMonad.bind_assoc, pure_bind]
      rw [← hints, ih]
      simp only [List.length_cons, List.range_succ_eq_map, List.map_cons, List.map_map]
      rfl

end NativeField

namespace Circuit

variable {α : Type}

theorem runWith_assert_bind (k : Constraint) (f : Unit → Circuit α) (answers : ℕ → ℤ) :
    (Circuit.assert k >>= f).runWith answers =
      ⟨k :: ((f ()).runWith answers).constraints, ((f ()).runWith answers).messages,
        ((f ()).runWith answers).result⟩ := rfl

theorem runWith_forM_assert_bind (ks : Log) (f : PUnit → Circuit α) (answers : ℕ → ℤ) :
    (forM ks Circuit.assert >>= f).runWith answers =
      ⟨ks ++ ((f ⟨⟩).runWith answers).constraints, ((f ⟨⟩).runWith answers).messages,
        ((f ⟨⟩).runWith answers).result⟩ := by
  induction ks with
  | nil => rfl
  | cons k ks ih =>
      rw [List.forM_cons, LawfulMonad.bind_assoc, runWith_assert_bind, ih]
      rfl

end Circuit

namespace EmulatedField

open Circuit

/-- What a prover can supply to a reduction: a quotient, a remainder and limbs, all
of them native values. -/
structure Division (E : EmulatedField) where
  quotient : ℕ
  remainder : ℕ
  limbs : List ℕ
  quotient_lt : quotient < E.native.order
  remainder_lt : remainder < E.native.order
  length_limbs : limbs.length = E.limbCount
  limbs_lt : ∀ l ∈ limbs, l < E.native.order

variable (E : EmulatedField)

theorem map_answered_lt {answers : ℕ → ℤ} {is : List ℕ} :
    ∀ l ∈ is.map (E.native.answered answers), l < E.native.order := by
  intro l hl
  obtain ⟨i, -, rfl⟩ := List.mem_map.1 hl
  exact E.native.answered_lt answers i

/-- The quotient comes first, then the remainder and its limbs. -/
def suppliedDivision (answers : ℕ → ℤ) : E.Division where
  quotient := E.native.answered answers 0
  remainder := E.native.answered answers 1
  limbs := (List.range E.limbCount).map (E.native.answered fun i => answers (i + 2))
  quotient_lt := E.native.answered_lt answers 0
  remainder_lt := E.native.answered_lt answers 1
  length_limbs := by simp
  limbs_lt := E.map_answered_lt

namespace Division

variable {E} (d : E.Division)

/-- The constraints on a division of `v` that the prover has supplied. -/
def constraints (v : ℕ) (bound : ℤ) (label : String) : Log :=
  .range (E.native.lift d.quotient) (E.quotientWidth bound) label ::
    (E.canonicity d.remainder d.limbs label ++
      [.equal (E.native.lift v) (E.native.lift (d.quotient * E.modulus + d.remainder : ℕ)) label])

/-- The remainder with the supplied limbs. -/
def element : Element :=
  ⟨.scalar (E.native.lift d.remainder), 0,
    (d.limbs.map fun (l : ℕ) => E.native.lift l).map .scalar⟩

/-- The constraints hold for the division by the modulus and for no other. -/
theorem constraints_hold_iff {v : ℕ} {bound : ℤ} (hv : v < E.native.order)
    (hfits : v < 2 ^ bound.toNat) (hwide : bound.toNat + 2 ≤ E.native.bits) (label : String) :
    (∀ k ∈ d.constraints v bound label, k.Holds) ↔
      d.quotient = v / E.modulus ∧ d.remainder = v % E.modulus ∧
        d.limbs = digits E.limbBits E.limbCount (v % E.modulus) := by
  obtain ⟨q, r, ls, hq, hr, hlength, hls⟩ := d
  simp only [constraints, List.forall_mem_cons, List.forall_mem_append,
    E.canonicity_holds_iff hr hlength hls]
  constructor
  · rintro ⟨hrange, ⟨hbelow, hlimbs⟩, hequal, -⟩
    obtain ⟨hquotient, rfl⟩ := E.eq_div_mod_of_holds hv hwide hq hbelow hrange hequal
    exact ⟨hquotient, rfl, hlimbs⟩
  · rintro ⟨rfl, rfl, hlimbs⟩
    refine ⟨E.quotient_holds hv hfits label, ⟨Nat.mod_lt _ E.modulus_pos, hlimbs⟩, ?_, by simp⟩
    rw [Constraint.equal_holds_iff, Nat.div_add_mod']

end Division

theorem runWith_canonical_bind {α : Type} {r : ℕ} (label : String) (f : Element → Circuit α)
    (answers : ℕ → ℤ) :
    (E.canonical (.scalar (E.native.lift r)) label >>= f).runWith answers =
      let ds := (List.range E.limbCount).map (E.native.answered answers)
      let rest := (f ⟨.scalar (E.native.lift r), 0,
        (ds.map fun (d : ℕ) => E.native.lift d).map .scalar⟩).runWith
          fun i => answers (i + E.limbCount)
      ⟨E.canonicity r ds label ++ rest.constraints, rest.messages, rest.result⟩ := by
  rw [canonical, NativeField.accept_lift, pure_bind, LawfulMonad.bind_assoc,
    NativeField.runWith_hints_bind, digits_length,
    E.canonical_body (E.native.accept_lift r) label E.map_answered_lt, LawfulMonad.bind_assoc,
    runWith_forM_assert_bind, pure_bind]

/-- Every run of a reduction records the constraints on what the prover has
supplied, and returns the remainder that it has supplied. -/
theorem runWith_remainder (v : ℕ) (bound : ℤ) (label : String) (answers : ℕ → ℤ) :
    (E.remainder (.scalar (E.native.lift v)) bound label).runWith answers =
      ⟨(E.suppliedDivision answers).constraints v bound label, [],
        .ok (E.suppliedDivision answers).element⟩ := by
  rw [remainder, NativeField.accept_lift, pure_bind, NativeField.runWith_hint_bind,
    NativeField.runWith_hint_bind, E.remainder_body v, runWith_assert_bind,
    runWith_canonical_bind]
  rfl

/-- A reduction is complete and sound: the honest run returns the canonical element
of the residue and satisfies its constraints; and of all that a prover can supply,
the constraints recorded for it hold only for the division by the modulus. -/
theorem remainder_complete_and_sound {operand : Operand} {s : Scalar}
    (haccept : E.native.accept operand = .done s) {bound : ℤ}
    (hbound : bound ≤ 2 * ((E.totalBits : ℤ) + E.maxOverflow)) (hfits : s.val < 2 ^ bound.toNat)
    (label : String) :
    (∃ a, (E.remainder operand bound label).run.result = .ok a ∧ a = E.constant s.val ∧
      a.isCanonical ∧ a.native.toInt = .ok ((s.val % E.modulus : ℕ) : ℤ) ∧
      ∀ k ∈ (E.remainder operand bound label).run.constraints, k.Holds) ∧
    (∀ answers : ℕ → ℤ, (E.remainder operand bound label).runWith answers =
      ⟨(E.suppliedDivision answers).constraints s.val bound label, [],
        .ok (E.suppliedDivision answers).element⟩) ∧
    ∀ d : E.Division, (∀ k ∈ d.constraints s.val bound label, k.Holds) ↔
      d.quotient = s.val / E.modulus ∧ d.remainder = s.val % E.modulus ∧
        d.limbs = digits E.limbBits E.limbCount (s.val % E.modulus) := by
  have hv := E.native.val_lt_of_accept haccept
  have hbits := E.native_bits_bounds
  rw [E.remainder_eq (E.native.accept_eq_lift haccept)]
  refine ⟨?_, fun answers => E.runWith_remainder _ _ _ _, fun d =>
    d.constraints_hold_iff hv hfits (by omega) label⟩
  have hhonest := E.honest_remainder hv hfits label
  refine ⟨_, hhonest.result, rfl, E.isCanonical_constant _, ?_,
    Log.unsatisfied_eq_nil_iff.1 hhonest.unsatisfied⟩
  have hresidue := E.toInt_constant_val (s.val : ZMod E.modulus)
  rwa [ZMod.val_natCast, constant_mod] at hresidue

/-- Residues modulo 31 in two limbs, over the narrowest native field for them. -/
def twoLimbs : EmulatedField :=
  ⟨⟨32771, by decide⟩, 31, 2, 3, Nat.le_add_left 2 29, Nat.two_pos, by decide, by decide, by decide⟩

/-- The largest value of the largest bound. -/
theorem remainder_largest :
    (twoLimbs.native.accept (.int 16383) = .done (twoLimbs.native.lift 16383) ∧
      (14 : ℤ) ≤ 2 * ((twoLimbs.totalBits : ℤ) + twoLimbs.maxOverflow) ∧
      (twoLimbs.native.lift 16383).val < 2 ^ (14 : ℤ).toNat) ∧
    (∃ a, (twoLimbs.remainder (.int 16383) 14 "mul").run.result = .ok a ∧
      a.native.toInt = .ok 15) ∧
    ∀ d : twoLimbs.Division, (∀ k ∈ d.constraints 16383 14 "mul", k.Holds) →
      d.quotient = 528 ∧ d.remainder = 15 ∧ d.limbs = [7, 1] := by
  have haccept : twoLimbs.native.accept (.int 16383) = .done (twoLimbs.native.lift 16383) := rfl
  have hbound : (14 : ℤ) ≤ 2 * ((twoLimbs.totalBits : ℤ) + twoLimbs.maxOverflow) := by decide
  have hfits : (twoLimbs.native.lift 16383).val < 2 ^ (14 : ℤ).toNat := by decide
  obtain ⟨⟨a, hresult, -, -, hint, -⟩, -, hsound⟩ :=
    twoLimbs.remainder_complete_and_sound haccept hbound hfits "mul"
  exact ⟨⟨haccept, hbound, hfits⟩, ⟨a, hresult, hint⟩, fun d hd => (hsound d).1 hd⟩

end EmulatedField

end NonNative
