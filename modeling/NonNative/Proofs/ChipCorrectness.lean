import NonNative.Proofs.ChipRuns
import NonNative.Proofs.Faithful

/-!
What a chip over BN254 guarantees to every program. Its values are those of the
interpretation on residues and points, however they are looked at. A prover who
answers dishonestly cannot change them without violating a constraint. The
constraints that the honest run violates are exactly those of the demands that
are not met.
-/

namespace NonNative

open Circuit EmulatedField QuarticField

/-! ### Looking at values -/

namespace Chip

/-- However the element is looked at, it shows the representative of the
residue. -/
structure Shows (a : Element) (x : ZMod BabyBear.prime) : Prop where
  congruent : a.CongruentTo x
  reduced : (do
    let r ← overBn254.field.reduce a
    Circuit.ofExcept r.native.toInt).run.result = .ok (x.val : ℤ)
  recomposed : (do
    let bs ← overBn254.field.toBits a
    let s ← bn254.ofBits (bs.map .scalar)
    return s.val).run.result = .ok x.val
  printed : (print a).run = ⟨[], [.printed s!"{x.val}\n"], .ok ()⟩

/-- Likewise for an extension value, coordinate by coordinate. -/
structure ShowsExt (a : ExtensionValue) (z : QuarticField) : Prop where
  coordinates : Quartic.Rel Shows a z.coordinates
  printed : (printExt a).run =
    ⟨[], z.coordinates.toList.map fun x => .printed s!"{x.val}\n", .ok ()⟩

theorem Encodes.shows {a : Element} {x : ZMod BabyBear.prime} (h : overBn254.Encodes a x) :
    Shows a x where
  congruent := h.congruentTo
  reduced := (EmulatedField.Encodes.determines_toInt h : Determines .honest _ _ _).result
  recomposed := (EmulatedField.Encodes.determines_recomposed h : Determines .honest _ _ _).result
  printed := by
    rw [print_eq h]
    rfl

theorem EncodesExt.showsExt {a : ExtensionValue} {z : QuarticField}
    (h : overBn254.EncodesExt a z) : ShowsExt a z where
  coordinates := ⟨Encodes.shows h.c0, Encodes.shows h.c1, Encodes.shows h.c2, Encodes.shows h.c3⟩
  printed := by
    rw [printExt_eq h]
    rfl

end Chip

namespace ChipProgram

variable {p : ChipProgram} {σ : ChipReading} {demands : List ChipDemand}

/-! ### Values -/

/-- A program whose native arguments fit into the limbs runs to the end, and
every value that it has returned shows what the interpretation says. -/
theorem run_shows_interpretation (hp : p.interpret .empty = some (σ, demands))
    (hnarrow : ∀ n, .base (.narrow n) ∈ demands → n < 2 ^ BabyBear.limbBits) :
    ∃ M, (p.circuit .empty).run.result = .ok M ∧
      M.natives = σ.flags.map (fun b => bn254.lift b.toNat) ∧
      List.Forall₂ Chip.Shows M.elements σ.residues ∧
      List.Forall₂ Chip.ShowsExt M.extensions σ.points := by
  obtain ⟨M, hM, hrun⟩ := gives_circuit ChipMemory.represents_empty hp hnarrow
  refine ⟨M, hrun.result, hM.base.natives, ?_, ?_⟩
  · exact hM.base.elements.imp fun _ _ h => Chip.Encodes.shows h
  · exact hM.extensions.imp fun _ _ h => Chip.EncodesExt.showsExt h

/-- Two residues, their difference in the extension, its inverse, and the product
of both. -/
def inverseOfDifference : ChipProgram :=
  [.load (.int 5), .field (.ofNative (.int 7)), .field (.sub 0 1), .chip (.ofBase 2),
    .chip (.invExt 0), .chip (.mulExt 0 1)]

theorem interpret_inverseOfDifference :
    inverseOfDifference.interpret .empty =
      some (⟨⟨[], [5, 7, 5 - 7]⟩,
        [embed (5 - 7), (embed (5 - 7))⁻¹, embed (5 - 7) * (embed (5 - 7))⁻¹]⟩,
        [.base (.narrow 7), .invertibleExt (embed (5 - 7))]) := rfl

theorem run_inverseOfDifference :
    ∃ M, (inverseOfDifference.circuit .empty).run.result = .ok M ∧
      List.Forall₂ Chip.Shows M.elements [5, 7, 5 - 7] ∧
      List.Forall₂ Chip.ShowsExt M.extensions
        [embed (5 - 7), (embed (5 - 7))⁻¹, embed (5 - 7) * (embed (5 - 7))⁻¹] := by
  obtain ⟨M, hM, -, helements, hextensions⟩ :=
    run_shows_interpretation interpret_inverseOfDifference fun n hn => by
      obtain rfl : n = 7 := by simpa using hn
      decide
  exact ⟨M, hM, helements, hextensions⟩

/-! ### Dishonest answers -/

/-- Whatever the prover answers, a run that violates no constraint returns in
every instruction what the honest run returns there. -/
theorem runWith_eq_run {outcome : ChipReading × List ChipDemand}
    (hp : p.interpret .empty = some outcome) (hfree : ∀ i ∈ p, i.IsDetermined) (answers : ℕ → ℤ)
    (hall : ∀ k ∈ ((p.circuit .empty).runWith answers).constraints, k.Holds) :
    ∃ M, ((p.circuit .empty).runWith answers).result = .ok M ∧
      (p.circuit .empty).run.result = .ok M :=
  (forces_circuit ChipMemory.represents_empty hp hfree).of_runWith answers hall

/-- Asks for zero whether it is zero. Its inverse is the one answer that is left to the
prover: the honest one is zero, and every other one does as well. -/
def isZeroOfZero : ChipProgram := [.field .zero, .field (.isZero 0)]

theorem runWith_isZeroOfZero :
    (∃ rest, isZeroOfZero.circuit .empty = .hint 0 rest) ∧
      (∀ i ∈ isZeroOfZero, i.IsDetermined) ∧
      (∀ k ∈ ((isZeroOfZero.circuit .empty).runWith fun _ => 5).constraints, k.Holds) ∧
      ∃ M, ((isZeroOfZero.circuit .empty).runWith fun _ => 5).result = .ok M ∧
        (isZeroOfZero.circuit .empty).run.result = .ok M := by
  have hasks : ∃ rest, isZeroOfZero.circuit .empty = .hint 0 rest := by
    have hhonest : ((fermatInverse 0 bn254.order : ℕ) : ℤ) = 0 := by
      rw [fermatInverse_of_dvd (dvd_zero bn254.order), Int.natCast_zero]
    rw [← hhonest]
    exact ⟨_, rfl⟩
  have hfree : ∀ i ∈ isZeroOfZero, i.IsDetermined := by
    simp [isZeroOfZero, ChipInstruction.IsDetermined, FieldOp.IsDetermined]
  have hall : ∀ k ∈ ((isZeroOfZero.circuit .empty).runWith fun _ => 5).constraints, k.Holds := by
    decide +kernel
  exact ⟨hasks, hfree, hall, runWith_eq_run (p := isZeroOfZero) rfl hfree _ hall⟩

/-! ### Failing constraints -/

/-- The constraints of the honest run all hold exactly if all demands are met.
If native arguments fit into the limbs, those that fail are the ones that the
demands name. -/
theorem check_iff_demands_hold (hp : p.interpret .empty = some (σ, demands)) :
    (Log.check (p.circuit .empty).run.constraints = .ok () ↔ ∀ d ∈ demands, d.Holds) ∧
      ((∀ n, .base (.narrow n) ∈ demands → n < 2 ^ BabyBear.limbBits) →
        Log.unsatisfied (p.circuit .empty).run.constraints =
          .ok (demands.flatMap (ChipDemand.blame .overBn254))) := by
  have hblame (hnarrow : ∀ n, .base (.narrow n) ∈ demands → n < 2 ^ BabyBear.limbBits) :
      Log.unsatisfied (p.circuit .empty).run.constraints =
        .ok (demands.flatMap (ChipDemand.blame .overBn254)) := by
    obtain ⟨M, -, hrun⟩ := gives_circuit ChipMemory.represents_empty hp hnarrow
    exact hrun.unsatisfied
  refine ⟨⟨fun hcheck => ?_, fun hmet => ?_⟩, hblame⟩
  · rw [Log.check_eq_ok_iff, Log.unsatisfied_eq_nil_iff] at hcheck
    exact holds_of_satisfied ChipMemory.represents_empty hp hcheck
  · rw [Log.check_eq_ok_iff, hblame fun n hn => hmet _ hn,
      ChipDemand.flatMap_blame_eq_nil_iff.2 hmet]

/-- An equation that does not hold, and the inverse of zero. -/
def vainDemands : ChipProgram :=
  [.load (.int 5), .load (.int 7), .field (.assertEqual 0 1 "assert_equal"), .chip .zeroExt,
    .chip (.invExt 0)]

theorem interpret_vainDemands :
    vainDemands.interpret .empty = some (⟨⟨[], [5, 7]⟩, [0, 0⁻¹]⟩,
      [.base (.equal 5 7 "assert_equal"), .invertibleExt 0]) := rfl

theorem check_vainDemands :
    Log.check (vainDemands.circuit .empty).run.constraints ≠ .ok () ∧
      Log.unsatisfied (vainDemands.circuit .empty).run.constraints =
        .ok [.equal (bn254.lift 5) (bn254.lift 7) "assert_equal",
          .equal (bn254.lift 0) (bn254.lift 1) "assert_equal"] := by
  obtain ⟨hcheck, hblame⟩ := check_iff_demands_hold interpret_vainDemands
  refine ⟨fun h => ?_, ?_⟩
  · have hzero : ChipDemand.Holds (.invertibleExt 0) := hcheck.1 h _ (by simp)
    exact hzero rfl
  · have hequal : ChipDemand.blame .overBn254 (.base (.equal 5 7 "assert_equal")) =
        [.equal (bn254.lift 5) (bn254.lift 7) "assert_equal"] := rfl
    rw [hblame (by simp), List.flatMap_cons, hequal]
    simp [ChipDemand.blame, Chip.overBn254]

end ChipProgram

end NonNative
