import NonNative.Proofs.ChipProgram

/-!
Runs of chip programs over BN254. One instruction keeps the correspondence of
memory and interpretation, and leaves unsatisfied what it demands in vain. Three
statements about whole runs follow by induction: an honest run ends as the
interpretation says; a run that violates no constraint ends like the honest one,
whatever the prover answers; and if the honest run itself violates none, all
demands are met.
-/

namespace NonNative

open Circuit

/-! ### Memory and reading -/

/-- The result of an instruction holds what its meaning says. -/
structure Value.ChipMeans (C : Chip) (v : Value) (e : ChipMeaning) : Prop where
  natives : v.nativeResults = e.flags.map fun b => C.native.lift b.toNat
  elements : List.Forall₂ C.Encodes v.elementResults e.residues
  extensions : List.Forall₂ C.EncodesExt v.extensionResults e.points

namespace Value

variable {C : Chip}

theorem Means.ofField {v : Value} {e : Meaning Chip.overBn254.field.modulus}
    (h : v.Means Chip.overBn254.field e) : v.ChipMeans .overBn254 (.ofField e) where
  natives := h.natives
  elements := h.elements
  extensions := h.extensions ▸ .nil

theorem chipMeans_elements {l : List Element} {xs : List (ZMod BabyBear.prime)}
    (h : List.Forall₂ C.Encodes l xs) : (Value.elements l).ChipMeans C (.ofResidues xs) where
  natives := nativeResults_elements l
  elements := (elementResults_elements l).symm ▸ h
  extensions := .nil

theorem chipMeans_element {a : Element} {x : ZMod BabyBear.prime}
    (h : C.Encodes a x) : (Value.element a).ChipMeans C (.ofResidues [x]) :=
  ⟨rfl, .cons h .nil, .nil⟩

theorem chipMeans_extension {a : ExtensionValue} {z : QuarticField}
    (h : C.EncodesExt a z) (demands : List ChipDemand) :
    (Value.extension a).ChipMeans C ⟨[], [], [z], demands⟩ := ⟨rfl, .nil, .cons h .nil⟩

theorem chipMeans_nothing (demands : List ChipDemand) :
    Value.nothing.ChipMeans C (.ofDemands demands) := ⟨rfl, .nil, .nil⟩

end Value

/-- The memory holds what the reading says. -/
structure ChipMemory.Represents (M : ChipMemory) (σ : ChipReading) : Prop where
  base : M.toMemory.Represents Chip.overBn254.field σ.toReading
  extensions : List.Forall₂ Chip.overBn254.EncodesExt M.extensions σ.points

theorem ChipMemory.represents_empty : ChipMemory.empty.Represents .empty :=
  ⟨Memory.represents_empty _, .nil⟩

namespace ChipMemory.Represents

variable {M : ChipMemory} {σ : ChipReading} (h : M.Represents σ)

include h

theorem extension (i : ℕ) :
    Refines Chip.overBn254.EncodesExt (M.extension i) (σ.point i) := by
  intro z hz
  obtain ⟨hi, rfl⟩ := List.getElem?_eq_some_iff.1 hz
  have hi' : i < M.extensions.length := by rwa [h.extensions.length_eq]
  refine ⟨M.extensions[i], by simp [ChipMemory.extension, hi'], ?_⟩
  exact (List.forall₂_iff_get.1 h.extensions).2 i hi' hi

theorem store {v : Value} {e : ChipMeaning} (hv : v.ChipMeans .overBn254 e) :
    (M.store v).Represents (σ.extend e) where
  base := ⟨by
    rw [ChipMemory.store, Memory.store, h.base.natives, hv.natives, ChipReading.extend,
      List.map_append]
    rfl, List.rel_append h.base.elements hv.elements⟩
  extensions := List.rel_append h.extensions hv.extensions

end ChipMemory.Represents

/-! ### One step -/

theorem Quartic.refines_mapM {α β γ : Type} {f : α → Except Fault β} {g : α → Option γ}
    {R : β → γ → Prop} (h : ∀ a, Refines R (f a) (g a)) (a : Quartic α) :
    Refines (Quartic.Rel R) (a.mapM f) (a.mapM g) :=
  (h a.c0).bind fun _ _ h0 => (h a.c1).bind fun _ _ h1 => (h a.c2).bind fun _ _ h2 =>
    (h a.c3).bind fun _ _ h3 => .pure ⟨h0, h1, h2, h3⟩

theorem ChipOp.exists_of_meaning_selectExt {v : ℕ} {z w : QuarticField} {e : ChipMeaning}
    (he : (.selectExt v z w : ChipOp ℕ (ZMod BabyBear.prime) QuarticField).meaning = some e) :
    ∃ chosen : Bool, v = chosen.toNat ∧ e = .ofPoint (if chosen then z else w) := by
  rcases v with _ | _ | v
  · exact ⟨false, rfl, (Option.some.inj he).symm⟩
  · exact ⟨true, rfl, (Option.some.inj he).symm⟩
  · simp [ChipOp.meaning] at he

open Chip in
/-- One operation of a chip over any prime field. -/
theorem ChipOp.gives_circuit {C : Chip} {prover : Prover} (hnative : C.native.order.Prime)
    (hbudget : prover = .arbitrary → 2 ≤ C.field.maxOverflow)
    {op : ChipOp Operand Element ExtensionValue}
    {op' : ChipOp ℕ (ZMod BabyBear.prime) QuarticField}
    (hrel : Related C.native.StandsFor C.Encodes C.EncodesExt op op')
    (hone : op'.isInversion → C.native.order = bn254.order)
    (hfree : prover = .arbitrary → op'.IsDetermined) {e : ChipMeaning}
    (he : op'.meaning = some e) :
    (op.circuit C).Gives prover (e.demands.flatMap (ChipDemand.blame C)) fun v =>
      v.ChipMeans (op'.home C) e := by
  cases hrel with
  | @assertNotEqual a x b y ha hb =>
      obtain rfl := Option.some.inj he
      simp only [ChipMeaning.ofDemands, List.flatMap_singleton, ChipDemand.blame]
      exact ⟨_, Value.chipMeans_nothing _, (determines_assertNotEqual hnative ha hb).map _⟩
  | unpack ha =>
      obtain rfl := Option.some.inj he
      cases prover with
      | arbitrary => exact (hfree rfl).elim
      | honest => exact (gives_unpack ha).map fun _ h => Value.chipMeans_elements h
  | print ha =>
      obtain rfl := Option.some.inj he
      rw [ChipOp.circuit, print_eq ha]
      exact ⟨_, Value.chipMeans_nothing _, (Determines.tell _).map _⟩
  | zeroExt =>
      obtain rfl := Option.some.inj he
      exact .pure (Value.chipMeans_extension encodesExt_zeroExt _)
  | oneExt =>
      obtain rfl := Option.some.inj he
      exact .pure (Value.chipMeans_extension encodesExt_oneExt _)
  | ofBase ha =>
      obtain rfl := Option.some.inj he
      exact .pure (Value.chipMeans_extension (encodesExt_ofBase ha) _)
  | addExt ha hb =>
      obtain rfl := Option.some.inj he
      exact (ha.gives_addExt hb).map fun _ h => Value.chipMeans_extension h _
  | subExt ha hb =>
      obtain rfl := Option.some.inj he
      exact (ha.gives_subExt hb).map fun _ h => Value.chipMeans_extension h _
  | negExt ha =>
      obtain rfl := Option.some.inj he
      exact ha.gives_negExt.map fun _ h => Value.chipMeans_extension h _
  | mulExt ha hb =>
      obtain rfl := Option.some.inj he
      exact (ha.gives_mulExt hbudget hb).map fun _ h =>
        Value.chipMeans_extension h _
  | invExt ha =>
      obtain rfl := C.eq_overBn254 (hone rfl)
      obtain rfl := Option.some.inj he
      simp only [List.flatMap_singleton, ChipDemand.blame]
      exact ⟨_, Value.chipMeans_extension (encodesExt_constantExt _ _) _,
        ha.determines_invExt.map _⟩
  | divExt ha hb =>
      obtain rfl := C.eq_overBn254 (hone rfl)
      obtain rfl := Option.some.inj he
      simp only [List.flatMap_singleton, ChipDemand.blame]
      exact (ha.gives_divExt hb).map fun _ h => Value.chipMeans_extension h _
  | assertEqualExt ha hb =>
      obtain rfl := Option.some.inj he
      simp only [ChipMeaning.ofDemands, List.flatMap_singleton, ChipDemand.blame]
      exact ⟨_, Value.chipMeans_nothing _, (ha.determines_assertEqualExt hb).map _⟩
  | assertNotEqualExt ha hb =>
      obtain rfl := Option.some.inj he
      simp only [ChipMeaning.ofDemands, List.flatMap_singleton, ChipDemand.blame]
      exact ⟨_, Value.chipMeans_nothing _, (ha.determines_assertNotEqualExt hnative hb).map _⟩
  | @selectExt cond v a z b w hc ha hb =>
      obtain ⟨chosen, rfl, rfl⟩ := ChipOp.exists_of_meaning_selectExt he
      exact (ha.gives_selectExt hc.2 hb).map fun _ h => Value.chipMeans_extension h _
  | addBase ha hb =>
      obtain rfl := Option.some.inj he
      exact (ha.gives_addBase hb).map fun _ h => Value.chipMeans_extension h _
  | subBase ha hb =>
      obtain rfl := Option.some.inj he
      exact (ha.gives_subBase hb).map fun _ h => Value.chipMeans_extension h _
  | mulBase ha hb =>
      obtain rfl := Option.some.inj he
      exact (ha.gives_mulBase hbudget hb).map fun _ h =>
        Value.chipMeans_extension h _
  | @divBase a z b x ha hb =>
      obtain rfl := Option.some.inj he
      have hblame : ChipDemand.blame C (.base (.invertible x)) =
          EmulatedField.mismatch C.native (x * x⁻¹) 1 "inverse" :=
        Demand.blame_invertible (E := C.field) BabyBear.prime_prime x
      rw [List.flatMap_singleton, hblame]
      exact (ha.gives_divBase hbudget hb).map fun _ h =>
        Value.chipMeans_extension h _
  | printExt ha =>
      obtain rfl := Option.some.inj he
      rw [ChipOp.circuit, printExt_eq ha]
      exact ⟨_, Value.chipMeans_nothing _, ((Determines.tell _).bind ((Determines.tell _).bind
        ((Determines.tell _).bind (Determines.tell _)))).map _⟩

theorem ChipMeaning.blame_ofField (e : Meaning Chip.overBn254.field.modulus) :
    (ChipMeaning.ofField e).demands.flatMap (ChipDemand.blame .overBn254) =
      e.demands.flatMap (Demand.blame Chip.overBn254.field) := List.flatMap_map ..

section Step

variable {prover : Prover} {M : ChipMemory} {σ : ChipReading}

open Chip in
/-- One instruction. -/
theorem ChipInstruction.gives_circuit (h : M.Represents σ) {i : ChipInstruction}
    (hfree : prover = .arbitrary → i.IsDetermined) {e : ChipMeaning} (he : i.meaning σ = some e) :
    (i.circuit M).Gives prover (e.demands.flatMap (ChipDemand.blame .overBn254)) fun v =>
      (∀ n, .base (.narrow n) ∈ e.demands → n < 2 ^ BabyBear.limbBits) →
        v.ChipMeans .overBn254 e := by
  cases i with
  | field op =>
      simp only [ChipInstruction.meaning, Option.bind_eq_bind, Option.bind_eq_some_iff,
        Option.pure_def, Option.some.injEq] at he
      obtain ⟨op', hop, e, he, rfl⟩ := he
      obtain ⟨call, hcall, hrel⟩ := FieldOp.refines_resolve h.base.operand h.base.element op _ hop
      have hcircuit : (call.circuit overBn254.field).Gives prover
          (e.demands.flatMap (Demand.blame overBn254.field)) _ :=
        FieldOp.gives_circuit bn254_prime (peak_sq_lt_order _) (fun _ => two_le_maxOverflow) hrel
          (fun hprover => (hfree hprover).resolve hop) he
      rw [ChipInstruction.circuit, hcall, ofExcept_ok, pure_bind, ChipMeaning.blame_ofField]
      refine hcircuit.mono fun v hv hnarrow => (hv fun n hn => ?_).ofField
      exact hnarrow n (List.mem_map_of_mem hn)
  | chip op =>
      simp only [ChipInstruction.meaning, Option.bind_eq_bind, Option.bind_eq_some_iff] at he
      obtain ⟨op', hop, he⟩ := he
      obtain ⟨call, hcall, hrel⟩ := ChipOp.refines_resolve h.base.operand h.base.element
        h.extension op _ hop
      rw [ChipInstruction.circuit, hcall, ofExcept_ok, pure_bind]
      have hfree' : prover = .arbitrary → op'.IsDetermined := fun hprover =>
        (hfree hprover).resolve hop
      have hcircuit : (call.circuit overBn254).Gives prover _ _ :=
        ChipOp.gives_circuit bn254_prime (fun _ => two_le_maxOverflow) hrel (fun _ => rfl) hfree' he
      exact hcircuit.mono fun v hv _ => op'.home_overBn254 ▸ hv
  | load l =>
      obtain ⟨n, hn, rfl⟩ := Option.map_eq_some_iff.1 he
      rw [ChipInstruction.circuit, Literal.value_eq_ok hn, ofExcept_ok, pure_bind]
      exact .pure fun _ => Value.chipMeans_element (overBn254.field.encodes_constant n)
  | loadExtension ls =>
      simp only [ChipInstruction.meaning, Option.bind_eq_bind, Option.bind_eq_some_iff,
        Option.pure_def, Option.some.injEq] at he
      obtain ⟨l, hl, ns, hns, rfl⟩ := he
      obtain ⟨c, hc, hrel⟩ := Quartic.refines_mapM
        (fun l n hn => ⟨n, Literal.value_eq_ok hn, rfl⟩) l _ hns
      obtain rfl : c = ns := hrel.eq
      have hload : extensionOfLiterals ls = .ok (extensionConstant c) := by
        rw [extensionOfLiterals, hl]
        simp only [hc]
        rfl
      rw [ChipInstruction.circuit, hload, ofExcept_ok, map_pure]
      refine .pure fun _ => Value.chipMeans_extension ?_ _
      rw [EncodesExt, QuarticField.coordinates_ofCoordinates]
      exact ⟨EmulatedField.encodes_constant _ _, EmulatedField.encodes_constant _ _,
        EmulatedField.encodes_constant _ _, EmulatedField.encodes_constant _ _⟩
  | coordinates a =>
      obtain ⟨z, hz, rfl⟩ := Option.map_eq_some_iff.1 he
      obtain ⟨c, hc, henc⟩ := h.extension a z hz
      rw [ChipInstruction.circuit, hc, ofExcept_ok, pure_bind]
      exact .pure fun _ => Value.chipMeans_elements (Quartic.Rel.toList henc)
  | assemble c =>
      simp only [ChipInstruction.meaning, Option.bind_eq_bind, Option.bind_eq_some_iff,
        Option.pure_def, Option.some.injEq] at he
      obtain ⟨xs, hxs, rfl⟩ := he
      obtain ⟨a, ha, hrel⟩ := Quartic.refines_mapM h.base.element c _ hxs
      rw [ChipInstruction.circuit, ha, ofExcept_ok, map_pure]
      refine .pure fun _ => Value.chipMeans_extension ?_ _
      rw [EncodesExt, QuarticField.coordinates_ofCoordinates]
      exact hrel

end Step

/-! ### Whole runs -/

namespace ChipProgram

variable {p : ChipProgram} {M : ChipMemory} {σ σ' : ChipReading} {demands : List ChipDemand}

/-- The honest run of a program whose native arguments fit into the limbs. -/
theorem gives_circuit (h : M.Represents σ) (hp : p.interpret σ = some (σ', demands))
    (hnarrow : ∀ n, .base (.narrow n) ∈ demands → n < 2 ^ BabyBear.limbBits) :
    (p.circuit M).Gives .honest (demands.flatMap (ChipDemand.blame .overBn254)) fun M' =>
      M'.Represents σ' := by
  induction p generalizing M σ demands with
  | nil =>
      obtain ⟨rfl, rfl⟩ := Prod.mk.inj (Option.some.inj hp)
      exact .pure h
  | cons i p ih =>
      obtain ⟨e, later, he, hlater, rfl⟩ := interpret_cons hp
      have hhonest : Prover.honest ≠ .arbitrary := nofun
      have hstep := ChipInstruction.gives_circuit h (absurd · hhonest) he
      rw [List.flatMap_append]
      refine hstep.bind fun v hv => ih (h.store (hv fun n hn => ?_)) hlater fun n hn => ?_
      · exact hnarrow n (List.mem_append_left _ hn)
      · exact hnarrow n (List.mem_append_right _ hn)

/-- Against an arbitrary prover. Native arguments may be too large, but then the
run violates a constraint before anything depends on them. -/
theorem forces_circuit (h : M.Represents σ) (hp : p.interpret σ = some (σ', demands))
    (hfree : ∀ i ∈ p, i.IsDetermined) :
    (p.circuit M).Forces fun M' => (p.circuit M).run.result = .ok M' := by
  induction p generalizing M σ demands with
  | nil => exact rfl
  | cons i p ih =>
      obtain ⟨e, later, he, hlater, rfl⟩ := interpret_cons hp
      rw [List.forall_mem_cons] at hfree
      obtain ⟨v, hv, hstep⟩ : (i.circuit M).Gives .arbitrary _ _ :=
        ChipInstruction.gives_circuit h (fun _ => hfree.1) he
      refine (hstep.forced rfl).bind ?_
      rintro _ ⟨rfl, hblame⟩
      -- the step has violated nothing, so its native arguments fit
      have hmet := ChipDemand.flatMap_blame_eq_nil_iff.1 hblame
      rw [circuit, (run_bind_of_ok hstep.result).1]
      exact ih (h.store (hv fun n hn => hmet _ hn)) hlater hfree.2

/-- An honest run that violates no constraint. -/
theorem holds_of_satisfied (h : M.Represents σ) (hp : p.interpret σ = some (σ', demands))
    (hall : ∀ k ∈ (p.circuit M).run.constraints, k.Holds) : ∀ d ∈ demands, d.Holds := by
  induction p generalizing M σ demands with
  | nil =>
      obtain ⟨rfl, rfl⟩ := Prod.mk.inj (Option.some.inj hp)
      exact List.forall_mem_nil _
  | cons i p ih =>
      obtain ⟨e, later, he, hlater, rfl⟩ := interpret_cons hp
      have hhonest : Prover.honest ≠ .arbitrary := nofun
      obtain ⟨v, hv, hstep⟩ := ChipInstruction.gives_circuit h (absurd · hhonest) he
      have hnone : Log.unsatisfied (i.circuit M).run.constraints = .ok [] :=
        Log.unsatisfied_eq_nil_iff.2 fun k hk => hall k (mem_constraints_bind _ hk)
      have hmet : ∀ d ∈ e.demands, d.Holds := ChipDemand.flatMap_blame_eq_nil_iff.1
        (Except.ok.inj (hstep.unsatisfied.symm.trans hnone))
      rw [circuit, (run_bind_of_ok hstep.result).2, List.forall_mem_append] at hall
      have hrest := ih (h.store (hv fun n hn => hmet _ hn)) hlater hall.2
      exact List.forall_mem_append.2 ⟨hmet, hrest⟩

end ChipProgram

end NonNative
