import NonNative.Proofs.Program

/-!
Runs of programs on an emulated field. One step keeps the correspondence of
memory and interpretation and leaves unsatisfied exactly what the instruction
demands in vain; so does a whole run.
-/

namespace NonNative

open Circuit

/-! ### Memory and reading -/

@[simp] theorem Value.nativeResults_scalars (l : List Scalar) :
    (Value.scalars l).nativeResults = l := by
  simp [Value.scalars, Value.nativeResults, List.filterMap_map]

@[simp] theorem Value.elementResults_scalars (l : List Scalar) :
    (Value.scalars l).elementResults = [] := by
  simp [Value.scalars, Value.elementResults, List.filterMap_map]

@[simp] theorem Value.nativeResults_elements (l : List Element) :
    (Value.elements l).nativeResults = [] := by
  simp [Value.elements, Value.nativeResults, List.filterMap_map]

@[simp] theorem Value.elementResults_elements (l : List Element) :
    (Value.elements l).elementResults = l := by
  simp [Value.elements, Value.elementResults, List.filterMap_map]

/-- The result of an operation holds what its meaning says. -/
structure Value.Means (E : EmulatedField) (v : Value) (e : Meaning E.modulus) : Prop where
  natives : v.nativeResults = e.flags.map fun b => E.native.lift b.toNat
  elements : List.Forall₂ E.Encodes v.elementResults e.residues
  extensions : v.extensionResults = []

namespace Value

variable {E : EmulatedField} (demands : List (Demand E.modulus))

theorem means_scalar (b : Bool) :
    (Value.scalar (E.native.lift b.toNat)).Means E ⟨[b], [], demands⟩ := ⟨rfl, .nil, rfl⟩

theorem means_scalars (bs : List Bool) :
    (Value.scalars (bs.map fun b => E.native.lift b.toNat)).Means E ⟨bs, [], demands⟩ :=
  ⟨nativeResults_scalars _, elementResults_scalars _ ▸ .nil, rfl⟩

theorem means_element {a : Element} {x : ZMod E.modulus} (ha : E.Encodes a x) :
    (Value.element a).Means E ⟨[], [x], demands⟩ := ⟨rfl, .cons ha .nil, rfl⟩

theorem means_nothing : Value.nothing.Means E ⟨[], [], demands⟩ := ⟨rfl, .nil, rfl⟩

end Value

/-- The memory holds what the reading says. -/
structure Memory.Represents (E : EmulatedField) (M : Memory) (σ : Reading E.modulus) : Prop where
  natives : M.natives = σ.flags.map fun b => E.native.lift b.toNat
  elements : List.Forall₂ E.Encodes M.elements σ.residues

namespace Memory.Represents

variable {E : EmulatedField} {M : Memory} {σ : Reading E.modulus} (h : M.Represents E σ)

include h

theorem element (i : ℕ) : Refines E.Encodes (M.element i) (σ.residue i) := by
  intro x hx
  obtain ⟨hi, rfl⟩ := List.getElem?_eq_some_iff.1 hx
  have hi' : i < M.elements.length := by rwa [h.elements.length_eq]
  refine ⟨M.elements[i], by simp [Memory.element, hi'], ?_⟩
  exact (List.forall₂_iff_get.1 h.elements).2 i hi' hi

theorem operand (source : Source) :
    Refines E.native.StandsFor (M.operand source) (σ.value E.native source) := by
  intro v hv
  cases source with
  | int n =>
      obtain rfl := Option.some.inj hv
      refine ⟨.int n, rfl, E.native.lift_val_lt n, ?_⟩
      rw [E.native.accept_int, E.native.lift_lift_val]
  | wire i =>
      obtain ⟨b, hb, rfl⟩ := Option.map_eq_some_iff.1 hv
      have hi : M.natives[i]? = some (E.native.lift b.toNat) := by
        rw [h.natives, List.getElem?_map, hb]
        rfl
      refine ⟨.scalar (E.native.lift b.toNat),
        by simp [Memory.operand, Memory.native, hi, Except.map], ?_, E.native.accept_lift _⟩
      exact (Bool.toNat_lt b).trans_le E.native.two_le_order

theorem store {v : Value} {e : Meaning E.modulus} (hv : v.Means E e) :
    (M.store v).Represents E (σ.extend e) where
  natives := by rw [Memory.store, h.natives, hv.natives, Reading.extend, List.map_append]
  elements := List.rel_append h.elements hv.elements

end Memory.Represents

theorem Memory.represents_empty (E : EmulatedField) :
    Memory.empty.Represents E Reading.empty := ⟨rfl, .nil⟩

/-! ### Demands -/

namespace Demand

variable {E : EmulatedField}

theorem blame_narrow {v : ℕ} (hv : v < E.native.order) :
    (Demand.narrow v).blame E = (E.narrowness v).blame := by
  simp only [blame, Constraint.blame, E.narrowness_holds_iff hv]
  rfl

theorem blame_invertible (hmodulus : E.modulus.Prime) (x : ZMod E.modulus) :
    (Demand.invertible x).blame E = EmulatedField.mismatch E.native (x * x⁻¹) 1 "inverse" := by
  have : Fact E.modulus.Prime := ⟨hmodulus⟩
  by_cases hx : x = 0
  · simp [blame, hx, EmulatedField.mismatch, ZMod.val_one]
  · simp [blame, hx, EmulatedField.mismatch]

end Demand

/-! ### One step -/

theorem exists_of_isOk {α : Type} {x : Except Fault α} (h : x.isOk) : ∃ a, x = .ok a := by
  cases x with
  | error fault => cases h
  | ok a => exact ⟨a, rfl⟩

theorem Literal.value_eq_ok {l : Literal} {n : ℤ} (h : l.value.toOption = some n) :
    l.value = .ok n := by
  cases hl : l.value with
  | error fault => simp [hl, Except.toOption] at h
  | ok k => simpa [hl, Except.toOption] using h

section Step

variable {E : EmulatedField} {prover : Prover}

/-- A selection has a meaning only where the condition is a bit. -/
theorem FieldOp.exists_of_meaning_select {v : ℕ} {x y : ZMod E.modulus} {e : Meaning E.modulus}
    (he : (FieldOp.select v x y).meaning E = some e) :
    ∃ chosen : Bool, v = chosen.toNat ∧ e = .ofResidue (if chosen then x else y) := by
  rcases v with _ | _ | v
  · exact ⟨false, rfl, (Option.some.inj he).symm⟩
  · exact ⟨true, rfl, (Option.some.inj he).symm⟩
  · simp [FieldOp.meaning] at he

/-- One operation: where it has a meaning, its circuit runs to the end and the
constraints that fail are those of the demands that are not met. The result is
what the meaning says, provided that native values fit into the limbs. -/
theorem FieldOp.gives_circuit (hnative : E.native.order.Prime)
    (hsafe : E.peak ^ 2 < E.native.order) (hbudget : prover = .arbitrary → 2 ≤ E.maxOverflow)
    {op : FieldOp Operand Element} {op' : FieldOp ℕ (ZMod E.modulus)}
    (hrel : Related E.native.StandsFor E.Encodes op op')
    (hfree : prover = .arbitrary → op'.IsDetermined) {e : Meaning E.modulus}
    (he : op'.meaning E = some e) :
    (op.circuit E).Gives prover (e.demands.flatMap (Demand.blame E)) fun v =>
      (∀ n, .narrow n ∈ e.demands → n < 2 ^ E.totalBits) → v.Means E e := by
  cases hrel with
  | constant l =>
      obtain ⟨n, hn, rfl⟩ := Option.map_eq_some_iff.1 he
      rw [FieldOp.circuit, Literal.value_eq_ok hn, ofExcept_ok, map_pure]
      exact .pure fun _ => Value.means_element [] (E.encodes_constant n)
  | zero =>
      obtain rfl := Option.some.inj he
      exact .pure fun _ => Value.means_element [] E.encodes_zero
  | one =>
      obtain rfl := Option.some.inj he
      exact .pure fun _ => Value.means_element [] E.encodes_one
  | ofNative ha =>
      obtain rfl := Option.some.inj he
      rw [List.flatMap_singleton, Demand.blame_narrow ha.1]
      refine ⟨_, fun hnarrow => ?_, (E.determines_ofNative ha.2).map _⟩
      exact Value.means_element _ (E.encodes_narrow (hnarrow _ (by simp)))
  | witness n =>
      obtain rfl := Option.some.inj he
      cases prover with
      | arbitrary => exact (hfree rfl).elim
      | honest =>
          exact ⟨_, fun _ => Value.means_element [] (E.encodes_constant n),
            (E.honest_witness n).map _⟩
  | canonical hr label => simp [FieldOp.meaning] at he
  | remainder hv bound label => simp [FieldOp.meaning] at he
  | paddingMultiple ha => simp [FieldOp.meaning] at he
  | reduce ha =>
      obtain rfl := Option.some.inj he
      exact ⟨_, fun _ => Value.means_element [] (E.encodes_residue _), ha.determines_reduce.map _⟩
  | add ha hb =>
      obtain rfl := Option.some.inj he
      exact (ha.gives_add hb).map fun _ h _ => Value.means_element [] h
  | neg ha =>
      obtain rfl := Option.some.inj he
      exact ha.gives_neg.map fun _ h _ => Value.means_element [] h
  | sub ha hb =>
      obtain rfl := Option.some.inj he
      exact (ha.gives_sub hb).map fun _ h _ => Value.means_element [] h
  | mul ha hb =>
      obtain rfl := Option.some.inj he
      exact (ha.gives_mul hsafe hbudget hb).map fun _ h _ => Value.means_element [] h
  | @inverse a x ha =>
      rw [FieldOp.meaning] at he
      split at he
      · next hmodulus =>
          obtain rfl := Option.some.inj he
          rw [List.flatMap_singleton, Demand.blame_invertible hmodulus]
          refine (ha.gives_inverse hmodulus hsafe hbudget).map ?_
          rintro _ rfl _
          exact Value.means_element _ (E.encodes_residue x⁻¹)
      · simp at he
  | @select cond v a x b y hc ha hb =>
      obtain ⟨chosen, rfl, rfl⟩ := FieldOp.exists_of_meaning_select he
      exact (ha.gives_select hc.2 hb).map fun _ h _ => Value.means_element [] h
  | @isZero a x ha =>
      obtain rfl := Option.some.inj he
      exact ⟨_, fun _ => Value.means_scalar [] (decide (x = 0)),
        (ha.determines_isZero hnative).map _⟩
  | assertEqual ha hb label =>
      obtain rfl := Option.some.inj he
      rw [List.flatMap_singleton, Demand.blame]
      exact ⟨_, fun _ => Value.means_nothing _, (ha.determines_assertEqual hb label).map _⟩
  | @toBits a x ha =>
      obtain rfl := Option.some.inj he
      have hbits : ((bits E.modulusBits x.val).map (· == 1)).map
          (fun b => E.native.lift b.toNat) =
            (bits E.modulusBits x.val).map fun (b : ℕ) => E.native.lift b := by
        rw [List.map_map]
        refine List.map_congr_left fun b hb => ?_
        have hlt := bits_lt_two hb
        interval_cases b <;> rfl
      exact ⟨_, fun _ => Value.means_scalars [] _, (hbits ▸ ha.determines_toBits).map _⟩

/-- An instruction keeps the correspondence. -/
theorem FieldOp.gives_step (hnative : E.native.order.Prime)
    (hsafe : E.peak ^ 2 < E.native.order) {M : Memory} {σ : Reading E.modulus}
    (h : M.Represents E σ) {op : FieldOp Source ℕ} {op' : FieldOp ℕ (ZMod E.modulus)}
    (hop : op.resolve (σ.value E.native) σ.residue = some op') {e : Meaning E.modulus}
    (he : op'.meaning E = some e) (hnarrow : ∀ n, .narrow n ∈ e.demands → n < 2 ^ E.totalBits) :
    (op.step E M).Gives .honest (e.demands.flatMap (Demand.blame E)) fun M' =>
      M'.Represents E (σ.extend e) := by
  obtain ⟨call, hcall, hrel⟩ := FieldOp.refines_resolve h.operand h.element op _ hop
  rw [FieldOp.step, hcall, ofExcept_ok, pure_bind, ← List.append_nil (List.flatMap _ _)]
  have hhonest : Prover.honest ≠ .arbitrary := nofun
  have hcircuit := FieldOp.gives_circuit hnative hsafe (absurd · hhonest) hrel (absurd · hhonest) he
  exact hcircuit.bind fun v hv => .pure (h.store (hv hnarrow))

end Step

/-! ### Whole runs -/

theorem FieldProgram.gives_circuit {E : EmulatedField} (hnative : E.native.order.Prime)
    (hsafe : E.peak ^ 2 < E.native.order) {p : FieldProgram} {M : Memory}
    {σ σ' : Reading E.modulus} (h : M.Represents E σ) {demands : List (Demand E.modulus)}
    (hp : p.interpret E σ = some (σ', demands))
    (hnarrow : ∀ v, .narrow v ∈ demands → v < 2 ^ E.totalBits) :
    (p.circuit E M).Gives .honest (demands.flatMap (Demand.blame E)) fun M' =>
      M'.Represents E σ' := by
  induction p generalizing M σ demands with
  | nil =>
      obtain ⟨rfl, rfl⟩ := Prod.mk.inj (Option.some.inj hp)
      exact .pure h
  | cons op p ih =>
      simp only [FieldProgram.interpret, Option.bind_eq_bind, Option.bind_eq_some_iff,
        Option.pure_def, Option.some.injEq, Prod.mk.injEq, Prod.exists] at hp
      obtain ⟨op', hop, e, he, _, later, hlater, rfl, rfl⟩ := hp
      rw [List.flatMap_append]
      have hstep := FieldOp.gives_step hnative hsafe h hop he fun v hv =>
        hnarrow v (List.mem_append_left _ hv)
      exact hstep.bind fun M' hM' => ih hM' hlater fun v hv =>
        hnarrow v (List.mem_append_right _ hv)

end NonNative
