import NonNative.Proofs.FieldRuns

/-!
What the elements of a run represent. However operations are chained, an element
holds a natural number below the bound that its overflow states, the overflow
keeps to the budget, and limbs come with residues only. Sums, negatives and
differences hold what the integers give. None of this asks whether products stay
below the native order: one that wraps around may be the wrong residue, but it is
a residue.
-/

namespace NonNative

open Circuit EmulatedField

namespace EmulatedField

/-! ### Representation -/

/-- The element represents the number `v`. -/
structure Represents (E : EmulatedField) (a : Element) (v : ℕ) : Prop where
  native : ∃ s : Scalar, a.native = .scalar s ∧ s.order = E.native.order ∧ s.val = v
  overflow_nonneg : 0 ≤ a.overflow
  bound : v < 2 ^ (E.totalBits + a.overflow.toNat)
  /-- A budget of a single bit may be exceeded by one more. -/
  budget : a.overflow ≤ max (E.maxOverflow : ℤ) 2
  limbs : a.limbs ≠ [] → a.overflow = 0 ∧ v < E.modulus ∧ a.limbs.length = E.limbCount ∧
    ∃ ds : List Scalar, a.limbs = ds.map .scalar ∧ (∀ d ∈ ds, d.val < 2 ^ E.limbBits) ∧
      ofDigits E.limbBits (ds.map (·.val)) = v

variable {E : EmulatedField} {a b : Element} {v w : ℕ}

theorem Carries.represents (h : E.Carries a v) : E.Represents a v where
  native := ⟨E.native.lift v, h.native, rfl, h.val_native⟩
  overflow_nonneg := h.overflow_nonneg
  bound := h.lt_two_pow
  budget := h.budget
  limbs hlimbs := by
    have hcanonical : a.isCanonical := by simpa [Element.isCanonical] using hlimbs
    obtain ⟨ha, hv⟩ := h.canonical hcanonical
    have horder : ∀ d ∈ digits E.limbBits E.limbCount v, d < E.native.order := fun d hd =>
      E.limb_lt_order E.limbBits_le_totalBits hd
    rw [ha, constant_natCast, Nat.mod_eq_of_lt hv]
    refine ⟨rfl, hv, by simp, (digits E.limbBits E.limbCount v).map fun (d : ℕ) =>
      E.native.lift d, rfl, ?_, ?_⟩
    · simp only [List.forall_mem_map]
      intro d hd
      rw [E.native.lift_val_of_lt (horder d hd)]
      exact digits_lt hd
    · rw [E.native.map_val_lift horder, E.ofDigits_limbs hv]

/-- The native value leaves no choice for the number. -/
theorem Represents.eq_of_carries (h : E.Represents a v) (hw : E.Carries a w) : v = w := by
  obtain ⟨s, hs, -, rfl⟩ := h.native
  obtain rfl : s = E.native.lift w := Operand.scalar.inj (hs.symm.trans hw.native)
  exact hw.val_native

/-- The element carries some number. -/
def IsCarried (E : EmulatedField) (a : Element) : Prop := ∃ v, E.Carries a v

theorem Encodes.isCarried {x : ZMod E.modulus} (h : E.Encodes a x) : E.IsCarried a :=
  ⟨h.choose, h.choose_spec.1⟩

/-- What is added and subtracted are the integers themselves, where an operand
without room for two more bits counts as its residue, and where a number is
subtracted from the least multiple of the modulus that is not below its bound. -/
structure AddsExactly (E : EmulatedField) (a b : Element) (v w : ℕ) : Prop where
  add : ∃ c u, (E.add a b).run.result = .ok c ∧ E.Represents c u ∧
    u = E.roomyNumber a v + E.roomyNumber b w
  neg : ∃ c u, (E.neg a).run.result = .ok c ∧ E.Represents c u ∧
    (u : ℤ) = E.padding (E.totalBits + (E.roomyOverflow a).toNat) - E.roomyNumber a v
  sub : ∃ c u, (E.sub a b).run.result = .ok c ∧ E.Represents c u ∧
    (u : ℤ) = E.roomyNumber a v +
      (E.padding (E.totalBits + (E.roomyOverflow b).toNat) - E.roomyNumber b w)

theorem Carries.natCast_negatedNumber (h : E.Carries a v) :
    (E.negatedNumber a v : ℤ) =
      E.padding (E.totalBits + (E.roomyOverflow a).toNat) - E.roomyNumber a v := by
  have hle := E.le_padding (E.totalBits + (E.roomyOverflow a).toNat)
  have hlt := h.roomyNumber_lt
  rw [negatedNumber, Nat.cast_sub (by omega)]

theorem Carries.addsExactly (ha : E.Carries a v) (hb : E.Carries b w) : E.AddsExactly a b v w where
  add := by
    obtain ⟨c, hc, hadd⟩ : (E.add a b).Gives .honest [] _ := ha.gives_add hb
    exact ⟨c, _, hadd.result, hc.represents, rfl⟩
  neg := by
    obtain ⟨c, hc, hneg⟩ : (E.neg a).Gives .honest [] _ := ha.gives_neg
    exact ⟨c, _, hneg.result, hc.represents, ha.natCast_negatedNumber⟩
  sub := by
    obtain ⟨c, hc, hsub⟩ : (E.sub a b).Gives .honest [] _ := ha.gives_sub hb
    refine ⟨c, _, hsub.result, hc.represents, ?_⟩
    rw [Nat.cast_add, hb.natCast_negatedNumber]

/-- An inverse is a residue modulo any number, prime or not; so is that of zero. -/
theorem Encodes.exists_inverse {x : ZMod E.modulus} (ha : E.Encodes a x) :
    ∃ n : ℤ, (E.inverse a).run.result = .ok (E.constant n) := by
  set w : ℕ := fermatInverse ((x.val : ℤ) % E.modulus).toNat E.modulus
  have hreduce : (E.reduce a).Determines .honest (E.constant x.val) [] := ha.determines_reduce
  have hproduct := (E.carries_residue x).honest_mul (E.carries_constant w)
  have hassert (n : ℤ) : (do
      E.assertEqual (E.constant n) E.one "inverse"
      return E.constant w).Determines .honest (E.constant w) _ :=
    ((E.encodes_constant n).determines_assertEqual E.encodes_one "inverse").bind (.pure _)
  refine ⟨w, (run_bind_of_ok hreduce.result).1.trans ?_⟩
  rw [toInt_constant_val, ofExcept_ok, pure_bind]
  exact ((E.honest_witness w).bind (hproduct.bind (hassert _))).result

end EmulatedField

/-! ### Programs -/

/-- The arguments of the operation are of the kind that it is made for: a literal
that can be read, a native value that fits into the limbs, a condition that is zero
or one. -/
def FieldOp.isAdmissible (E : EmulatedField) : FieldOp Operand Element → Bool
  | .constant l => l.value.isOk
  | .ofNative a =>
      match E.native.accept a with
      | .done s => s.val < 2 ^ E.totalBits
      | _ => false
  | .select cond _ _ =>
      match E.native.accept cond with
      | .done s => s.val ≤ 1
      | _ => false
  | .canonical _ _ | .remainder _ _ _ | .paddingMultiple _ => false
  | _ => true

/-- All references of a program can be looked up, and the arguments of its
operations are of the right kind when the run gets to them. -/
def FieldProgram.isAdmissible (E : EmulatedField) : FieldProgram → Memory → Bool
  | [], _ => true
  | op :: p, M =>
      match op.resolve M.operand M.element with
      | .error _ => false
      | .ok call =>
          call.isAdmissible E &&
            match (call.circuit E).run.result with
            | .ok v => FieldProgram.isAdmissible E p (M.store v)
            | .error _ => true

/-! ### One step -/

/-- Where a computation succeeds, its value is related to the given one. -/
def onSuccess : MonadRelation (Except Fault) Id where
  Rel R x y := ∀ a, x = .ok a → R a y
  pure h a ha := Except.ok.inj ha ▸ h
  bind := by
    intro _ _ _ _ R S x y f g hx hf c hc
    cases x with
    | error fault => cases hc
    | ok a => exact hf a y (hx a rfl) c hc

/-- The elements among the arguments have the property. What is left of the
operation without its arguments does not matter. -/
def FieldOp.HasElements {ν β : Type} (P : β → Prop) (op : FieldOp ν β) : Prop :=
  ∃ kind : FieldOp Unit Unit, op.Related (fun _ _ => True) (fun a _ => P a) kind

theorem FieldOp.hasElements_of_resolve {ν β ν' β' : Type} {P : β' → Prop}
    {native : ν → Except Fault ν'} {element : β → Except Fault β'} {op : FieldOp ν β}
    {call : FieldOp ν' β'} (h : op.resolve native element = .ok call)
    (helement : ∀ i a, element i = .ok a → P a) : call.HasElements P := by
  refine ⟨op.resolve (m := Id) (fun _ => ()) fun _ => (), ?_⟩
  refine op.related_refl.resolve onSuccess ?_ ?_ call h
  · exact fun _ _ _ _ _ => trivial
  · exact fun i _ _ a ha => helement i a ha

section Step

variable {E : EmulatedField}

/-- The run of a call ends with a value whose elements all carry numbers. -/
def ReturnsCarried (E : EmulatedField) (c : Circuit Value) : Prop :=
  ∃ v, c.run.result = .ok v ∧ ∀ a ∈ v.elementResults, E.IsCarried a

theorem returnsCarried_element {c : Circuit Element} {a : Element} (h : c.run.result = .ok a)
    (ha : E.IsCarried a) : ReturnsCarried E (Value.element <$> c) := by
  rw [map_eq_pure_bind]
  refine ⟨.element a, (run_bind_of_ok h).1, ?_⟩
  simpa [Value.elementResults] using ha

theorem returnsCarried_constant {c : Circuit Element} {n : ℤ}
    (h : c.run.result = .ok (E.constant n)) : ReturnsCarried E (Value.element <$> c) :=
  returnsCarried_element h (E.encodes_constant n).isCarried

theorem returnsCarried_of_gives {c : Circuit Element} {blame : Log} {P : Element → Prop}
    (h : c.Gives .honest blame P) (hP : ∀ a, P a → E.IsCarried a) :
    ReturnsCarried E (Value.element <$> c) := by
  obtain ⟨a, ha, hc⟩ := h
  exact returnsCarried_element hc.result (hP a ha)

theorem returnsCarried_of_no_elements {c : Circuit Value} {v : Value} {blame : Log}
    (h : c.Determines .honest v blame) (hv : v.elementResults = []) : ReturnsCarried E c :=
  ⟨v, h.result, by simp [hv]⟩

theorem FieldOp.returnsCarried (hnative : E.native.order.Prime) {call : FieldOp Operand Element}
    (hargs : call.HasElements E.IsCarried) (hcall : call.isAdmissible E) :
    ReturnsCarried E (call.circuit E) := by
  obtain ⟨kind, hargs⟩ := hargs
  cases hargs with
  | constant l =>
      obtain ⟨n, hn⟩ : ∃ n, l.value = .ok n := exists_of_isOk hcall
      rw [FieldOp.circuit, hn, ofExcept_ok, map_pure]
      exact returnsCarried_constant (c := pure (E.constant n)) rfl
  | zero => exact returnsCarried_constant (c := pure E.zero) rfl
  | one => exact returnsCarried_constant (c := pure E.one) rfl
  | witness n => exact returnsCarried_constant (E.honest_witness n).result
  | @ofNative a _ _ =>
      cases haccept : E.native.accept a with
      | done s =>
          rw [FieldOp.isAdmissible, haccept] at hcall
          have hlift := E.native.accept_eq_lift haccept
          have hnarrow : (E.ofNative a).Determines .honest _ _ := E.determines_ofNative hlift
          exact returnsCarried_element hnarrow.result
            (E.encodes_narrow (of_decide_eq_true hcall)).isCarried
      | _ => simp [FieldOp.isAdmissible, haccept] at hcall
  | canonical _ _ => simp [FieldOp.isAdmissible] at hcall
  | remainder _ _ _ => simp [FieldOp.isAdmissible] at hcall
  | paddingMultiple _ => simp [FieldOp.isAdmissible] at hcall
  | reduce ha =>
      obtain ⟨v, hv⟩ := ha
      have hreduce : (E.reduce _).Determines .honest _ _ := hv.determines_reduce
      exact returnsCarried_constant hreduce.result
  | add ha hb =>
      obtain ⟨v, hv⟩ := ha
      obtain ⟨w, hw⟩ := hb
      exact returnsCarried_of_gives (hv.gives_add hw) fun _ h => ⟨_, h⟩
  | neg ha =>
      obtain ⟨v, hv⟩ := ha
      exact returnsCarried_of_gives hv.gives_neg fun _ h => ⟨_, h⟩
  | sub ha hb =>
      obtain ⟨v, hv⟩ := ha
      obtain ⟨w, hw⟩ := hb
      exact returnsCarried_of_gives (hv.gives_sub hw) fun _ h => ⟨_, h⟩
  | mul ha hb =>
      obtain ⟨v, hv⟩ := ha
      obtain ⟨w, hw⟩ := hb
      exact returnsCarried_constant (hv.honest_mul hw).result
  | inverse ha =>
      obtain ⟨v, hv⟩ := ha
      obtain ⟨n, hn⟩ := Encodes.exists_inverse ⟨v, hv, rfl⟩
      exact returnsCarried_constant hn
  | @select cond _ a _ b _ _ ha hb =>
      obtain ⟨v, hv⟩ := ha
      obtain ⟨w, hw⟩ := hb
      cases haccept : E.native.accept cond with
      | done s =>
          rw [FieldOp.isAdmissible, haccept] at hcall
          have hbit : s.val = (decide (s.val = 1)).toNat := by
            have := of_decide_eq_true hcall
            interval_cases s.val <;> rfl
          have hlift := E.native.accept_eq_lift haccept
          rw [hbit] at hlift
          exact returnsCarried_of_gives (Encodes.gives_select hlift ⟨v, hv, rfl⟩ ⟨w, hw, rfl⟩)
            fun _ h => h.isCarried
      | _ => simp [FieldOp.isAdmissible, haccept] at hcall
  | isZero ha =>
      obtain ⟨v, hv⟩ := ha
      have hflag : (E.isZero _).Determines .honest _ [] :=
        Encodes.determines_isZero hnative ⟨v, hv, rfl⟩
      exact returnsCarried_of_no_elements (hflag.map _) rfl
  | assertEqual ha hb label =>
      obtain ⟨v, hv⟩ := ha
      obtain ⟨w, hw⟩ := hb
      have hassert : (E.assertEqual _ _ label).Determines .honest () _ :=
        Encodes.determines_assertEqual ⟨v, hv, rfl⟩ ⟨w, hw, rfl⟩ label
      exact returnsCarried_of_no_elements (hassert.map _) rfl
  | toBits ha =>
      obtain ⟨v, hv⟩ := ha
      have hbits : (E.toBits _).Determines .honest _ [] := Encodes.determines_toBits ⟨v, hv, rfl⟩
      exact returnsCarried_of_no_elements (hbits.map _) (Value.elementResults_scalars _)

end Step

/-! ### Whole runs -/

namespace FieldProgram

variable {E : EmulatedField} {p : FieldProgram}

/-- A run keeps the elements of its memory carried. -/
theorem exists_run_carried (hnative : E.native.order.Prime) {M : Memory}
    (hM : ∀ a ∈ M.elements, E.IsCarried a) (hp : p.isAdmissible E M) :
    ∃ M', (p.circuit E M).run.result = .ok M' ∧ ∀ a ∈ M'.elements, E.IsCarried a := by
  induction p generalizing M with
  | nil => exact ⟨M, rfl, hM⟩
  | cons op p ih =>
      rw [isAdmissible] at hp
      split at hp
      · cases hp
      · next call hcall =>
          rw [Bool.and_eq_true] at hp
          have hargs : call.HasElements E.IsCarried :=
            FieldOp.hasElements_of_resolve hcall fun i a ha => hM a (Memory.mem_of_element ha)
          obtain ⟨v, hv, helements⟩ := FieldOp.returnsCarried hnative hargs hp.1
          have hstep : (op.step E M).run.result = .ok (M.store v) := by
            rw [FieldOp.step, hcall, ofExcept_ok, pure_bind]
            exact (run_bind_of_ok hv).1
          rw [hv] at hp
          rw [circuit, (run_bind_of_ok hstep).1]
          exact ih (List.forall_mem_append.2 ⟨hM, helements⟩) hp.2

/-- After any program on admissible arguments, every element that it has returned
represents a number, and whatever is added or subtracted next are the integers
themselves. -/
theorem run_represents_numbers (hnative : E.native.order.Prime) (hp : p.isAdmissible E .empty) :
    ∃ M, (p.circuit E .empty).run.result = .ok M ∧
      (∀ a ∈ M.elements, ∃ v, E.Represents a v) ∧
      ∀ a ∈ M.elements, ∀ b ∈ M.elements, ∀ v w, E.Represents a v → E.Represents b w →
        E.AddsExactly a b v w := by
  obtain ⟨M, hM, hcarried⟩ := exists_run_carried hnative (by simp [Memory.empty]) hp
  refine ⟨M, hM, fun a ha => ?_, fun a ha b hb v w hv hw => ?_⟩
  · obtain ⟨v, hv⟩ := hcarried a ha
    exact ⟨v, hv.represents⟩
  · obtain ⟨v', hv'⟩ := hcarried a ha
    obtain ⟨w', hw'⟩ := hcarried b hb
    obtain rfl := hv.eq_of_carries hv'
    obtain rfl := hw.eq_of_carries hw'
    exact hv'.addsExactly hw'

/-- Residues modulo 31 in a native field that leaves a budget of a single bit. -/
def narrowEmulation : EmulatedField :=
  ⟨⟨8209, by decide⟩, 31, 1, 5, by decide, Nat.one_pos, by decide, by decide, by decide⟩

/-- A difference that exceeds the budget, its negative, and both in a selection, a
product that wraps around, an inverse and a reduction. -/
def beyondBudget : FieldProgram :=
  [.constant (.int 30), .zero, .sub 0 1, .neg 2, .ofNative (.int 17), .select (.int 1) 2 4,
    .mul 2 5, .inverse 3, .add 5 6, .reduce 8, .witness (-3), .select (.int 0) 9 10]

theorem run_beyondBudget :
    narrowEmulation.native.order.Prime ∧ beyondBudget.isAdmissible narrowEmulation .empty ∧
      ∃ M, (beyondBudget.circuit narrowEmulation .empty).run.result = .ok M ∧
        ∀ a ∈ M.elements, ∃ v, narrowEmulation.Represents a v := by
  have hprime : Nat.Prime 8209 := by norm_num
  have hadmissible : beyondBudget.isAdmissible narrowEmulation .empty := by decide +kernel
  obtain ⟨M, hM, helements, -⟩ := run_represents_numbers hprime hadmissible
  exact ⟨hprime, hadmissible, M, hM, helements⟩

end FieldProgram

end NonNative
