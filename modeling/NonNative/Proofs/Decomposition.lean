import NonNative.Proofs.ChipGadgets

/-!
Which bits the constraints of a decomposition accept. A prover that answers with
arbitrary values passes exactly with the bits of a number that has the same
class as the decomposed value. Below the width of the order there is at most one
such number. At the full width there is a second one, the value plus the order,
unless that sum needs one more bit; so the bits of small values, and the limbs
packed from them, are left open.
-/

namespace NonNative

/-! ### Results that a prover can reach -/

namespace Circuit

variable {α β : Type}

/-- Some answers of the prover violate no constraint and lead to the result. -/
def Accepts (c : Circuit α) (a : α) : Prop :=
  ∃ answers, (∀ k ∈ (c.runWith answers).constraints, k.Holds) ∧
    (c.runWith answers).result = .ok a

theorem accepts_done {a b : α} : (Circuit.done a).Accepts b ↔ b = a := by
  simp [Accepts, runWith, eq_comm]

theorem not_accepts_refuse {fault : Fault} {a : α} : ¬ (Circuit.refuse fault).Accepts a := by
  simp [Accepts, runWith]

theorem accepts_record {k : Constraint} {rest : Circuit α} {a : α} :
    (Circuit.record k rest).Accepts a ↔ k.Holds ∧ rest.Accepts a := by
  simp only [Accepts, runWith, List.forall_mem_cons]
  constructor
  · rintro ⟨answers, ⟨hk, hrest⟩, hresult⟩
    exact ⟨hk, answers, hrest, hresult⟩
  · rintro ⟨hk, answers, hrest, hresult⟩
    exact ⟨answers, ⟨hk, hrest⟩, hresult⟩

theorem accepts_say {message : Message} {rest : Circuit α} {a : α} :
    (Circuit.say message rest).Accepts a ↔ rest.Accepts a := Iff.rfl

theorem accepts_hint {honest : ℤ} {rest : ℤ → Circuit α} {a : α} :
    (Circuit.hint honest rest).Accepts a ↔ ∃ answer, (rest answer).Accepts a := by
  constructor
  · rintro ⟨answers, hall, hresult⟩
    exact ⟨answers 0, _, hall, hresult⟩
  · rintro ⟨answer, answers, hall, hresult⟩
    refine ⟨fun | 0 => answer | i + 1 => answers i, ?_, ?_⟩
    · exact hall
    · exact hresult

theorem accepts_bind {c : Circuit α} {f : α → Circuit β} {b : β} :
    (c >>= f).Accepts b ↔ ∃ a, c.Accepts a ∧ (f a).Accepts b := by
  rw [bind_eq]
  induction c with
  | done a => simp [bind, accepts_done]
  | refuse fault => simp [bind, not_accepts_refuse]
  | record k rest ih => simp only [bind, accepts_record, ih, and_assoc, exists_and_left]
  | say message rest ih => simp only [bind, accepts_say, ih]
  | hint honest rest ih =>
      simp only [bind, accepts_hint, ih]
      constructor
      · rintro ⟨answer, a, ha, hb⟩
        exact ⟨a, ⟨answer, ha⟩, hb⟩
      · rintro ⟨a, ⟨answer, ha⟩, hb⟩
        exact ⟨answer, a, ha, hb⟩

/-- The answers of the honest prover are among all answers. -/
theorem accepts_of_run {c : Circuit α} {a : α} (hall : ∀ k ∈ c.run.constraints, k.Holds)
    (hresult : c.run.result = .ok a) : c.Accepts a := by
  induction c with
  | done b => exact accepts_done.2 (Except.ok.inj hresult).symm
  | refuse fault => cases hresult
  | record k rest ih =>
      rw [run, List.forall_mem_cons] at hall
      exact accepts_record.2 ⟨hall.1, ih hall.2 hresult⟩
  | say message rest ih => exact accepts_say.2 (ih hall hresult)
  | hint honest rest ih => exact accepts_hint.2 ⟨honest, ih honest hall hresult⟩

theorem Determines.accepts_iff {c : Circuit α} {a b : α} (h : c.Determines .arbitrary a []) :
    c.Accepts b ↔ b = a := by
  constructor
  · rintro ⟨answers, hall, hresult⟩
    obtain ⟨a', ha', rfl, -⟩ := (h.forced rfl).of_runWith answers hall
    exact Except.ok.inj (hresult.symm.trans ha')
  · rintro rfl
    exact accepts_of_run (Log.unsatisfied_eq_nil_iff.1 h.unsatisfied) h.result

theorem accepts_assert {k : Constraint} {u : Unit} : (Circuit.assert k).Accepts u ↔ k.Holds := by
  rw [assert, accepts_record, accepts_done]
  simp

theorem accepts_forM_assert {k : α → Constraint} {l : List α} {u : PUnit} :
    (forM l fun a => Circuit.assert (k a)).Accepts u ↔ ∀ a ∈ l, (k a).Holds := by
  induction l with
  | nil => simp [pure_eq, accepts_done]
  | cons a l ih => simp [accepts_bind, accepts_assert, ih]

end Circuit

namespace NativeField

variable {F : NativeField}

open Circuit

/-! ### Bits -/

theorem accepts_hints {ns : List ℕ} {ss : List Scalar} :
    (F.hints ns).Accepts ss ↔ ∃ vs : List ℕ, vs.length = ns.length ∧
      (∀ v ∈ vs, v < F.order) ∧ ss = vs.map fun (v : ℕ) => F.lift v := by
  constructor
  · rintro ⟨answers, hall, hresult⟩
    obtain ⟨_, hss, hvs⟩ := (F.forces_hints ns).of_runWith answers hall
    rwa [Except.ok.inj (hresult.symm.trans hss)]
  · rintro ⟨vs, hlength, -, rfl⟩
    induction vs generalizing ns with
    | nil =>
        obtain rfl : ns = [] := List.length_eq_zero_iff.1 hlength.symm
        exact accepts_done.2 rfl
    | cons v vs ih =>
        obtain ⟨n, ns, rfl⟩ := List.exists_cons_of_length_eq_add_one hlength.symm
        have hhead : (F.hint n).Accepts (F.lift v) := accepts_hint.2 ⟨v, accepts_done.2 rfl⟩
        have htail := ih (Nat.succ.inj hlength)
        rw [hints, List.mapM_cons]
        exact accepts_bind.2 ⟨_, hhead, accepts_bind.2 ⟨_, htail, accepts_done.2 rfl⟩⟩

/-- What the constraints say about bits that the prover has chosen. -/
theorem accepts_chosenBits {vs : List ℕ} (hvs : ∀ b ∈ vs, b < F.order) {v : ℕ}
    {bs : List Scalar} :
    (do
      (vs.map fun (b : ℕ) => F.lift b).forM fun b => F.assertBoolean (.scalar b) "to_binary"
      let sum ← F.ofBits ((vs.map fun (b : ℕ) => F.lift b).map .scalar)
      F.assertEqual (.scalar sum) (.scalar (F.lift v)) "to_binary"
      return vs.map fun (b : ℕ) => F.lift b).Accepts bs ↔
    (∀ b ∈ vs, b < 2 ^ 1) ∧ ofDigits 1 vs ≡ v [MOD F.order] ∧
      bs = vs.map fun (b : ℕ) => F.lift b := by
  have hboolean : (∀ b ∈ vs, (F.lift b).val = 0 ∨ (F.lift b).val = 1) ↔ ∀ b ∈ vs, b < 2 ^ 1 := by
    refine forall₂_congr fun b hb => ?_
    rw [F.lift_val_of_lt (hvs b hb)]
    omega
  rw [F.toBits_body hvs]
  simp only [accepts_bind, accepts_forM_assert, accepts_assert, pure_eq, accepts_done,
    Constraint.equal_holds_iff, Constraint.boolean_holds_iff, hboolean, val_eq_val_iff,
    lift_eq_lift_iff, Int.natCast_modEq_iff, exists_const]

/-- The accepted bits are those of the numbers of the right width in the class of
the value. -/
theorem accepts_toBits {a : Operand} {v : ℕ} (ha : F.accept a = pure (F.lift v)) {n : ℕ}
    {bs : List Scalar} :
    (F.toBits a n).Accepts bs ↔ ∃ y < 2 ^ n, y ≡ v [MOD F.order] ∧
      bs = (NonNative.bits n y).map fun (b : ℕ) => F.lift b := by
  rw [toBits, ha, pure_bind, accepts_bind]
  simp only [accepts_hints, NonNative.bits, digits_length, Int.toNat_natCast]
  constructor
  · rintro ⟨_, ⟨vs, hlength, hvs, rfl⟩, hbody⟩
    obtain ⟨hsmall, hsum, rfl⟩ := (accepts_chosenBits hvs).1 hbody
    have hlt : ofDigits 1 vs < 2 ^ n := by simpa [hlength] using ofDigits_lt hsmall
    exact ⟨ofDigits 1 vs, hlt, hsum, by rw [← hlength, digits_ofDigits hsmall]⟩
  · rintro ⟨y, hy, hmod, rfl⟩
    have hbits : ∀ b ∈ digits 1 n y, b < F.order := fun _ => F.bit_lt_order
    refine ⟨_, ⟨digits 1 n y, digits_length 1 n y, hbits, rfl⟩, ?_⟩
    rw [accepts_chosenBits hbits, ← NonNative.bits, ofDigits_bits hy]
    exact ⟨fun _ => digits_lt, hmod, rfl⟩

/-- Below the width of the order, and up to the next number of its class, a value
is the only number of its class. -/
theorem eq_of_class {v n y : ℕ} (hv : v < F.order) (hn : n ≤ F.bits)
    (h : n < F.bits ∨ 2 ^ F.bits ≤ v + F.order) (hy : y < 2 ^ n) (hmod : y ≡ v [MOD F.order]) :
    y = v := by
  have hlt : y < v + F.order := by
    rcases h with hn | hroom
    · have horder : 2 ^ n ≤ F.order := two_pow_le_of_lt_bitLength hn
      omega
    · have := Nat.pow_le_pow_right Nat.two_pos hn
      omega
  have hrest : y % F.order = v := Eq.trans hmod (Nat.mod_eq_of_lt hv)
  have hsplit := Nat.div_add_mod y F.order
  rcases Nat.eq_zero_or_pos (y / F.order) with hzero | hpos
  · rw [hzero, Nat.mul_zero, Nat.zero_add] at hsplit
    exact hsplit.symm.trans hrest
  · have := Nat.le_mul_of_pos_right F.order hpos
    omega

theorem map_lift_bits_inj {n x y : ℕ} (hx : x < 2 ^ n) (hy : y < 2 ^ n)
    (h : (NonNative.bits n x).map (fun (b : ℕ) => F.lift b) =
      (NonNative.bits n y).map fun (b : ℕ) => F.lift b) : x = y := by
  have hval := congrArg (List.map (·.val)) h
  rw [F.map_val_lift fun _ => F.bit_lt_order, F.map_val_lift fun _ => F.bit_lt_order] at hval
  rw [← ofDigits_bits hx, hval, ofDigits_bits hy]

theorem unique_bits_iff {a : Operand} {v n : ℕ} (ha : F.accept a = pure (F.lift v))
    (hv : v < F.order) (hn : n ≤ F.bits) :
    (∀ bs, (F.toBits a n).Accepts bs →
        bs = (NonNative.bits n v).map fun (b : ℕ) => F.lift b) ↔
      n < F.bits ∨ 2 ^ F.bits ≤ v + F.order := by
  constructor
  · intro h
    by_contra hopen
    obtain ⟨hfull, hroom⟩ := not_or.1 hopen
    obtain rfl : n = F.bits := le_antisymm hn (not_lt.1 hfull)
    -- the value plus the order has the same class and fits as well
    have hfits : v + F.order < 2 ^ F.bits := not_le.1 hroom
    have hbits := h _ ((accepts_toBits ha).2 ⟨_, hfits, Nat.add_mod_right v F.order, rfl⟩)
    have hsame := map_lift_bits_inj hfits (by omega) hbits
    have := F.order_pos
    omega
  · intro h bs hbs
    obtain ⟨y, hy, hmod, rfl⟩ := (accepts_toBits ha).1 hbs
    rw [eq_of_class hv hn h hy hmod]

end NativeField

/-! ### Limbs -/

namespace Chip

variable {C : Chip}

open Circuit

/-- The accepted limbs are those of the numbers of the full width in the class of
the value. -/
theorem accepts_unpack {a : Operand} {v : ℕ} (ha : C.native.accept a = pure (C.native.lift v))
    {l : List Element} :
    (C.unpack a).Accepts l ↔ ∃ y < 2 ^ C.native.bits, y ≡ v [MOD C.native.order] ∧
      l = (digits BabyBear.limbBits BabyBear.packing y).map
        fun (d : ℕ) => ⟨.scalar (C.native.lift d), 0, []⟩ := by
  rw [unpack, accepts_bind]
  simp only [NativeField.accepts_toBits ha]
  constructor
  · rintro ⟨_, ⟨y, hy, hmod, rfl⟩, hl⟩
    exact ⟨y, hy, hmod, (determines_pack hy _).accepts_iff.1 hl⟩
  · rintro ⟨y, hy, hmod, rfl⟩
    exact ⟨_, ⟨y, hy, hmod, rfl⟩, (determines_pack hy _).accepts_iff.2 rfl⟩

/-- Limbs with the same values hold the same lowest bits. -/
theorem mod_eq_of_limbs_eq {x y : ℕ}
    (h : ((digits BabyBear.limbBits BabyBear.packing x).map fun (d : ℕ) =>
        (⟨.scalar (C.native.lift d), 0, []⟩ : Element)) =
      (digits BabyBear.limbBits BabyBear.packing y).map fun (d : ℕ) =>
        ⟨.scalar (C.native.lift d), 0, []⟩) :
    x % 2 ^ BabyBear.limbBits = y % 2 ^ BabyBear.limbBits := by
  have hlt (z : ℕ) : z % 2 ^ BabyBear.limbBits < C.native.order := by
    have hwide : 2 * 2 ^ BabyBear.limbBits ≤ C.native.order := C.field.two_pow_totalBits_double_le
    have := Nat.mod_lt z (Nat.two_pow_pos BabyBear.limbBits)
    omega
  simp only [digits_succ, List.map_cons, List.cons.injEq, Element.mk.injEq,
    Operand.scalar.injEq] at h
  rw [← C.native.lift_val_of_lt (hlt x), h.1.1, C.native.lift_val_of_lt (hlt y)]

theorem order_odd (hprime : C.native.order.Prime) : C.native.order % 2 = 1 := by
  have hwide : 2 * 2 ^ 32 ≤ C.native.order := C.field.two_pow_totalBits_double_le
  exact hprime.eq_two_or_odd.resolve_left (by omega)

theorem unique_limbs_iff (hprime : C.native.order.Prime) {a : Operand} {v : ℕ}
    (ha : C.native.accept a = pure (C.native.lift v)) (hv : v < C.native.order) :
    (∀ l l', (C.unpack a).Accepts l → (C.unpack a).Accepts l' → l = l') ↔
      2 ^ C.native.bits ≤ v + C.native.order := by
  constructor
  · intro h
    by_contra hroom
    have hfits : v + C.native.order < 2 ^ C.native.bits := not_le.1 hroom
    have hlimbs := h _ _
      ((accepts_unpack ha).2 ⟨_, hfits, Nat.add_mod_right v C.native.order, rfl⟩)
      ((accepts_unpack ha).2 ⟨v, by omega, rfl, rfl⟩)
    -- the two numbers differ in their lowest bit
    have hlow : (v + C.native.order) % 2 ^ BabyBear.limbBits = v % 2 ^ BabyBear.limbBits :=
      mod_eq_of_limbs_eq hlimbs
    have hodd := order_odd hprime
    rw [BabyBear.limbBits] at hlow
    omega
  · intro h l l' hl hl'
    obtain ⟨y, hy, hmod, rfl⟩ := (accepts_unpack ha).1 hl
    obtain ⟨y', hy', hmod', rfl⟩ := (accepts_unpack ha).1 hl'
    rw [NativeField.eq_of_class hv le_rfl (.inr h) hy hmod,
      NativeField.eq_of_class hv le_rfl (.inr h) hy' hmod']

end Chip

/-- What the constraints of a decomposition leave to the prover. -/
theorem bits_determined_iff (F : NativeField) (hprime : F.order.Prime) {a : Operand} {s : Scalar}
    (ha : F.accept a = .done s) :
    (∀ (n : ℕ) (bs : List Scalar), (F.toBits a n).Accepts bs ↔
      ∃ y < 2 ^ n, y ≡ s.val [MOD F.order] ∧ bs = (bits n y).map fun (b : ℕ) => F.lift b) ∧
    (∀ n ≤ F.bits, (∀ bs, (F.toBits a n).Accepts bs →
        bs = (bits n s.val).map fun (b : ℕ) => F.lift b) ↔
      n < F.bits ∨ 2 ^ F.bits ≤ s.val + F.order) ∧
    ∀ C : Chip, C.native = F →
      ((∀ l l', (C.unpack a).Accepts l → (C.unpack a).Accepts l' → l = l') ↔
        2 ^ F.bits ≤ s.val + F.order) := by
  have hlift : F.accept a = pure (F.lift s.val) := F.accept_eq_lift ha
  have hs : F.lift s.val = s := Circuit.done.inj (hlift.symm.trans ha)
  have hv : s.val < F.order := by
    rw [← hs]
    exact F.lift_val_lt _
  refine ⟨fun n bs => NativeField.accepts_toBits hlift,
    fun n hn => NativeField.unique_bits_iff hlift hv hn, ?_⟩
  rintro C rfl
  exact Chip.unique_limbs_iff hprime hlift hv

theorem bits_determined_bn254 :
    (∀ bs, (bn254.toBits (.int 0) 253).Accepts bs →
      bs = (bits 253 0).map fun (b : ℕ) => bn254.lift b) ∧
    ¬ ∀ l l', (Chip.overBn254.unpack (.int 0)).Accepts l →
      (Chip.overBn254.unpack (.int 0)).Accepts l' → l = l' := by
  have h := bits_determined_iff bn254 bn254_prime (a := .int 0) rfl
  constructor
  · exact (h.2.1 253 (by decide)).2 (.inl (by decide))
  · rw [h.2.2 Chip.overBn254 rfl]
    decide

def fieldOfFive : NativeField := ⟨5, by decide⟩

/-- Zero has two decompositions, its own and that of the order. -/
theorem zero_accepts_order :
    (fieldOfFive.toBits (.int 0) fieldOfFive.bits).Accepts
      ([1, 0, 1].map fun (b : ℕ) => fieldOfFive.lift b) ∧
    ([1, 0, 1].map fun (b : ℕ) => fieldOfFive.lift b) ≠
      ((bits fieldOfFive.bits 0).map fun (b : ℕ) => fieldOfFive.lift b) ∧
    ∃ l l', (Chip.overBn254.unpack (.int 0)).Accepts l ∧
      (Chip.overBn254.unpack (.int 0)).Accepts l' ∧ l ≠ l' := by
  refine ⟨(NativeField.accepts_toBits rfl).2 ⟨5, by decide, by decide, by decide⟩, by decide, ?_⟩
  have hzero : Chip.overBn254.native.accept (.int 0) = pure (Chip.overBn254.native.lift (0 : ℕ)) :=
    rfl
  refine ⟨_, _, (Chip.accepts_unpack hzero).2 ⟨0, by decide, rfl, rfl⟩,
    (Chip.accepts_unpack hzero).2 ⟨bn254.order, by decide, by decide, rfl⟩, fun hlimbs => ?_⟩
  exact absurd (Chip.mod_eq_of_limbs_eq hlimbs) (by decide)

end NonNative
