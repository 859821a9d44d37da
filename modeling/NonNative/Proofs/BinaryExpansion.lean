import NonNative.Proofs.Gates

/-!
Binary expansions of native values, at every width. An honest prover answers with the
lowest bits of the value, so the answers are boolean at any width, and what they recompose
to is what is left of the value there. The one equality on top of them tells whether
anything was cut off. Conversely, bits that stand for a number below the order survive
recomposition and decomposition unchanged.
-/

namespace NonNative

/-- The number that a list of bits stands for: each bit has the weight of its position. -/
def bitSum (bs : List Scalar) : ℕ := ∑ i : Fin bs.length, (bs.get i).val * 2 ^ (i : ℕ)

theorem bitSum_eq_ofDigits (bs : List Scalar) : bitSum bs = ofDigits 1 (bs.map (·.val)) := by
  have hmap : bs.map (·.val) = List.ofFn fun i => (bs.get i).val := by
    conv_lhs => rw [← List.ofFn_get bs, List.map_ofFn]
    rfl
  rw [hmap, ofDigits_ofFn, bitSum]
  simp only [Nat.one_mul]

namespace NativeField

open Circuit

variable (F : NativeField)

/-! ### The bits of a value -/

/-- The lowest bits of a number as native values. -/
def expansion (n v : ℕ) : List Scalar := (NonNative.bits n v).map fun (b : ℕ) => F.lift b

theorem length_expansion (n v : ℕ) : (F.expansion n v).length = n := by
  rw [expansion, List.length_map, NonNative.bits, digits_length]

theorem boolean_of_mem_expansion {n v : ℕ} {b : Scalar} (hb : b ∈ F.expansion n v) :
    b.order = F.order ∧ (b.val = 0 ∨ b.val = 1) := by
  obtain ⟨d, hd, rfl⟩ := List.mem_map.1 hb
  have hlt := bits_lt_two hd
  refine ⟨rfl, ?_⟩
  rw [F.lift_val_of_lt (F.bit_lt_order hd)]
  omega

theorem bitSum_expansion (n v : ℕ) : bitSum (F.expansion n v) = v % 2 ^ n := by
  rw [bitSum_eq_ofDigits, expansion, F.map_val_lift fun _ => F.bit_lt_order, NonNative.bits,
    ofDigits_digits, Nat.one_mul]

/-- Bits are the expansion of the number that they stand for. -/
theorem expansion_bitSum {bs : List Scalar}
    (hbs : ∀ b ∈ bs, b.order = F.order ∧ (b.val = 0 ∨ b.val = 1)) :
    F.expansion bs.length (bitSum bs) = bs := by
  have hsmall : ∀ d ∈ bs.map (·.val), d < 2 ^ 1 := by
    intro d hd
    obtain ⟨b, hb, rfl⟩ := List.mem_map.1 hd
    have := (hbs b hb).2
    omega
  have hdigits := digits_ofDigits hsmall
  rw [List.length_map, ← bitSum_eq_ofDigits] at hdigits
  rw [expansion, NonNative.bits, hdigits, List.map_map]
  refine (List.map_congr_left fun b hb => ?_).trans (List.map_id bs)
  exact F.lift_val_self (hbs b hb).1

/-! ### Runs -/

/-- The honest run at any width. -/
theorem run_toBits {a : Operand} {v : ℕ} (hv : v < F.order)
    (ha : F.accept a = pure (F.lift v)) (width : ℤ) :
    let bs := F.expansion width.toNat v
    (F.toBits a width).run =
      ⟨(bs.map fun b => Constraint.boolean b "to_binary") ++
        [.equal (F.lift (bitSum bs)) (F.lift v) "to_binary"], [], .ok bs⟩ := by
  intro bs
  have hbits : ∀ b ∈ NonNative.bits width.toNat v, b < F.order := fun _ => F.bit_lt_order
  have hsum : bitSum bs = ofDigits 1 (NonNative.bits width.toNat v) := by
    rw [bitSum_eq_ofDigits]
    exact congrArg (ofDigits 1) (F.map_val_lift hbits)
  have hbooleans : bs.map (fun b => Constraint.boolean b "to_binary") =
      (NonNative.bits width.toNat v).map fun (b : ℕ) => .boolean (F.lift b) "to_binary" :=
    List.map_map
  rw [toBits, ha, pure_bind, F.lift_val_of_lt hv, run_hints_bind, F.toBits_body hbits,
    hbooleans, hsum, ← List.forM_map, run_forM_assert_bind]
  rfl

section Recomposition

variable {os : List Operand} {bs : List Scalar}
  (h : List.Forall₂ (fun o b => F.accept o = .done b) os bs)

include h

theorem order_eq_of_accepts : ∀ b ∈ bs, b.order = F.order := by
  induction h with
  | nil => exact List.forall_mem_nil _
  | cons hhead _ ih => exact List.forall_mem_cons.2 ⟨F.order_eq_of_accept hhead, ih⟩

theorem ofBits_eq :
    F.ofBits os = pure (F.lift (bitSum bs)) := by
  have haccept : os.mapM F.accept = pure bs := by
    induction h with
    | nil => rfl
    | cons hhead _ ih => rw [List.mapM_cons, hhead, ih]; rfl
  rw [ofBits, recompose, haccept, pure_bind, bitSum_eq_ofDigits]

end Recomposition

/-- Decomposition and recomposition are exact. At any width the bits of a value stand for
its lowest part, they are constrained to be boolean and are, and the remaining constraint
holds exactly if the value fits; a negative width counts as zero. Bits that stand for a
number below the order are returned by the decomposition of what they recompose to. -/
theorem toBits_ofBits_exact :
    (∀ (a : Operand) (s : Scalar), F.accept a = .done s → ∀ width : ℤ, ∃ bs : List Scalar,
      let booleans := bs.map fun b => Constraint.boolean b "to_binary"
      let recomposition := Constraint.equal (F.lift (bitSum bs)) s "to_binary"
      (F.toBits a width).run = ⟨booleans ++ [recomposition], [], .ok bs⟩ ∧
      (bs.length : ℤ) = max width 0 ∧
      (∀ b ∈ bs, b.order = F.order ∧ (b.val = 0 ∨ b.val = 1)) ∧
      bitSum bs = s.val % 2 ^ width.toNat ∧
      (∀ k ∈ booleans, k.Holds) ∧
      (recomposition.Holds ↔ s.val < 2 ^ width.toNat)) ∧
    ∀ (os : List Operand) (bs : List Scalar),
      List.Forall₂ (fun o b => F.accept o = .done b) os bs →
      (∀ b ∈ bs, b.val = 0 ∨ b.val = 1) → bitSum bs < F.order →
      ∃ x : Scalar, (F.ofBits os).run = ⟨[], [], .ok x⟩ ∧ x.val = bitSum bs ∧
        (F.toBits (.scalar x) os.length).run.result = .ok bs ∧
        ∀ k ∈ (F.toBits (.scalar x) os.length).run.constraints, k.Holds := by
  have hholds {bs : List Scalar} (hbs : ∀ b ∈ bs, b.val = 0 ∨ b.val = 1) :
      ∀ k ∈ bs.map (fun b => Constraint.boolean b "to_binary"), k.Holds := by
    intro k hk
    obtain ⟨b, hb, rfl⟩ := List.mem_map.1 hk
    exact Constraint.boolean_holds_iff.2 (hbs b hb)
  constructor
  · intro a s haccept width
    have hv := F.val_lt_of_accept haccept
    have hs : F.lift s.val = s := F.lift_val_self (F.order_eq_of_accept haccept)
    have hrun := F.run_toBits hv (F.accept_eq_lift haccept) width
    have hexpansion : ∀ b ∈ F.expansion width.toNat s.val, b.order = F.order ∧ _ :=
      fun b hb => F.boolean_of_mem_expansion hb
    refine ⟨F.expansion width.toNat s.val, ?_, ?_, hexpansion, F.bitSum_expansion _ _,
      hholds fun b hb => (hexpansion b hb).2, ?_⟩
    · rw [hrun, hs]
    · rw [length_expansion, Int.toNat_eq_max]
    · rw [bitSum_expansion, ← Constraint.equal_lowest_holds_iff F hv width.toNat, hs]
  · intro os bs haccept hboolean hlt
    have hnative : ∀ b ∈ bs, b.order = F.order ∧ (b.val = 0 ∨ b.val = 1) := fun b hb =>
      ⟨F.order_eq_of_accepts haccept b hb, hboolean b hb⟩
    have hval := F.lift_val_of_lt hlt
    have hrun := F.run_toBits hlt (F.accept_lift (bitSum bs)) os.length
    rw [Int.toNat_natCast, haccept.length_eq, F.expansion_bitSum hnative] at hrun
    refine ⟨F.lift (bitSum bs), ?_, hval, ?_, ?_⟩
    · rw [F.ofBits_eq haccept]
      rfl
    · rw [haccept.length_eq, hrun]
    · rw [haccept.length_eq, hrun]
      intro k hk
      rcases List.mem_append.1 hk with hk | hk
      · exact hholds hboolean k hk
      · obtain rfl := List.mem_singleton.1 hk
        exact Constraint.equal_holds_iff.2 rfl

/-- The largest value cut to two bits, and three bits given as operands of two sorts. -/
theorem toBits_ofBits_bn254 :
    (∃ bs : List Scalar, (bn254.toBits (.int (-1)) 2).run.result = .ok bs ∧ bs.length = 2 ∧
      bitSum bs = 0 ∧ ¬ ∀ k ∈ (bn254.toBits (.int (-1)) 2).run.constraints, k.Holds) ∧
    ∃ x : Scalar, (bn254.ofBits [.truth true, .int 0, .int 1]).run = ⟨[], [], .ok x⟩ ∧
      x.val = 5 ∧
      (bn254.toBits (.scalar x) 3).run.result = .ok [bn254.lift 1, bn254.lift 0, bn254.lift 1] := by
  obtain ⟨hcut, hwhole⟩ := bn254.toBits_ofBits_exact
  constructor
  · obtain ⟨bs, hrun, hlength, -, hsum, -, hfits⟩ := hcut (.int (-1)) (bn254.lift (-1)) rfl 2
    refine ⟨bs, by rw [hrun], by exact_mod_cast hlength, hsum.trans (by decide), fun hall => ?_⟩
    rw [hrun] at hall
    have hlast := hall _ (List.mem_append_right _ List.mem_cons_self)
    exact absurd (hfits.1 hlast) (by decide)
  · obtain ⟨x, hrun, hval, hresult, -⟩ :=
      hwhole [.truth true, .int 0, .int 1] [bn254.lift 1, bn254.lift 0, bn254.lift 1]
        (.cons rfl (.cons rfl (.cons rfl .nil))) (by decide) (by decide)
    exact ⟨x, hrun, hval.trans (by decide), hresult⟩

end NativeField

end NonNative
