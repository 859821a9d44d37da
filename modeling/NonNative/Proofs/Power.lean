import Mathlib.Data.List.Prime
import Mathlib.FieldTheory.Finite.Basic
import Mathlib.NumberTheory.LucasPrimality
import Mathlib.Tactic.NormNum.Prime
import NonNative.Number.Power
import NonNative.Native.Operand
import NonNative.Extension.BabyBear

/-!
Repeated squaring computes powers, and modulo a prime the power with exponent
`m - 2` is an inverse. The same powers certify primes: a number with a
generator of the expected order is prime, and both moduli in use have one.
-/

namespace NonNative

/-- The recursion keeps `b ^ e` modulo `m` as long as the exponent has at most
`steps` bits. -/
theorem powModSteps_eq (m b steps e : ℕ) (he : e < 2 ^ steps) :
    powModSteps m b steps e = b ^ e % m := by
  induction steps generalizing e with
  | zero =>
      have hzero : e = 0 := by simpa using he
      subst hzero
      simp [powModSteps]
  | succ steps ih =>
      have hhalf : e / 2 < 2 ^ steps := by
        rw [pow_succ] at he
        omega
      have hsquare : b ^ (e / 2) % m * (b ^ (e / 2) % m) % m = b ^ (2 * (e / 2)) % m := by
        rw [← Nat.mul_mod, two_mul, pow_add]
      simp only [powModSteps, ih _ hhalf, hsquare]
      split
      · next hodd =>
          rw [Nat.mul_mod_mod, ← pow_succ']
          congr 2
          omega
      · next heven =>
          congr 2
          omega

theorem powMod_eq (b e m : ℕ) : powMod b e m = b ^ e % m := by
  rw [powMod, powModSteps_eq _ _ _ _ Nat.lt_log2_self, ← Nat.pow_mod]

theorem cast_pow_eq_one_iff {m : ℕ} (hm : 2 ≤ m) (a e : ℕ) :
    (a : ZMod m) ^ e = 1 ↔ powMod a e m = 1 := by
  rw [powMod_eq, ← Nat.cast_pow, ← Nat.cast_one, ZMod.natCast_eq_natCast_iff',
    Nat.mod_eq_of_lt (by omega : 1 < m)]

theorem fermatInverse_lt {m : ℕ} (hm : 0 < m) (x : ℕ) : fermatInverse x m < m := by
  rw [fermatInverse, powMod_eq]
  split
  · exact hm
  · exact Nat.mod_lt _ hm

theorem fermatInverse_of_dvd {x m : ℕ} (h : m ∣ x) : fermatInverse x m = 0 :=
  if_pos (Nat.mod_eq_zero_of_dvd h)

theorem fermatInverse_mod (x m : ℕ) : fermatInverse (x % m) m = fermatInverse x m := by
  rw [fermatInverse, fermatInverse, powMod_eq, powMod_eq, Nat.mod_mod, ← Nat.pow_mod]

/-- For any modulus, the product with the supposed inverse is the power of Fermat's
theorem. -/
theorem mul_fermatInverse_modEq {m : ℕ} (hm : 2 ≤ m) (x : ℕ) :
    x * fermatInverse x m ≡ x ^ (m - 1) [MOD m] := by
  have hexponent : m - 1 = m - 2 + 1 := by omega
  rw [fermatInverse, powMod_eq, hexponent, pow_succ']
  split
  · next hx =>
      have hdvd : m ∣ x * x ^ (m - 2) := (Nat.dvd_of_mod_eq_zero hx).mul_right _
      exact (Nat.modEq_zero_iff_dvd.2 hdvd).symm
  · exact (Nat.mod_modEq _ _).mul_left _

theorem not_pow_modEq_one_of_dvd {m : ℕ} (hm : 2 ≤ m) {x : ℕ} (hdvd : m ∣ x) :
    ¬ x ^ (m - 1) ≡ 1 [MOD m] := by
  intro hone
  have hpow : m ∣ x ^ (m - 1) := hdvd.trans (dvd_pow_self x (by omega))
  have hle := Nat.le_of_dvd Nat.one_pos ((hone.dvd_iff dvd_rfl).1 hpow)
  omega

theorem pow_modEq_one_iff {m : ℕ} (hm : m.Prime) (x : ℕ) :
    x ^ (m - 1) ≡ 1 [MOD m] ↔ ¬ m ∣ x := by
  refine ⟨fun hone hdvd => not_pow_modEq_one_of_dvd hm.two_le hdvd hone, fun hdvd => ?_⟩
  rw [← Nat.totient_prime hm]
  exact Nat.ModEq.pow_totient (hm.coprime_iff_not_dvd.2 hdvd).symm

theorem fermatInverse_cast {m : ℕ} (hm : m.Prime) (x : ℕ) :
    (fermatInverse x m : ZMod m) = (x : ZMod m)⁻¹ := by
  have : Fact m.Prime := ⟨hm⟩
  by_cases hx : m ∣ x
  · simp [fermatInverse_of_dvd hx, (ZMod.natCast_eq_zero_iff x m).2 hx]
  · apply eq_inv_of_mul_eq_one_right
    have hone := (mul_fermatInverse_modEq hm.two_le x).trans ((pow_modEq_one_iff hm x).2 hx)
    simpa using (ZMod.natCast_eq_natCast_iff _ _ _).2 hone

/-- A number below which some residue has full order is prime. The factors of
`p - 1` are listed with repetition. -/
theorem prime_of_generator {p : ℕ} (a : ℕ) (factors : List ℕ) (hp : 2 ≤ p)
    (hprime : ∀ q ∈ factors, q.Prime) (hprod : factors.prod = p - 1)
    (hone : powMod a (p - 1) p = 1)
    (hne : ∀ q ∈ factors, powMod a ((p - 1) / q) p ≠ 1) : p.Prime := by
  refine lucas_primality p (a : ZMod p) ((cast_pow_eq_one_iff hp a _).2 hone) ?_
  intro q hq hdvd
  rw [← hprod] at hdvd
  obtain ⟨f, hf, hqf⟩ := (Prime.dvd_prod_iff hq.prime).1 hdvd
  obtain rfl : q = f := (Nat.prime_dvd_prime_iff_eq hq (hprime f hf)).1 hqf
  rw [Ne, cast_pow_eq_one_iff hp]
  exact hne q hf

/-! ### The two moduli -/

theorem BabyBear.prime_prime : BabyBear.prime.Prime := by
  refine prime_of_generator 31 (List.replicate 27 2 ++ [3, 5]) (by decide) ?_
    (by decide +kernel) (by decide +kernel) (by decide +kernel)
  intro q hq
  simp only [List.mem_append, List.mem_replicate, List.mem_cons, List.not_mem_nil, or_false] at hq
  rcases hq with ⟨-, rfl⟩ | rfl | rfl <;> norm_num

instance : Fact BabyBear.prime.Prime := ⟨BabyBear.prime_prime⟩

theorem prime_405928799 : Nat.Prime 405928799 :=
  prime_of_generator 22 [2, 11, 3691, 4999] (by decide)
    (by intro q hq; fin_cases hq <;> norm_num)
    (by decide +kernel) (by decide +kernel) (by decide +kernel)

theorem prime_12048837557 : Nat.Prime 12048837557 :=
  prime_of_generator 2 [2, 2, 7, 7, 661, 93001] (by decide)
    (by intro q hq; fin_cases hq <;> norm_num)
    (by decide +kernel) (by decide +kernel) (by decide +kernel)

theorem prime_5156902474397 : Nat.Prime 5156902474397 :=
  prime_of_generator 2 [2, 2, 107, 12048837557] (by decide)
    (by intro q hq; fin_cases hq <;> first | exact prime_12048837557 | norm_num)
    (by decide +kernel) (by decide +kernel) (by decide +kernel)

theorem prime_1670836401704629 : Nat.Prime 1670836401704629 :=
  prime_of_generator 2 [2, 2, 3, 3, 3, 3, 5156902474397] (by decide)
    (by intro q hq; fin_cases hq <;> first | exact prime_5156902474397 | norm_num)
    (by decide +kernel) (by decide +kernel) (by decide +kernel)

theorem prime_639533339 : Nat.Prime 639533339 :=
  prime_of_generator 2 [2, 229, 853, 1637] (by decide)
    (by intro q hq; fin_cases hq <;> norm_num)
    (by decide +kernel) (by decide +kernel) (by decide +kernel)

theorem prime_65865678001877903 : Nat.Prime 65865678001877903 :=
  prime_of_generator 5 [2, 83, 379, 1637, 639533339] (by decide)
    (by intro q hq; fin_cases hq <;> first | exact prime_639533339 | norm_num)
    (by decide +kernel) (by decide +kernel) (by decide +kernel)

theorem prime_13818364434197438864469338081 : Nat.Prime 13818364434197438864469338081 :=
  prime_of_generator 3 [2, 2, 2, 2, 2, 5, 823, 1593227, 65865678001877903] (by decide)
    (by intro q hq; fin_cases hq <;> first | exact prime_65865678001877903 | norm_num)
    (by decide +kernel) (by decide +kernel) (by decide +kernel)

theorem bn254_prime : bn254.order.Prime := by
  refine prime_of_generator 5
    (List.replicate 28 2 ++ [3, 3, 13, 29, 983, 11003, 237073, 405928799, 1670836401704629,
      13818364434197438864469338081]) (by decide) ?_
    (by decide +kernel) (by decide +kernel) (by decide +kernel)
  intro q hq
  rcases List.mem_append.1 hq with hq | hq
  · rw [List.eq_of_mem_replicate hq]
    exact Nat.prime_two
  · fin_cases hq
    case «7» => exact prime_405928799
    case «8» => exact prime_1670836401704629
    case «9» => exact prime_13818364434197438864469338081
    all_goals norm_num

end NonNative
