import NonNative.Number.Power

/-!
The BabyBear prime field, as residues below `2 ^ 31 - 2 ^ 27 + 1`.
-/

namespace NonNative

abbrev BabyBear.prime : Nat := 2013265921

/-- A residue modulo the BabyBear prime. -/
structure BabyBear where
  val : Nat
  val_lt : val < BabyBear.prime
  deriving DecidableEq

namespace BabyBear

theorem prime_pos : 0 < prime := by decide

def ofNat (n : Nat) : BabyBear := ⟨n % prime, Nat.mod_lt n prime_pos⟩

def ofInt (n : Int) : BabyBear := ofNat (n % (prime : Nat)).toNat

instance : Zero BabyBear := ⟨ofNat 0⟩

instance : One BabyBear := ⟨ofNat 1⟩

instance : Add BabyBear := ⟨fun a b => ofNat (a.val + b.val)⟩

instance : Neg BabyBear := ⟨fun a => ofNat (prime - a.val)⟩

instance : Mul BabyBear := ⟨fun a b => ofNat (a.val * b.val)⟩

/-- The inverse; zero is its own. -/
def inv (a : BabyBear) : BabyBear := ofNat (fermatInverse a.val prime)

end BabyBear

end NonNative
