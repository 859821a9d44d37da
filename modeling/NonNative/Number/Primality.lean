import NonNative.Number.Power

/-!
The strong probable-prime test for a fixed list of bases. A number that one of
the bases divides is settled by division; any other number has to pass the
test for the bases that its width asks for.
-/

namespace NonNative

/-- The primes below 350. -/
def primalityBases : List Nat :=
  [2, 3, 5, 7, 11, 13, 17, 19, 23, 29, 31, 37, 41, 43, 47, 53, 59, 61, 67, 71,
    73, 79, 83, 89, 97, 101, 103, 107, 109, 113, 127, 131, 137, 139, 149, 151,
    157, 163, 167, 173, 179, 181, 191, 193, 197, 199, 211, 223, 227, 229, 233,
    239, 241, 251, 257, 263, 269, 271, 277, 281, 283, 293, 307, 311, 313, 317,
    331, 337, 347, 349]

/-- How many bases a number has to pass. A wide composite hardly ever passes
even one, so wide numbers are tested for fewer. -/
def baseCount (n : Nat) : Nat := if n.log2 < 2048 then primalityBases.length else 12

/-- Writes `x` as an odd number times a power of two, taking out at most
`steps` factors; the second component counts them. -/
def oddPart : Nat → Nat → Nat × Nat
  | 0, x => (x, 0)
  | steps + 1, x =>
      if x % 2 = 0 then
        let (d, s) := oddPart steps (x / 2)
        (d, s + 1)
      else (x, 0)

/-- Whether `n - 1` is among `x, x ^ 2, x ^ 4, …`, `count` numbers in all. -/
def squaresToMinusOne (n : Nat) : Nat → Nat → Bool
  | 0, _ => false
  | count + 1, x => x == n - 1 || squaresToMinusOne n count (x * x % n)

/-- Whether the odd number `n` passes the strong test for base `a`. -/
def passesStrongTest (n a : Nat) : Bool :=
  let (d, s) := oddPart (n - 1).log2 (n - 1)
  let x := powMod a d n
  x == 1 || squaresToMinusOne n s x

def isProbablePrime (n : Nat) : Bool :=
  2 ≤ n &&
    match primalityBases.find? (n % · == 0) with
    | some q => n == q
    | none => (primalityBases.take (baseCount n)).all (passesStrongTest n)

end NonNative
