/-!
Four coordinates of one type: an element of a quartic extension, constant
coordinate first.
-/

namespace NonNative

structure Quartic (α : Type) where
  c0 : α
  c1 : α
  c2 : α
  c3 : α
  deriving DecidableEq

namespace Quartic

variable {α β γ : Type}

def toList (a : Quartic α) : List α := [a.c0, a.c1, a.c2, a.c3]

/-- The four entries of a list of length four. -/
def ofList? : List α → Option (Quartic α)
  | [a, b, c, d] => some ⟨a, b, c, d⟩
  | _ => none

/-- The first four entries of a list, with `default` for those it lacks. -/
def ofListD (default : α) (l : List α) : Quartic α :=
  ⟨l.getD 0 default, l.getD 1 default, l.getD 2 default, l.getD 3 default⟩

def map (f : α → β) (a : Quartic α) : Quartic β :=
  ⟨f a.c0, f a.c1, f a.c2, f a.c3⟩

/-- Applies an action to the coordinates in order. -/
def mapM {m : Type → Type} [Monad m] (f : α → m β) (a : Quartic α) : m (Quartic β) := do
  let c0 ← f a.c0
  let c1 ← f a.c1
  let c2 ← f a.c2
  let c3 ← f a.c3
  return ⟨c0, c1, c2, c3⟩

/-- Applies an action to pairs of coordinates in order. -/
def zipWithM {m : Type → Type} [Monad m] (f : α → β → m γ) (a : Quartic α) (b : Quartic β) :
    m (Quartic γ) := do
  let c0 ← f a.c0 b.c0
  let c1 ← f a.c1 b.c1
  let c2 ← f a.c2 b.c2
  let c3 ← f a.c3 b.c3
  return ⟨c0, c1, c2, c3⟩

end Quartic

end NonNative
