import NonNative.Extension.Quartic
import NonNative.Proofs.Gates

/-!
Properties of every run of a circuit. Whatever the prover answers, what is
recorded, how the construction can fail and what it returns are each described
by a predicate, and the description of a sequence follows from those of its
parts. Arithmetic records nothing: its description holds whatever is said about
recorded constraints.
-/

namespace NonNative

namespace Circuit

variable {α β γ : Type} {K K' : Constraint → Prop} {N N' : Fault → Prop}

/-- On every run, a constraint that is recorded has property `K`, a fault has
property `N` and a result has property `P`. -/
def Every (K : Constraint → Prop) (N : Fault → Prop) : Circuit α → (α → Prop) → Prop
  | .done a, P => P a
  | .refuse fault, _ => N fault
  | .record k rest, P => K k ∧ rest.Every K N P
  | .say _ rest, P => rest.Every K N P
  | .hint _ rest, P => ∀ answer, (rest answer).Every K N P

namespace Every

variable {c : Circuit α} {f : α → Circuit β} {P P' : α → Prop} {Q : β → Prop}

theorem mono (h : c.Every K N P) (hK : ∀ k, K k → K' k) (hN : ∀ fault, N fault → N' fault)
    (hP : ∀ a, P a → P' a) : c.Every K' N' P' := by
  induction c with
  | done a => exact hP a h
  | refuse fault => exact hN fault h
  | record k rest ih => exact ⟨hK k h.1, ih h.2⟩
  | say message rest ih => exact ih h
  | hint honest rest ih => exact fun answer => ih answer (h answer)

theorem imp (h : c.Every K N P) (hP : ∀ a, P a → P' a) : c.Every K N P' :=
  h.mono (fun _ => id) (fun _ => id) hP

theorem bind (h : c.Every K N P) (hf : ∀ a, P a → (f a).Every K N Q) :
    (c >>= f).Every K N Q := by
  rw [bind_eq]
  induction c with
  | done a => exact hf a h
  | refuse fault => exact h
  | record k rest ih => exact ⟨h.1, ih h.2⟩
  | say message rest ih => exact ih h
  | hint honest rest ih => exact fun answer => ih answer (h answer)

theorem map (h : c.Every K N P) {g : α → β} (hg : ∀ a, P a → Q (g a)) :
    (g <$> c).Every K N Q := by
  rw [map_eq_pure_bind]
  exact h.bind hg

theorem mapM {l : List α} (hf : ∀ a ∈ l, (f a).Every K N Q) :
    (l.mapM f).Every K N fun bs => ∀ b ∈ bs, Q b := by
  induction l with
  | nil => exact fun b hb => nomatch hb
  | cons a l ih =>
      rw [List.mapM_cons]
      refine (hf a List.mem_cons_self).bind fun b hb => ?_
      refine (ih fun a' ha' => hf a' (List.mem_cons_of_mem a ha')).bind fun bs hbs => ?_
      exact List.forall_mem_cons.2 ⟨hb, hbs⟩

theorem forM {g : α → Circuit PUnit} {l : List α}
    (hg : ∀ a ∈ l, (g a).Every K N fun _ => True) : (l.forM g).Every K N fun _ => True := by
  induction l with
  | nil => exact trivial
  | cons a l ih =>
      exact (hg a List.mem_cons_self).bind
        fun _ _ => ih fun a' ha' => hg a' (List.mem_cons_of_mem a ha')

theorem foldlM {g : β → α → Circuit β} {l : List α}
    (hg : ∀ b, Q b → ∀ a ∈ l, (g b a).Every K N Q) {b : β} (hb : Q b) :
    (l.foldlM g b).Every K N Q := by
  induction l generalizing b with
  | nil => exact hb
  | cons a l ih =>
      rw [List.foldlM_cons]
      exact (hg b hb a List.mem_cons_self).bind
        fun b' hb' => ih (fun b hb a' ha' => hg b hb a' (List.mem_cons_of_mem a ha')) hb'

theorem constraints (h : c.Every K N P) : ∀ k ∈ c.run.constraints, K k := by
  induction c with
  | done a => exact fun k hk => nomatch hk
  | refuse fault => exact fun k hk => nomatch hk
  | record k rest ih => exact List.forall_mem_cons.2 ⟨h.1, ih h.2⟩
  | say message rest ih => exact ih h
  | hint honest rest ih => exact ih honest (h honest)

theorem result (h : c.Every K N P) :
    (∃ a, c.run.result = .ok a ∧ P a) ∨ ∃ fault, c.run.result = .error fault ∧ N fault := by
  induction c with
  | done a => exact .inl ⟨a, rfl, h⟩
  | refuse fault => exact .inr ⟨fault, rfl, h⟩
  | record k rest ih => exact ih h.2
  | say message rest ih => exact ih h
  | hint honest rest ih => exact ih honest (h honest)

end Every

theorem every_ofExcept {x : Except Fault α} {P : α → Prop} (hok : ∀ a, x = .ok a → P a)
    (herror : ∀ fault, x = .error fault → N fault) : (ofExcept x).Every K N P := by
  cases x with
  | ok a => exact hok a rfl
  | error fault => exact herror fault rfl

end Circuit

namespace Quartic

open Circuit

variable {α β γ : Type} {K : Constraint → Prop} {N : Fault → Prop} {P : α → Prop} {Q : β → Prop}
  {R : γ → Prop}

/-- Every coordinate has the property. -/
def All (P : α → Prop) (a : Quartic α) : Prop := P a.c0 ∧ P a.c1 ∧ P a.c2 ∧ P a.c3

theorem all_iff_forall_mem {a : Quartic α} : a.All P ↔ ∀ x ∈ a.toList, P x := by
  simp [All, toList]

theorem All.imp {P' : α → Prop} {a : Quartic α} (h : a.All P) (hP : ∀ x, P x → P' x) :
    a.All P' :=
  all_iff_forall_mem.2 fun x hx => hP x (all_iff_forall_mem.1 h x hx)

/-- What the action shows of two coordinates is shown of all of them. -/
theorem every_zipWithM_of {f : α → β → Circuit γ} {A : α → Prop} {B : β → Prop}
    (hf : ∀ a, P a → ∀ b, Q b → (f a b).Every K N fun c => R c ∧ A a ∧ B b) {a : Quartic α}
    {b : Quartic β} (ha : a.All P) (hb : b.All Q) :
    (a.zipWithM f b).Every K N fun c => c.All R ∧ a.All A ∧ b.All B := by
  obtain ⟨ha0, ha1, ha2, ha3⟩ := ha
  obtain ⟨hb0, hb1, hb2, hb3⟩ := hb
  refine (hf _ ha0 _ hb0).bind fun _ ⟨h0, ga0, gb0⟩ => ?_
  refine (hf _ ha1 _ hb1).bind fun _ ⟨h1, ga1, gb1⟩ => ?_
  refine (hf _ ha2 _ hb2).bind fun _ ⟨h2, ga2, gb2⟩ => ?_
  refine (hf _ ha3 _ hb3).bind fun _ ⟨h3, ga3, gb3⟩ => ?_
  exact ⟨⟨h0, h1, h2, h3⟩, ⟨ga0, ga1, ga2, ga3⟩, ⟨gb0, gb1, gb2, gb3⟩⟩

theorem every_zipWithM {f : α → β → Circuit γ}
    (hf : ∀ a, P a → ∀ b, Q b → (f a b).Every K N R) {a : Quartic α} {b : Quartic β}
    (ha : a.All P) (hb : b.All Q) : (a.zipWithM f b).Every K N fun c => c.All R := by
  have hpair (x : α) (hx : P x) (y : β) (hy : Q y) :
      (f x y).Every K N fun c => R c ∧ True ∧ True :=
    (hf x hx y hy).imp fun _ hc => ⟨hc, trivial, trivial⟩
  exact (every_zipWithM_of hpair ha hb).imp fun _ hc => hc.1

theorem every_mapM_of {f : α → Circuit γ} {A : α → Prop}
    (hf : ∀ a, P a → (f a).Every K N fun c => R c ∧ A a) {a : Quartic α} (ha : a.All P) :
    (a.mapM f).Every K N fun c => c.All R ∧ a.All A := by
  have hpair (x : α) (hx : P x) (y : α) (_ : P y) :
      (f x).Every K N fun c => R c ∧ A x ∧ True :=
    (hf x hx).imp fun _ hc => ⟨hc.1, hc.2, trivial⟩
  exact (every_zipWithM_of (f := fun x _ => f x) hpair ha ha).imp fun _ hc => ⟨hc.1, hc.2.1⟩

theorem every_mapM {f : α → Circuit γ} (hf : ∀ a, P a → (f a).Every K N R) {a : Quartic α}
    (ha : a.All P) : (a.mapM f).Every K N fun c => c.All R :=
  every_zipWithM (f := fun a _ => f a) (fun a ha _ _ => hf a ha) ha ha

end Quartic

/-! ### Operands and arithmetic -/

namespace NativeField

open Circuit

variable (F : NativeField) {K : Constraint → Prop} {N : Fault → Prop} {a b : Operand}

/-- The value is one of the field. -/
def Contains (s : Scalar) : Prop := s.order = F.order

/-- The operand is accepted. -/
def Owns (a : Operand) : Prop := ∃ s, F.accept a = .done s

/-- A fault for which the operand is refused has property `N`. -/
def Risks (N : Fault → Prop) (a : Operand) : Prop :=
  ∀ fault, F.accept a = .refuse fault → N fault

variable {F}

theorem Contains.owns {s : Scalar} (h : F.Contains s) : F.Owns (.scalar s) := ⟨s, if_pos h⟩

theorem owns_int (n : ℤ) : F.Owns (.int n) := ⟨_, rfl⟩

theorem accept_cases (F : NativeField) (a : Operand) :
    (∃ s, F.accept a = .done s) ∨ ∃ fault, F.accept a = .refuse fault := by
  cases a with
  | scalar s =>
      rw [accept]
      split
      · exact .inl ⟨s, rfl⟩
      · exact .inr ⟨_, rfl⟩
  | int n => exact .inl ⟨_, rfl⟩
  | truth b => exact .inl ⟨_, rfl⟩
  | text s =>
      rw [accept]
      split
      · exact .inl ⟨_, rfl⟩
      · exact .inr ⟨_, rfl⟩

theorem Owns.risks (h : F.Owns a) : F.Risks N a := by
  intro fault hfault
  obtain ⟨s, hs⟩ := h
  rw [hs] at hfault
  cases hfault

/-- Nothing is asked of an operand if every fault is allowed. -/
theorem risks_of_true (a : Operand) : F.Risks (fun _ => True) a := fun _ _ => trivial

theorem Contains.risks {s : Scalar} (h : F.Contains s) : F.Risks N (.scalar s) := h.owns.risks

theorem Risks.every_accept (h : F.Risks N a) :
    (F.accept a).Every K N fun s => F.accept a = .done s := by
  rcases F.accept_cases a with ⟨s, hs⟩ | ⟨fault, hfault⟩
  · rw [hs]
    exact rfl
  · rw [hfault]
    exact h fault hfault

theorem every_hint (n : ℤ) : (F.hint n).Every K N F.Contains := fun _ => rfl

theorem every_hints (ns : List ℕ) :
    (F.hints ns).Every K N fun ss => ∀ s ∈ ss, F.Contains s :=
  .mapM fun n _ => every_hint n

section Operands

variable (ha : F.Risks N a) (hb : F.Risks N b)

include ha

theorem Risks.every_neg : (F.neg a).Every K N F.Contains := ha.every_accept.bind fun _ _ => rfl

include hb

theorem Risks.every_add :
    (F.add a b).Every K N fun s => F.Contains s ∧ F.Owns a ∧ F.Owns b :=
  ha.every_accept.bind fun x hx => hb.every_accept.bind fun y hy => ⟨rfl, ⟨x, hx⟩, ⟨y, hy⟩⟩

theorem Risks.every_sub :
    (F.sub a b).Every K N fun s => F.Contains s ∧ F.Owns a ∧ F.Owns b :=
  ha.every_accept.bind fun x hx => hb.every_accept.bind fun y hy => ⟨rfl, ⟨x, hx⟩, ⟨y, hy⟩⟩

theorem Risks.every_mul :
    (F.mul a b).Every K N fun s => F.Contains s ∧ F.Owns a ∧ F.Owns b :=
  ha.every_accept.bind fun x hx => hb.every_accept.bind fun y hy => ⟨rfl, ⟨x, hx⟩, ⟨y, hy⟩⟩

/-- The values are met before the condition is. -/
theorem Risks.every_select {cond : Operand} (hcond : F.Risks N cond) :
    (F.select cond a b).Every K N fun s => F.Contains s ∧ F.Owns a ∧ F.Owns b := by
  refine (ha.every_sub hb).bind fun difference ⟨hdifference, hown⟩ => ?_
  refine (hcond.every_mul hdifference.risks).bind fun step ⟨hstep, _⟩ => ?_
  exact (hb.every_add hstep.risks).imp fun _ hs => ⟨hs.1, hown⟩

end Operands

theorem every_recompose {w : ℕ} {ds : List Operand} (hds : ∀ d ∈ ds, F.Risks N d) :
    (F.recompose w ds).Every K N F.Contains :=
  (Every.mapM fun d hd => (hds d hd).every_accept.imp fun _ _ => trivial).bind fun _ _ => rfl

end NativeField

end NonNative
