import Mathlib.Data.List.DropRight
import Mathlib.Data.List.Forall2
import Mathlib.Data.Nat.Digits.Defs
import NonNative.Literal.Reader

/-!
The texts that stand for an integer, as a grammar: white space, at most one sign,
groups of decimal digits with single underscores between them, white space.  A
digit is worth its distance from the zero of its script, and scripts may be mixed.
The reader accepts exactly these texts and gives the integer that they denote;
the decimal numerals of all integers that are not too long are among them.
-/

namespace NonNative

/-! ### Characters -/

/-- The character is the digit of value `d` in one of the scripts. -/
def IsDecimalDigit (c : Char) (d : ℕ) : Prop := d < 10 ∧ ∃ first ∈ zeroDigits, c.toNat = first + d

theorem zeroDigits_apart :
    ∀ first ∈ zeroDigits, ∀ next ∈ zeroDigits, first < next → first + 10 ≤ next := by
  decide +kernel

theorem decimalDigit?_eq_some_iff {c : Char} {d : ℕ} :
    decimalDigit? c = some d ↔ IsDecimalDigit c d := by
  constructor
  · intro h
    obtain ⟨first, hfind, rfl⟩ := Option.map_eq_some_iff.1 h
    have hrange := List.find?_some hfind
    simp only [Bool.and_eq_true, decide_eq_true_eq] at hrange
    exact ⟨by omega, first, List.mem_of_find?_eq_some hfind, by omega⟩
  · rintro ⟨hd, first, hfirst, hc⟩
    have hsome : (zeroDigits.find? fun first => first ≤ c.toNat && c.toNat < first + 10).isSome := by
      refine List.find?_isSome.2 ⟨first, hfirst, ?_⟩
      simp only [Bool.and_eq_true, decide_eq_true_eq]
      omega
    obtain ⟨found, hfind⟩ := Option.isSome_iff_exists.1 hsome
    have hfound := List.mem_of_find?_eq_some hfind
    have hrange := List.find?_some hfind
    simp only [Bool.and_eq_true, decide_eq_true_eq] at hrange
    -- the scripts do not overlap, so no other script is found first
    have hsame : found = first := by
      rcases Nat.lt_trichotomy found first with hlt | heq | hlt
      · have := zeroDigits_apart found hfound first hfirst hlt
        omega
      · exact heq
      · have := zeroDigits_apart first hfirst found hfound hlt
        omega
    rw [decimalDigit?, hfind, Option.map_some, hsame, hc, Nat.add_sub_cancel_left]

theorem zeroDigits_not_blank :
    ∀ first ∈ zeroDigits, ∀ r ∈ blankRanges, first + 10 ≤ r.1 ∨ r.2 < first := by
  decide +kernel

theorem IsDecimalDigit.not_isBlank {c : Char} {d : ℕ} (h : IsDecimalDigit c d) :
    isBlank c = false := by
  obtain ⟨hd, first, hfirst, hc⟩ := h
  rw [isBlank, List.any_eq_false]
  intro r hr
  have hapart := zeroDigits_not_blank first hfirst r hr
  simp only [Bool.and_eq_true, decide_eq_true_eq]
  omega

theorem IsDecimalDigit.ne_of_none {c s : Char} {d : ℕ} (h : IsDecimalDigit c d)
    (hs : decimalDigit? s = none) : c ≠ s := by
  rintro rfl
  rw [decimalDigit?_eq_some_iff.2 h] at hs
  exact Option.some_ne_none d hs

theorem isDecimalDigit_of_isDigit {c : Char} (h : c.isDigit) :
    IsDecimalDigit c (c.toNat - '0'.toNat) := by
  have hrange := Char.isDigit_iff_toNat.1 h
  refine ⟨?_, '0'.toNat, by decide, ?_⟩
  · have : '9'.toNat = '0'.toNat + 9 := by decide
    omega
  · omega

/-! ### Runs of digits -/

/-- The characters are groups of digits, none of them empty, with an underscore
between any two neighbours; `ds` are the values of all digits, in order. -/
def IsDigitRun (cs : List Char) (ds : List ℕ) : Prop :=
  ∃ groups : List (List Char), groups ≠ [] ∧ (∀ group ∈ groups, group ≠ []) ∧
    cs = ['_'].intercalate groups ∧ List.Forall₂ IsDecimalDigit groups.flatten ds

theorem isDigitRun_singleton {c : Char} {d : ℕ} (h : IsDecimalDigit c d) :
    IsDigitRun [c] [d] :=
  ⟨[[c]], by simp, by simp, by simp, by simpa using h⟩

theorem IsDigitRun.cons_separated {c : Char} {d : ℕ} {cs : List Char} {ds : List ℕ}
    (hrun : IsDigitRun cs ds) (h : IsDecimalDigit c d) : IsDigitRun (c :: '_' :: cs) (d :: ds) := by
  obtain ⟨groups, hne, hgroups, rfl, hds⟩ := hrun
  obtain ⟨group, rest, rfl⟩ := List.exists_cons_of_ne_nil hne
  refine ⟨[c] :: group :: rest, by simp, ?_, ?_, ?_⟩
  · simpa using hgroups
  · simp [List.intercalate_cons_cons]
  · exact List.Forall₂.cons h hds

/-- A further digit joins the first group. -/
theorem IsDigitRun.cons {c : Char} {d : ℕ} {cs : List Char} {ds : List ℕ}
    (hrun : IsDigitRun cs ds) (h : IsDecimalDigit c d) : IsDigitRun (c :: cs) (d :: ds) := by
  obtain ⟨groups, hne, hgroups, rfl, hds⟩ := hrun
  obtain ⟨group, rest, rfl⟩ := List.exists_cons_of_ne_nil hne
  refine ⟨(c :: group) :: rest, by simp, ?_, ?_, ?_⟩
  · intro g hg
    rcases List.mem_cons.1 hg with rfl | hg
    · simp
    · exact hgroups g (List.mem_cons_of_mem _ hg)
  · cases rest with
    | nil => simp
    | cons next rest => simp [List.intercalate_cons_cons]
  · exact List.Forall₂.cons h hds

theorem isDigitRun_of_digitRun? {cs : List Char} {ds : List ℕ} (h : digitRun? cs = some ds) :
    IsDigitRun cs ds := by
  fun_induction digitRun? cs generalizing ds with
  | case1 => exact absurd h (by simp)
  | case2 => exact absurd h (by simp)
  | case3 c d hc =>
      cases h
      exact isDigitRun_singleton (decimalDigit?_eq_some_iff.1 hc)
  | case4 c d rest hc ih =>
      obtain ⟨ds, hrest, rfl⟩ := Option.map_eq_some_iff.1 h
      exact (ih hrest).cons_separated (decimalDigit?_eq_some_iff.1 hc)
  | case5 c d next rest hnext hc ih =>
      obtain ⟨ds, hrest, rfl⟩ := Option.map_eq_some_iff.1 h
      exact (ih hrest).cons (decimalDigit?_eq_some_iff.1 hc)

theorem digitRun?_singleton {c : Char} {d : ℕ} (hc : IsDecimalDigit c d) :
    digitRun? [c] = some [d] := by
  simp [digitRun?, decimalDigit?_eq_some_iff.2 hc]

theorem digitRun?_cons_separated {c : Char} {d : ℕ} (hc : IsDecimalDigit c d) (cs : List Char) :
    digitRun? (c :: '_' :: cs) = (digitRun? cs).map (d :: ·) := by
  simp [digitRun?, decimalDigit?_eq_some_iff.2 hc]

theorem digitRun?_cons {c : Char} {d : ℕ} {cs : List Char} {ds : List ℕ}
    (hc : IsDecimalDigit c d) (hcs : digitRun? cs = some ds) :
    digitRun? (c :: cs) = some (d :: ds) := by
  cases cs with
  | nil => exact absurd hcs (by simp [digitRun?])
  | cons next rest =>
      have hnext : next ≠ '_' := by
        rintro rfl
        exact absurd hcs (by simp [digitRun?, show decimalDigit? '_' = none by decide])
      rw [digitRun?.eq_def]
      simp [decimalDigit?_eq_some_iff.2 hc, hcs]

/-- The reader takes in a group of digits, at the end or before an underscore. -/
theorem digitRun?_group {group : List Char} {ds : List ℕ}
    (h : List.Forall₂ IsDecimalDigit group ds) (hne : group ≠ []) :
    digitRun? group = some ds ∧ ∀ {cs : List Char} {es : List ℕ}, digitRun? cs = some es →
      digitRun? (group ++ '_' :: cs) = some (ds ++ es) := by
  induction h with
  | nil => exact absurd rfl hne
  | @cons c d group ds hc hgroup ih =>
      cases hgroup with
      | nil =>
          refine ⟨digitRun?_singleton hc, fun hcs => ?_⟩
          rw [List.singleton_append, digitRun?_cons_separated hc, hcs]
          rfl
      | cons =>
          obtain ⟨hend, hseparated⟩ := ih (List.cons_ne_nil _ _)
          exact ⟨digitRun?_cons hc hend, fun hcs => digitRun?_cons hc (hseparated hcs)⟩

theorem IsDigitRun.digitRun?_eq {cs : List Char} {ds : List ℕ} (h : IsDigitRun cs ds) :
    digitRun? cs = some ds := by
  obtain ⟨groups, hne, hgroups, rfl, hds⟩ := h
  induction groups generalizing ds with
  | nil => exact absurd rfl hne
  | cons group rest ih =>
      have hgroup := hgroups group List.mem_cons_self
      cases rest with
      | nil =>
          rw [List.intercalate_singleton]
          exact (digitRun?_group (by simpa using hds) hgroup).1
      | cons next rest =>
          rw [List.flatten_cons] at hds
          have hfirst := (List.forall₂_take_append _ _ _ hds.flip).flip
          have hrest := (List.forall₂_drop_append _ _ _ hds.flip).flip
          rw [List.intercalate_cons_cons, List.append_assoc, List.singleton_append,
            (digitRun?_group hfirst hgroup).2
              (ih (by simp) (fun g hg => hgroups g (List.mem_cons_of_mem _ hg)) hrest),
            List.take_append_drop]

theorem digitRun?_eq_some_iff {cs : List Char} {ds : List ℕ} :
    digitRun? cs = some ds ↔ IsDigitRun cs ds :=
  ⟨isDigitRun_of_digitRun?, IsDigitRun.digitRun?_eq⟩

theorem ofDecimalDigits_eq (ds : List ℕ) : ofDecimalDigits ds = Nat.ofDigits 10 ds.reverse := by
  rw [Nat.ofDigits_eq_foldr, List.foldr_reverse, ofDecimalDigits]
  simp only [Nat.cast_id, Nat.add_comm]

theorem unsigned?_eq_some_iff {cs : List Char} {n : ℕ} :
    unsigned? cs = some n ↔
      ∃ ds, IsDigitRun cs ds ∧ ds.length ≤ 4300 ∧ n = Nat.ofDigits 10 ds.reverse := by
  simp only [← digitRun?_eq_some_iff, ← ofDecimalDigits_eq, unsigned?, maxDecimalDigits]
  cases digitRun? cs with
  | none => simp
  | some ds =>
      by_cases hlength : ds.length ≤ 4300
      · simp [hlength, eq_comm]
      · simp [hlength]

/-! ### Signs and white space -/

/-- At most one sign, and the factor it stands for. -/
inductive IsSign : List Char → ℤ → Prop
  | none : IsSign [] 1
  | plus : IsSign ['+'] 1
  | minus : IsSign ['-'] (-1)

/-- The text stands for the integer `k`: between white space it is at most one sign
and a run of at most 4300 decimal digits. -/
def Denotes (s : String) (k : ℤ) : Prop :=
  ∃ (left sign run right : List Char) (factor : ℤ) (ds : List ℕ),
    s.toList = left ++ (sign ++ run) ++ right ∧
    (∀ c ∈ left, isBlank c) ∧ (∀ c ∈ right, isBlank c) ∧
    IsSign sign factor ∧ IsDigitRun run ds ∧ ds.length ≤ 4300 ∧
    k = factor * (Nat.ofDigits 10 ds.reverse : ℕ)

theorem IsSign.not_isBlank {sign : List Char} {factor : ℤ} (h : IsSign sign factor) :
    ∀ c ∈ sign, isBlank c = false := by
  have hplus : isBlank '+' = false := by decide
  have hminus : isBlank '-' = false := by decide
  cases h with
  | none => exact List.forall_mem_nil _
  | plus => exact List.forall_mem_singleton.2 hplus
  | minus => exact List.forall_mem_singleton.2 hminus

theorem IsDigitRun.not_isBlank {cs : List Char} {ds : List ℕ} (h : IsDigitRun cs ds) :
    ∀ c ∈ cs, isBlank c = false := by
  rw [← digitRun?_eq_some_iff] at h
  fun_induction digitRun? cs generalizing ds with
  | case1 => exact absurd h (by simp)
  | case2 => exact absurd h (by simp)
  | case3 c d hc => simpa using (decimalDigit?_eq_some_iff.1 hc).not_isBlank
  | case4 c d rest hc ih =>
      obtain ⟨ds, hrest, rfl⟩ := Option.map_eq_some_iff.1 h
      have hunderscore : isBlank '_' = false := by decide
      exact List.forall_mem_cons.2 ⟨(decimalDigit?_eq_some_iff.1 hc).not_isBlank,
        List.forall_mem_cons.2 ⟨hunderscore, ih hrest⟩⟩
  | case5 c d next rest hnext hc ih =>
      obtain ⟨ds, hrest, rfl⟩ := Option.map_eq_some_iff.1 h
      exact List.forall_mem_cons.2 ⟨(decimalDigit?_eq_some_iff.1 hc).not_isBlank, ih hrest⟩

theorem IsDigitRun.exists_cons {cs : List Char} {ds : List ℕ} (h : IsDigitRun cs ds) :
    ∃ c rest d, cs = c :: rest ∧ IsDecimalDigit c d := by
  obtain ⟨groups, hne, hgroups, rfl, hds⟩ := h
  obtain ⟨group, rest, rfl⟩ := List.exists_cons_of_ne_nil hne
  obtain ⟨c, group, rfl⟩ := List.exists_cons_of_ne_nil (hgroups group List.mem_cons_self)
  rw [List.flatten_cons, List.cons_append] at hds
  cases hds with
  | cons hc =>
      cases rest with
      | nil => exact ⟨c, group, _, by simp, hc⟩
      | cons => exact ⟨c, _, _, by rw [List.intercalate_cons_cons]; rfl, hc⟩

theorem map_unsigned?_eq_some_iff {run : List Char} {f : ℕ → ℤ} {factor k : ℤ}
    (hf : ∀ n, f n = factor * n) :
    (unsigned? run).map f = some k ↔ ∃ ds, IsDigitRun run ds ∧ ds.length ≤ 4300 ∧
      k = factor * (Nat.ofDigits 10 ds.reverse : ℕ) := by
  rw [Option.map_eq_some_iff]
  constructor
  · rintro ⟨n, hn, rfl⟩
    obtain ⟨ds, hrun, hlength, rfl⟩ := unsigned?_eq_some_iff.1 hn
    exact ⟨ds, hrun, hlength, hf _⟩
  · rintro ⟨ds, hrun, hlength, rfl⟩
    exact ⟨_, unsigned?_eq_some_iff.2 ⟨ds, hrun, hlength, rfl⟩, hf _⟩

/-- A run starts with a digit, so its first character is not taken for a sign. -/
theorem IsDigitRun.signed?_eq {cs : List Char} {ds : List ℕ} (h : IsDigitRun cs ds) :
    signed? cs = (unsigned? cs).map fun (n : ℕ) => (n : ℤ) := by
  obtain ⟨c, rest, d, rfl, hc⟩ := h.exists_cons
  have hminus : c ≠ '-' := hc.ne_of_none (by decide)
  have hplus : c ≠ '+' := hc.ne_of_none (by decide)
  rw [signed?.eq_def]
  split
  case h_1 heq => exact absurd (List.cons.inj heq).1 hminus
  case h_2 heq => exact absurd (List.cons.inj heq).1 hplus
  case h_3 => rfl

theorem signed?_eq_some_iff {cs : List Char} {k : ℤ} :
    signed? cs = some k ↔ ∃ (sign run : List Char) (factor : ℤ) (ds : List ℕ),
      cs = sign ++ run ∧ IsSign sign factor ∧ IsDigitRun run ds ∧ ds.length ≤ 4300 ∧
      k = factor * (Nat.ofDigits 10 ds.reverse : ℕ) := by
  have hone : ∀ n : ℕ, (n : ℤ) = 1 * n := fun n => (one_mul _).symm
  have hneg : ∀ n : ℕ, -(n : ℤ) = -1 * n := fun n => (neg_one_mul _).symm
  constructor
  · intro h
    unfold signed? at h
    split at h
    case h_1 run =>
      obtain ⟨ds, hread⟩ := (map_unsigned?_eq_some_iff hneg).1 h
      exact ⟨['-'], run, -1, ds, rfl, .minus, hread⟩
    case h_2 run =>
      obtain ⟨ds, hread⟩ := (map_unsigned?_eq_some_iff hone).1 h
      exact ⟨['+'], run, 1, ds, rfl, .plus, hread⟩
    case h_3 =>
      obtain ⟨ds, hread⟩ := (map_unsigned?_eq_some_iff hone).1 h
      exact ⟨[], cs, 1, ds, rfl, .none, hread⟩
  · rintro ⟨sign, run, factor, ds, rfl, hsign, hread⟩
    cases hsign with
    | minus => exact (map_unsigned?_eq_some_iff hneg).2 ⟨ds, hread⟩
    | plus => exact (map_unsigned?_eq_some_iff hone).2 ⟨ds, hread⟩
    | none =>
        rw [List.nil_append, hread.1.signed?_eq]
        exact (map_unsigned?_eq_some_iff hone).2 ⟨ds, hread⟩

/-- Every list of characters is its trimmed form between white space. -/
theorem exists_append_trimBlanks (cs : List Char) :
    ∃ left right, cs = left ++ trimBlanks cs ++ right ∧
      (∀ c ∈ left, isBlank c) ∧ ∀ c ∈ right, isBlank c := by
  have htrim : trimBlanks cs = (cs.dropWhile isBlank).rdropWhile isBlank := rfl
  refine ⟨cs.takeWhile isBlank, (cs.dropWhile isBlank).rtakeWhile isBlank, ?_,
    fun c hc => List.mem_takeWhile_imp hc, fun c hc => List.mem_rtakeWhile_imp hc⟩
  rw [htrim, List.append_assoc, List.rdropWhile_append_rtakeWhile,
    List.takeWhile_append_dropWhile]

theorem dropWhile_isBlank_append {body : List Char} (hbody : ∀ c ∈ body, isBlank c = false)
    (hne : body ≠ []) (right : List Char) : (body ++ right).dropWhile isBlank = body ++ right := by
  obtain ⟨c, rest, rfl⟩ := List.exists_cons_of_ne_nil hne
  exact List.dropWhile_cons_of_neg (by simp [hbody c List.mem_cons_self])

theorem trimBlanks_append {left body right : List Char} (hleft : ∀ c ∈ left, isBlank c)
    (hbody : ∀ c ∈ body, isBlank c = false) (hne : body ≠ []) (hright : ∀ c ∈ right, isBlank c) :
    trimBlanks (left ++ body ++ right) = body := by
  have hright' : ∀ c ∈ right.reverse, isBlank c := by simpa using hright
  have hbody' : ∀ c ∈ body.reverse, isBlank c = false := by simpa using hbody
  have hkeep := dropWhile_isBlank_append hbody' (by simpa using hne) []
  rw [List.append_nil] at hkeep
  rw [trimBlanks, List.append_assoc, List.dropWhile_append_of_pos hleft,
    dropWhile_isBlank_append hbody hne, List.reverse_append,
    List.dropWhile_append_of_pos hright', hkeep, List.reverse_reverse]

/-- The reader accepts the texts of the grammar and gives what they denote. -/
theorem readInt?_eq_some_iff {s : String} {k : ℤ} : readInt? s = some k ↔ Denotes s k := by
  constructor
  · intro h
    obtain ⟨left, right, hs, hleft, hright⟩ := exists_append_trimBlanks s.toList
    obtain ⟨sign, run, factor, ds, hbody, hread⟩ := signed?_eq_some_iff.1 h
    exact ⟨left, sign, run, right, factor, ds, hbody ▸ hs, hleft, hright, hread⟩
  · rintro ⟨left, sign, run, right, factor, ds, hs, hleft, hright, hsign, hrun, hread⟩
    have hbody : ∀ c ∈ sign ++ run, isBlank c = false :=
      List.forall_mem_append.2 ⟨hsign.not_isBlank, hrun.not_isBlank⟩
    have hne : sign ++ run ≠ [] := by
      obtain ⟨c, rest, d, rfl, -⟩ := hrun.exists_cons
      simp
    rw [readInt?, hs, trimBlanks_append hleft hbody hne hright]
    exact signed?_eq_some_iff.2 ⟨sign, run, factor, ds, rfl, hsign, hrun, hread⟩

theorem Denotes.unique {s : String} {k k' : ℤ} (hk : Denotes s k) (hk' : Denotes s k') :
    k' = k := by
  rw [← readInt?_eq_some_iff] at hk hk'
  exact Option.some.inj (hk'.symm.trans hk)

theorem readInt?_eq_none_iff {s : String} : readInt? s = none ↔ ¬ ∃ k, Denotes s k := by
  rw [Option.eq_none_iff_forall_ne_some, not_exists]
  exact forall_congr' fun k => not_congr readInt?_eq_some_iff

/-! ### Numerals -/

theorem isDigitRun_replicate {c : Char} {d : ℕ} (h : IsDecimalDigit c d) (n : ℕ) :
    IsDigitRun (List.replicate (n + 1) c) (List.replicate (n + 1) d) := by
  induction n with
  | zero => exact isDigitRun_singleton h
  | succ n ih => exact ih.cons h

/-- A run of digits can be too long to denote a number. -/
theorem IsDigitRun.not_denotes {s : String} {ds : List ℕ} (h : IsDigitRun s.toList ds)
    (hlong : 4300 < ds.length) : ¬ ∃ k, Denotes s k := by
  have hne : s.toList ≠ [] := by
    obtain ⟨c, rest, d, hs, -⟩ := h.exists_cons
    simp [hs]
  have htrim : trimBlanks s.toList = s.toList := by
    simpa using trimBlanks_append (List.forall_mem_nil _) h.not_isBlank hne (List.forall_mem_nil _)
  have hunsigned : unsigned? s.toList = none := by
    rw [unsigned?, h.digitRun?_eq]
    exact if_neg (by rw [maxDecimalDigits]; omega)
  rw [← readInt?_eq_none_iff, readInt?, htrim, h.signed?_eq, hunsigned]
  rfl

theorem isDigitRun_toDigits (n : ℕ) :
    IsDigitRun (Nat.toDigits 10 n) ((Nat.toDigits 10 n).map fun c => c.toNat - '0'.toNat) := by
  refine ⟨[Nat.toDigits 10 n], by simp, by simp [Nat.toDigits_ne_nil], by simp, ?_⟩
  rw [List.flatten_singleton, List.forall₂_map_right_iff, List.forall₂_same]
  intro c hc
  exact isDecimalDigit_of_isDigit (Nat.isDigit_of_mem_toDigits (by decide) (by decide) hc)

theorem ofDigits_toDigits (n : ℕ) :
    Nat.ofDigits 10 ((Nat.toDigits 10 n).map fun c => c.toNat - '0'.toNat).reverse = n := by
  rw [← ofDecimalDigits_eq, ofDecimalDigits, List.foldl_map]
  exact Nat.ofDigitChars_ten_toDigits

theorem denotes_of_toList_eq {s : String} {sign : List Char} {factor : ℤ} {n : ℕ}
    (hsign : IsSign sign factor) (hs : s.toList = sign ++ Nat.toDigits 10 n)
    (hn : n < 10 ^ 4300) : Denotes s (factor * n) := by
  -- for any limit, because the power at this one is not to be computed
  have hlength : ∀ w, 0 < w → n < 10 ^ w → (Nat.toDigits 10 n).length ≤ w := fun w hw =>
    (Nat.length_toDigits_le_iff (by decide) hw).2
  refine ⟨[], sign, Nat.toDigits 10 n, [], factor, _, by simpa using hs, by simp, by simp, hsign,
    isDigitRun_toDigits n, ?_, ?_⟩
  · rw [List.length_map]
    exact hlength 4300 (by decide) hn
  · rw [ofDigits_toDigits]

/-- The decimal numeral of an integer denotes it. -/
theorem denotes_toString {k : ℤ} (hk : k.natAbs < 10 ^ 4300) : Denotes (toString k) k := by
  rw [Int.toString_eq_repr]
  cases k with
  | ofNat n =>
      have h := denotes_of_toList_eq (s := (Int.ofNat n).repr) .none Nat.toList_repr hk
      rwa [one_mul] at h
  | negSucc n =>
      have hs : (Int.negSucc n).repr.toList = ['-'] ++ Nat.toDigits 10 (n + 1) := by
        rw [← Nat.toList_repr]
        exact String.toList_append
      have h := denotes_of_toList_eq .minus hs hk
      rwa [neg_one_mul] at h

end NonNative
