import HigherRank.Proofs.FreshNames
import Mathlib.Data.List.Induction
import Mathlib.Order.Bounds.Basic

set_option autoImplicit false
set_option relaxedAutoImplicit false

/-!
# When new names collide

A new name is a stem and a number, and the number is never used again. Still two new names can be
the same if their stems are different: if one stem is the other one with a numeral behind it, the
longer stem with a number is the shorter stem with a greater number. There is no other way.

## Main definitions

* `HigherRank.IsNumeral` — the numerals of positive numbers, as digits.
* `HigherRank.Name.Continues` — one name is another one with a numeral behind it.
* `HigherRank.Session.freeNumbers` — the numbers that a new name may have.
* `HigherRank.Session.GivesOut` — runs of calls for new names.
* `HigherRank.AlwaysDistinct` — no run with the two stems gives out a name twice.

## Main results

* `HigherRank.IsNumeral.exists_toDigits` — a numeral consists of the digits of a number.
* `HigherRank.Name.numbered_ne` — names with different numbers are different unless one stem
  continues the other.
* `HigherRank.Session.exists_fresh` — the number of a new name is the least free one.
* `HigherRank.Session.GivesOut.distinctFrom` — a run gives out no name twice.
* `HigherRank.alwaysDistinct_iff` — when no run does.
* `HigherRank.new_names` — the names of a run, and when they are always distinct.

## Implementation notes

A collision is found with two calls, since the context may change in between: the second number is
as great as it has to be if all smaller ones are taken.
-/

namespace HigherRank

/-! ## Numerals -/

/-- Decimal digits, at least one of them, of which the first is not zero. -/
structure IsNumeral (cs : List Char) : Prop where
  ne_nil : cs ≠ []
  isDigit : ∀ c ∈ cs, c.isDigit
  head?_ne : cs.head? ≠ some '0'

/-- A decimal digit is the digit of a number less than ten. -/
private lemma exists_digitChar {c : Char} (h : c.isDigit) : ∃ d < 10, Nat.digitChar d = c := by
  have hc : 48 ≤ c.toNat ∧ c.toNat ≤ 57 := by
    simpa [Char.isDigit, UInt32.le_iff_toNat_le] using h
  refine ⟨c.toNat - 48, by omega, Char.toNat_inj.mp ?_⟩
  rw [Nat.toNat_digitChar_of_lt_ten (by omega)]
  omega

/-- The digits of a positive number do not start with zero. -/
private lemma head?_toDigits_ne {n : Nat} (h : 0 < n) : (Nat.toDigits 10 n).head? ≠ some '0' := by
  induction n using Nat.strongRecOn with
  | ind n ih =>
    rcases Nat.lt_or_ge n 10 with hn | hn
    · rw [Nat.toDigits_of_lt_base hn]
      intro hzero
      have hchar := congrArg Char.toNat (Option.some.inj hzero)
      rw [Nat.toNat_digitChar_of_lt_ten hn] at hchar
      have : ('0').toNat = 48 := rfl
      omega
    · have hdigits := Nat.toDigits_of_base_le (b := 10) (by decide) hn
      rw [hdigits, List.head?_append_of_ne_nil _ Nat.toDigits_ne_nil]
      exact ih (n / 10) (by omega) (by omega)

namespace IsNumeral

variable {cs ds : List Char}

/-- The decimal digits of a positive number are a numeral. -/
private lemma toDigits {n : Nat} (h : 0 < n) : IsNumeral (Nat.toDigits 10 n) where
  ne_nil := Nat.toDigits_ne_nil
  isDigit _ := Nat.isDigit_of_mem_toDigits (by decide) (by decide)
  head?_ne := head?_toDigits_ne h

/-- The first digits of a numeral are a numeral. -/
private lemma of_append (h : IsNumeral (cs ++ ds)) (hne : cs ≠ []) : IsNumeral cs where
  ne_nil := hne
  isDigit c hc := h.isDigit c (List.mem_append_left ds hc)
  head?_ne := by
    have hhead := h.head?_ne
    rwa [List.head?_append_of_ne_nil _ hne] at hhead

/-- A numeral consists of the digits of a positive number.

**Proof sketch.** Induction from the right, since the last digit is the one that the number has
below ten. -/
theorem exists_toDigits (h : IsNumeral cs) : ∃ n, 0 < n ∧ Nat.toDigits 10 n = cs := by
  induction cs using List.reverseRecOn with
  | nil => exact absurd rfl h.ne_nil
  | append_singleton cs c ih =>
    obtain ⟨d, hd, rfl⟩ := exists_digitChar (h.isDigit c (by simp))
    by_cases hcs : cs = []
    · subst hcs
      refine ⟨d, Nat.pos_of_ne_zero ?_, Nat.toDigits_of_lt_base hd⟩
      rintro rfl
      exact h.head?_ne rfl
    · obtain ⟨n, hn, rfl⟩ := ih (h.of_append hcs)
      refine ⟨10 * n + d, by omega, ?_⟩
      rw [← Nat.toDigits_append_toDigits (by decide) hn hd, Nat.toDigits_of_lt_base hd]

end IsNumeral

namespace Name

variable {p q : Name}

/-- A number that is not negative is written with its decimal digits. -/
private lemma toList_toString_natCast (n : Nat) :
    (toString (n : Int)).toList = Nat.toDigits 10 n := by
  simp [Int.toString_eq_repr, Int.repr_eq_if, Nat.toList_repr]

/-- A numbered name is the stem and then the digits of the number. -/
lemma toList_numbered (stem : Name) (n : Nat) :
    (stem.numbered n).toList = stem.toList ++ Nat.toDigits 10 n := by
  rw [numbered, String.toList_append, toList_toString_natCast]

/-- The first name is the second one with a numeral behind it. -/
def Continues (p q : Name) : Prop :=
  ∃ d : String, p = q ++ d ∧ IsNumeral d.toList

/-- A name continues another one if it is that one with a positive number. -/
private lemma continues_iff : p.Continues q ↔ ∃ n : Nat, 0 < n ∧ p = q.numbered n := by
  constructor
  · rintro ⟨d, rfl, hd⟩
    obtain ⟨n, hn, hdigits⟩ := hd.exists_toDigits
    exact ⟨n, hn, String.toList_injective (by simp [toList_numbered, hdigits])⟩
  · rintro ⟨n, hn, rfl⟩
    exact ⟨toString (n : Int), rfl, toList_toString_natCast n ▸ .toDigits hn⟩

/-- No name continues itself. -/
private lemma not_continues_self (p : Name) : ¬ p.Continues p := by
  rintro ⟨d, hd, hnumeral⟩
  exact hnumeral.ne_nil (by simpa using congrArg String.toList hd)

/-- Names that do not begin alike do not continue each other. -/
private lemma not_continues_of_not_begins (h : ¬ q.toList <+: p.toList) : ¬ p.Continues q := by
  rintro ⟨d, rfl, -⟩
  exact h ⟨d.toList, String.toList_append.symm⟩

/-- If what stands behind the second name completes one numeral to another one, then it is a numeral
itself. -/
private lemma continues_of_digits {d : List Char} {m n : Nat} (hmn : m ≠ n)
    (hp : p.toList = q.toList ++ d) (hd : Nat.toDigits 10 n = d ++ Nat.toDigits 10 m) :
    p.Continues q := by
  have hne : d ≠ [] := by
    rintro rfl
    have hvalue := congrArg (Nat.ofDigitChars 10 · 0) hd
    exact hmn (by simpa [eq_comm] using hvalue)
  -- the other numeral has two digits at least
  have hpos : 0 < n := by
    refine Nat.pos_of_ne_zero fun hn => ?_
    have hlen := congrArg List.length hd
    have := List.length_pos_iff.mpr hne
    have := Nat.length_toDigits_pos (b := 10) (n := m)
    simp only [hn, Nat.toDigits_zero, List.length_append, List.length_cons, List.length_nil] at hlen
    omega
  have hnumeral : IsNumeral (d ++ Nat.toDigits 10 m) := hd ▸ .toDigits hpos
  exact ⟨String.ofList d, String.toList_injective (by simp [hp]),
    by simpa using hnumeral.of_append hne⟩

/-- Names with different numbers are different unless one stem continues the other. -/
theorem numbered_ne (hpq : ¬ p.Continues q) (hqp : ¬ q.Continues p) {j k : Int} (hj : 0 ≤ j)
    (hk : 0 ≤ k) (hjk : j ≠ k) : p.numbered j ≠ q.numbered k := by
  obtain ⟨m, rfl⟩ := Int.eq_ofNat_of_zero_le hj
  obtain ⟨n, rfl⟩ := Int.eq_ofNat_of_zero_le hk
  have hmn : m ≠ n := by omega
  intro heq
  have hlist := congrArg String.toList heq
  rw [toList_numbered, toList_numbered] at hlist
  rcases List.append_eq_append_iff.mp hlist with ⟨d, hq, hd⟩ | ⟨d, hp, hd⟩
  · exact hqp (continues_of_digits (Ne.symm hmn) hq hd)
  · exact hpq (continues_of_digits hmn hp hd)

/-- A stem that continues another one has a name in common with it. -/
private lemma Continues.exists_numbered_eq (h : p.Continues q) :
    ∃ n : Nat, 0 < n ∧ p.numbered 0 = q.numbered n := by
  obtain ⟨n, hn, rfl⟩ := continues_iff.mp h
  refine ⟨10 * n + 0, by omega, String.toList_injective ?_⟩
  rw [← Int.natCast_zero, toList_numbered, toList_numbered, toList_numbered, List.append_assoc,
    Nat.toDigits_append_toDigits (by decide) hn (by decide)]

end Name

/-! ## The least free number -/

/-- An entry that is no assumption keeps its name from being generated. -/
private lemma Entry.takenName?_eq_some {m : Entry} {x : Name} :
    m.takenName? = some x ↔ m.kind ≠ .assumed ∧ m.name = x := by
  cases m <;> simp [takenName?, kind, name]

/-- A name is unused if no entry has it, assumptions apart. -/
lemma Context.unused_iff {Γ : Context} {x : Name} :
    Γ.Unused x ↔ ∀ m ∈ Γ, m.kind ≠ .assumed → m.name ≠ x := by
  simp only [Unused, ne_eq, Entry.takenName?_eq_some, not_and]

/-- Rigid variables with a stem and all numbers below the given one. -/
def Context.numberedBelow (stem : Name) (n : Nat) : Context :=
  (List.range n).map fun k : Nat => .rigid (stem.numbered k)

/-- Of the numbered names those below the given number are in use, and no others. -/
private lemma Context.unused_numberedBelow {stem : Name} {n : Nat} {k : Int} (hk : 0 ≤ k) :
    (numberedBelow stem n).Unused (stem.numbered k) ↔ n ≤ k := by
  simp only [unused_iff, numberedBelow, List.mem_map, List.mem_range]
  constructor
  · intro h
    by_contra hlt
    exact h (.rigid (stem.numbered k)) ⟨k.toNat, by omega, by rw [Int.toNat_of_nonneg hk]⟩
      (by simp [Entry.kind]) rfl
  · rintro hle _ ⟨j, hj, rfl⟩ - heq
    have := Name.numbered_injective stem heq
    omega

namespace Session

/-- The numbers from the counter on whose names no entry has, assumptions apart. -/
def freeNumbers (s : Session) (stem : Name) : Set Int :=
  {n | s.nextName ≤ n ∧ ∀ m ∈ s.context, m.kind ≠ .assumed → m.name ≠ stem.numbered n}

/-- A new name has the least free number, and the counter moves behind it. -/
theorem exists_fresh (s : Session) (stem : Name) :
    ∃ n, IsLeast (s.freeNumbers stem) n ∧
      s.fresh stem = (stem.numbered n, { s with nextName := n + 1 }) := by
  refine ⟨s.nextName + firstUnused (fun k => stem.numbered (s.nextName + k)) s.takenNames,
    ⟨⟨by omega, Context.unused_iff.mp (s.fresh_unused stem)⟩, ?_⟩, rfl⟩
  rintro n ⟨hn, hfree⟩
  obtain ⟨k, rfl⟩ : ∃ k : Nat, n = s.nextName + k := ⟨(n - s.nextName).toNat, by omega⟩
  by_contra hlt
  have htaken : stem.numbered (s.nextName + k) ∈ s.takenNames :=
    firstUnused_least (fun k => stem.numbered (s.nextName + k)) s.takenNames k (by omega)
  obtain ⟨m, hm, hname⟩ := List.mem_filterMap.mp htaken
  exact Context.unused_iff.mpr hfree m hm hname

/-- If all smaller numbers are taken, a new name has the given number. -/
private lemma fresh_of_taken {s : Session} {stem : Name} {n : Int} (h : s.nextName ≤ n)
    (hc : s.context.Unused (stem.numbered n))
    (hlt : ∀ k, s.nextName ≤ k → k < n → ¬ s.context.Unused (stem.numbered k)) :
    s.fresh stem = (stem.numbered n, { s with nextName := n + 1 }) := by
  obtain ⟨k, ⟨⟨hk, hfree⟩, hleast⟩, hfresh⟩ := s.exists_fresh stem
  have hle : k ≤ n := hleast ⟨h, Context.unused_iff.mp hc⟩
  have hnot : ¬ k < n := fun hkn => hlt k hk hkn (Context.unused_iff.mpr hfree)
  obtain rfl : k = n := by omega
  exact hfresh

/-! ## Runs of calls -/

/-- A run of calls for new names in any order, between which the context changes in any way. The
first session gives out the names of the list, from left to right, and ends as the second one. -/
inductive GivesOut : Session → List Name → Session → Prop where
  | done (s : Session) : GivesOut s [] s
  | change {s s' : Session} {names : List Name} (Γ : Context) :
    GivesOut (s.withContext Γ) names s' → GivesOut s names s'
  | existential {s s' : Session} {names : List Name} :
    GivesOut s.freshExistential.2 names s' → GivesOut s (s.freshExistential.1 :: names) s'
  | rigid {s s' : Session} {names : List Name} :
    GivesOut s.freshVariable.2 names s' → GivesOut s (s.freshVariable.1 :: names) s'

/-- The session has the two stems, and its counter is not negative. -/
structure Starts (s : Session) (p q : Name) : Prop where
  existentialStem : s.existentialStem = p
  variableStem : s.variableStem = q
  nextName : 0 ≤ s.nextName

variable {s s' : Session} {names : List Name} {p q : Name}

/-- Another context changes neither the stems nor the counter. -/
private lemma Starts.withContext (h : s.Starts p q) (Γ : Context) : (s.withContext Γ).Starts p q :=
  ⟨h.existentialStem, h.variableStem, h.nextName⟩

/-- A new name leaves the stems as they are, and the counter does not become negative. -/
private lemma Starts.fresh (h : s.Starts p q) (stem : Name) : (s.fresh stem).2.Starts p q :=
  ⟨h.existentialStem, h.variableStem, h.nextName.trans (s.nextName_le_fresh stem)⟩

/-- The names are pairwise distinct, and each has one of two stems and a number from the given one
on. -/
structure DistinctFrom (p q : Name) (next : Int) (names : List Name) : Prop where
  numbered : ∀ x ∈ names, ∃ k, next ≤ k ∧ (x = p.numbered k ∨ x = q.numbered k)
  nodup : names.Nodup

/-- A new name is different from all names that are given out later.

**Proof sketch.** The new name is a stem with a number below the counter, and the later names have
numbers from the counter on. Two names of the same stem have different numbers then, and those of
different stems differ since neither stem continues the other (`Name.numbered_ne`). -/
private lemma DistinctFrom.fresh {stem : Name} (hpq : ¬ p.Continues q) (hqp : ¬ q.Continues p)
    (hs : s.Starts p q) (hstem : stem = p ∨ stem = q)
    (h : DistinctFrom p q (s.fresh stem).2.nextName names) :
    DistinctFrom p q s.nextName ((s.fresh stem).1 :: names) := by
  obtain ⟨n, ⟨⟨hn, -⟩, -⟩, hfresh⟩ := s.exists_fresh stem
  rw [hfresh] at h ⊢
  have hnonneg : 0 ≤ n := hs.nextName.trans hn
  constructor
  case numbered =>
    refine List.forall_mem_cons.mpr ⟨⟨n, hn, hstem.imp ?_ ?_⟩, fun x hx => ?_⟩
    · rintro rfl
      rfl
    · rintro rfl
      rfl
    · obtain ⟨k, hk, hx⟩ := h.numbered x hx
      have hk : n + 1 ≤ k := hk
      exact ⟨k, by omega, hx⟩
  case nodup =>
    refine List.nodup_cons.mpr ⟨fun hmem => ?_, h.nodup⟩
    obtain ⟨k, hk, hx⟩ := h.numbered _ hmem
    have hk : n + 1 ≤ k := hk
    have hself := fun r : Name => r.not_continues_self
    rcases hstem with rfl | rfl <;> rcases hx with hx | hx
    · exact Name.numbered_ne (hself _) (hself _) hnonneg (by omega) (by omega) hx
    · exact Name.numbered_ne hpq hqp hnonneg (by omega) (by omega) hx
    · exact Name.numbered_ne hqp hpq hnonneg (by omega) (by omega) hx
    · exact Name.numbered_ne (hself _) (hself _) hnonneg (by omega) (by omega) hx

/-- A run gives out no name twice if neither stem continues the other one. -/
theorem GivesOut.distinctFrom (hpq : ¬ p.Continues q) (hqp : ¬ q.Continues p)
    (h : s.GivesOut names s') (hs : s.Starts p q) : DistinctFrom p q s.nextName names := by
  induction h with
  | done => exact ⟨by simp, List.nodup_nil⟩
  | change Γ _ ih => exact ih (hs.withContext Γ)
  | existential _ ih => exact (ih (hs.fresh _)).fresh hpq hqp hs (.inl hs.existentialStem)
  | rigid _ ih => exact (ih (hs.fresh _)).fresh hpq hqp hs (.inr hs.variableStem)

/-- What a run reaches has the stems with which it began. -/
private lemma GivesOut.starts (h : s.GivesOut names s') (hs : s.Starts p q) : s'.Starts p q := by
  induction h with
  | done => exact hs
  | change Γ _ ih => exact ih (hs.withContext Γ)
  | existential _ ih | rigid _ ih => exact ih (hs.fresh _)

/-- If a stem continues another one, then two calls may give out the same name, the second one
under a context in which all smaller numbers are taken. -/
private lemma exists_collision (h : p.Continues q) (hs : s.nextName = 0) (hc : s.context = []) :
    ∃ Γ, (((s.fresh p).2.withContext Γ).fresh q).1 = (s.fresh p).1 := by
  obtain ⟨n, hn, heq⟩ := h.exists_numbered_eq
  have hfirst : s.fresh p = (p.numbered 0, { s with nextName := 0 + 1 }) :=
    fresh_of_taken (by simp [hs]) (by simp [Context.Unused, hc]) (by omega)
  let s₁ : Session := ⟨Context.numberedBelow q n, 1, s.existentialStem, s.variableStem⟩
  have hsecond : s₁.fresh q = (q.numbered n, { s₁ with nextName := n + 1 }) := by
    refine fresh_of_taken ?_ ((Context.unused_numberedBelow (by omega)).mpr (Int.le_refl _)) ?_
    · change (1 : Int) ≤ n
      omega
    · intro k hk hkn hfree
      have hk : 1 ≤ k := hk
      have := (Context.unused_numberedBelow (by omega)).mp hfree
      omega
  have hs₁ : (s.fresh p).2.withContext (Context.numberedBelow q n) = s₁ := by
    rw [hfirst]
    rfl
  exact ⟨Context.numberedBelow q n, by rw [hs₁, hsecond, hfirst, heq]⟩

end Session

/-! ## Stems -/

/-- No run with the two stems gives out a name twice. -/
def AlwaysDistinct (p q : Name) : Prop :=
  ∀ (s s' : Session) (names : List Name), s.Starts p q → s.GivesOut names s' → names.Nodup

/-- The names are always distinct exactly if neither stem continues the other one. -/
theorem alwaysDistinct_iff {p q : Name} :
    AlwaysDistinct p q ↔ ¬ p.Continues q ∧ ¬ q.Continues p := by
  constructor
  · intro h
    let s : Session := ⟨[], 0, p, q⟩
    have hs : s.Starts p q := ⟨rfl, rfl, Int.le_refl 0⟩
    refine ⟨fun hpq => ?_, fun hqp => ?_⟩
    · obtain ⟨Γ, hΓ⟩ := Session.exists_collision (s := s) hpq rfl rfl
      have hnodup := h s _ _ hs (.existential (.change Γ (.rigid (.done _))))
      exact (List.nodup_cons.mp hnodup).1 (List.mem_singleton.mpr hΓ.symm)
    · obtain ⟨Γ, hΓ⟩ := Session.exists_collision (s := s) hqp rfl rfl
      have hnodup := h s _ _ hs (.rigid (.change Γ (.existential (.done _))))
      exact (List.nodup_cons.mp hnodup).1 (List.mem_singleton.mpr hΓ.symm)
  · rintro ⟨hpq, hqp⟩ s s' names hs hrun
    exact (hrun.distinctFrom hpq hqp hs).nodup

/-- The names that a run of calls gives out. Whatever has been called before and whatever the
context is now, a new name is the stem with the least number from the counter on whose name no entry
has, assumptions apart, and the counter moves behind that number. No run gives out a name twice if
and only if neither stem is the other one with a numeral behind it, so for one and the same stem and
for `e` and `t`. -/
theorem new_names (p q : Name) :
    (∀ (s t : Session) (names : List Name), s.Starts p q → s.GivesOut names t →
      (∃ n, IsLeast (t.freeNumbers p) n ∧
        t.freshExistential = (p.numbered n, { t with nextName := n + 1 })) ∧
      ∃ n, IsLeast (t.freeNumbers q) n ∧
        t.freshVariable = (q.numbered n, { t with nextName := n + 1 })) ∧
      (AlwaysDistinct p q ↔ ¬ p.Continues q ∧ ¬ q.Continues p) ∧
      AlwaysDistinct p p ∧ AlwaysDistinct "e" "t" := by
  refine ⟨fun s t names hs hrun => ?_, alwaysDistinct_iff, ?_, ?_⟩
  · have ht := hrun.starts hs
    refine ⟨?_, ?_⟩
    · rw [← ht.existentialStem]
      exact t.exists_fresh t.existentialStem
    · rw [← ht.variableStem]
      exact t.exists_fresh t.variableStem
  · exact alwaysDistinct_iff.mpr ⟨p.not_continues_self, p.not_continues_self⟩
  · exact alwaysDistinct_iff.mpr ⟨Name.not_continues_of_not_begins (by decide),
      Name.not_continues_of_not_begins (by decide)⟩

/-- The number of `e0` is skipped, but not that of the term variable `e1`. Under another context the
number of `t2` is skipped, since a marker has this name. With the stems `x1` and `x` the names could
have been the same.

**Proof sketch.** The calls are computed one after another, which gives the run. What is claimed of
the run is the first and the last clause of `new_names`, and `x1` continues `x` by the number 1. -/
theorem new_names_default :
    let s : Session := ⟨[.assumed "e1" .unit, .rigid "e0"], 0, "e", "t"⟩
    let t : Session := ⟨[.marker "t2"], 4, "e", "t"⟩
    s.Starts "e" "t" ∧ s.GivesOut ["e1", "t3"] t ∧ ["e1", "t3"].Nodup ∧
      ((∃ n, IsLeast (t.freeNumbers "e") n ∧
        t.freshExistential = (Name.numbered "e" n, { t with nextName := n + 1 })) ∧
      ∃ n, IsLeast (t.freeNumbers "t") n ∧
        t.freshVariable = (Name.numbered "t" n, { t with nextName := n + 1 })) ∧
      ¬ AlwaysDistinct "x1" "x" := by
  intro s t
  let s₁ : Session := { s with nextName := 2 }
  have hs : s.Starts "e" "t" := ⟨rfl, rfl, Int.le_refl 0⟩
  have hfirst : s.freshExistential = ("e1", s₁) := by decide +kernel
  have hsecond : (s₁.withContext t.context).freshVariable = ("t3", t) := by decide +kernel
  have hlast : s.freshExistential.2.GivesOut ["t3"] t := by
    have hcall := Session.GivesOut.rigid (.done (s₁.withContext t.context).freshVariable.2)
    rw [hsecond] at hcall
    rw [hfirst]
    exact .change t.context hcall
  have hrun : s.GivesOut ["e1", "t3"] t := by
    have hcall := Session.GivesOut.existential hlast
    rwa [hfirst] at hcall
  obtain ⟨hleast, -, -, hdistinct⟩ := new_names "e" "t"
  refine ⟨hs, hrun, hdistinct s t _ hs hrun, hleast s t _ hs hrun, fun h => ?_⟩
  have hcontinues : Name.Continues "x1" "x" := Name.continues_iff.mpr ⟨1, by decide, rfl⟩
  exact ((new_names "x1" "x").2.1.mp h).1 hcontinues

end HigherRank
