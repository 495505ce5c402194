import HigherRank.Context.Scope
import HigherRank.Session
import Mathlib.Data.List.Nodup
import Mathlib.Data.List.Perm.Subperm
import Mathlib.Tactic.Common

set_option autoImplicit false
set_option relaxedAutoImplicit false

/-!
# New names are new

The candidates among which a new name is looked for are pairwise distinct, so that one of the
first of them is not in use, and the search ends there.

## Main definitions

* `HigherRank.Context.Unused` — the names that no entry of a context keeps from being generated.
* `HigherRank.Session.Issued` — the names that a session may give out until it has reached a
  given number.

## Main results

* `HigherRank.firstUnused_not_mem` — the chosen candidate is not in use.
* `HigherRank.Name.unused_not_mem` — a primed name is not in use.
* `HigherRank.Session.fresh_unused`, `HigherRank.Session.fresh_issued` — a new name of a session.
-/

namespace HigherRank

/-! ## The search for an unused name -/

/-- Of distinct candidates the chosen one is not in use.

**Proof sketch.** If the search finds a candidate, that one is not in use. If it finds none, the
first `used.length + 1` candidates are all in use, and since they are distinct that is one too
many. -/
theorem firstUnused_not_mem {candidate : Nat → Name} (hinj : Function.Injective candidate)
    (used : List Name) : candidate (firstUnused candidate used) ∉ used := by
  unfold firstUnused
  cases h : (List.range (used.length + 1)).find? fun k => !used.contains (candidate k) with
  | some k =>
    have hk := List.find?_some h
    simpa using hk
  | none =>
    have hall : ∀ k ∈ List.range (used.length + 1), candidate k ∈ used := by
      intro k hk
      have := List.find?_eq_none.mp h k hk
      simpa using this
    have hnodup : ((List.range (used.length + 1)).map candidate).Nodup :=
      List.Nodup.map hinj List.nodup_range
    have hsub : (List.range (used.length + 1)).map candidate ⊆ used := by
      intro x hx
      obtain ⟨k, hk, rfl⟩ := List.mem_map.mp hx
      exact hall k hk
    have hlen := (List.subperm_of_subset hnodup hsub).length_le
    simp only [List.length_map, List.length_range] at hlen
    omega

/-- It only matters which of the candidates are in use. -/
lemma firstUnused_congr {candidate : Nat → Name} (hinj : Function.Injective candidate)
    {used used' : List Name} (h : ∀ k, candidate k ∈ used ↔ candidate k ∈ used') :
    firstUnused candidate used = firstUnused candidate used' := by
  rcases Nat.lt_trichotomy (firstUnused candidate used) (firstUnused candidate used') with
    hlt | heq | hgt
  · exact absurd ((h _).mpr (firstUnused_least _ _ _ hlt)) (firstUnused_not_mem hinj used)
  · exact heq
  · exact absurd ((h _).mp (firstUnused_least _ _ _ hgt)) (firstUnused_not_mem hinj used')

namespace Name

/-! ## Primed and numbered names -/

/-- Names with different numbers of primes are different. -/
private lemma primed_injective (x : Name) : Function.Injective x.primed := by
  intro j k h
  have hlen := congrArg String.length h
  simpa [primed] using hlen

/-- A primed name is not in use. -/
theorem unused_not_mem (x : Name) (used : List Name) : x.unused used ∉ used :=
  firstUnused_not_mem (primed_injective x) used

/-- For any names in use there is one that is not. -/
lemma exists_not_mem (used : List Name) : ∃ x : Name, x ∉ used :=
  ⟨_, unused_not_mem "" used⟩

/-- Different numbers have different decimal digits. -/
private lemma natRepr_injective {m n : Nat} (h : m.repr = n.repr) : m = n := by
  have hlist := congrArg String.toList h
  simp only [Nat.toList_repr] at hlist
  have hdigits := congrArg (Nat.ofDigitChars 10 · 0) hlist
  simpa using hdigits

/-- The decimal numeral of a natural number does not start with a sign. -/
private lemma natRepr_ne_minus_append (n : Nat) (s : String) : n.repr ≠ "-" ++ s := by
  intro h
  have hlist : Nat.toDigits 10 n = '-' :: s.toList := by
    simpa using congrArg String.toList h
  have hdigit : ('-').isDigit :=
    Nat.isDigit_of_mem_toDigits (by decide) (by decide) (hlist ▸ List.mem_cons_self)
  exact absurd hdigit (by decide)

/-- Different numbers have different decimal numerals. -/
lemma intRepr_injective {m n : Int} (h : m.repr = n.repr) : m = n := by
  rw [Int.repr_eq_if, Int.repr_eq_if] at h
  split at h <;> split at h
  · have := natRepr_injective h
    omega
  · exact absurd h (natRepr_ne_minus_append _ _)
  · exact absurd h.symm (natRepr_ne_minus_append _ _)
  · have := natRepr_injective (String.append_right_inj _ |>.mp h)
    omega

/-- Names of the same stem with different numbers are different. -/
lemma numbered_injective (stem : Name) : Function.Injective stem.numbered := by
  intro m n h
  simp only [numbered, Int.toString_eq_repr] at h
  exact intRepr_injective (String.append_right_inj _ |>.mp h)

end Name

/-! ## Names that a context keeps from being generated -/

/-- No entry keeps the name from being generated. -/
def Context.Unused (Γ : Context) (x : Name) : Prop :=
  ∀ m ∈ Γ, m.takenName? ≠ some x

instance (Γ : Context) (x : Name) : Decidable (Γ.Unused x) :=
  inferInstanceAs (Decidable (∀ m ∈ Γ, m.takenName? ≠ some x))

namespace Context.Unused

variable {Γ : Context} {x : Name}

/-- No existential of an unused name is declared. -/
lemma unsolved_not_mem (h : Γ.Unused x) : .unsolved x ∉ Γ :=
  fun hm => h _ hm rfl

/-- No scope is marked with an unused name. -/
lemma marker_not_mem (h : Γ.Unused x) : .marker x ∉ Γ :=
  fun hm => h _ hm rfl

/-- A name that may be generated is not declared. -/
lemma not_declares (h : Γ.Unused x) : ¬ Γ.declares x := by
  intro hx
  obtain ⟨m, hm, hmx⟩ := List.any_eq_true.mp hx
  exact h m hm (Entry.takenName?_of_declares hmx)

/-- A name that is unused stays so with fewer entries. -/
lemma mono {Δ : Context} (h : Γ.Unused x) (hsub : Δ ⊆ Γ) : Δ.Unused x :=
  fun m hm => h m (hsub hm)

end Context.Unused

/-! ## New names of a session -/

namespace Session

/-- The name has one of the numbers that the session may use before it reaches the given one. -/
def Issued (s : Session) (stem : Name) (next : Int) (x : Name) : Prop :=
  ∃ k : Int, s.nextName ≤ k ∧ k < next ∧ x = stem.numbered k

/-- A name that may be given out between two numbers may be given out between an earlier and a later
one. -/
lemma Issued.mono {s t : Session} {stem : Name} {next next' : Int} {x : Name}
    (h : t.Issued stem next x) (hs : s.nextName ≤ t.nextName) (hnext : next ≤ next') :
    s.Issued stem next' x := by
  obtain ⟨k, hk, hk', rfl⟩ := h
  exact ⟨k, by omega, by omega, rfl⟩

variable (s : Session) (stem : Name)

/-- The candidates for a new name are distinct. -/
lemma candidate_injective : Function.Injective fun k : Nat => stem.numbered (s.nextName + k) := by
  intro j k h
  have := Name.numbered_injective stem h
  omega

/-- A new name is not in use in the context. -/
theorem fresh_unused : s.context.Unused (s.fresh stem).1 := by
  intro m hm htaken
  exact firstUnused_not_mem (s.candidate_injective stem) s.takenNames
    (List.mem_filterMap.mpr ⟨m, hm, htaken⟩)

/-- A new name has a number that the session had not passed before. -/
theorem fresh_issued : s.Issued stem (s.fresh stem).2.nextName (s.fresh stem).1 :=
  ⟨_, Int.le_add_of_nonneg_right (Int.natCast_nonneg _), by simp only [fresh]; omega, rfl⟩

/-- The counter moves on with every new name. -/
lemma nextName_le_fresh : s.nextName ≤ (s.fresh stem).2.nextName := by
  simp only [fresh]
  omega

end Session

end HigherRank
