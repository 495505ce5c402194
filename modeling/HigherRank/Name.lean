set_option autoImplicit false
set_option relaxedAutoImplicit false

/-!
# Names

Names are arbitrary strings, compared code point by code point. A new name is found by trying
candidates in order until one is not in use.

## Main definitions

* `HigherRank.firstUnused` — the number of the first candidate that is not in use.
* `HigherRank.Name.unused` — a name, primed until it is not in use.
* `HigherRank.Name.sorted` — the names of a list, in order and each once.

## Main results

* `HigherRank.firstUnused_least` — every earlier candidate is in use.
-/

namespace HigherRank

/-- The name of a type variable, of an existential or of a term variable. -/
abbrev Name := String

/-! ## The search for an unused name -/

/-- The number of the first candidate that is not among the names in use. As long as the
candidates are distinct, one of the first `used.length + 1` of them is free. -/
def firstUnused (candidate : Nat → Name) (used : List Name) : Nat :=
  ((List.range (used.length + 1)).find? fun k => !used.contains (candidate k)).getD used.length

/-- Every candidate before the chosen one is in use. -/
theorem firstUnused_least (candidate : Nat → Name) (used : List Name) (k : Nat)
    (hk : k < firstUnused candidate used) : candidate k ∈ used := by
  unfold firstUnused at hk
  cases h : (List.range (used.length + 1)).find? fun k => !used.contains (candidate k) with
  | none =>
    rw [h, Option.getD_none] at hk
    have := List.find?_eq_none.mp h k (List.mem_range.mpr (by omega))
    simpa using this
  | some m =>
    rw [h, Option.getD_some] at hk
    rw [List.find?_range_eq_some] at h
    simpa using h.2.2 k hk

/-! ## Primed and numbered names -/

namespace Name

/-- The name with `k` primes behind it. -/
def primed (x : Name) (k : Nat) : Name :=
  x ++ String.ofList (List.replicate k '\x27')

/-- The name with as few primes behind it as keep it apart from the names in use. -/
def unused (x : Name) (used : List Name) : Name :=
  x.primed (firstUnused x.primed used)

/-- The stem with a decimal number behind it. -/
def numbered (stem : Name) (n : Int) : Name :=
  stem ++ toString n

/-! ## Lists of names -/

/-- The names of a list in code point order, each once. -/
def sorted (xs : List Name) : List Name :=
  (xs.mergeSort fun x y => decide (x ≤ y)).eraseDups

end Name

end HigherRank
