import HigherRank.Context.Basic

set_option autoImplicit false
set_option relaxedAutoImplicit false

/-!
# Holes

A hole takes one entry out of a context and gives the parts to its left and right. The entry is
found at its first occurrence from the left.

## Main definitions

* `HigherRank.Violation` — how a context can turn out to be broken.
* `HigherRank.Context.hole`, `HigherRank.Context.splitAt`, `HigherRank.Context.hole₂` — the
  parts of a context around an entry, if it is there.
* `HigherRank.Context.excise` — the same, where the entry has to be there.
* `HigherRank.Context.replace`, `HigherRank.Context.truncate`, `HigherRank.Context.solve` — the
  changes of a context at an entry.

## Main results

* `HigherRank.Context.hole_eq_some_iff` — a hole takes the context apart at the first occurrence.
* `HigherRank.Context.hole_eq_none_iff` — there is no hole exactly if the entry is not there.
-/

namespace HigherRank

/-- A broken context. No context that satisfies its invariants gives rise to one. -/
inductive Violation where
  /-- A name has more than one type; all entries that give it one, from left to right. -/
  | multipleEntries (x : Name) (entries : List Entry)
  /-- An entry that has to be in the context is not there. -/
  | missingEntry (m : Entry)
  deriving DecidableEq

/-- The report of a broken context. -/
def Violation.message : Violation → String
  | .multipleEntries x entries =>
    "internal error: multiple types for variable " ++ x ++ ": " ++
      Text.bracketed (entries.map Entry.literal)
  | .missingEntry m => "internal error: " ++ m.text ++ " is no longer in the context"

namespace Context

/-! ## Holes that may be missing -/

/-- The parts to the left and to the right of the first occurrence of an entry. -/
def hole : Context → Entry → Option (Context × Context)
  | [], _ => none
  | n :: Γ, m =>
    match hole Γ m with
    | some (left, right) => some (left, n :: right)
    | none => if n = m then some (Γ, []) else none

/-- The part to the left of the first occurrence of an entry, and the part that starts with it. -/
def splitAt (Γ : Context) (m : Entry) : Option (Context × Context) :=
  (Γ.hole m).map fun (left, right) => (left, concat [m] right)

/-- The three parts around the first occurrence of an entry and the first occurrence of another
to the right of it. -/
def hole₂ (Γ : Context) (m₁ m₂ : Entry) : Option (Context × Context × Context) :=
  match Γ.hole m₁ with
  | none => none
  | some (left, rest) => (rest.hole m₂).map fun (mid, right) => (left, mid, right)

/-- A context can be split at the entries that it has and at no others. -/
theorem hole_eq_none_iff {Γ : Context} {m : Entry} : Γ.hole m = none ↔ m ∉ Γ := by
  induction Γ with
  | nil => simp [hole]
  | cons n Γ ih =>
    simp only [hole]
    cases h : hole Γ m with
    | none =>
      rw [h] at ih
      simp only [true_iff] at ih
      simp [ih, eq_comm]
    | some p =>
      rw [h] at ih
      simp only [reduceCtorEq, false_iff, Decidable.not_not] at ih
      simp [ih]

/-- A hole takes the context apart at the first occurrence of the entry.

**Proof sketch.** Induction on the context, by whether the rest has a hole. If it has none, then the
entry is not in the rest, and only the newest entry can be the one that is sought. If it has one,
then the entry is in the rest, so that it cannot be missing to the left of the newest entry, and the
hole is that of the rest. -/
theorem hole_eq_some_iff {Γ left right : Context} {m : Entry} :
    Γ.hole m = some (left, right) ↔ Γ = concat (m :: left) right ∧ m ∉ left := by
  induction Γ generalizing right with
  | nil => simp [hole, concat]
  | cons n Γ ih =>
    simp only [hole]
    cases h : hole Γ m with
    | none =>
      have hm := hole_eq_none_iff.mp h
      constructor
      · intro hsome
        simp only [Option.ite_none_right_eq_some, Option.some.injEq, Prod.mk.injEq] at hsome
        obtain ⟨rfl, rfl, rfl⟩ := hsome
        exact ⟨rfl, hm⟩
      · rintro ⟨heq, hleft⟩
        cases right with
        | nil =>
          simp only [concat, List.nil_append, List.cons.injEq] at heq
          simp [heq.1, heq.2]
        | cons r right =>
          simp only [concat, List.cons_append, List.cons.injEq] at heq
          simp [heq.2] at hm
    | some p =>
      obtain ⟨left', right'⟩ := p
      have hmem : m ∈ Γ := by
        rw [← Decidable.not_not (p := m ∈ Γ), ← hole_eq_none_iff, h]
        simp
      constructor
      · intro hsome
        simp only [Option.some.injEq, Prod.mk.injEq] at hsome
        obtain ⟨rfl, rfl⟩ := hsome
        have := ih.mp h
        simp [concat, this.1, this.2]
      · rintro ⟨heq, hleft⟩
        cases right with
        | nil =>
          simp only [concat, List.nil_append, List.cons.injEq] at heq
          exact absurd hmem (heq.2 ▸ hleft)
        | cons r right =>
          simp only [concat, List.cons_append, List.cons.injEq] at heq
          have := ih.mpr ⟨heq.2, hleft⟩
          rw [h] at this
          simp only [Option.some.injEq, Prod.mk.injEq] at this
          simp [heq.1, this.1, this.2]

/-! ## Holes that have to be there -/

/-- The parts to the left and to the right of the first occurrence of an entry that has to be in
the context. -/
def excise (Γ : Context) (m : Entry) : Except Violation (Context × Context) :=
  match Γ.hole m with
  | some parts => .ok parts
  | none => .error (.missingEntry m)

/-- The context with the given entries, from left to right, in the place of an entry. -/
def replace (Γ : Context) (m : Entry) (ms : List Entry) : Except Violation Context :=
  (Γ.excise m).map fun (left, right) => (left.concat (ofMembers ms)).concat right

/-- The part to the left of an entry. -/
def truncate (Γ : Context) (m : Entry) : Except Violation Context :=
  (Γ.excise m).map Prod.fst

/-- The context with a solution for an existential, in the place where it was declared. -/
def solve (Γ : Context) (x : Name) (A : Ty) : Except Violation Context :=
  Γ.replace (.unsolved x) [.solved x A]

end Context

end HigherRank
