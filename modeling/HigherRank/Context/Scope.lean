import HigherRank.Context.Hole

set_option autoImplicit false
set_option relaxedAutoImplicit false

/-!
# Scope and well-formedness

A type is well-formed under a context that declares its free variables and existentials. A
context is well-formed if every entry is new and holds a type that is well-formed under the
entries to its left.

## Main definitions

* `HigherRank.Context.lookupAssumption`, `HigherRank.Context.lookupSolution` — the type that a
  context gives a name.
* `HigherRank.Context.isWellFormedType` — the check of a type.
* `HigherRank.Context.isWellFormed` — the check of a context.

## Implementation notes

Looking up a name that has two types is a violation, so that all these functions can fail. They
do not fail on a well-formed context, and `isWellFormed` does not fail at all, since it checks
the entries from the left and stops at the first that is not admitted.
-/

namespace HigherRank.Context

/-! ## Looking up -/

/-- The types that assumptions give a term variable, from left to right. -/
def assumptionsOf (Γ : Context) (x : Name) : List Ty :=
  Γ.members.filterMap (·.assumption? x)

/-- The solutions of an existential, from left to right. -/
def solutionsOf (Γ : Context) (x : Name) : List Ty :=
  Γ.members.filterMap (·.solution? x)

/-- The only type among those found for a name, if there is one. It is a violation if there are
several; `entry` makes the entries to report. -/
def onlyType (x : Name) (entry : Ty → Entry) : List Ty → Except Violation (Option Ty)
  | [] => .ok none
  | [A] => .ok (some A)
  | As => .error (.multipleEntries x (As.map entry))

/-- The type that is assumed for a term variable. -/
def lookupAssumption (Γ : Context) (x : Name) : Except Violation (Option Ty) :=
  onlyType x (.assumed x) (Γ.assumptionsOf x)

/-- The solution of an existential. -/
def lookupSolution (Γ : Context) (x : Name) : Except Violation (Option Ty) :=
  onlyType x (.solved x) (Γ.solutionsOf x)

/-- Whether an existential is declared, with a solution or without. -/
def hasExistential (Γ : Context) (x : Name) : Except Violation Bool :=
  if .unsolved x ∈ Γ then .ok true else (Γ.lookupSolution x).map Option.isSome

/-- The types that are assumed for a term variable. -/
theorem mem_assumptionsOf {Γ : Context} {x : Name} {A : Ty} :
    A ∈ Γ.assumptionsOf x ↔ .assumed x A ∈ Γ := by
  simp [assumptionsOf, Entry.assumption?_eq_some]

/-- The solutions of an existential. -/
theorem mem_solutionsOf {Γ : Context} {x : Name} {A : Ty} :
    A ∈ Γ.solutionsOf x ↔ .solved x A ∈ Γ := by
  simp [solutionsOf, Entry.solution?_eq_some]

/-- A lookup finds only types that the context gives the name. -/
theorem solved_mem_of_lookupSolution {Γ : Context} {x : Name} {A : Ty}
    (h : Γ.lookupSolution x = .ok (some A)) : .solved x A ∈ Γ := by
  rw [← mem_solutionsOf]
  unfold lookupSolution at h
  cases hs : Γ.solutionsOf x with
  | nil => simp [hs, onlyType] at h
  | cons B Bs =>
    cases Bs with
    | nil => simp_all [onlyType]
    | cons => simp [hs, onlyType] at h

/-! ## Well-formed types -/

/-- Whether a type is well-formed under a context. Of an arrow with an ill-formed domain the
codomain is not looked at. -/
def isWellFormedType : Context → Ty → Except Violation Bool
  | _, .unit => .ok true
  | Γ, .var a => .ok (.rigid a ∈ Γ)
  | Γ, .evar x => Γ.hasExistential x
  | Γ, .arr A B =>
    match isWellFormedType Γ A with
    | .ok true => isWellFormedType Γ B
    | answer => answer
  | Γ, .all a A => isWellFormedType (.rigid a :: Γ) A

/-! ## Well-formed contexts -/

/-- Whether a type variable of this name is declared, rigid or existential. -/
def declares (Γ : Context) (x : Name) : Bool :=
  Γ.any (·.declares x)

/-- Whether a context may be extended by an entry: the entry is new, and it holds a well-formed
type, which in a solution is a monotype. -/
def admits (Γ : Context) : Entry → Except Violation Bool
  | .assumed x A =>
    if Γ.assumptionsOf x = [] then Γ.isWellFormedType A else .ok false
  | .marker x => .ok (.marker x ∉ Γ ∧ ¬ Γ.declares x)
  | .rigid x | .unsolved x => .ok (!Γ.declares x)
  | .solved x A =>
    if Γ.declares x ∨ ¬ A.isMono then .ok false else Γ.isWellFormedType A

/-- Whether every entry is admitted by the entries to its left. -/
def isWellFormed : Context → Except Violation Bool
  | [] => .ok true
  | m :: Γ =>
    match isWellFormed Γ with
    | .ok true => admits Γ m
    | answer => answer

end HigherRank.Context
