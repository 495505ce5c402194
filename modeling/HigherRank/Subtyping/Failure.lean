import HigherRank.Context.Hole

set_option autoImplicit false
set_option relaxedAutoImplicit false

/-!
# Failures of subtyping

A subtyping query fails if its judgment does not hold. It can also meet a broken context, which
is not about the types that are compared.

## Main definitions

* `HigherRank.SubtypingError` — why a judgment does not hold.
* `HigherRank.SubtypingError.message`, `HigherRank.SubtypingError.occursCheckFailed`,
  `HigherRank.SubtypingError.query` — what is reported of it.
* `HigherRank.Failure` — the ways in which a query can end without a result.
-/

namespace HigherRank

/-- Why a subtyping judgment does not hold. -/
inductive SubtypingError where
  /-- No rule relates the two types. -/
  | mismatch (A B : Ty)
  /-- The existential would be solved to a type in which it occurs. -/
  | occurs (x : Name) (A : Ty)
  /-- The existential would be solved to a type with quantifiers. -/
  | polymorphic (x : Name) (A : Ty)
  /-- The type mentions something that is declared after the existential. -/
  | escapes (x : Name) (A : Ty)
  deriving DecidableEq

namespace SubtypingError

/-- The report of a failed judgment. -/
def message : SubtypingError → String
  | .mismatch A B => A.text ++ " cannot be a subtype of " ++ B.text
  | .occurs x A =>
    "^" ++ x ++ " cannot be solved to " ++ A.text ++ " because it would form a recursive type"
  | .polymorphic x A =>
    "^" ++ x ++ " cannot be solved to " ++ A.text ++ " because it is polymorphic"
  | .escapes x A => A.text ++ " is not in scope where ^" ++ x ++ " was declared"

/-- Whether the failure is one of the occurs check. The question does not arise where no
existential was to be solved. -/
def occursCheckFailed : SubtypingError → Option Bool
  | .mismatch _ _ => none
  | .occurs _ _ => some true
  | .polymorphic _ _ | .escapes _ _ => some false

/-- The two types that were compared: an existential comes first. -/
def query : SubtypingError → Ty × Ty
  | .mismatch A B => (A, B)
  | .occurs x A | .polymorphic x A | .escapes x A => (.evar x, A)

end SubtypingError

/-- How a subtyping query can end without a result. -/
inductive Failure where
  /-- The judgment does not hold. -/
  | judgment (e : SubtypingError)
  /-- The context is broken. -/
  | violation (v : Violation)
  /-- The bound on the recursion was reached. -/
  | exhausted
  deriving DecidableEq

end HigherRank
