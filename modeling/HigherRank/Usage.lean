set_option autoImplicit false
set_option relaxedAutoImplicit false

/-!
# Misuse of an operation

Some operations are given an argument of a kind that they do not take. Such misuse is an error
of its own kind, apart from a failed judgment and from a broken context.

## Main definitions

* `HigherRank.UsageError` — the misuses.
* `HigherRank.UsageError.message` — how they are reported.
-/

namespace HigherRank

/-- An argument of the wrong kind. -/
inductive UsageError where
  /-- A part of a type is absent. -/
  | missingType
  /-- The existentials of a type are asked for of which a part is absent. -/
  | missingExistentials
  /-- A plain list of entries stands where a context is needed. -/
  | plainList
  /-- A session, which may change, stands where a fixed value is needed. -/
  | changingSession
  deriving DecidableEq

/-- The report of a misuse. -/
def UsageError.message : UsageError → String
  | .missingType => "unknown kind of type: None"
  | .missingExistentials => "'NoneType' object has no attribute 'free_existentials'"
  | .plainList => "unsupported operand type(s) for +: 'Context' and 'list'"
  | .changingSession => "unhashable type: 'CheckState'"

end HigherRank
