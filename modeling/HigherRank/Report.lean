import HigherRank.Subtyping.Failure

set_option autoImplicit false
set_option relaxedAutoImplicit false

/-!
# Error reports

A report is what a caller gets to see of an error: a message, and for a failed judgment the types
that were compared and whether the occurs check failed.

## Main definitions

* `HigherRank.JudgmentReport` — the report of a failed judgment.
* `HigherRank.Report` — the reports of all kinds, with `isStatic`, `isTypeError` and
  `isRuntimeError` to tell them apart.
* `HigherRank.Report.literal` — the literal form.
-/

namespace HigherRank

/-! ## Failed judgments -/

/-- The report of a failed judgment. The answer to whether the occurs check failed, and the types
that were compared, may be missing. -/
structure JudgmentReport where
  message : String
  occursCheckFailed : Option Bool
  query : Option (Ty × Ty)
  deriving DecidableEq

/-- The report of a failure of the engine. -/
def SubtypingError.report (e : SubtypingError) : JudgmentReport :=
  ⟨e.message, e.occursCheckFailed, some e.query⟩

namespace JudgmentReport

/-- The literal form of a truth value that may be missing. -/
def flagLiteral : Option Bool → String
  | none => "None"
  | some true => "True"
  | some false => "False"

/-- The literal form of a pair of types that may be missing. -/
def queryLiteral : Option (Ty × Ty) → String
  | none => "None"
  | some (A, B) => Text.enclose (A.literal ++ ", " ++ B.literal)

/-- The literal form. -/
def literal (r : JudgmentReport) : String :=
  "TypeError(" ++ Text.quote r.message ++
    ", is_occurs_check_fail=" ++ flagLiteral r.occursCheckFailed ++
    ", query=" ++ queryLiteral r.query ++ ")"

end JudgmentReport

/-! ## Reports of all kinds -/

/-- The reports of errors. -/
inductive Report where
  /-- An error in what was to be checked, of no special kind. -/
  | static (message : String)
  /-- A broken context, which is no error in what was to be checked. -/
  | invariant (message : String)
  /-- A failed judgment. -/
  | judgment (r : JudgmentReport)
  deriving DecidableEq

namespace Report

/-- The message, which is also the display form. -/
def message : Report → String
  | .static s | .invariant s => s
  | .judgment r => r.message

/-- The literal form. -/
def literal : Report → String
  | .static s => "StaticAnalysisError(" ++ Text.quote s ++ ")"
  | .invariant s => "InvariantViolationError(" ++ Text.quote s ++ ")"
  | .judgment r => r.literal

/-- Whether the report is about what was to be checked. -/
def isStatic : Report → Bool
  | .static _ | .judgment _ => true
  | .invariant _ => false

/-- Whether the report is about types that do not fit. -/
def isTypeError : Report → Bool
  | .judgment _ => true
  | .static _ | .invariant _ => false

/-- Whether the report is about the run of the checker itself. -/
def isRuntimeError : Report → Bool
  | .invariant _ => true
  | .static _ | .judgment _ => false

end Report

end HigherRank
