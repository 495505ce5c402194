import HigherRank.Context.Basic

set_option autoImplicit false
set_option relaxedAutoImplicit false

/-!
# Sessions

A session is a context together with a counter for new names. New rigid variables and new
existentials have stems of their own and share the counter, which skips numbers whose name is
declared in the context.

## Main definitions

* `HigherRank.Session` — the sessions.
* `HigherRank.Session.fresh` — a new name with a given stem.
* `HigherRank.Session.freshExistential`, `HigherRank.Session.freshVariable` — new names.
* `HigherRank.Session.agrees` — equality of what a session has reached, regardless of its stems.
-/

namespace HigherRank

/-- A context, the number to try next for a new name, and the stems of new names. -/
structure Session where
  context : Context
  nextName : Int
  existentialStem : Name
  variableStem : Name
  deriving DecidableEq

namespace Session

/-! ## New names -/

/-- The names that are not given out again. -/
def takenNames (s : Session) : List Name :=
  s.context.filterMap Entry.takenName?

/-- A new name with the given stem: its number is the first one from the counter on whose name
is not taken, and the counter moves behind it. -/
def fresh (s : Session) (stem : Name) : Name × Session :=
  let candidate (k : Nat) : Name := stem.numbered (s.nextName + k)
  let k := firstUnused candidate s.takenNames
  (candidate k, { s with nextName := s.nextName + k + 1 })

/-- A new name for an existential. -/
def freshExistential (s : Session) : Name × Session :=
  s.fresh s.existentialStem

/-- A new name for a rigid variable. -/
def freshVariable (s : Session) : Name × Session :=
  s.fresh s.variableStem

/-! ## Changing the context -/

/-- The session with another context. -/
def withContext (s : Session) (Γ : Context) : Session :=
  { s with context := Γ }

/-- The session with an entry more at the right end of its context. -/
def push (s : Session) (m : Entry) : Session :=
  s.withContext (m :: s.context)

/-! ## Comparing and writing -/

/-- Whether two sessions have reached the same context and number. Their stems do not count. -/
def agrees (s t : Session) : Bool :=
  s.context = t.context ∧ s.nextName = t.nextName

/-- The literal form, which is also the display form. -/
def literal (s : Session) : String :=
  "CheckState(" ++ s.context.literal ++ ", next_name=" ++ toString s.nextName ++ ")"

end Session

end HigherRank
