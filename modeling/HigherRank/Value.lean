import HigherRank.Session
import HigherRank.Term

set_option autoImplicit false
set_option relaxedAutoImplicit false

/-!
# Values of all kinds

The values that a user of the library handles, taken together so that they can be compared and
written whatever their kind.

## Main definitions

* `HigherRank.Value` — the values.
* `HigherRank.Value.same` — equality. Values of different kinds are never equal.
* `HigherRank.Value.text`, `HigherRank.Value.literal` — the written forms.
* `HigherRank.Value.firstIndices` — which items of a list are repetitions.
-/

namespace HigherRank

/-- The values of all kinds. -/
inductive Value where
  | type (A : Ty)
  | entry (m : Entry)
  | context (Γ : Context)
  | term (e : Term)
  | session (s : Session)
  | string (s : String)

namespace Value

/-- Whether two values are of the same kind and equal. -/
def same : Value → Value → Bool
  | .type A, .type B => A = B
  | .entry m, .entry n => m = n
  | .context Γ, .context Δ => Γ = Δ
  | .term e, .term f => e = f
  | .session s, .session t => s.agrees t
  | .string s, .string t => s = t
  | _, _ => false

/-- The display form. That of a session is its literal form. -/
def text : Value → String
  | .type A => A.text
  | .entry m => m.text
  | .context Γ => Γ.text
  | .term e => e.text
  | .session s => s.literal
  | .string s => s

/-- The literal form. -/
def literal : Value → String
  | .type A => A.literal
  | .entry m => m.literal
  | .context Γ => Γ.literal
  | .term e => e.literal
  | .session s => s.literal
  | .string s => Text.quote s

/-- Whether the value may change, so that it cannot be looked up by what it is now. -/
def isChanging : Value → Bool
  | .session _ => true
  | _ => false

/-- For each item of a list the index of the first item equal to it. -/
def firstIndices (vs : List Value) : Except UsageError (List Nat) :=
  if vs.any isChanging then .error .changingSession
  else .ok (vs.map fun v => vs.findIdx (same · v))

end Value

end HigherRank
