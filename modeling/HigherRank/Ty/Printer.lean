import HigherRank.Text.Quoted
import HigherRank.Ty.Basic

set_option autoImplicit false
set_option relaxedAutoImplicit false

/-!
# The text of a type

Types have two written forms. The display form drops the brackets that the reading rules make
unnecessary: arrows associate to the right and a quantifier reaches as far as it can. The literal
form is a nest of constructor calls with quoted names.

## Main definitions

* `HigherRank.Ty.Slot` — where a type stands in the type around it.
* `HigherRank.Ty.text` — the display form.
* `HigherRank.Ty.literal` — the literal form.
-/

namespace HigherRank.Ty

/-! ## The display form -/

/-- Where a type stands: by itself, to the right of an arrow, or to the left of one. -/
inductive Slot where
  | whole
  | codomain
  | domain
  deriving DecidableEq

/-- The display form of an arrow, in brackets to the left of another arrow. -/
def Slot.arrowText : Slot → String → String
  | .domain, s => Text.enclose s
  | _, s => s

/-- The display form of a quantified type, in brackets on either side of an arrow. -/
def Slot.quantifierText : Slot → String → String
  | .whole, s => s
  | _, s => Text.enclose s

/-- The display form of a type that stands in a slot. -/
def textIn : Ty → Slot → String
  | .unit, _ => "1"
  | .var a, _ => a
  | .evar x, _ => "^" ++ x
  | .arr A B, slot => slot.arrowText (A.textIn .domain ++ " -> " ++ B.textIn .codomain)
  | .all a A, slot => slot.quantifierText ("forall " ++ a ++ ". " ++ A.textIn .whole)

/-- The display form. -/
def text (A : Ty) : String :=
  A.textIn .whole

/-! ## The literal form -/

/-- The literal form. -/
def literal : Ty → String
  | .unit => "Unit()"
  | .var a => "Var(" ++ Text.quote a ++ ")"
  | .evar x => "EVar(" ++ Text.quote x ++ ")"
  | .arr A B => "Arr(" ++ A.literal ++ ", " ++ B.literal ++ ")"
  | .all a A => "All(" ++ Text.quote a ++ ", " ++ A.literal ++ ")"

end HigherRank.Ty
