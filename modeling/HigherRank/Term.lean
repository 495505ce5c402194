import HigherRank.Ty.Printer

set_option autoImplicit false
set_option relaxedAutoImplicit false

/-!
# Terms

The terms that the types are about. Subtyping does not look at terms; contexts name their
variables in assumptions.

## Main definitions

* `HigherRank.Term` — the terms.
* `HigherRank.Term.freeVariables` — the free term variables.
* `HigherRank.Term.children` — the direct subterms.
* `HigherRank.Term.text`, `HigherRank.Term.literal` — the display form and the literal form.
-/

namespace HigherRank

/-- The terms: the unit value, variables, annotated terms, functions and applications. -/
inductive Term where
  | unit
  | var (x : Name)
  | ann (e : Term) (A : Ty)
  | lam (x : Name) (body : Term)
  | app (fn arg : Term)
  deriving DecidableEq, Inhabited

namespace Term

/-- The free variables, from left to right and with repetitions. Type variables do not count. -/
def freeVariables : Term → List Name
  | .unit => []
  | .var x => [x]
  | .ann e _ => e.freeVariables
  | .lam x e => e.freeVariables.filter (· ≠ x)
  | .app f e => f.freeVariables ++ e.freeVariables

/-- The direct subterms, from left to right. -/
def children : Term → List Term
  | .unit | .var _ => []
  | .ann e _ | .lam _ e => [e]
  | .app f e => [f, e]

/-- The display form, with every compound term in brackets. -/
def text : Term → String
  | .unit => "()"
  | .var x => x
  | .ann e A => "(" ++ e.text ++ " : " ++ A.text ++ ")"
  | .lam x e => "(\\" ++ x ++ ". " ++ e.text ++ ")"
  | .app f e => "(" ++ f.text ++ " " ++ e.text ++ ")"

/-- The literal form. -/
def literal : Term → String
  | .unit => "UnitExpr()"
  | .var x => "VarExpr(" ++ Text.quote x ++ ")"
  | .ann e A => "Ann(" ++ e.literal ++ ", " ++ A.literal ++ ")"
  | .lam x e => "Lam(" ++ Text.quote x ++ ", " ++ e.literal ++ ")"
  | .app f e => "App(" ++ f.literal ++ ", " ++ e.literal ++ ")"

end Term

end HigherRank
