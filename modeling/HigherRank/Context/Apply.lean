import HigherRank.Context.Scope
import HigherRank.Ty.Subst

set_option autoImplicit false
set_option relaxedAutoImplicit false

/-!
# Applying a context to a type

A context is applied to a type by replacing every existential that has a solution, and the
existentials of the solution in turn, until no existential with a solution is left.

## Main definitions

* `HigherRank.Context.apply` — the type with all solutions filled in.

## Implementation notes

A solution may mention existentials to its left, so that the recursion is not on the type. It is
on a bound of its depth: the height of the type and that of every solution, one solution after
the other. It suffices unless solutions refer to each other in a circle.
-/

namespace HigherRank.Context

/-- The depth that the solutions of a context can add to a type. -/
def solutionDepth : Context → Nat
  | [] => 0
  | .solved _ A :: Γ => A.height + 1 + solutionDepth Γ
  | .rigid _ :: Γ | .assumed _ _ :: Γ | .unsolved _ :: Γ | .marker _ :: Γ => solutionDepth Γ

/-- The free rigid variables of all types of a list. -/
def rigidsOfAll (As : List Ty) : List Name :=
  As.flatMap Ty.rigids

/-- The application of a context with a bound on the depth of the recursion.

A solution may mention a rigid variable of the name of a binder above it. Then the binder is
renamed first, apart from the variables of the solutions and of its body. -/
def applyWithin : Nat → Context → Ty → Except Violation Ty
  | 0, _, A => .ok A
  | _ + 1, _, .unit => .ok .unit
  | _ + 1, _, .var a => .ok (.var a)
  | n + 1, Γ, .evar x => do
    match ← Γ.lookupSolution x with
    | none => pure (.evar x)
    | some A => applyWithin n Γ A
  | n + 1, Γ, .arr A B => do
    let A' ← applyWithin n Γ A
    let B' ← applyWithin n Γ B
    pure (.arr A' B')
  | n + 1, Γ, .all a A => do
    let solutions ← A.existentials.eraseDups.mapM fun x => applyWithin n Γ (.evar x)
    let solved := rigidsOfAll solutions
    if a ∈ solved then
      let a' := a.unused (solved ++ A.rigids)
      let A' ← applyWithin n Γ (A.subst a (.var a'))
      pure (.all a' A')
    else
      let A' ← applyWithin n Γ A
      pure (.all a A')

/-- The type with every solution of the context filled in, and no solved existential left. -/
def apply (Γ : Context) (A : Ty) : Except Violation Ty :=
  applyWithin (A.height + Γ.solutionDepth + 1) Γ A

end HigherRank.Context
