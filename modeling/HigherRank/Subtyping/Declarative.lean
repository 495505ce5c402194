import HigherRank.Context.WellFormed
import HigherRank.Ty.Nameless

set_option autoImplicit false
set_option relaxedAutoImplicit false

/-!
# Declarative subtyping

Subtyping as a relation, without search: a quantified type is below each of its instances at
monotypes, and above whatever is below its body for an arbitrary variable. Types are compared up
to bound names, and existentials without a solution are constants.

## Main definitions

* `HigherRank.Declarative` — the relation.
* `HigherRank.Assignment` — the monotypes that may be put for existentials without a solution.

## Main results

* `HigherRank.Declarative.eq_of_isMono` — of monotypes only equal ones are below each other.
-/

namespace HigherRank

/-- Declarative subtyping under a context, which says what the instances of quantified types may
mention. -/
inductive Declarative : Context → Nameless → Nameless → Prop where
  | unit (Γ : Context) : Declarative Γ .unit .unit
  | var (Γ : Context) (a : Name) : Declarative Γ (.free a) (.free a)
  | evar (Γ : Context) (x : Name) : Declarative Γ (.evar x) (.evar x)
  | arr {Γ : Context} {A₁ A₂ B₁ B₂ : Nameless} :
    Declarative Γ B₁ A₁ → Declarative Γ A₂ B₂ → Declarative Γ (.arr A₁ A₂) (.arr B₁ B₂)
  | allRight {Γ : Context} {A B : Nameless} (t : Name) :
    t ∉ A.frees → t ∉ B.frees → ¬ Γ.declares t →
      Declarative (.rigid t :: Γ) A (B.opened (.free t)) → Declarative Γ A (.all B)
  | allLeft {Γ : Context} {A B : Nameless} (T : Ty) :
    T.isMono → Γ.Scopes T → Declarative Γ (A.opened T.nameless) B → Declarative Γ (.all A) B

namespace Declarative

/-- Of monotypes only equal ones are below each other. -/
theorem eq_of_isMono {Γ : Context} {A B : Nameless} (h : Declarative Γ A B) (hA : A.isMono)
    (hB : B.isMono) : A = B := by
  induction h with
  | unit | var | evar => rfl
  | arr _ _ ih₁ ih₂ =>
    simp only [Nameless.isMono, Bool.and_eq_true] at hA hB
    rw [ih₁ hB.1 hA.1, ih₂ hA.2 hB.2]
  | allRight => simp [Nameless.isMono] at hB
  | allLeft => simp [Nameless.isMono] at hA

end Declarative

/-! ## Assignments -/

/-- The existentials without a solution stand for monotypes without existentials, whose rigid
variables are declared to the left of the existential. -/
structure Assignment (Γ : Context) (θ : Name → Ty) : Prop where
  isMono : ∀ x ∈ Γ.unsolved, (θ x).isMono
  existentials : ∀ x ∈ Γ.unsolved, (θ x).existentials = []
  rigids : ∀ x left right, Γ = Context.concat (.unsolved x :: left) right →
    ∀ a ∈ (θ x).rigids, .rigid a ∈ left

/-- The nameless form of a type with the assigned types for its existentials. -/
def Ty.assigned (A : Ty) (θ : Name → Ty) : Nameless :=
  A.nameless.fillExistentials fun x => (θ x).nameless

end HigherRank
