import HigherRank.Name

set_option autoImplicit false
set_option relaxedAutoImplicit false

/-!
# Types

A type is the unit type, a rigid variable, an existential (which stands for an unknown
monotype), a function type or a quantified type. Rigid variables and existentials have separate
name spaces, and quantifiers bind rigid variables only.

## Main definitions

* `HigherRank.Ty` — the types.
* `HigherRank.Ty.isMono` — whether a type has no quantifier.
* `HigherRank.Ty.rigids` — the free rigid variables of a type.
* `HigherRank.Ty.existentials` — the existentials of a type.
* `HigherRank.Ty.height`, `HigherRank.Ty.size` — the measures that bound recursions.
-/

namespace HigherRank

/-- The types. Two types are equal only if their bound names are. -/
inductive Ty where
  | unit
  | var (a : Name)
  | evar (x : Name)
  | arr (dom cod : Ty)
  | all (a : Name) (body : Ty)
  deriving DecidableEq, Inhabited

namespace Ty

/-! ## Monotypes and free names -/

/-- Whether the type is a monotype, that is, free of quantifiers. -/
def isMono : Ty → Bool
  | .unit | .var _ | .evar _ => true
  | .arr A B => A.isMono && B.isMono
  | .all _ _ => false

/-- The free rigid variables, from left to right and with repetitions. -/
def rigids : Ty → List Name
  | .unit | .evar _ => []
  | .var a => [a]
  | .arr A B => A.rigids ++ B.rigids
  | .all a A => A.rigids.filter (· ≠ a)

/-- The existentials, from left to right and with repetitions. -/
def existentials : Ty → List Name
  | .unit | .var _ => []
  | .evar x => [x]
  | .arr A B => A.existentials ++ B.existentials
  | .all _ A => A.existentials

/-- Whether the existential of this name occurs in the type. -/
def occurs (A : Ty) (x : Name) : Bool :=
  A.existentials.contains x

/-- A quantifier binds its variable and no other. -/
theorem mem_rigids_all {a b : Name} {A : Ty} :
    b ∈ (all a A).rigids ↔ b ∈ A.rigids ∧ b ≠ a := by
  simp [rigids]

/-- An existential occurs in a type if it is one of its existentials. -/
theorem occurs_iff {A : Ty} {x : Name} : A.occurs x = true ↔ x ∈ A.existentials := by
  simp [occurs]

/-! ## Measures -/

/-- The number of constructors above the deepest leaf. -/
def height : Ty → Nat
  | .unit | .var _ | .evar _ => 0
  | .arr A B => max A.height B.height + 1
  | .all _ A => A.height + 1

/-- The number of constructors. -/
def size : Ty → Nat
  | .unit | .var _ | .evar _ => 1
  | .arr A B => A.size + B.size + 1
  | .all _ A => A.size + 1

/-- A type is larger than it is high. -/
theorem height_lt_size (A : Ty) : A.height < A.size := by
  induction A with
  | unit | var | evar => simp [height, size]
  | arr A B ihA ihB => simp only [height, size]; omega
  | all a A ih => simp only [height, size]; omega

end Ty

end HigherRank
