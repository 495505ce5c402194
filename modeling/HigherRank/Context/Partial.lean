import HigherRank.Context.Apply

set_option autoImplicit false
set_option relaxedAutoImplicit false

/-!
# Types with parts missing

A type that comes from outside may have parts missing. Checking it and applying a context to it
fail where they reach such a part, and go on as usual where they do not.

## Main definitions

* `HigherRank.PartialTy` — types with parts missing.
* `HigherRank.PartialTy.toTy?` — the type itself, if nothing is missing.
* `HigherRank.Context.isWellFormedPartial`, `HigherRank.Context.applyPartial` — the operations
  of contexts on them.
-/

namespace HigherRank

/-- A type of which parts may be missing. -/
inductive PartialTy where
  | missing
  | whole (A : Ty)
  | arr (dom cod : PartialTy)
  | all (a : Name) (body : PartialTy)

/-- The type, if no part of it is missing. -/
def PartialTy.toTy? : PartialTy → Option Ty
  | .missing => none
  | .whole A => some A
  | .arr A B => do
    let A' ← A.toTy?
    let B' ← B.toTy?
    pure (.arr A' B')
  | .all a A => A.toTy?.map (.all a)

/-- Why an operation on a type with parts missing fails. -/
inductive PartialError where
  | usage (e : UsageError)
  | violation (e : Violation)

namespace Context

/-- A result on a type as one on a type of which parts may be missing. -/
def ofWhole {α : Type} : Except Violation α → Except PartialError α :=
  Except.mapError .violation

/-- Whether a type is well-formed under a context. A missing part is an error, unless it is in
the codomain of an arrow with an ill-formed domain. -/
def isWellFormedPartial : Context → PartialTy → Except PartialError Bool
  | _, .missing => .error (.usage .missingType)
  | Γ, .whole A => ofWhole (Γ.isWellFormedType A)
  | Γ, .arr A B =>
    match isWellFormedPartial Γ A with
    | .ok true => isWellFormedPartial Γ B
    | answer => answer
  | Γ, .all a A => isWellFormedPartial (.rigid a :: Γ) A

/-- The application of a context, which fails at the first missing part. Under a quantifier any
missing part comes before all that is to be looked up, since the search for clashes with the
binder asks for the existentials of the whole body. -/
def applyPartial : Context → PartialTy → Except PartialError Ty
  | _, .missing => .error (.usage .missingType)
  | Γ, .whole A => ofWhole (Γ.apply A)
  | Γ, .arr A B => do
    let A' ← applyPartial Γ A
    let B' ← applyPartial Γ B
    pure (.arr A' B')
  | Γ, .all a A =>
    match A.toTy? with
    | some A' => ofWhole (Γ.apply (.all a A'))
    | none => .error (.usage .missingExistentials)

end Context

end HigherRank
