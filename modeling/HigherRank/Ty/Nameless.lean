import HigherRank.Ty.Basic

set_option autoImplicit false
set_option relaxedAutoImplicit false

/-!
# Types up to bound names

A nameless type has indices for bound variables: an index counts the binders between a variable
and its own. Free rigid variables and existentials keep their names. Two types differ in nothing
but the names of their binders exactly if their nameless forms are equal.

## Main definitions

* `HigherRank.Nameless` — the nameless types.
* `HigherRank.Ty.nameless` — the nameless form of a type.
* `HigherRank.Ty.AlphaEq` — equality up to bound names.
* `HigherRank.Nameless.opened` — the body of a quantified type at a type.
* `HigherRank.Nameless.fill` — free variables and existentials filled in, all at once.

## Main results

* `HigherRank.Ty.mem_frees_nameless`, `HigherRank.Ty.existentials_nameless`,
  `HigherRank.Ty.isMono_nameless` — the nameless form has the free names of the type.

## Implementation notes

Only types without dangling indices are filled in for names or opened with, so that no index is
ever shifted.
-/

namespace HigherRank

/-- The types with indices for bound variables. -/
inductive Nameless where
  | unit
  | free (a : Name)
  | bound (i : Nat)
  | evar (x : Name)
  | arr (dom cod : Nameless)
  | all (body : Nameless)
  deriving DecidableEq, Inhabited

namespace Nameless

/-! ## Free names -/

/-- The free rigid variables, from left to right and with repetitions. -/
def frees : Nameless → List Name
  | .unit | .bound _ | .evar _ => []
  | .free a => [a]
  | .arr A B => A.frees ++ B.frees
  | .all A => A.frees

/-- The existentials, from left to right and with repetitions. -/
def existentials : Nameless → List Name
  | .unit | .bound _ | .free _ => []
  | .evar x => [x]
  | .arr A B => A.existentials ++ B.existentials
  | .all A => A.existentials

/-- Whether the type is free of quantifiers. -/
def isMono : Nameless → Bool
  | .unit | .bound _ | .free _ | .evar _ => true
  | .arr A B => A.isMono && B.isMono
  | .all _ => false

/-! ## Filling in and opening -/

/-- The type with a type in place of every free rigid variable and of every existential. -/
def fill (ρ θ : Name → Nameless) : Nameless → Nameless
  | .unit => .unit
  | .bound i => .bound i
  | .free a => ρ a
  | .evar x => θ x
  | .arr A B => .arr (A.fill ρ θ) (B.fill ρ θ)
  | .all A => .all (A.fill ρ θ)

/-- The type with `R` in place of one free rigid variable. -/
def replaceFree (a : Name) (R : Nameless) : Nameless → Nameless :=
  fill (fun b => if b = a then R else .free b) .evar

/-- The type with a type in place of every existential. -/
def fillExistentials (θ : Name → Nameless) : Nameless → Nameless :=
  fill .free θ

/-- The type with all free names changed. -/
def rename (r : Name → Name) : Nameless → Nameless :=
  fill (fun a => .free (r a)) (fun x => .evar (r x))

/-- The type with `R` in place of the variable that `k` binders above it do not bind. -/
def openAt (R : Nameless) : Nat → Nameless → Nameless
  | _, .unit => .unit
  | k, .bound i => if i = k then R else .bound i
  | _, .free a => .free a
  | _, .evar x => .evar x
  | k, .arr A B => .arr (openAt R k A) (openAt R k B)
  | k, .all A => .all (openAt R (k + 1) A)

/-- The body of a quantified type with `R` in place of the bound variable. -/
def opened (A R : Nameless) : Nameless :=
  openAt R 0 A

/-- Filling in every name for itself changes nothing. -/
@[simp]
theorem fill_id (A : Nameless) : A.fill .free .evar = A := by
  induction A with
  | unit | free | bound | evar => rfl
  | arr A B ihA ihB => simp [fill, ihA, ihB]
  | all A ih => simp [fill, ih]

/-- Only the names that occur in the type matter. -/
theorem fill_congr {ρ ρ' θ θ' : Name → Nameless} {A : Nameless}
    (hρ : ∀ a ∈ A.frees, ρ a = ρ' a) (hθ : ∀ x ∈ A.existentials, θ x = θ' x) :
    A.fill ρ θ = A.fill ρ' θ' := by
  induction A with
  | unit | bound => rfl
  | free a => exact hρ a (by simp [frees])
  | evar x => exact hθ x (by simp [existentials])
  | arr A B ihA ihB =>
    simp only [frees, existentials, List.mem_append] at hρ hθ
    simp only [fill]
    rw [ihA (fun a h => hρ a (.inl h)) (fun x h => hθ x (.inl h)),
      ihB (fun a h => hρ a (.inr h)) (fun x h => hθ x (.inr h))]
  | all A ih => simp only [fill]; rw [ih hρ hθ]

end Nameless

/-! ## The nameless form -/

namespace Ty

/-- The nameless form of a type below binders of the given names, the innermost one first. -/
def namelessUnder (binders : List Name) : Ty → Nameless
  | .unit => .unit
  | .var a =>
    match binders.idxOf? a with
    | some i => .bound i
    | none => .free a
  | .evar x => .evar x
  | .arr A B => .arr (A.namelessUnder binders) (B.namelessUnder binders)
  | .all a A => .all (A.namelessUnder (a :: binders))

/-- The nameless form of a type. -/
def nameless (A : Ty) : Nameless :=
  A.namelessUnder []

/-- Two types are equal up to the names of their binders. -/
def AlphaEq (A B : Ty) : Prop :=
  A.nameless = B.nameless

instance (A B : Ty) : Decidable (A.AlphaEq B) :=
  inferInstanceAs (Decidable (A.nameless = B.nameless))

/-- The free variables of a nameless form are those that no binder binds.

**Proof sketch.** Induction on the type. A variable is free exactly if it is not among the binders;
under a quantifier there is one binder more. -/
theorem mem_frees_namelessUnder {A : Ty} {binders : List Name} {a : Name} :
    a ∈ (A.namelessUnder binders).frees ↔ a ∈ A.rigids ∧ a ∉ binders := by
  induction A generalizing binders with
  | unit | evar => simp [namelessUnder, Nameless.frees, rigids]
  | var b =>
    simp only [namelessUnder, rigids, List.mem_singleton]
    cases h : binders.idxOf? b with
    | none =>
      rw [List.idxOf?_eq_none_iff] at h
      simp only [Nameless.frees, List.mem_singleton]
      exact ⟨fun hab => ⟨hab, hab ▸ h⟩, And.left⟩
    | some i =>
      have hb : b ∈ binders := by
        rw [← Decidable.not_not (p := b ∈ binders), ← List.idxOf?_eq_none_iff, h]
        simp
      simp only [Nameless.frees, List.not_mem_nil, false_iff, not_and, Decidable.not_not]
      exact fun hab => hab ▸ hb
  | arr A B ihA ihB =>
    simp only [namelessUnder, Nameless.frees, rigids, List.mem_append, ihA, ihB, or_and_right]
  | all b A ih =>
    simp only [namelessUnder, Nameless.frees, ih, mem_rigids_all, List.mem_cons, not_or,
      and_assoc]

/-- The free variables of the nameless form are those of the type. -/
theorem mem_frees_nameless {A : Ty} {a : Name} : a ∈ A.nameless.frees ↔ a ∈ A.rigids := by
  simp [nameless, mem_frees_namelessUnder]

/-- The nameless form has the existentials of the type. -/
theorem existentials_namelessUnder (A : Ty) (binders : List Name) :
    (A.namelessUnder binders).existentials = A.existentials := by
  induction A generalizing binders with
  | unit | evar => rfl
  | var b =>
    simp only [namelessUnder]
    cases binders.idxOf? b <;> rfl
  | arr A B ihA ihB =>
    simp [namelessUnder, Nameless.existentials, existentials, ihA, ihB]
  | all b A ih => simp [namelessUnder, Nameless.existentials, existentials, ih]

/-- The existentials of the nameless form are those of the type. -/
@[simp]
theorem existentials_nameless (A : Ty) : A.nameless.existentials = A.existentials :=
  existentials_namelessUnder A []

/-- The nameless form has quantifiers exactly if the type has. -/
theorem isMono_namelessUnder (A : Ty) (binders : List Name) :
    (A.namelessUnder binders).isMono = A.isMono := by
  induction A generalizing binders with
  | unit | evar => rfl
  | var b =>
    simp only [namelessUnder]
    cases binders.idxOf? b <;> rfl
  | arr A B ihA ihB => simp [namelessUnder, Nameless.isMono, isMono, ihA, ihB]
  | all b A => rfl

/-- The nameless form of a type is free of quantifiers exactly if the type is. -/
@[simp]
theorem isMono_nameless (A : Ty) : A.nameless.isMono = A.isMono :=
  isMono_namelessUnder A []

end Ty

end HigherRank
