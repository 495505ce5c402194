import HigherRank.Proofs.Rules

set_option autoImplicit false
set_option relaxedAutoImplicit false

/-!
# Measures of types and contexts

How high a type is, how many arrows and quantifiers it has, and how many existentials of a context
have no solution, with what filling in, opening and applying a context do to these numbers.

## Main definitions

* `HigherRank.Nameless.height`, `HigherRank.Nameless.arrows`, `HigherRank.Nameless.quantifiers` —
  the measures of a type.
* `HigherRank.Nameless.core` — a type without its outermost quantifiers.
* `HigherRank.Context.pending` — the number of existentials without a solution.

## Main results

* `HigherRank.Nameless.height_fillExistentials_le` — what filling in adds to the height.
* `HigherRank.Nameless.arrows_lt_fillExistentials` — what is filled in below an arrow has fewer
  arrows than the whole type.
* `HigherRank.Context.height_resolved_le` — what applying a context adds to the height.
-/

namespace HigherRank

namespace Nameless

/-- The number of constructors above the deepest leaf. -/
def height : Nameless → Nat
  | .unit | .free _ | .bound _ | .evar _ => 0
  | .arr A B => max A.height B.height + 1
  | .all A => A.height + 1

/-- The number of arrows. -/
def arrows : Nameless → Nat
  | .unit | .free _ | .bound _ | .evar _ => 0
  | .arr A B => A.arrows + B.arrows + 1
  | .all A => A.arrows

/-- The number of quantifiers. -/
def quantifiers : Nameless → Nat
  | .unit | .free _ | .bound _ | .evar _ => 0
  | .arr A B => A.quantifiers + B.quantifiers
  | .all A => A.quantifiers + 1

/-- The type without its outermost quantifiers. -/
def core : Nameless → Nameless
  | .all A => A.core
  | A => A

/-! ## Filling in -/

section Fill

variable {A : Nameless} {θ : Name → Nameless} {x : Name}

/-- Filling in does not make a type lower. -/
lemma height_le_fillExistentials (A : Nameless) (θ : Name → Nameless) :
    A.height ≤ (A.fillExistentials θ).height := by
  induction A with
  | unit | free | bound | evar => exact Nat.zero_le _
  | arr A B ihA ihB =>
    simp only [fillExistentials] at ihA ihB
    simp only [fillExistentials, fill, height]
    omega
  | all A ih => exact Nat.succ_le_succ ih

/-- Filling in makes a type higher by at most the height of what is filled in. -/
theorem height_fillExistentials_le {k : Nat} (h : ∀ x ∈ A.existentials, (θ x).height ≤ k) :
    (A.fillExistentials θ).height ≤ A.height + k := by
  induction A with
  | unit | free | bound => exact Nat.zero_le _
  | evar x =>
    have hx := h x (by simp [existentials])
    simpa [fillExistentials, fill, height] using hx
  | arr A B ihA ihB =>
    simp only [existentials, List.mem_append] at h
    have hA := ihA fun x hx => h x (.inl hx)
    have hB := ihB fun x hx => h x (.inr hx)
    simp only [fillExistentials] at hA hB
    simp only [fillExistentials, fill, height]
    omega
  | all A ih =>
    have hA := ih h
    simp only [fillExistentials] at hA
    simp only [fillExistentials, fill, height]
    omega

/-- What is filled in has no more arrows than the whole type. -/
private lemma arrows_le_fillExistentials (hx : x ∈ A.existentials) :
    (θ x).arrows ≤ (A.fillExistentials θ).arrows := by
  induction A with
  | unit | free | bound => simp [existentials] at hx
  | evar y =>
    obtain rfl : x = y := by simpa [existentials] using hx
    exact Nat.le_refl _
  | arr A B ihA ihB =>
    simp only [fillExistentials] at ihA ihB
    simp only [fillExistentials, fill, arrows]
    rcases List.mem_append.mp hx with hx | hx
    · have := ihA hx
      omega
    · have := ihB hx
      omega
  | all A ih => exact ih hx

/-- What is filled in below an arrow has fewer arrows than the whole type. -/
theorem arrows_lt_fillExistentials (hx : x ∈ A.existentials) (hcore : A.core ≠ .evar x) :
    (θ x).arrows < (A.fillExistentials θ).arrows := by
  induction A with
  | unit | free | bound => simp [existentials] at hx
  | evar y =>
    obtain rfl : x = y := by simpa [existentials] using hx
    exact absurd rfl hcore
  | arr A B =>
    have hle : ∀ C : Nameless, x ∈ C.existentials → (θ x).arrows ≤ (C.fill .free θ).arrows :=
      fun C hC => arrows_le_fillExistentials hC
    simp only [fillExistentials, fill, arrows]
    rcases List.mem_append.mp hx with hx | hx
    · have := hle A hx
      omega
    · have := hle B hx
      omega
  | all A ih => exact ih hx hcore

/-- A monotype has no quantifiers. -/
private lemma quantifiers_eq_zero (hA : A.isMono) : A.quantifiers = 0 := by
  induction A with
  | unit | free | bound | evar => rfl
  | arr A B ihA ihB =>
    simp only [isMono, Bool.and_eq_true] at hA
    simp only [quantifiers, ihA hA.1, ihB hA.2]
  | all => simp [isMono] at hA

/-- Filling in monotypes adds no quantifiers. -/
private lemma quantifiers_fillExistentials (h : ∀ x, (θ x).isMono) :
    (A.fillExistentials θ).quantifiers = A.quantifiers := by
  induction A with
  | unit | free | bound => rfl
  | evar x => exact quantifiers_eq_zero (h x)
  | arr A B ihA ihB => exact congrArg₂ (· + ·) ihA ihB
  | all A ih => exact congrArg (· + 1) ih

/-- A monotype has no outermost quantifiers. -/
private lemma core_of_isMono (hA : A.isMono) : A.core = A := by
  cases A with
  | all => simp [isMono] at hA
  | _ => rfl

/-- Below its quantifiers a type is an existential only if one is filled in there. -/
lemma core_fillExistentials_ne {y : Name} (hθ : ∀ x, (θ x).isMono)
    (h : ∀ x ∈ A.existentials, θ x ≠ .evar y) : (A.fillExistentials θ).core ≠ .evar y := by
  induction A with
  | unit | free | bound | arr => exact fun hcore => nomatch hcore
  | evar x =>
    intro hcore
    refine h x (by simp [existentials]) ?_
    rwa [← core_of_isMono (hθ x)]
  | all A ih => exact ih h

end Fill

/-! ## Opening -/

/-- The type has no parts. -/
def IsLeaf (A : Nameless) : Prop :=
  A.height = 0 ∧ A.isMono

/-- A type without parts has no arrows. -/
private lemma IsLeaf.arrows_eq_zero {A : Nameless} (h : A.IsLeaf) : A.arrows = 0 := by
  obtain ⟨hheight, hmono⟩ := h
  cases A with
  | arr => simp [height] at hheight
  | all => simp [isMono] at hmono
  | _ => rfl

section Open

variable {R : Nameless}

/-- Opening a type with one that has no parts keeps the height. -/
lemma height_openAt (A : Nameless) (k : Nat) (hR : R.IsLeaf) :
    (openAt R k A).height = A.height := by
  induction A generalizing k with
  | unit | free | evar => rfl
  | bound i =>
    simp only [openAt]
    split
    · exact hR.1
    · rfl
  | arr A B ihA ihB => simp only [openAt, height, ihA, ihB]
  | all A ih => simp only [openAt, height, ih]

/-- Opening a type does not remove arrows. -/
lemma arrows_le_openAt (A R : Nameless) (k : Nat) : A.arrows ≤ (openAt R k A).arrows := by
  induction A generalizing k with
  | unit | free | bound | evar => exact Nat.zero_le _
  | arr A B ihA ihB =>
    have hA := ihA k
    have hB := ihB k
    simp only [openAt, arrows]
    omega
  | all A ih => exact ih (k + 1)

/-- Opening a type with one that has no parts does not add arrows. -/
lemma arrows_openAt (A : Nameless) (k : Nat) (hR : R.IsLeaf) :
    (openAt R k A).arrows = A.arrows := by
  induction A generalizing k with
  | unit | free | evar => rfl
  | bound i =>
    simp only [openAt]
    split
    · exact hR.arrows_eq_zero
    · rfl
  | arr A B ihA ihB => simp only [openAt, arrows, ihA, ihB]
  | all A ih => exact ih (k + 1)

/-- Opening a type with a monotype adds no quantifiers. -/
private lemma quantifiers_openAt (A : Nameless) (k : Nat) (hR : R.isMono) :
    (openAt R k A).quantifiers = A.quantifiers := by
  induction A generalizing k with
  | unit | free | evar => rfl
  | bound i =>
    simp only [openAt]
    split
    · exact quantifiers_eq_zero hR
    · rfl
  | arr A B ihA ihB => simp only [openAt, quantifiers, ihA, ihB]
  | all A ih => simp only [openAt, quantifiers, ih]

/-- An instance at a monotype has fewer quantifiers than the quantified type. -/
lemma quantifiers_opened_lt (A : Nameless) (hR : R.isMono) :
    (A.opened R).quantifiers < (all A).quantifiers := by
  rw [opened, quantifiers_openAt A 0 hR]
  exact Nat.lt_succ_self _

end Open

end Nameless

/-! ## Types with names -/

namespace Ty

/-- The nameless form is as high as the type. -/
private lemma height_namelessUnder (A : Ty) (binders : List Name) :
    (A.namelessUnder binders).height = A.height := by
  induction A generalizing binders with
  | unit | evar => rfl
  | var a =>
    simp only [namelessUnder]
    cases binders.idxOf? a <;> rfl
  | arr A B ihA ihB => simp only [namelessUnder, Nameless.height, height, ihA, ihB]
  | all a A ih => simp only [namelessUnder, Nameless.height, height, ih]

/-- The nameless form is as high as the type. -/
@[simp]
lemma height_nameless (A : Ty) : A.nameless.height = A.height :=
  height_namelessUnder A []

/-- A type is larger than the number of its quantifiers. -/
lemma quantifiers_namelessUnder_lt (A : Ty) (binders : List Name) :
    (A.namelessUnder binders).quantifiers < A.size := by
  induction A generalizing binders with
  | unit | evar => exact Nat.one_pos
  | var a =>
    simp only [namelessUnder]
    cases binders.idxOf? a <;> exact Nat.one_pos
  | arr A B ihA ihB =>
    have hA := ihA binders
    have hB := ihB binders
    simp only [namelessUnder, Nameless.quantifiers, size]
    omega
  | all a A ih =>
    have hA := ih (a :: binders)
    simp only [namelessUnder, Nameless.quantifiers, size]
    omega

/-- The nameless form of a type without parts has none. -/
private lemma isLeaf_nameless {R : Ty} (h : R.isAtom) : R.nameless.IsLeaf := by
  cases R <;> simp_all [isAtom, nameless, namelessUnder, Nameless.IsLeaf, Nameless.height,
    Nameless.isMono, List.idxOf?]

/-- An instance at a monotype has one quantifier less. -/
lemma quantifiers_subst (a : Name) (A : Ty) {R : Ty} (hR : R.isMono) :
    (A.subst a R).nameless.quantifiers + 1 = (all a A).nameless.quantifiers := by
  have hR' : R.nameless.isMono := by simpa using hR
  rw [nameless_subst_eq_opened, Nameless.opened, Nameless.quantifiers_openAt _ _ hR']
  rfl

/-- An instance at a type without parts is as high as the body. -/
lemma height_subst {A R : Ty} (a : Name) (hR : R.isAtom) : (A.subst a R).height = A.height := by
  rw [← height_nameless, nameless_subst_eq_opened, Nameless.opened,
    Nameless.height_openAt _ _ (isLeaf_nameless hR), height_namelessUnder]

end Ty

/-! ## Contexts -/

namespace Context

/-- The number of existentials without a solution. -/
def pending (Γ : Context) : Nat :=
  Γ.unsolved.length

section Pending

variable (Γ Δ : Context) (x : Name)

/-- Declaring an existential adds one without a solution. -/
@[simp]
lemma pending_unsolved : pending (.unsolved x :: Γ) = Γ.pending + 1 := by
  simp [pending, unsolved]

/-- A solution adds no existential without one. -/
@[simp]
lemma pending_solved (T : Ty) : pending (.solved x T :: Γ) = Γ.pending := by
  simp [pending, unsolved]

/-- A rigid variable adds no existential. -/
@[simp]
lemma pending_rigid : pending (.rigid x :: Γ) = Γ.pending := by
  simp [pending, unsolved]

/-- A mark adds no existential. -/
@[simp]
lemma pending_marker : pending (.marker x :: Γ) = Γ.pending := by
  simp [pending, unsolved]

/-- The unsolved existentials of two contexts in a row add up. -/
@[simp]
lemma pending_concat : (Γ.concat Δ).pending = Γ.pending + Δ.pending := by
  simp [pending, unsolved]

end Pending

/-! ## Resolved types -/

section Resolved

variable {Γ : Context} {A A' : Ty}

/-- What an existential stands for has no quantifiers. -/
lemma WellFormed.isMono_solution (h : Γ.WellFormed) (x : Name) : (Γ.solution x).isMono :=
  (h.monotype_solution x).isMono

/-- Solutions have no quantifiers. -/
private lemma WellFormed.quantifiers_resolved (h : Γ.WellFormed) (A : Ty) :
    (Γ.resolved A).quantifiers = A.nameless.quantifiers :=
  Nameless.quantifiers_fillExistentials h.isMono_solution

/-- Applying a context does not change the number of quantifiers. -/
lemma WellFormed.quantifiers_apply (h : Γ.WellFormed) (hA : Γ.apply A = .ok A') :
    A'.nameless.quantifiers = A.nameless.quantifiers := by
  rw [h.nameless_apply hA, h.quantifiers_resolved]

/-- A type is at most as high as what it stands for. -/
lemma height_le_resolved (Γ : Context) (A : Ty) : A.height ≤ (Γ.resolved A).height := by
  rw [← Ty.height_nameless]
  exact Nameless.height_le_fillExistentials _ _

/-- A solution is not higher than all solutions of the context on top of each other. -/
private lemma height_solution_le (Γ : Context) (x : Name) :
    (Γ.solution x).height ≤ Γ.solutionDepth := by
  induction Γ generalizing x with
  | nil => exact Nat.le_refl _
  | cons m Γ ih =>
    by_cases hs : ∃ A, m = .solved x A
    · obtain ⟨A, rfl⟩ := hs
      have hA := Nameless.height_fillExistentials_le (A := A.nameless) fun y _ => ih y
      rw [Ty.height_nameless] at hA
      simp only [solution, if_pos, solutionDepth]
      omega
    · rw [solution_cons_of_ne (not_exists.mp hs)]
      have hle := ih x
      cases m <;> simp only [solutionDepth] <;> omega

/-- Applying a context adds to the height of a type at most that of all solutions. -/
theorem height_resolved_le (Γ : Context) (A : Ty) :
    (Γ.resolved A).height ≤ A.height + Γ.solutionDepth := by
  rw [← Ty.height_nameless]
  exact Nameless.height_fillExistentials_le fun x _ => height_solution_le Γ x

/-- An instance of a quantified type at a type without parts is lower than the type. -/
lemma WellFormed.height_resolved_subst (h : Γ.WellFormed) (a : Name) (A : Ty) {R : Ty}
    (hR : (Γ.resolved R).IsLeaf) :
    (Γ.resolved (A.subst a R)).height + 1 = (Γ.resolved (.all a A)).height := by
  rw [h.resolved_subst, Nameless.opened, Nameless.height_openAt _ _ hR]
  rfl

end Resolved

end Context

end HigherRank
