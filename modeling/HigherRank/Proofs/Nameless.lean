import HigherRank.Ty.Nameless
import Mathlib.Tactic.Common

set_option autoImplicit false
set_option relaxedAutoImplicit false

/-!
# Opening and filling in

How the operations on nameless types work together: opening a quantified type and filling in types
for free names. A closed type can be filled in before or after opening, since it has no index that
the opening could touch.

## Main definitions

* `HigherRank.Nameless.ClosedAt` — all indices point to one of the binders around the type.
* `HigherRank.Nameless.Monotype` — closed types without quantifiers.
* `HigherRank.Nameless.toTy` — a monotype as a type with names.

## Main results

* `HigherRank.Nameless.fill_fill` — filling in twice is filling in once.
* `HigherRank.Nameless.fill_openAt` — closed types may be filled in before or after opening.
* `HigherRank.Nameless.Monotype.nameless_toTy` — every monotype has a form with names.
-/

namespace HigherRank

namespace Nameless

/-! ## Closed types -/

/-- Every index points to one of the binders of the type or of the `k` binders around it. -/
def ClosedAt : Nat → Nameless → Prop
  | _, .unit | _, .free _ | _, .evar _ => True
  | k, .bound i => i < k
  | k, .arr A B => ClosedAt k A ∧ ClosedAt k B
  | k, .all A => ClosedAt (k + 1) A

/-- A type is closed below more binders too. -/
private lemma ClosedAt.mono {A : Nameless} {j k : Nat} (h : A.ClosedAt j) (hjk : j ≤ k) :
    A.ClosedAt k := by
  induction A generalizing j k with
  | unit | free | evar => trivial
  | bound i =>
    unfold ClosedAt at h ⊢
    omega
  | arr A B ihA ihB => exact ⟨ihA h.1 hjk, ihB h.2 hjk⟩
  | all A ih => exact ih (j := j + 1) h (by omega)

/-- Opening does nothing to a type that does not reach out that far. -/
lemma openAt_of_closedAt {A : Nameless} {j k : Nat} (R : Nameless) (h : A.ClosedAt j)
    (hjk : j ≤ k) : openAt R k A = A := by
  induction A generalizing j k with
  | unit | free | evar => rfl
  | bound i =>
    have hi : i < j := h
    simp only [openAt]
    rw [if_neg (by omega)]
  | arr A B ihA ihB => simp only [openAt, ihA h.1 hjk, ihB h.2 hjk]
  | all A ih => simp only [openAt, ih (j := j + 1) (k := k + 1) h (by omega)]

/-- Closed types may be filled in without another binder. -/
lemma ClosedAt.fill {A : Nameless} {k : Nat} {ρ θ : Name → Nameless} (hA : A.ClosedAt k)
    (hρ : ∀ a, (ρ a).ClosedAt 0) (hθ : ∀ x, (θ x).ClosedAt 0) : (A.fill ρ θ).ClosedAt k := by
  induction A generalizing k with
  | unit => trivial
  | bound i => exact hA
  | free a => exact (hρ a).mono (Nat.zero_le k)
  | evar x => exact (hθ x).mono (Nat.zero_le k)
  | arr A B ihA ihB => exact ⟨ihA hA.1, ihB hA.2⟩
  | all A ih => exact ih hA

/-- Opening with a closed type removes the outermost index. -/
lemma ClosedAt.openAt {A R : Nameless} {k : Nat} (hA : A.ClosedAt (k + 1)) (hR : R.ClosedAt 0) :
    (openAt R k A).ClosedAt k := by
  induction A generalizing k with
  | unit | free | evar => trivial
  | bound i =>
    have hi : i < k + 1 := hA
    simp only [Nameless.openAt]
    split
    · exact hR.mono (Nat.zero_le k)
    · show i < k
      omega
  | arr A B ihA ihB => exact ⟨ihA hA.1, ihB hA.2⟩
  | all A ih => exact ih hA

/-! ## Filling in -/

/-- Filling in twice is filling in once. -/
theorem fill_fill (A : Nameless) (ρ θ ρ' θ' : Name → Nameless) :
    (A.fill ρ θ).fill ρ' θ' =
      A.fill (fun a => (ρ a).fill ρ' θ') (fun x => (θ x).fill ρ' θ') := by
  induction A with
  | unit | free | bound | evar => rfl
  | arr A B ihA ihB => simp only [fill, ihA, ihB]
  | all A ih => simp only [fill, ih]

/-- Existentials may be filled in one time after the other or at once. -/
lemma fillExistentials_fillExistentials (A : Nameless) (θ θ' : Name → Nameless) :
    (A.fillExistentials θ).fillExistentials θ' =
      A.fillExistentials fun x => (θ x).fillExistentials θ' :=
  fill_fill A .free θ .free θ'

/-- Only what is filled in for the existentials of the type matters. -/
lemma fillExistentials_congr {A : Nameless} {θ θ' : Name → Nameless}
    (h : ∀ x ∈ A.existentials, θ x = θ' x) : A.fillExistentials θ = A.fillExistentials θ' :=
  fill_congr (fun _ _ => rfl) h

/-- Where every existential stands for itself, nothing changes. -/
lemma fillExistentials_eq_self {A : Nameless} {θ : Name → Nameless}
    (h : ∀ x ∈ A.existentials, θ x = .evar x) : A.fillExistentials θ = A :=
  (fillExistentials_congr h).trans (fill_id A)

/-- Nothing is replaced where the variable is not free. -/
lemma replaceFree_eq_self {A R : Nameless} {a : Name} (h : a ∉ A.frees) :
    replaceFree a R A = A := by
  refine (fill_congr (fun b hb => ?_) fun _ _ => rfl).trans (fill_id A)
  rw [if_neg]
  rintro rfl
  exact h hb

/-- Closed types may be filled in before or after opening. -/
theorem fill_openAt (A R : Nameless) (k : Nat) {ρ θ : Name → Nameless}
    (hρ : ∀ a, (ρ a).ClosedAt 0) (hθ : ∀ x, (θ x).ClosedAt 0) :
    (openAt R k A).fill ρ θ = openAt (R.fill ρ θ) k (A.fill ρ θ) := by
  induction A generalizing k with
  | unit => rfl
  | bound i =>
    simp only [openAt, fill]
    split <;> rfl
  | free a => exact (openAt_of_closedAt _ (hρ a) (Nat.zero_le k)).symm
  | evar x => exact (openAt_of_closedAt _ (hθ x) (Nat.zero_le k)).symm
  | arr A B ihA ihB => simp only [openAt, fill, ihA, ihB]
  | all A ih => simp only [openAt, fill, ih]

/-! ## Free names after filling in and opening -/

/-- The free variables of a type that has been filled in come from what was put there. -/
lemma mem_frees_fill {A : Nameless} {ρ θ : Name → Nameless} {a : Name} :
    a ∈ (A.fill ρ θ).frees ↔
      (∃ b ∈ A.frees, a ∈ (ρ b).frees) ∨ ∃ x ∈ A.existentials, a ∈ (θ x).frees := by
  induction A with
  | unit | bound | free | evar => simp [fill, frees, existentials]
  | arr A B ihA ihB =>
    simp only [fill, frees, existentials, List.mem_append, ihA, ihB, or_and_right, exists_or]
    exact or_or_or_comm
  | all A ih => exact ih

/-- The existentials of a type that has been filled in come from what was put there. -/
lemma mem_existentials_fill {A : Nameless} {ρ θ : Name → Nameless} {y : Name} :
    y ∈ (A.fill ρ θ).existentials ↔
      (∃ b ∈ A.frees, y ∈ (ρ b).existentials) ∨ ∃ x ∈ A.existentials, y ∈ (θ x).existentials := by
  induction A with
  | unit | bound | free | evar => simp [fill, frees, existentials]
  | arr A B ihA ihB =>
    simp only [fill, frees, existentials, List.mem_append, ihA, ihB, or_and_right, exists_or]
    exact or_or_or_comm
  | all A ih => exact ih

/-- Existentials that are left come from what was filled in for others. -/
lemma mem_existentials_fillExistentials {A : Nameless} {θ : Name → Nameless} {y : Name} :
    y ∈ (A.fillExistentials θ).existentials ↔
      ∃ x ∈ A.existentials, y ∈ (θ x).existentials := by
  simp [fillExistentials, mem_existentials_fill, existentials]

/-- Filling in existentials keeps the free variables and adds those of what is filled in. -/
lemma mem_frees_fillExistentials {A : Nameless} {θ : Name → Nameless} {a : Name} :
    a ∈ (A.fillExistentials θ).frees ↔
      a ∈ A.frees ∨ ∃ x ∈ A.existentials, a ∈ (θ x).frees := by
  simp [fillExistentials, mem_frees_fill, frees]

/-- When a variable is replaced, all other variables stay free, and those of the replacement come in
if the variable was free. -/
lemma mem_frees_replaceFree {A R : Nameless} {a b : Name} :
    b ∈ (replaceFree a R A).frees ↔ b ∈ A.frees ∧ b ≠ a ∨ a ∈ A.frees ∧ b ∈ R.frees := by
  rw [replaceFree, mem_frees_fill]
  constructor
  · rintro (⟨c, hc, hb⟩ | ⟨x, -, hb⟩)
    · by_cases hca : c = a
      · rw [if_pos hca] at hb
        exact .inr ⟨hca ▸ hc, hb⟩
      · rw [if_neg hca, frees, List.mem_singleton] at hb
        exact .inl ⟨hb ▸ hc, hb ▸ hca⟩
    · simp [frees] at hb
  · rintro (⟨hb, hba⟩ | ⟨ha, hb⟩)
    · exact .inl ⟨b, hb, by simp [hba, frees]⟩
    · exact .inl ⟨a, ha, by simpa using hb⟩

/-- Replacing a free variable keeps the existentials, and adds those of the replacement if the
variable occurs. -/
lemma mem_existentials_replaceFree {A R : Nameless} {a x : Name} :
    x ∈ (replaceFree a R A).existentials ↔
      x ∈ A.existentials ∨ a ∈ A.frees ∧ x ∈ R.existentials := by
  rw [replaceFree, mem_existentials_fill]
  constructor
  · rintro (⟨c, hc, hx⟩ | ⟨y, hy, hx⟩)
    · by_cases hca : c = a
      · rw [if_pos hca] at hx
        exact .inr ⟨hca ▸ hc, hx⟩
      · simp [hca, existentials] at hx
    · rw [existentials, List.mem_singleton] at hx
      exact .inl (hx ▸ hy)
  · rintro (hx | ⟨ha, hx⟩)
    · exact .inr ⟨x, hx, by simp [existentials]⟩
    · exact .inl ⟨a, ha, by simpa using hx⟩

/-- An opened type has no free variables but those of the body and of the instance. -/
lemma frees_openAt {A R : Nameless} {k : Nat} {a : Name} (h : a ∈ (openAt R k A).frees) :
    a ∈ A.frees ∨ a ∈ R.frees := by
  induction A generalizing k with
  | unit | free | evar => exact .inl h
  | bound i =>
    simp only [openAt] at h
    split at h
    · exact .inr h
    · exact .inl h
  | arr A B ihA ihB =>
    simp only [openAt, frees, List.mem_append] at h ⊢
    rcases h with h | h
    · exact (ihA h).imp .inl id
    · exact (ihB h).imp .inr id
  | all A ih => exact ih h

/-- The existentials of an opened type are those of the body and of what is put in. -/
lemma existentials_openAt {A R : Nameless} {k : Nat} {x : Name}
    (h : x ∈ (openAt R k A).existentials) : x ∈ A.existentials ∨ x ∈ R.existentials := by
  induction A generalizing k with
  | unit | free | evar => exact .inl h
  | bound i =>
    simp only [openAt] at h
    split at h
    · exact .inr h
    · exact .inl h
  | arr A B ihA ihB =>
    simp only [openAt, existentials, List.mem_append] at h ⊢
    rcases h with h | h
    · exact (ihA h).imp .inl id
    · exact (ihB h).imp .inr id
  | all A ih => exact ih h

/-- Opening a type keeps its existentials. -/
lemma mem_existentials_openAt {A : Nameless} (R : Nameless) (k : Nat) {x : Name}
    (h : x ∈ A.existentials) : x ∈ (openAt R k A).existentials := by
  induction A generalizing k with
  | unit | free | bound => simp [existentials] at h
  | evar y => exact h
  | arr A B ihA ihB =>
    simp only [openAt, existentials, List.mem_append] at h ⊢
    exact h.imp (ihA k) (ihB k)
  | all A ih => exact ih (k + 1) h

/-! ## Monotypes -/

/-- A monotype stays one if monotypes are filled in. -/
private lemma isMono_fill {A : Nameless} {ρ θ : Name → Nameless} (hA : A.isMono)
    (hρ : ∀ a ∈ A.frees, (ρ a).isMono) (hθ : ∀ x ∈ A.existentials, (θ x).isMono) :
    (A.fill ρ θ).isMono := by
  induction A with
  | unit | bound => rfl
  | free a => exact hρ a (by simp [frees])
  | evar x => exact hθ x (by simp [existentials])
  | arr A B ihA ihB =>
    simp only [isMono, Bool.and_eq_true] at hA
    simp only [frees, existentials, List.mem_append] at hρ hθ
    simp only [fill, isMono, Bool.and_eq_true]
    exact ⟨ihA hA.1 (fun a h => hρ a (.inl h)) (fun x h => hθ x (.inl h)),
      ihB hA.2 (fun a h => hρ a (.inr h)) (fun x h => hθ x (.inr h))⟩
  | all A => simp [isMono] at hA

/-- Filling in types without quantifiers for existentials adds none. -/
lemma isMono_fillExistentials {A : Nameless} {θ : Name → Nameless} (hθ : ∀ x, (θ x).isMono) :
    (A.fillExistentials θ).isMono = A.isMono := by
  induction A with
  | unit | free | bound | all => rfl
  | evar x => exact hθ x
  | arr A B ihA ihB => exact congrArg₂ (· && ·) ihA ihB

/-- A closed type without quantifiers. -/
structure Monotype (A : Nameless) : Prop where
  isMono : A.isMono
  closed : A.ClosedAt 0

/-- A free variable is a monotype. -/
lemma monotype_free (a : Name) : (free a).Monotype :=
  ⟨rfl, trivial⟩

/-- An existential is a monotype. -/
lemma monotype_evar (x : Name) : (evar x).Monotype :=
  ⟨rfl, trivial⟩

/-- An arrow is a monotype if both parts are. -/
lemma monotype_arr {A B : Nameless} : (arr A B).Monotype ↔ A.Monotype ∧ B.Monotype := by
  constructor
  · rintro ⟨hm, hc⟩
    simp only [Nameless.isMono, Bool.and_eq_true] at hm
    exact ⟨⟨hm.1, hc.1⟩, ⟨hm.2, hc.2⟩⟩
  · rintro ⟨hA, hB⟩
    exact ⟨by simp [Nameless.isMono, hA.isMono, hB.isMono], ⟨hA.closed, hB.closed⟩⟩

/-- A closed monotype stays one if closed monotypes are filled in. -/
lemma Monotype.fill {A : Nameless} {ρ θ : Name → Nameless} (hA : A.Monotype)
    (hρ : ∀ a, (ρ a).Monotype) (hθ : ∀ x, (θ x).Monotype) : (A.fill ρ θ).Monotype where
  isMono := isMono_fill hA.isMono (fun a _ => (hρ a).isMono) (fun x _ => (hθ x).isMono)
  closed := hA.closed.fill (fun a => (hρ a).closed) (fun x => (hθ x).closed)

/-- A monotype as a type with names. What is no monotype is cut short. -/
def toTy : Nameless → Ty
  | .unit | .bound _ | .all _ => .unit
  | .free a => .var a
  | .evar x => .evar x
  | .arr A B => .arr A.toTy B.toTy

/-- The form with names has no quantifiers. -/
lemma isMono_toTy (A : Nameless) : A.toTy.isMono := by
  induction A with
  | unit | free | bound | evar | all => rfl
  | arr A B ihA ihB => simp [toTy, Ty.isMono, ihA, ihB]

/-- A monotype is the nameless form of its form with names. -/
theorem Monotype.nameless_toTy {A : Nameless} (h : A.Monotype) : A.toTy.nameless = A := by
  induction A with
  | unit | free | evar => rfl
  | bound i => exact absurd h.closed (Nat.not_lt_zero i)
  | arr A B ihA ihB =>
    obtain ⟨hA, hB⟩ := monotype_arr.mp h
    exact congrArg₂ Nameless.arr (ihA hA) (ihB hB)
  | all A => exact absurd h.isMono (by simp [Nameless.isMono])

end Nameless

end HigherRank
