import HigherRank.Proofs.Growth
import HigherRank.Subtyping.Declarative

set_option autoImplicit false
set_option relaxedAutoImplicit false

/-!
# Valuations

A valuation gives every existential a monotype without existentials. It fits a context if the
monotype of an existential without a solution is in scope where the existential is declared, and if
the other existentials have the monotypes of their solutions. So an assignment of monotypes to the
existentials without a solution is a valuation that fits, and filling in solutions does not change
what a type is under it.

## Main definitions

* `HigherRank.Valuation` — monotypes without existentials for all existentials.
* `HigherRank.Valuation.type` — what a type is under a valuation.
* `HigherRank.Valuation.Fits` — the valuations that respect a context.

## Main results

* `HigherRank.Valuation.Fits.type_apply` — applying a context does not change what a type is.
* `HigherRank.Valuation.Fits.openLeft`, `HigherRank.Valuation.Fits.articulated`,
  `HigherRank.Valuation.Fits.solvedAt` — a valuation that fits can be changed to fit the session
  with which a rule goes on.
* `HigherRank.Assignment.fits`, `HigherRank.Valuation.Fits.assignment` — assignments and valuations
  that fit.
-/

namespace HigherRank

/-- Monotypes without existentials for all existentials. -/
structure Valuation where
  value : Name → Nameless
  monotype : ∀ x, (value x).Monotype
  ground : ∀ x, (value x).existentials = []

namespace Valuation

/-! ## Types under a valuation -/

section Types

variable (θ : Valuation)

/-- What a type is under a valuation. -/
def type (A : Ty) : Nameless :=
  A.nameless.fillExistentials θ.value

/-- The unit type is itself under a valuation. -/
@[simp]
lemma type_unit : θ.type .unit = .unit :=
  rfl

/-- A rigid variable is itself under a valuation. -/
@[simp]
lemma type_var (a : Name) : θ.type (.var a) = .free a :=
  rfl

/-- An existential is its monotype under a valuation. -/
@[simp]
lemma type_evar (x : Name) : θ.type (.evar x) = θ.value x :=
  rfl

/-- An arrow is the arrow between its parts under a valuation. -/
@[simp]
lemma type_arr (A B : Ty) : θ.type (.arr A B) = .arr (θ.type A) (θ.type B) :=
  rfl

/-- The valuation goes below a quantifier. -/
lemma type_all (a : Name) (A : Ty) :
    θ.type (.all a A) = .all ((A.namelessUnder [a]).fillExistentials θ.value) :=
  rfl

/-- A monotype is a closed monotype under a valuation. -/
lemma monotype_type {A : Ty} (hA : A.isMono) : (θ.type A).Monotype :=
  (Ty.monotype_nameless hA).fill Nameless.monotype_free θ.monotype

/-- A monotype stays one under a valuation. -/
lemma isMono_type {A : Ty} (hA : A.isMono) : (θ.type A).isMono :=
  (θ.monotype_type hA).isMono

/-- Under a valuation a type is closed. -/
lemma closedAt_type (A : Ty) : (θ.type A).ClosedAt 0 :=
  (Ty.closedAt_nameless A).fill (fun _ => trivial) fun x => (θ.monotype x).closed

/-- An instance of a quantified type. -/
lemma type_subst (a : Name) (A R : Ty) :
    θ.type (A.subst a R) =
      ((A.namelessUnder [a]).fillExistentials θ.value).opened (θ.type R) := by
  rw [type, Ty.nameless_subst_eq_opened]
  exact Nameless.fill_openAt _ _ 0 (fun _ => trivial) fun x => (θ.monotype x).closed

/-- Only a quantified type is quantified under a valuation. -/
lemma type_ne_all {B : Ty} (hB : ¬ B.isAll) (C : Nameless) : θ.type B ≠ .all C := by
  intro h
  cases B with
  | all => simp [Ty.isAll] at hB
  | evar x =>
    have hmono := (θ.monotype x).isMono
    rw [type_evar] at h
    simp [h, Nameless.isMono] at hmono
  | unit | var | arr => simp at h

end Types

/-! ## Agreement -/

/-- The valuations give the same monotypes to the existentials of a context. -/
def Agrees (θ' θ : Valuation) (Γ : Context) : Prop :=
  ∀ x, Γ.Existential x → θ'.value x = θ.value x

section Agreement

variable {θ θ' θ'' : Valuation} {Γ : Context} {A : Ty}

/-- A valuation agrees with itself. -/
lemma Agrees.refl (θ : Valuation) (Γ : Context) : θ.Agrees θ Γ :=
  fun _ _ => rfl

/-- Only the monotypes of the existentials of a type matter to it. -/
private lemma type_congr (h : ∀ x ∈ A.existentials, θ'.value x = θ.value x) :
    θ'.type A = θ.type A :=
  Nameless.fillExistentials_congr fun x hx => h x (by simpa using hx)

/-- Valuations that agree make the same of a type in scope. -/
lemma Agrees.type (h : θ'.Agrees θ Γ) (hA : Γ.Scopes A) : θ'.type A = θ.type A :=
  type_congr fun x hx => h x (hA.existential x hx)

/-- The valuation with another monotype for one existential. -/
def update (θ : Valuation) (x : Name) {A : Nameless} (hA : A.Monotype)
    (hground : A.existentials = []) : Valuation where
  value y := if y = x then A else θ.value y
  monotype y := by
    split
    · exact hA
    · exact θ.monotype y
  ground y := by
    split
    · exact hground
    · exact θ.ground y

variable {x : Name} {R : Nameless} (hR : R.Monotype) (hground : R.existentials = [])

/-- The existential that is changed gets the new monotype. -/
@[simp]
lemma value_update_self : (θ.update x hR hground).value x = R :=
  if_pos rfl

/-- All other existentials keep their monotypes. -/
private lemma value_update_of_ne {y : Name} (hy : y ≠ x) :
    (θ.update x hR hground).value y = θ.value y :=
  if_neg hy

/-- A monotype for a name that is not declared makes no difference to a context. -/
lemma agrees_update (hx : ¬ Γ.declares x) : (θ.update x hR hground).Agrees θ Γ := by
  intro y hy
  refine value_update_of_ne hR hground ?_
  rintro rfl
  exact hx (Context.declares_iff.mpr (.inr hy))

end Agreement

end Valuation

/-! ## Valuations that fit -/

/-- An entry says nothing about a valuation that is not so, where `Γ` is to the left of it. -/
def Entry.Holds (θ : Valuation) (Γ : Context) : Entry → Prop
  | .unsolved x => ∀ a ∈ (θ.value x).frees, .rigid a ∈ Γ
  | .solved x A => θ.value x = θ.type A
  | .rigid _ | .assumed _ _ | .marker _ => True

namespace Valuation

/-- All entries of a context hold for the valuation. -/
inductive Fits (θ : Valuation) : Context → Prop where
  | nil : Fits θ []
  | cons {Γ : Context} {m : Entry} : Fits θ Γ → m.Holds θ Γ → Fits θ (m :: Γ)

namespace Fits

variable {θ θ' : Valuation} {Γ left right : Context} {m : Entry} {A : Ty} {x : Name}

/-- A valuation that fits a context fits what is to the left of its newest entry. -/
lemma of_cons (h : θ.Fits (m :: Γ)) : θ.Fits Γ := by
  cases h with
  | cons h _ => exact h

/-- A valuation that fits a context fits its left part. -/
lemma of_concat (h : θ.Fits (left.concat right)) : θ.Fits left := by
  induction right with
  | nil => exact h
  | cons m right ih => exact ih h.of_cons

/-- A valuation that fits a context fits the entry in a slot. -/
lemma holds (h : θ.Fits (Context.concat (m :: left) right)) : m.Holds θ left := by
  cases h.of_concat with
  | cons _ hm => exact hm

/-- The left part of a context may be exchanged for one that declares no fewer variables. -/
private lemma exchange {left' : Context} (h : θ.Fits (left.concat right)) (hleft : θ.Fits left')
    (hrigid : ∀ a, .rigid a ∈ left → .rigid a ∈ left') : θ.Fits (left'.concat right) := by
  induction right with
  | nil => exact hleft
  | cons m right ih =>
    rw [Context.concat_cons] at h ⊢
    cases h with
    | cons h hm =>
      refine .cons (ih h) ?_
      cases m with
      | unsolved x =>
        intro a ha
        rw [Context.mem_concat]
        exact (Context.mem_concat.mp (hm a ha)).imp_right (hrigid a)
      | _ => exact hm

/-- Only the monotypes of the existentials that are declared matter. -/
private lemma congr (h : θ.Fits Γ) (hΓ : Γ.WellFormed) (hθ : θ'.Agrees θ Γ) : θ'.Fits Γ := by
  induction hΓ with
  | nil => exact .nil
  | @cons Γ m hΓ hm ih =>
    have hsame : θ'.Agrees θ Γ := fun x hx => hθ x (hx.cons m)
    cases h with
    | cons h hholds =>
      refine .cons (ih h hsame) ?_
      cases hm with
      | unsolved x _ =>
        have hx := hθ x (.inl (by simp))
        intro a ha
        exact hholds a (by rwa [hx] at ha)
      | solved x A _ _ hA =>
        have hx := hθ x (.inr ⟨A, by simp⟩)
        have hholds' : θ.value x = θ.type A := hholds
        show θ'.value x = θ'.type A
        rw [hx, hholds', hsame.type hA]
      | rigid | assumed | marker => trivial

/-- What an existential stands for is its monotype under the valuation. -/
lemma fill_solution (h : θ.Fits Γ) (x : Name) :
    (Γ.solution x).fillExistentials θ.value = θ.value x := by
  induction h generalizing x with
  | nil => rfl
  | @cons Γ m _ hm ih =>
    by_cases hs : ∃ A, m = .solved x A
    · obtain ⟨A, rfl⟩ := hs
      have hA : θ.value x = θ.type A := hm
      simp only [Context.solution, if_true]
      rw [Nameless.fillExistentials_fillExistentials, hA]
      exact Nameless.fillExistentials_congr fun y _ => ih y
    · rw [Context.solution_cons_of_ne fun A hA => hs ⟨A, hA⟩, ih]

/-- What a type stands for is the same under a valuation that fits. -/
lemma fill_resolved (h : θ.Fits Γ) (A : Ty) :
    (Γ.resolved A).fillExistentials θ.value = θ.type A := by
  rw [Context.resolved, Nameless.fillExistentials_fillExistentials]
  exact Nameless.fillExistentials_congr fun x _ => h.fill_solution x

/-- Applying a context does not change what a type is under a valuation that fits. -/
theorem type_apply {A' : Ty} (h : θ.Fits Γ) (hΓ : Γ.WellFormed) (hA : Γ.apply A = .ok A') :
    θ.type A' = θ.type A := by
  rw [type, hΓ.nameless_apply hA, h.fill_resolved]

/-- All variables of a type in scope are declared, those of the monotypes included. -/
lemma rigid_of_mem_frees {a : Name} (h : θ.Fits Γ) (hΓ : Γ.WellFormed) (hA : Γ.Scopes A)
    (ha : a ∈ (θ.type A).frees) : .rigid a ∈ Γ := by
  rw [← h.fill_resolved A] at ha
  rcases Nameless.mem_frees_fillExistentials.mp ha with hres | ⟨x, hx, hax⟩
  · exact hΓ.frees_resolved hA hres
  · obtain ⟨left, right, rfl⟩ :=
      Context.exists_concat_of_mem (hΓ.existentials_resolved hA hx)
    exact Context.mem_concat.mpr (.inr (List.mem_cons_of_mem _ (h.holds a hax)))

/-! ## Changes of the context -/

section Changes

variable {s : Session} {R R₁ R₂ : Nameless}

/-- A valuation that fits still does when a quantifier on the right is opened. -/
lemma openRight (h : θ.Fits s.context) : θ.Fits s.openRight.context :=
  .cons h trivial

/-- Any monotype in scope will do for the existential with which a quantifier is opened. -/
theorem openLeft (h : θ.Fits s.context) (hs : s.context.WellFormed) (hR : R.Monotype)
    (hground : R.existentials = []) (hfree : ∀ a ∈ R.frees, .rigid a ∈ s.context) :
    (θ.update s.leftName hR hground).Fits s.openLeft.context := by
  have hagrees := agrees_update hR hground (θ := θ) (Session.unused_leftName s).not_declares
  refine .cons (.cons (h.congr hs hagrees) trivial) ?_
  intro a ha
  rw [value_update_self] at ha
  exact List.mem_cons_of_mem _ (hfree a ha)

/-- If an existential is an arrow under the valuation, then it can be articulated.

**Proof sketch.** Let the two new existentials stand for the domain and for the codomain of the
arrow. Their names are unused, so that the valuation stays the same on everything declared before.
The variables of the arrow are declared to the left of the slot, as they are those of the value of
the existential. -/
theorem articulated (hslot : s.context = Context.concat (.unsolved x :: left) right)
    (h : θ.Fits s.context) (hs : s.context.WellFormed) (hx : θ.value x = .arr R₁ R₂) :
    ∃ θ' : Valuation, θ'.Fits (s.articulated x left right).context ∧ θ'.Agrees θ s.context ∧
      θ'.type s.newArrow = .arr R₁ R₂ := by
  have hmono := θ.monotype x
  have hground := θ.ground x
  rw [hx] at hmono hground
  obtain ⟨hR₁, hR₂⟩ := Nameless.monotype_arr.mp hmono
  obtain ⟨hg₁, hg₂⟩ := List.append_eq_nil_iff.mp hground
  have hdom : ¬ s.context.declares s.domName := s.unused_domName.not_declares
  have hcod : ¬ s.context.declares s.codName := s.unused_codName.not_declares
  let θ' := (θ.update s.domName hR₁ hg₁).update s.codName hR₂ hg₂
  have hθ'cod : θ'.value s.codName = R₂ := value_update_self hR₂ hg₂
  have hθ'dom : θ'.value s.domName = R₁ :=
    (value_update_of_ne hR₂ hg₂ s.domName_ne_codName).trans (value_update_self hR₁ hg₁)
  have hagrees : θ'.Agrees θ s.context := fun y hy =>
    (agrees_update hR₂ hg₂ hcod y hy).trans (agrees_update hR₁ hg₁ hdom y hy)
  have hnew : θ'.type s.newArrow = .arr R₁ R₂ := by
    simp only [Session.newArrow, type_arr, type_evar, hθ'dom, hθ'cod]
  refine ⟨θ', ?_, hagrees, hnew⟩
  have hfits := h.congr hs hagrees
  rw [hslot] at hfits
  have hfree : ∀ a ∈ R₁.frees ++ R₂.frees, .rigid a ∈ left := by
    intro a ha
    refine hfits.holds a ?_
    rw [hagrees x (.inl (by simp [hslot])), hx]
    exact ha
  rw [Session.context_articulated]
  refine hfits.exchange ?_ fun a ha => by simpa using ha
  refine .cons (.cons (.cons hfits.of_concat.of_cons ?_) ?_) ?_
  · intro a ha
    rw [hθ'dom] at ha
    exact hfree a (List.mem_append_left _ ha)
  · intro a ha
    rw [hθ'cod] at ha
    exact List.mem_cons_of_mem _ (hfree a (List.mem_append_right _ ha))
  · show θ'.value x = _
    rw [hnew, hagrees x (.inl (by simp [hslot])), hx]

/-- An existential can be solved to what it is under the valuation. -/
theorem solvedAt {T : Ty} (hslot : s.context = Context.concat (.unsolved x :: left) right)
    (h : θ.Fits s.context) (hx : θ.value x = θ.type T) :
    θ.Fits (s.solvedAt x T left right).context := by
  rw [hslot] at h
  exact h.exchange (.cons h.of_concat.of_cons hx) fun a ha => by simpa using ha

end Changes

end Fits

end Valuation

/-! ## Assignments -/

section Assignments

variable {Γ : Context} {θ : Name → Ty}

/-- A context holds for a valuation if it does slot by slot. -/
private lemma Valuation.fits_of_slots {θ : Valuation}
    (hunsolved : ∀ x left right, Γ = Context.concat (.unsolved x :: left) right →
      ∀ a ∈ (θ.value x).frees, .rigid a ∈ left)
    (hsolved : ∀ x A, .solved x A ∈ Γ → θ.value x = θ.type A) : θ.Fits Γ := by
  induction Γ with
  | nil => exact .nil
  | cons m Γ ih =>
    refine .cons (ih (fun x left right hΓ => ?_) fun x A hA => ?_) ?_
    · exact hunsolved x left (m :: right) (by rw [hΓ]; rfl)
    · exact hsolved x A (List.mem_cons_of_mem m hA)
    · cases m with
      | unsolved x => exact hunsolved x Γ [] rfl
      | solved x A => exact hsolved x A List.mem_cons_self
      | rigid | assumed | marker => trivial

/-- The monotype that an assignment gives an existential without a solution. -/
def Assignment.monotypeAt (Γ : Context) (θ : Name → Ty) (x : Name) : Nameless :=
  if .unsolved x ∈ Γ then (θ x).nameless else .unit

namespace Assignment

/-- An existential without a solution has the monotype of the assignment. -/
private lemma monotypeAt_of_unsolved {x : Name} (hx : .unsolved x ∈ Γ) :
    monotypeAt Γ θ x = (θ x).nameless :=
  if_pos hx

variable (h : Assignment Γ θ)

include h

/-- What an assignment gives is a closed monotype. -/
private lemma monotype_monotypeAt (x : Name) : (monotypeAt Γ θ x).Monotype := by
  unfold monotypeAt
  split
  · exact Ty.monotype_nameless (h.isMono x (Context.mem_unsolved.mpr ‹_›))
  · exact ⟨rfl, trivial⟩

/-- What an assignment gives has no existentials. -/
private lemma existentials_monotypeAt (x : Name) : (monotypeAt Γ θ x).existentials = [] := by
  unfold monotypeAt
  split
  · rw [Ty.existentials_nameless]
    exact h.existentials x (Context.mem_unsolved.mpr ‹_›)
  · rfl

/-- The valuation with the monotypes of the assignment, and those of the solutions. -/
def valuation (hΓ : Γ.WellFormed) : Valuation where
  value x := (Γ.solution x).fillExistentials (monotypeAt Γ θ)
  monotype x := (hΓ.monotype_solution x).fill Nameless.monotype_free h.monotype_monotypeAt
  ground x := by
    refine List.eq_nil_iff_forall_not_mem.mpr fun y hy => ?_
    obtain ⟨z, -, hz⟩ := Nameless.mem_existentials_fillExistentials.mp hy
    simp [h.existentials_monotypeAt z] at hz

/-- The valuation of an assignment agrees with it. -/
lemma value_valuation (hΓ : Γ.WellFormed) {x : Name} (hx : .unsolved x ∈ Γ) :
    (h.valuation hΓ).value x = (θ x).nameless := by
  show (Γ.solution x).fillExistentials (monotypeAt Γ θ) = (θ x).nameless
  rw [hΓ.solution_of_unsolved hx]
  exact monotypeAt_of_unsolved hx

/-- The valuation of an assignment fits. -/
theorem fits (hΓ : Γ.WellFormed) : (h.valuation hΓ).Fits Γ := by
  refine Valuation.fits_of_slots (fun x left right hslot a ha => ?_) fun x A hA => ?_
  · rw [h.value_valuation hΓ (by simp [hslot])] at ha
    exact h.rigids x left right hslot a (Ty.mem_frees_nameless.mp ha)
  · show (Γ.solution x).fillExistentials (monotypeAt Γ θ) = _
    rw [hΓ.solution_of_mem hA, Context.resolved, Nameless.fillExistentials_fillExistentials]
    rfl

/-- What an applied type is under the assignment it is under the valuation. -/
lemma type_valuation (hΓ : Γ.WellFormed) {A A' : Ty} (hA : Γ.Scopes A)
    (hA' : Γ.apply A = .ok A') : (h.valuation hΓ).type A = A'.assigned θ := by
  rw [← (h.fits hΓ).type_apply hΓ hA']
  refine Nameless.fillExistentials_congr fun x hx => h.value_valuation hΓ ?_
  rw [hΓ.nameless_apply hA'] at hx
  exact hΓ.existentials_resolved hA hx

end Assignment

/-- A valuation as an assignment. -/
def Valuation.assigns (θ : Valuation) (x : Name) : Ty :=
  (θ.value x).toTy

/-- As an assignment a valuation gives forms with names of its monotypes. -/
private lemma Valuation.nameless_assigns (θ : Valuation) (x : Name) :
    (θ.assigns x).nameless = θ.value x :=
  (θ.monotype x).nameless_toTy

/-- A valuation that fits is an assignment. -/
theorem Valuation.Fits.assignment {θ : Valuation} (h : θ.Fits Γ) : Assignment Γ θ.assigns where
  isMono x _ := Nameless.isMono_toTy _
  existentials x _ := by
    rw [← Ty.existentials_nameless, θ.nameless_assigns, θ.ground]
  rigids x left right hslot a ha := by
    rw [hslot] at h
    refine h.holds a ?_
    rwa [← θ.nameless_assigns, Ty.mem_frees_nameless]

/-- As an assignment a valuation makes the same of a type. -/
lemma Valuation.assigned_assigns (θ : Valuation) (A : Ty) :
    A.assigned θ.assigns = θ.type A :=
  Nameless.fillExistentials_congr fun x _ => θ.nameless_assigns x

end Assignments

end HigherRank
