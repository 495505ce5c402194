import HigherRank.Proofs.Precedence
import HigherRank.Proofs.Renaming
import HigherRank.Proofs.Valuation
import Mathlib.SetTheory.Cardinal.Arithmetic

set_option autoImplicit false
set_option relaxedAutoImplicit false

/-!
# Contexts with the same valuations

A context may become two others that allow the same monotypes for its existentials. Then these two
differ in nothing but the names of new existentials: what an existential stands for in the one is
what it stands for in the other, with the new existentials renamed.

Valuations see the shape of what an existential stands for, and which existentials without a
solution occur in the same places. They do not see which of two equal existentials has been solved
to the other. That is decided by the order of declarations, since solutions are made of what is
declared before.

## Main definitions

* `HigherRank.Context.Develops` — what a context may become.
* `HigherRank.Context.Equivalent` — contexts that allow the same monotypes for the existentials of a
  third one.
* `HigherRank.Context.Counterparts` — existentials of two contexts that occur in the same places.
* `HigherRank.Nameless.Matches` — types that differ by a relation between their existentials.

## Main results

* `HigherRank.Context.Equivalent.matches_solution` — what an existential stands for in the two
  contexts.
* `HigherRank.Context.Equivalent.eq_of_declares` — an existential that was declared before is its
  own counterpart.
* `HigherRank.Context.Equivalent.eq_of_self` — a context that allows no less than before is as it
  was.
* `HigherRank.Context.Equivalent.exists_renaming` — the two contexts differ by a renaming.
-/

namespace HigherRank

open Context (Extends WellFormed)

/-! ## Types that match -/

namespace Nameless

/-- The types are the same, but for existentials that are related. -/
inductive Matches (R : Name → Name → Prop) : Nameless → Nameless → Prop where
  | unit : Matches R .unit .unit
  | free (a : Name) : Matches R (.free a) (.free a)
  | evar {x y : Name} : R x y → Matches R (.evar x) (.evar y)
  | arr {A B A' B' : Nameless} : Matches R A A' → Matches R B B' → Matches R (.arr A B) (.arr A' B')

namespace Matches

variable {R : Name → Name → Prop} {A B : Nameless} {y : Name}

/-- Every existential of the second type is related to one of the first. -/
private lemma exists_of_mem (h : Matches R A B) (hy : y ∈ B.existentials) :
    ∃ x ∈ A.existentials, R x y := by
  induction h with
  | unit | free => simp [existentials] at hy
  | @evar x z hxz =>
    obtain rfl : y = z := by simpa [existentials] using hy
    exact ⟨x, List.mem_singleton_self x, hxz⟩
  | arr _ _ ih₁ ih₂ =>
    rcases List.mem_append.mp hy with hy | hy
    · obtain ⟨x, hx, hxy⟩ := ih₁ hy
      exact ⟨x, List.mem_append_left _ hx, hxy⟩
    · obtain ⟨x, hx, hxy⟩ := ih₂ hy
      exact ⟨x, List.mem_append_right _ hx, hxy⟩

/-- If a function gives the related existential, then it renames the one type to the other. -/
private lemma rename_eq {ρ : Name → Name} (h : Matches R A B) (hR : ∀ x y, R x y → ρ x = y)
    (hfrees : ∀ a ∈ A.frees, ρ a = a) : A.rename ρ = B := by
  induction h with
  | unit => rfl
  | free a => exact congrArg Nameless.free (hfrees a (List.mem_singleton_self a))
  | evar hxy => exact congrArg Nameless.evar (hR _ _ hxy)
  | arr _ _ ih₁ ih₂ =>
    exact congrArg₂ Nameless.arr (ih₁ fun a ha => hfrees a (List.mem_append_left _ ha))
      (ih₂ fun a ha => hfrees a (List.mem_append_right _ ha))

end Matches

end Nameless

/-! ## Finitely many names -/

/-- Finitely many names can be exchanged for others by a permutation of all names. -/
private lemma Name.exists_perm_of_injOn {S : Set Name} {f : Name → Name} (hS : S.Finite)
    (hf : Set.InjOn f S) : ∃ ρ : Equiv.Perm Name, ∀ x ∈ S, ρ x = f x := by
  have hlt : Cardinal.mk S < Cardinal.mk Name :=
    (Cardinal.lt_aleph0_iff_set_finite.mpr hS).trans_le (Cardinal.aleph0_le_mk Name)
  let g : S ↪ Name := ⟨S.domRestrict f, Set.injOn_iff_injective.mp hf⟩
  obtain ⟨ρ, hρ⟩ := Cardinal.extend_function_of_lt g hlt ⟨Equiv.refl Name⟩
  exact ⟨ρ, fun x hx => hρ ⟨x, hx⟩⟩

namespace Context

/-- A context declares finitely many names. -/
private lemma finite_declares (Γ : Context) : {x | Γ.declares x}.Finite := by
  refine (List.finite_toSet (Γ.map Entry.name)).subset fun x hx => ?_
  obtain ⟨m, hm, hmx⟩ := List.any_eq_true.mp hx
  refine List.mem_map.mpr ⟨m, hm, ?_⟩
  cases m <;> simp_all [Entry.declares, Entry.name]

/-! ## Valuations that tell existentials apart -/

/-- A context is fitted by a valuation in which some of the existentials without a solution are the
unit type and the others are an arrow. -/
lemma WellFormed.exists_fits {Γ : Context} (h : Γ.WellFormed) (p : Name → Prop)
    [DecidablePred p] :
    ∃ θ : Valuation, θ.Fits Γ ∧
      ∀ x, .unsolved x ∈ Γ → θ.value x = if p x then .unit else .arr .unit .unit := by
  have hassign : Assignment Γ fun x => if p x then .unit else .arr .unit .unit := by
    refine ⟨fun x _ => ?_, fun x _ => ?_, fun x _ _ _ a ha => ?_⟩
    · split <;> rfl
    · split <;> rfl
    · split at ha <;> simp [Ty.rigids] at ha
  refine ⟨hassign.valuation h, hassign.fits h, fun x hx => ?_⟩
  rw [hassign.value_valuation h hx]
  split <;> rfl

/-! ## Equivalent contexts -/

/-- The second context is well-formed and extends the first one, and its new existentials are parts
of what others have become. -/
structure Develops (Γ Δ : Context) : Prop where
  wellFormed : Δ.WellFormed
  extension : Extends (fun _ => True) Γ Δ
  rooted : Γ.Rooted Δ

/-- The first context may become either of the others, and these are fitted by valuations with the
same monotypes for its existentials. -/
structure Equivalent (Γ Δ Θ : Context) : Prop where
  left : Γ.Develops Δ
  right : Γ.Develops Θ
  forth : ∀ θ : Valuation, θ.Fits Δ → ∃ τ : Valuation, τ.Fits Θ ∧ τ.Agrees θ Γ
  back : ∀ τ : Valuation, τ.Fits Θ → ∃ θ : Valuation, θ.Fits Δ ∧ θ.Agrees τ Γ

/-- The first type under a valuation of the first context is the second type under a valuation of
the second one, if the two valuations give the same monotypes to the existentials of `Γ`. -/
def Alike (Γ Δ Θ : Context) (A B : Nameless) : Prop :=
  ∀ θ τ : Valuation, θ.Fits Δ → τ.Fits Θ → τ.Agrees θ Γ →
    A.fillExistentials θ.value = B.fillExistentials τ.value

/-- Existentials without a solution that have the same monotypes. -/
structure Counterparts (Γ Δ Θ : Context) (x y : Name) : Prop where
  left : .unsolved x ∈ Δ
  right : .unsolved y ∈ Θ
  alike : Γ.Alike Δ Θ (.evar x) (.evar y)

section Symm

variable {Γ Δ Θ : Context} {A B : Nameless} {x y : Name}

/-- It does not matter which of the two contexts is named first. -/
lemma Equivalent.symm (h : Γ.Equivalent Δ Θ) : Γ.Equivalent Θ Δ :=
  ⟨h.right, h.left, h.back, h.forth⟩

/-- It does not matter which of the two types is named first. -/
private lemma Alike.symm (h : Γ.Alike Δ Θ A B) : Γ.Alike Θ Δ B A :=
  fun θ τ hθ hτ hagrees => (h τ θ hτ hθ fun x hx => (hagrees x hx).symm).symm

/-- The parts of arrows that are alike are alike. -/
private lemma Alike.arr {A₁ A₂ B₁ B₂ : Nameless} (h : Γ.Alike Δ Θ (.arr A₁ A₂) (.arr B₁ B₂)) :
    Γ.Alike Δ Θ A₁ B₁ ∧ Γ.Alike Δ Θ A₂ B₂ := by
  have hparts : ∀ θ τ : Valuation, θ.Fits Δ → τ.Fits Θ → τ.Agrees θ Γ →
      A₁.fillExistentials θ.value = B₁.fillExistentials τ.value ∧
        A₂.fillExistentials θ.value = B₂.fillExistentials τ.value := by
    intro θ τ hθ hτ hagrees
    simpa [Nameless.fillExistentials, Nameless.fill] using h θ τ hθ hτ hagrees
  exact ⟨fun θ τ hθ hτ hagrees => (hparts θ τ hθ hτ hagrees).1,
    fun θ τ hθ hτ hagrees => (hparts θ τ hθ hτ hagrees).2⟩

/-- It does not matter which of the two existentials is named first. -/
lemma Counterparts.symm (h : Γ.Counterparts Δ Θ x y) : Γ.Counterparts Θ Δ y x :=
  ⟨h.right, h.left, h.alike.symm⟩

end Symm

namespace Equivalent

variable {Γ Δ Θ : Context} {A B : Nameless} {x y z : Name}

/-- Types that are alike are compared under a valuation of the first context, in which some of the
existentials without a solution are the unit type and the others are an arrow. -/
private lemma exists_valuations (h : Γ.Equivalent Δ Θ) (hAB : Γ.Alike Δ Θ A B) (p : Name → Prop)
    [DecidablePred p] :
    ∃ θ τ : Valuation, A.fillExistentials θ.value = B.fillExistentials τ.value ∧
      ∀ x, .unsolved x ∈ Δ → θ.value x = if p x then .unit else .arr .unit .unit := by
  obtain ⟨θ, hθ, hvalue⟩ := h.left.wellFormed.exists_fits p
  obtain ⟨τ, hτ, hagrees⟩ := h.forth θ hθ
  exact ⟨θ, τ, hAB θ τ hθ hτ hagrees, hvalue⟩

/-- Only an existential is alike to an existential without a solution, which may be anything. -/
private lemma exists_evar (h : Γ.Equivalent Δ Θ) (hx : .unsolved x ∈ Δ)
    (hB : Γ.Alike Δ Θ (.evar x) B) (hmono : B.isMono) : ∃ y, B = .evar y := by
  obtain ⟨θ, τ, hunit, hθ⟩ := h.exists_valuations hB fun _ => True
  obtain ⟨θ', τ', harr, hθ'⟩ := h.exists_valuations hB fun _ => False
  simp only [Nameless.fillExistentials, Nameless.fill, hθ x hx, hθ' x hx, if_true, if_false]
    at hunit harr
  cases B with
  | evar y => exact ⟨y, rfl⟩
  | unit => simp [Nameless.fill] at harr
  | free | bound | arr => simp [Nameless.fill] at hunit
  | all => simp [Nameless.isMono] at hmono

/-- An existential has one counterpart. -/
lemma counterpart_unique (h : Γ.Equivalent Δ Θ) (hy : Γ.Counterparts Δ Θ x y)
    (hz : Γ.Counterparts Δ Θ x z) : y = z := by
  by_contra hne
  obtain ⟨τ, hτ, hvalue⟩ := h.right.wellFormed.exists_fits fun w => w = y
  obtain ⟨θ, hθ, hagrees⟩ := h.back τ hτ
  have hagrees' : τ.Agrees θ Γ := fun w hw => (hagrees w hw).symm
  have hxy : θ.value x = τ.value y := hy.alike θ τ hθ hτ hagrees'
  have hxz : θ.value x = τ.value z := hz.alike θ τ hθ hτ hagrees'
  rw [hvalue y hy.right, if_pos rfl] at hxy
  rw [hvalue z hz.right, if_neg (Ne.symm hne), hxy] at hxz
  simp at hxz

/-- What is no existential is not alike to an existential without a solution. -/
private lemma ne_evar_of_alike (h : Γ.Equivalent Δ Θ) (hAB : Γ.Alike Δ Θ A B) (hA : A.isMono)
    (hBu : ∀ y ∈ B.existentials, .unsolved y ∈ Θ) (hx : ∀ x, A ≠ .evar x) (y : Name) :
    B ≠ .evar y := by
  rintro rfl
  obtain ⟨x, rfl⟩ :=
    h.symm.exists_evar (hBu y (by simp [Nameless.existentials])) hAB.symm hA
  exact hx x rfl

/-- Monotypes that are alike are the same but for counterparts.

**Proof sketch.** Induction on the first type. An existential is alike to an existential only, and
apart from existentials the two types have to be of the same form already. -/
private lemma matches_of_alike (h : Γ.Equivalent Δ Θ) (hAB : Γ.Alike Δ Θ A B) (hA : A.Monotype)
    (hB : B.Monotype) (hAu : ∀ x ∈ A.existentials, .unsolved x ∈ Δ)
    (hBu : ∀ y ∈ B.existentials, .unsolved y ∈ Θ) : A.Matches (Γ.Counterparts Δ Θ) B := by
  induction A generalizing B with
  | bound i => exact absurd hA.closed (Nat.not_lt_zero i)
  | all => exact absurd hA.isMono (by simp [Nameless.isMono])
  | evar x =>
    have hx := hAu x (by simp [Nameless.existentials])
    obtain ⟨y, rfl⟩ := h.exists_evar hx hAB hB.isMono
    exact .evar ⟨hx, hBu y (by simp [Nameless.existentials]), hAB⟩
  | unit =>
    have hne := h.ne_evar_of_alike hAB hA.isMono hBu (by simp)
    obtain ⟨θ, τ, hfill, -⟩ := h.exists_valuations hAB fun _ => True
    cases B with
    | unit => exact .unit
    | evar y => exact absurd rfl (hne y)
    | _ => simp [Nameless.fillExistentials, Nameless.fill] at hfill
  | free a =>
    have hne := h.ne_evar_of_alike hAB hA.isMono hBu (by simp)
    obtain ⟨θ, τ, hfill, -⟩ := h.exists_valuations hAB fun _ => True
    cases B with
    | free b =>
      obtain rfl : a = b := by simpa [Nameless.fillExistentials, Nameless.fill] using hfill
      exact .free a
    | evar y => exact absurd rfl (hne y)
    | _ => simp [Nameless.fillExistentials, Nameless.fill] at hfill
  | arr A₁ A₂ ih₁ ih₂ =>
    have hne := h.ne_evar_of_alike hAB hA.isMono hBu (by simp)
    obtain ⟨θ, τ, hfill, -⟩ := h.exists_valuations hAB fun _ => True
    cases B with
    | arr B₁ B₂ =>
      simp only [Nameless.existentials, List.mem_append] at hAu hBu
      obtain ⟨h₁, h₂⟩ := hAB.arr
      obtain ⟨hA₁, hA₂⟩ := Nameless.monotype_arr.mp hA
      obtain ⟨hB₁, hB₂⟩ := Nameless.monotype_arr.mp hB
      exact .arr (ih₁ h₁ hA₁ hB₁ (fun x hx => hAu x (.inl hx)) fun y hy => hBu y (.inl hy))
        (ih₂ h₂ hA₂ hB₂ (fun x hx => hAu x (.inr hx)) fun y hy => hBu y (.inr hy))
    | evar y => exact absurd rfl (hne y)
    | _ => simp [Nameless.fillExistentials, Nameless.fill] at hfill

/-! ## What existentials stand for -/

/-- What an existential stands for is alike in the two contexts. -/
private lemma alike_solution (hx : Γ.Existential x) :
    Γ.Alike Δ Θ (Δ.solution x) (Θ.solution x) := by
  intro θ τ hθ hτ hagrees
  rw [hθ.fill_solution, hτ.fill_solution, hagrees x hx]

/-- What an existential stands for in the two contexts is the same but for counterparts. -/
theorem matches_solution (h : Γ.Equivalent Δ Θ) (hx : Γ.Existential x) :
    (Δ.solution x).Matches (Γ.Counterparts Δ Θ) (Θ.solution x) := by
  have hΔ := h.left.wellFormed
  have hΘ := h.right.wellFormed
  refine h.matches_of_alike (alike_solution hx) (hΔ.monotype_solution x) (hΘ.monotype_solution x)
    (fun y hy => hΔ.unsolved_of_mem_solution ?_ hy) fun y hy => hΘ.unsolved_of_mem_solution ?_ hy
  · exact h.left.extension.existential hx
  · exact h.right.extension.existential hx

/-- If an existential of the first context has no solution in the one context, then it stands for
its counterpart in the other. -/
private lemma solution_eq_evar (h : Γ.Equivalent Δ Θ) (hx : Γ.Existential x)
    (hxy : Γ.Counterparts Δ Θ x y) : Θ.solution x = .evar y := by
  have hmatches := h.matches_solution hx
  rw [h.left.wellFormed.solution_of_unsolved hxy.left] at hmatches
  generalize hR : Θ.solution x = R at hmatches
  cases hmatches with
  | evar hxz => rw [h.counterpart_unique hxy hxz]

/-- An existential that was declared before is its own counterpart.

**Proof sketch.** Assume it is not, so that it has become its counterpart in the other context and
is declared after that. If the counterpart was declared before, too, then it has become the
existential in the one context, and is declared after that. Otherwise the counterpart is part of
what another existential has become, and this one is declared after the existential in the one
context, but not in the other. -/
private lemma eq_of_declares_left (h : Γ.Equivalent Δ Θ) (hxy : Γ.Counterparts Δ Θ x y)
    (hx : Γ.declares x) : x = y := by
  by_contra hne
  have hΔ := h.left.wellFormed
  have hΘ := h.right.wellFormed
  have hxΓ : Γ.Existential x := .inl (h.left.extension.unsolved_of_declares hΔ hxy.left hx)
  have hsolution : Θ.solution x = .evar y := h.solution_eq_evar hxΓ hxy
  have hyx : Θ.Precedes y x :=
    hΘ.precedes_of_mem_solution (by simp [hsolution, Nameless.existentials]) (Ne.symm hne)
  -- in either case some existential of the first context is after `x` in the one of the two others
  by_cases hy : Γ.declares y
  · have hyΓ : Γ.Existential y := .inl (h.right.extension.unsolved_of_declares hΘ hxy.right hy)
    have hsolution' : Δ.solution y = .evar x := h.symm.solution_eq_evar hyΓ hxy.symm
    have hxy' : Δ.Precedes x y :=
      hΔ.precedes_of_mem_solution (by simp [hsolution', Nameless.existentials]) hne
    rcases Context.precedes_or hx hy hne with hlt | hlt
    · exact (h.right.extension.precedes hlt).asymm hΘ hyx
    · exact (h.left.extension.precedes hlt).asymm hΔ hxy'
  · obtain ⟨z, hz⟩ := h.right.rooted y hxy.right hy
    have hxz : x ≠ z := by
      rintro rfl
      exact hz.ne_evar y hsolution
    obtain ⟨w, hw, hwy⟩ := (h.matches_solution (.inl hz.unsolved)).exists_of_mem hz.mem
    obtain rfl : x = w := h.symm.counterpart_unique hxy.symm hwy.symm
    have hxz' : Δ.Precedes x z := hΔ.precedes_of_mem_solution hw hxz
    rcases Context.precedes_or hx (declares_iff.mpr (.inr (.inl hz.unsolved))) hxz with hlt | hlt
    · exact (hz.precedes x hlt).asymm hΘ hyx
    · exact (h.left.extension.precedes hlt).asymm hΔ hxz'

/-- Existentials that correspond are equal if the first context declares one of them. -/
theorem eq_of_declares (h : Γ.Equivalent Δ Θ) (hxy : Γ.Counterparts Δ Θ x y)
    (hdecl : Γ.declares x ∨ Γ.declares y) : x = y := by
  rcases hdecl with hx | hy
  · exact h.eq_of_declares_left hxy hx
  · exact (h.symm.eq_of_declares_left hxy.symm hy).symm

/-- A context that allows the same monotypes as the one that it develops is that one.

**Proof sketch.** An existential without a solution could still be anything, so that it stands for
an existential in the other context, which can only be itself. -/
theorem eq_of_self (h : Γ.Equivalent Γ Δ) : Δ = Γ := by
  refine h.right.extension.eq_of_unsolved h.right.wellFormed fun x hx => ?_
  have hmatches := h.matches_solution (.inl hx)
  rw [h.left.wellFormed.solution_of_unsolved hx] at hmatches
  generalize Δ.solution x = R at hmatches
  cases hmatches with
  | @evar _ y hxy =>
    have hdecl : Γ.declares x := declares_iff.mpr (.inr (.inl hx))
    obtain rfl : x = y := h.eq_of_declares hxy (.inl hdecl)
    exact hxy.right

/-! ## The renaming -/

/-- What counterparts are to each other can be extended to a permutation of all names, which leaves
the names as they are that were declared before.

**Proof sketch.** Send each name to its counterpart, and to itself if it has none. This keeps the
names that were declared before, and it is injective on them and on all names with a counterpart, as
counterparts are unique in both directions. All of these names are declared by the first of the two
contexts, hence they are finitely many, and the map extends to a permutation
(`Name.exists_perm_of_injOn`). -/
private lemma exists_perm (h : Γ.Equivalent Δ Θ) :
    ∃ ρ : Equiv.Perm Name, (∀ x, Γ.declares x → ρ x = x) ∧
      ∀ x y, Γ.Counterparts Δ Θ x y → ρ x = y := by
  have hexists : ∀ x, ∃ y, (Γ.declares x → y = x) ∧ ∀ z, Γ.Counterparts Δ Θ x z → y = z := by
    intro x
    by_cases hx : ∃ y, Γ.Counterparts Δ Θ x y
    · obtain ⟨y, hy⟩ := hx
      exact ⟨y, fun hx => (h.eq_of_declares hy (.inl hx)).symm, fun z => h.counterpart_unique hy⟩
    · exact ⟨x, fun _ => rfl, fun z hz => absurd ⟨z, hz⟩ hx⟩
  choose f hf using hexists
  let S : Set Name := {x | Γ.declares x ∨ ∃ y, Γ.Counterparts Δ Θ x y}
  have hfinite : S.Finite := by
    refine Δ.finite_declares.subset fun x hx => ?_
    rcases hx with hx | ⟨y, hy⟩
    · exact h.left.extension.declares_of_declares hx
    · exact declares_iff.mpr (.inr (.inl hy.left))
  have hinj : Set.InjOn f S := by
    rintro x (hx | ⟨y, hy⟩) x' (hx' | ⟨y', hy'⟩) heq
    · rwa [(hf x).1 hx, (hf x').1 hx'] at heq
    · obtain rfl : x = y' := by rwa [(hf x).1 hx, (hf x').2 y' hy'] at heq
      exact (h.eq_of_declares hy' (.inr hx)).symm
    · obtain rfl : y = x' := by rwa [(hf x).2 y hy, (hf x').1 hx'] at heq
      exact h.eq_of_declares hy (.inr hx')
    · obtain rfl : y = y' := by rwa [(hf x).2 y hy, (hf x').2 y' hy'] at heq
      exact h.symm.counterpart_unique hy.symm hy'.symm
  obtain ⟨ρ, hρ⟩ := Name.exists_perm_of_injOn hfinite hinj
  refine ⟨ρ, fun x hx => ?_, fun x y hxy => ?_⟩
  · rw [hρ x (.inl hx), (hf x).1 hx]
  · rw [hρ x (.inr ⟨y, hxy⟩), (hf x).2 y hxy]

/-- The two contexts differ by a renaming of new existentials: there is a permutation of the names
under which every existential of the first context stands for the same in both. -/
theorem exists_renaming (h : Γ.Equivalent Δ Θ) :
    ∃ ρ : Equiv.Perm Name, (∀ x, Γ.declares x → ρ x = x) ∧
      ∀ x, Γ.Existential x → (Δ.solution x).rename ρ = Θ.solution x := by
  obtain ⟨ρ, hdeclares, hcounterparts⟩ := h.exists_perm
  refine ⟨ρ, hdeclares, fun x hx => ?_⟩
  refine (h.matches_solution hx).rename_eq hcounterparts fun a ha => hdeclares a ?_
  -- no rigid variable is new
  have hrigid : .rigid a ∈ Δ := h.left.wellFormed.rigid_of_mem_solution ha
  refine declares_iff.mpr (.inl (h.left.extension.mem_of_mem hrigid ?_))
  simp [Entry.IsExistential]

end Equivalent

end Context

end HigherRank
