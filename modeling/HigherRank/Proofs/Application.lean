import HigherRank.Context.Apply
import HigherRank.Proofs.Resolution

set_option autoImplicit false
set_option relaxedAutoImplicit false

/-!
# Applying a context

Applying a context to a type follows every solution to its end. This is said here by a relation,
whose derivations are the recursions that do end, and without any bound on their depth. Under a
well-formed context there is such a derivation for every type, the relation is what applying the
context computes, and the result is exact: nothing is captured, nothing is left to be filled in,
and a second application does not even rename a binder.

## Main definitions

* `HigherRank.Context.Applies` — a type becomes another one when a context is applied to it.

## Main results

* `HigherRank.Context.WellFormed.exists_applies` — within a bound that suffices the recursion ends.
* `HigherRank.Context.WellFormed.apply_eq_ok_iff` — applying a well-formed context gives what the
  relation says.
* `HigherRank.Context.WellFormed.applyWithin_eq_apply` — the bound on the depth of an application
  does not show.
* `HigherRank.Context.Applies.namelessUnder`, `HigherRank.Context.WellFormed.nameless_apply` — a
  type becomes what it stands for, up to bound names.
* `HigherRank.Context.Applies.self` — a type without solved existentials stays the same, with the
  same binders.
* `HigherRank.Context.apply_avoids_capture` — the result is the type with all solutions filled in
  for its existentials, up to bound names.
* `HigherRank.Context.apply_exhaustive` — the recursion ends, no solved existential is left, and
  applying the context again changes nothing.
-/

namespace HigherRank.Context

/-! ## The recursion without a bound -/

/-- Applying the context to a type ends with a type. Below a binder the existentials of the body
come first: the binder is renamed if it is free in one of the types that they become. -/
inductive Applies (Γ : Context) : Ty → Ty → Prop where
  | unit : Applies Γ .unit .unit
  | var (a : Name) : Applies Γ (.var a) (.var a)
  | unsolved {x : Name} : Γ.lookupSolution x = .ok none → Applies Γ (.evar x) (.evar x)
  | solved {x : Name} {A A' : Ty} :
    Γ.lookupSolution x = .ok (some A) → Applies Γ A A' → Applies Γ (.evar x) A'
  | arr {A A' B B' : Ty} : Applies Γ A A' → Applies Γ B B' → Applies Γ (.arr A B) (.arr A' B')
  | all {a : Name} {A A' : Ty} {σ : Name → Ty} :
    (∀ x ∈ A.existentials.eraseDups, Applies Γ (.evar x) (σ x)) →
    a ∉ rigidsOfAll (A.existentials.eraseDups.map σ) →
    Applies Γ A A' → Applies Γ (.all a A) (.all a A')
  | allRenamed {a a' : Name} {A A' : Ty} {σ : Name → Ty} :
    (∀ x ∈ A.existentials.eraseDups, Applies Γ (.evar x) (σ x)) →
    a ∈ rigidsOfAll (A.existentials.eraseDups.map σ) →
    a' = a.unused (rigidsOfAll (A.existentials.eraseDups.map σ) ++ A.rigids) →
    Applies Γ (A.subst a (.var a')) A' → Applies Γ (.all a A) (.all a' A')

namespace Applies

variable {Γ : Context} {A A₁ A₂ : Ty}

/-- A type becomes one type only.

**Proof sketch.** Induction on one derivation. The other one ends with the same rule, since they
look up the same solutions, and below a binder the free variables are then the same. -/
private lemma det (h₁ : Γ.Applies A A₁) (h₂ : Γ.Applies A A₂) : A₁ = A₂ := by
  induction h₁ generalizing A₂ with
  | unit | var => cases h₂; rfl
  | unsolved hx =>
    cases h₂ with
    | unsolved => rfl
    | solved hx' => simp [hx] at hx'
  | @solved x B _ hx _ ih =>
    cases h₂ with
    | unsolved hx' => simp [hx] at hx'
    | @solved _ B' _ hx' h =>
      obtain rfl : B = B' := by simpa [hx] using hx'
      exact ih h
  | arr _ _ ihA ihB =>
    cases h₂ with
    | arr hA hB => rw [ihA hA, ihB hB]
  | all _ ha _ ihσ ih =>
    cases h₂ with
    | all _ _ h => rw [ih h]
    | allRenamed hσ ha' =>
      rw [List.map_congr_left fun x hx => (ihσ x hx (hσ x hx)).symm] at ha'
      exact absurd ha' ha
  | allRenamed _ ha ha' _ ihσ ih =>
    cases h₂ with
    | all hσ ha₂ =>
      rw [List.map_congr_left fun x hx => (ihσ x hx (hσ x hx)).symm] at ha₂
      exact absurd ha ha₂
    | allRenamed hσ _ ha₂ h =>
      rw [List.map_congr_left fun x hx => (ihσ x hx (hσ x hx)).symm, ← ha'] at ha₂
      subst ha₂
      rw [ih h]

/-- A type whose existentials have no solution stays as it is. No binder of it is renamed, since
its existentials have no free variables. -/
theorem self (h : ∀ x ∈ A.existentials, ∀ B, .solved x B ∉ Γ) : Γ.Applies A A := by
  induction A with
  | unit => exact .unit
  | var a => exact .var a
  | evar x => exact .unsolved (lookupSolution_of_not_mem (h x (by simp [Ty.existentials])))
  | arr A B ihA ihB =>
    simp only [Ty.existentials, List.mem_append] at h
    exact .arr (ihA fun x hx => h x (.inl hx)) (ihB fun x hx => h x (.inr hx))
  | all a A ih =>
    refine .all (σ := .evar) (fun x hx => ?_) ?_ (ih h)
    · exact .unsolved (lookupSolution_of_not_mem (h x (List.mem_eraseDups.mp hx)))
    · simp [rigidsOfAll, Ty.rigids]

/-- Only the solutions matter: a context that has the same ones for the existentials of a
well-formed context does the same to types with these existentials.

**Proof sketch.** Induction on the application. The existentials that are met on the way are those
of the type, those of solutions, which are in scope since the context is well-formed, and those
whose solutions are inspected for the free variables below a binder. -/
lemma congr {Δ : Context} (h : Γ.Applies A A₁) (hΓ : Γ.WellFormed)
    (hsame : ∀ x, Γ.Existential x → Δ.lookupSolution x = Γ.lookupSolution x)
    (hA : ∀ x ∈ A.existentials, Γ.Existential x) : Δ.Applies A A₁ := by
  have hevar : ∀ {x : Name}, Γ.Existential x → ∀ y ∈ (Ty.evar x).existentials, Γ.Existential y := by
    simp [Ty.existentials]
  induction h with
  | unit => exact .unit
  | var a => exact .var a
  | unsolved hx => exact .unsolved (by rw [hsame _ (hA _ List.mem_cons_self), hx])
  | solved hx _ ih =>
    refine .solved (by rw [hsame _ (hA _ List.mem_cons_self), hx]) (ih ?_)
    obtain ⟨left, right, rfl, -, hscope⟩ := hΓ.solved_slot (solved_mem_of_lookupSolution hx)
    exact fun y hy => (hscope.existential y hy).mono fun n hn => by simp [hn]
  | arr _ _ ihA ihB =>
    simp only [Ty.existentials, List.mem_append] at hA
    exact .arr (ihA fun x hx => hA x (.inl hx)) (ihB fun x hx => hA x (.inr hx))
  | all _ ha _ ihσ ih =>
    exact .all (fun x hx => ihσ x hx (hevar (hA x (List.mem_eraseDups.mp hx)))) ha (ih hA)
  | allRenamed _ ha ha' _ ihσ ih =>
    refine .allRenamed (fun x hx => ihσ x hx (hevar (hA x (List.mem_eraseDups.mp hx)))) ha ha'
      (ih ?_)
    rw [Ty.existentials_subst_var]
    exact hA

end Applies

/-! ## The recursion within a bound -/

/-- If every element of a list has a result, the list has these results. -/
private lemma mapM_eq_ok_map {α β ε : Type} {f : α → Except ε β} {σ : α → β} {xs : List α}
    (h : ∀ x ∈ xs, f x = .ok (σ x)) : xs.mapM f = .ok (xs.map σ) := by
  induction xs with
  | nil => rfl
  | cons x xs ih =>
    rw [List.mapM_cons, h x List.mem_cons_self, ih fun y hy => h y (List.mem_cons_of_mem x hy)]
    rfl

/-- The depths that the parts of a context add to a type add up. -/
private lemma solutionDepth_concat (Γ Δ : Context) :
    (Γ.concat Δ).solutionDepth = Δ.solutionDepth + Γ.solutionDepth := by
  induction Δ with
  | nil => exact (Nat.zero_add _).symm
  | cons m Δ ih =>
    rw [concat_cons]
    cases m with
    | solved x A => simp only [solutionDepth, ih, Nat.add_assoc]
    | rigid | assumed | unsolved | marker => exact ih

/-- All solutions that an application to the type can meet at first lie in a left part of the
context. -/
structure SolvedWithin (Γ left : Context) (A : Ty) : Prop where
  exists_right : ∃ right, Γ = left.concat right
  mem_left : ∀ x ∈ A.existentials, ∀ B, .solved x B ∈ Γ → .solved x B ∈ left

section SolvedWithin

variable {Γ left : Context} {A B : Ty} {a b x : Name}

/-- All solutions lie in the context itself. -/
lemma SolvedWithin.self (Γ : Context) (A : Ty) : Γ.SolvedWithin Γ A :=
  ⟨⟨[], rfl⟩, fun _ _ _ hB => hB⟩

/-- A type with fewer existentials meets no more solutions. -/
lemma SolvedWithin.mono (h : Γ.SolvedWithin left A) (hsub : B.existentials ⊆ A.existentials) :
    Γ.SolvedWithin left B :=
  ⟨h.exists_right, fun x hx => h.mem_left x (hsub hx)⟩

/-- Renaming a binder does not change which solutions are met. -/
private lemma SolvedWithin.subst_var (h : Γ.SolvedWithin left (.all a A)) (b : Name) :
    Γ.SolvedWithin left (A.subst a (.var b)) :=
  h.mono (by rw [Ty.existentials_subst_var]; exact List.Subset.refl _)

/-- An existential below a binder meets no other solutions than the body does. -/
private lemma SolvedWithin.evar (h : Γ.SolvedWithin left (.all a A))
    (hx : x ∈ A.existentials.eraseDups) : Γ.SolvedWithin left (.evar x) :=
  h.mono (by simpa [Ty.existentials] using List.mem_eraseDups.mp hx)

/-- A solution is in scope to the left of its slot, and its height is part of what the slot adds to
the depth. -/
private lemma SolvedWithin.solution (h : Γ.SolvedWithin left (.evar x)) (hΓ : Γ.WellFormed)
    (hB : .solved x B ∈ Γ) :
    ∃ left', Γ.SolvedWithin left' B ∧ B.height + left'.solutionDepth < left.solutionDepth := by
  obtain ⟨right, rfl⟩ := h.exists_right
  have hleft := h.mem_left x (by simp [Ty.existentials]) B hB
  obtain ⟨left', right', rfl⟩ := exists_concat_of_mem hleft
  have hscope : Scopes left' B := by
    cases hΓ.of_concat.admits_of_concat with
    | solved _ _ _ _ hscope => exact hscope
  have hslot : (concat (.solved x B :: left') right').concat right =
      concat left' (right ++ (right' ++ [.solved x B])) := by
    simp [concat]
  refine ⟨left', ⟨⟨_, hslot⟩, fun y hy C hC => ?_⟩, ?_⟩
  · rw [hslot] at hΓ hC
    exact (mem_concat.mp hC).resolve_left (hΓ.not_solved_right (hscope.existential y hy) C)
  · rw [solutionDepth_concat, solutionDepth]
    omega

end SolvedWithin

namespace WellFormed

variable {Γ left : Context} {A A' : Ty}

/-- Within a bound that suffices the recursion ends, and it ends with the type that is computed.

**Proof sketch.** Induction on the bound, which every rule decreases. -/
theorem exists_applies {n : Nat} (h : Γ.WellFormed) (hA : Γ.SolvedWithin left A)
    (hdepth : A.height + left.solutionDepth < n) :
    ∃ A', applyWithin n Γ A = .ok A' ∧ Γ.Applies A A' := by
  induction n generalizing A left with
  | zero => omega
  | succ n ih =>
    cases A with
    | unit => exact ⟨_, rfl, .unit⟩
    | var a => exact ⟨_, rfl, .var a⟩
    | evar x =>
      by_cases hs : ∃ B, .solved x B ∈ Γ
      · obtain ⟨B, hB⟩ := hs
        obtain ⟨left', hleft', hdepth'⟩ := hA.solution h hB
        obtain ⟨B', hrun, hB'⟩ := ih hleft' (by omega)
        have hlookup := lookupSolution_of_mem h.solvedOnce hB
        exact ⟨B', by simp [applyWithin, hlookup, bind, Except.bind, hrun], .solved hlookup hB'⟩
      · have hlookup := lookupSolution_of_not_mem (not_exists.mp hs)
        exact ⟨.evar x, by simp [applyWithin, hlookup, bind, Except.bind, pure, Except.pure],
          .unsolved hlookup⟩
    | arr A B =>
      simp only [Ty.height] at hdepth
      obtain ⟨A', hrunA, hA'⟩ := ih (hA.mono (B := A) (by simp [Ty.existentials])) (by omega)
      obtain ⟨B', hrunB, hB'⟩ := ih (hA.mono (B := B) (by simp [Ty.existentials])) (by omega)
      exact ⟨.arr A' B', by simp [applyWithin, hrunA, hrunB, bind, Except.bind, pure, Except.pure],
        .arr hA' hB'⟩
    | all a A =>
      simp only [Ty.height] at hdepth
      -- the types that the existentials of the body become, which decide about the binder
      have hsolutions : ∀ x, x ∈ A.existentials.eraseDups →
          ∃ B, applyWithin n Γ (.evar x) = .ok B ∧ Γ.Applies (.evar x) B :=
        fun x hx => ih (hA.evar hx) (by simp only [Ty.height]; omega)
      choose! σ hrunσ hσ using hsolutions
      have hmapM : A.existentials.eraseDups.mapM (fun x => applyWithin n Γ (.evar x)) =
          .ok (A.existentials.eraseDups.map σ) := mapM_eq_ok_map hrunσ
      by_cases ha : a ∈ rigidsOfAll (A.existentials.eraseDups.map σ)
      · let a' := a.unused (rigidsOfAll (A.existentials.eraseDups.map σ) ++ A.rigids)
        obtain ⟨A', hrun, hA'⟩ := ih (hA.subst_var a') (by rw [Ty.height_subst_var]; omega)
        refine ⟨.all a' A', ?_, .allRenamed hσ ha rfl hA'⟩
        simp [applyWithin, hmapM, ha, hrun, a', bind, Except.bind, pure, Except.pure]
      · obtain ⟨A', hrun, hA'⟩ :=
          ih (hA.mono (B := A) (List.Subset.refl A.existentials)) (by omega)
        refine ⟨.all a A', ?_, .all hσ ha hA'⟩
        simp [applyWithin, hmapM, ha, hrun, bind, Except.bind, pure, Except.pure]

/-- Applying a well-formed context gives a type exactly if the recursion ends with it. -/
theorem apply_eq_ok_iff (h : Γ.WellFormed) : Γ.apply A = .ok A' ↔ Γ.Applies A A' := by
  obtain ⟨A₁, hrun, hA₁⟩ := h.exists_applies (.self Γ A) (Nat.lt_succ_self _)
  have hA : Γ.apply A = .ok A₁ := hrun
  rw [hA, Except.ok.injEq]
  exact ⟨fun heq => heq ▸ hA₁, hA₁.det⟩

/-- The bound on the depth of an application is not reached: a larger one makes no difference. -/
theorem applyWithin_eq_apply {n : Nat} (h : Γ.WellFormed) (hn : A.height + Γ.solutionDepth < n) :
    applyWithin n Γ A = Γ.apply A := by
  obtain ⟨A₁, hrun₁, hA₁⟩ := h.exists_applies (.self Γ A) hn
  obtain ⟨A₂, hrun₂, hA₂⟩ := h.exists_applies (.self Γ A) (Nat.lt_succ_self _)
  rw [hrun₁, hA₁.det hA₂, Context.apply, hrun₂]

/-- A type whose existentials have no solution is left as it is. -/
private lemma apply_self (h : Γ.WellFormed) (hA : ∀ x ∈ A.existentials, ∀ B, .solved x B ∉ Γ) :
    Γ.apply A = .ok A :=
  h.apply_eq_ok_iff.mpr (.self hA)

end WellFormed

/-! ## What a type becomes -/

section Nameless

variable {Γ : Context} {A A' : Ty} {c : Name} {binders : List Name} {σ : Name → Ty}

/-- The free variables of all types that stand for given existentials. -/
private lemma mem_rigidsOfAll_map {xs : List Name} {b : Name}
    (h : ∀ x ∈ xs, (σ x).nameless = Γ.solution x) :
    b ∈ rigidsOfAll (xs.map σ) ↔ ∃ x ∈ xs, b ∈ (Γ.solution x).frees := by
  simp only [rigidsOfAll, List.flatMap_map, List.mem_flatMap]
  refine exists_congr fun x => and_congr_right fun hx => ?_
  rw [← Ty.mem_frees_nameless, h x hx]

/-- A binder captures nothing if it is no free variable of the types that the existentials below it
become. -/
private lemma solution_frees_not_mem_cons
    (hσ : ∀ x ∈ A.existentials.eraseDups, (σ x).nameless = Γ.solution x)
    (hc : c ∉ rigidsOfAll (A.existentials.eraseDups.map σ))
    (hbinders : ∀ x ∈ A.existentials, ∀ b ∈ (Γ.solution x).frees, b ∉ binders) :
    ∀ x ∈ A.existentials, ∀ b ∈ (Γ.solution x).frees, b ∉ c :: binders := by
  intro x hx b hb
  rw [List.mem_cons, not_or]
  refine ⟨?_, hbinders x hx b hb⟩
  rintro rfl
  exact hc ((mem_rigidsOfAll_map hσ).mpr ⟨x, List.mem_eraseDups.mpr hx, hb⟩)

/-- A type becomes its nameless form with all solutions filled in, below binders that capture
nothing of the solutions.

**Proof sketch.** Induction on the derivation. Below a binder the free variables of the solutions
must not be captured, which is what the binder is renamed for; and to rename it does not change the
nameless form of the body. -/
theorem Applies.namelessUnder (h : Γ.Applies A A') (hΓ : Γ.WellFormed)
    (hbinders : ∀ x ∈ A.existentials, ∀ b ∈ (Γ.solution x).frees, b ∉ binders) :
    A'.namelessUnder binders = (A.namelessUnder binders).fillExistentials Γ.solution := by
  induction h generalizing binders with
  | unit => rfl
  | var a =>
    refine (Nameless.fillExistentials_eq_self fun x hx => ?_).symm
    rw [Ty.existentials_namelessUnder] at hx
    simp [Ty.existentials] at hx
  | @unsolved x hx =>
    have hnone : ∀ B, .solved x B ∉ Γ := by
      intro B hB
      simp [lookupSolution_of_mem hΓ.solvedOnce hB] at hx
    exact (solution_of_not_mem hnone).symm
  | @solved x B B' hx _ ih =>
    have hsol : Γ.solution x = Γ.resolved B :=
      hΓ.solution_of_mem (solved_mem_of_lookupSolution hx)
    have hfree : ∀ b ∈ (Γ.resolved B).frees, b ∉ binders := by
      rw [← hsol]
      exact hbinders x (by simp [Ty.existentials])
    -- the binders are not free in the solution, so that it may be read without them
    have hB : B.namelessUnder binders = B.nameless := by
      refine Ty.namelessUnder_congr fun b hb => Ty.resolve_of_not_mem (hfree b ?_)
      exact Nameless.mem_frees_fillExistentials.mpr (.inl (Ty.mem_frees_nameless.mpr hb))
    have hB' :
        B'.namelessUnder binders = (B.namelessUnder binders).fillExistentials Γ.solution := by
      refine ih fun y hy b hb => hfree b ?_
      refine Nameless.mem_frees_fillExistentials.mpr (.inr ⟨y, ?_, hb⟩)
      rwa [Ty.existentials_nameless]
    rw [hB', hB]
    exact hsol.symm
  | arr _ _ ihA ihB =>
    simp only [Ty.existentials, List.mem_append] at hbinders
    simp only [Ty.namelessUnder, ihA fun x hx => hbinders x (.inl hx),
      ihB fun x hx => hbinders x (.inr hx)]
    rfl
  | @all a A A' σ _ ha _ ihσ ih =>
    have hσ : ∀ x ∈ A.existentials.eraseDups, (σ x).nameless = Γ.solution x :=
      fun x hx => ihσ x hx (by simp)
    simp only [Ty.namelessUnder, ih (solution_frees_not_mem_cons hσ ha hbinders)]
    rfl
  | @allRenamed a a' A A' σ _ _ ha' _ ihσ ih =>
    have hσ : ∀ x ∈ A.existentials.eraseDups, (σ x).nameless = Γ.solution x :=
      fun x hx => ihσ x hx (by simp)
    have hfresh : a' ∉ rigidsOfAll (A.existentials.eraseDups.map σ) ++ A.rigids :=
      ha' ▸ Name.unused_not_mem a _
    rw [List.mem_append, not_or] at hfresh
    have hsame : (A.subst a (.var a')).namelessUnder (a' :: binders) =
        A.namelessUnder (a :: binders) := by
      refine Ty.namelessUnder_subst_var (fun _ => by simp) fun b hb hba => ?_
      exact Ty.resolve_cons_congr (fun e => hfresh.2 (e ▸ hb)) hba rfl
    have hbound : ∀ x ∈ (A.subst a (.var a')).existentials, ∀ b ∈ (Γ.solution x).frees,
        b ∉ a' :: binders := by
      rw [Ty.existentials_subst_var]
      exact solution_frees_not_mem_cons hσ hfresh.1 hbinders
    simp only [Ty.namelessUnder, ih hbound, hsame]
    rfl

end Nameless

namespace WellFormed

variable {Γ : Context} {A A' : Ty}

/-- Applying a well-formed context to a type never fails, and the result is what the type stands
for, up to bound names. -/
lemma exists_apply {Γ : Context} (h : Γ.WellFormed) (A : Ty) :
    ∃ A', Γ.apply A = .ok A' ∧ A'.nameless = Γ.resolved A := by
  obtain ⟨A', hrun, hA'⟩ := h.exists_applies (.self Γ A) (Nat.lt_succ_self _)
  exact ⟨A', hrun, hA'.namelessUnder h (by simp)⟩

/-- What applying a well-formed context gives is what the type stands for. -/
theorem nameless_apply {Γ : Context} (h : Γ.WellFormed) {A A' : Ty}
    (hA : Γ.apply A = .ok A') : A'.nameless = Γ.resolved A := by
  obtain ⟨B, hB, hres⟩ := h.exists_apply A
  rw [hA, Except.ok.injEq] at hB
  rw [hB, hres]

/-- A type in scope stays in scope when the context is applied to it. -/
lemma scopes_apply (h : Γ.WellFormed) (hA : Γ.Scopes A) (hA' : Γ.apply A = .ok A') :
    Γ.Scopes A' := by
  rw [scopes_iff_nameless, h.nameless_apply hA']
  exact ⟨fun a ha => h.frees_resolved hA ha, fun x hx => .inl (h.existentials_resolved hA hx)⟩

/-- The existentials that are left are those of what the type stands for. -/
lemma existentials_apply (h : Γ.WellFormed) (hA' : Γ.apply A = .ok A') :
    A'.existentials = (Γ.resolved A).existentials := by
  rw [← h.nameless_apply hA', Ty.existentials_nameless]

/-- Applying a context neither adds nor removes quantifiers, so that monotypes stay what they
are. -/
lemma isMono_apply (h : Γ.WellFormed) (hA' : Γ.apply A = .ok A') :
    A'.isMono = A.isMono := by
  rw [← Ty.isMono_nameless, h.nameless_apply hA', resolved,
    Nameless.isMono_fillExistentials fun x => (h.monotype_solution x).isMono, Ty.isMono_nameless]

/-- A type stands for the same before and after the context is applied to it. -/
lemma resolved_apply (h : Γ.WellFormed) (hA' : Γ.apply A = .ok A') :
    Γ.resolved A' = Γ.resolved A := by
  rw [resolved, h.nameless_apply hA', h.fill_resolved]

/-- No existential that is left has a solution. -/
private lemma not_solved_of_mem_apply {x : Name} (h : Γ.WellFormed) (hA : Γ.apply A = .ok A')
    (hx : x ∈ A'.existentials) (B : Ty) : .solved x B ∉ Γ := by
  rw [h.existentials_apply hA] at hx
  obtain ⟨y, -, hy⟩ := Nameless.mem_existentials_fillExistentials.mp hx
  exact h.not_solved_of_mem_solution hy B

/-- What a solved existential stands for is the nameless form of its solution, after the context
has been applied to that. -/
private lemma exists_apply_solution {x : Name} {S : Ty} (h : Γ.WellFormed) (hS : .solved x S ∈ Γ) :
    ∃ S', Γ.apply S = .ok S' ∧ Γ.solution x = S'.nameless := by
  obtain ⟨S', happly, hS'⟩ := h.exists_apply S
  exact ⟨S', happly, by rw [h.solution_of_mem hS, hS']⟩

end WellFormed

/-! ## Nothing is captured -/

/-- Applying a well-formed context to a type gives its nameless form with every solved existential
replaced by its solution, to which the context has been applied, and with nothing else changed. So
the free variables are those of the type and those of these solutions, whatever the binders of the
type are called.

**Proof sketch.** The result of the application has the resolved type as its nameless form
(`exists_apply`). Its free variables are then those of the type and those of what is filled in
(`mem_frees_fillExistentials`), and what is filled in for an existential is the applied solution, or
the existential itself. -/
theorem apply_avoids_capture {Γ : Context} (h : Γ.isWellFormed = .ok true) (A : Ty) :
    ∃ A', Γ.apply A = .ok A' ∧ A'.nameless = A.nameless.fillExistentials Γ.solution ∧
      (∀ x S, .solved x S ∈ Γ → ∃ S', Γ.apply S = .ok S' ∧ Γ.solution x = S'.nameless) ∧
      (∀ x, (∀ S, .solved x S ∉ Γ) → Γ.solution x = .evar x) ∧
      ∀ a, a ∈ A'.rigids ↔ a ∈ A.rigids ∨
        ∃ x ∈ A.existentials, ∃ S S', .solved x S ∈ Γ ∧ Γ.apply S = .ok S' ∧ a ∈ S'.rigids := by
  have hΓ := isWellFormed_eq_true_iff.mp h
  obtain ⟨A', hA', hres⟩ := hΓ.exists_apply A
  refine ⟨A', hA', hres, fun x S hS => hΓ.exists_apply_solution hS,
    fun x hx => solution_of_not_mem hx, fun a => ?_⟩
  rw [← Ty.mem_frees_nameless, hres, resolved, Nameless.mem_frees_fillExistentials,
    Ty.mem_frees_nameless, Ty.existentials_nameless]
  refine or_congr_right (exists_congr fun x => and_congr_right fun _ => ?_)
  constructor
  · intro ha
    by_cases hx : ∃ S, .solved x S ∈ Γ
    · obtain ⟨S, hS⟩ := hx
      obtain ⟨S', happly, hS'⟩ := hΓ.exists_apply_solution hS
      exact ⟨S, S', hS, happly, Ty.mem_frees_nameless.mp (hS' ▸ ha)⟩
    · simp [solution_of_not_mem (not_exists.mp hx), Nameless.frees] at ha
  · rintro ⟨S, S', hS, happly, ha⟩
    rw [hΓ.solution_of_mem hS, ← hΓ.nameless_apply happly]
    exact Ty.mem_frees_nameless.mpr ha

/-- Both binders have to give way, the inner one twice: the solution of the existential mentions
the outer binder through another solution, and the name that the outer binder would get.

**Proof sketch.** Both applications are computed, and the theorem is used for this type. Its one
existential is `^x`, so that all free variables of the result come from the solution of that. -/
theorem apply_avoids_capture_primed :
    let Γ : Context := [.solved "x" (.arr (.evar "y") (.var "a'")),
      .solved "y" (.arr (.var "a") (.evar "z")), .unsolved "z", .rigid "a'", .rigid "a"]
    let A : Ty := .all "a" (.all "a'" (.arr (.evar "x") (.arr (.var "a") (.var "a'"))))
    let S : Ty := .arr (.arr (.var "a") (.evar "z")) (.var "a'")
    let A' : Ty := .all "a''" (.all "a'''" (.arr S (.arr (.var "a''") (.var "a'''"))))
    Γ.isWellFormed = .ok true ∧ Γ.apply A = .ok A' ∧
      A'.nameless = A.nameless.fillExistentials Γ.solution ∧ Γ.solution "x" = S.nameless ∧
      Γ.solution "z" = .evar "z" ∧ A.rigids = [] ∧ ∀ a, a ∈ A'.rigids ↔ a ∈ S.rigids := by
  intro Γ A S A'
  have h : Γ.isWellFormed = .ok true := by decide +kernel
  have hA : Γ.apply A = .ok A' := by decide +kernel
  have hS : Γ.apply (.arr (.evar "y") (.var "a'")) = .ok S := by decide +kernel
  have hrigids : A.rigids = [] := by decide +kernel
  obtain ⟨A₁, hA₁, hres, hsolved, hunsolved, hfree⟩ := apply_avoids_capture h A
  obtain rfl : A' = A₁ := by simpa [hA] using hA₁
  obtain ⟨S₁, hS₁, hx⟩ := hsolved "x" _ List.mem_cons_self
  obtain rfl : S = S₁ := by simpa [hS] using hS₁
  refine ⟨h, hA, hres, hx, hunsolved "z" (by simp [Γ]), hrigids, fun a => ?_⟩
  rw [hfree]
  constructor
  · rintro (ha | ⟨x, hxA, T, T', hT, happly, ha⟩)
    · simp [hrigids] at ha
    · obtain rfl : x = "x" := by simpa [A, Ty.existentials] using hxA
      obtain rfl : T = .arr (.evar "y") (.var "a'") := by simpa [Γ] using hT
      obtain rfl : S = T' := by simpa [hS] using happly
      exact ha
  · exact fun ha => .inr ⟨"x", by decide, _, S, List.mem_cons_self, hS, ha⟩

/-! ## Nothing is left to be filled in -/

/-- Applying a well-formed context to a type that is well-formed under it comes to an end without
an error. The result has no existential with a solution, applying the context to it gives the same
type again, it is well-formed, and it is a monotype exactly if the type was one. -/
theorem apply_exhaustive {Γ : Context} {A : Ty} (h : Γ.isWellFormed = .ok true)
    (hA : Γ.isWellFormedType A = .ok true) :
    ∃ A', Γ.Applies A A' ∧ Γ.apply A = .ok A' ∧
      (∀ x ∈ A'.existentials, ∀ S, .solved x S ∉ Γ) ∧ Γ.apply A' = .ok A' ∧
      Γ.isWellFormedType A' = .ok true ∧ A'.isMono = A.isMono := by
  have hΓ := isWellFormed_eq_true_iff.mp h
  have hscope := (isWellFormedType_eq_true_iff hΓ.solvedOnce).mp hA
  obtain ⟨A', hA', -⟩ := hΓ.exists_apply A
  have hexhausted : ∀ x ∈ A'.existentials, ∀ S, .solved x S ∉ Γ :=
    fun x hx => hΓ.not_solved_of_mem_apply hA' hx
  exact ⟨A', hΓ.apply_eq_ok_iff.mp hA', hA', hexhausted, hΓ.apply_self hexhausted,
    (isWellFormedType_eq_true_iff hΓ.solvedOnce).mpr (hΓ.scopes_apply hscope hA'),
    hΓ.isMono_apply hA'⟩

/-- A binder shadows another one, and both are renamed by the first application, each in its own
place. The second application has no reason to rename them again. -/
theorem apply_exhaustive_shadowed :
    let Γ : Context := [.solved "x" (.arr (.evar "y") (.evar "y")), .solved "y" (.var "a"),
      .unsolved "z", .rigid "a"]
    let A : Ty := .all "a" (.arr (.all "a" (.arr (.evar "x") (.var "a")))
      (.arr (.var "a") (.evar "z")))
    let A' : Ty := .all "a'" (.arr (.all "a'" (.arr (.arr (.var "a") (.var "a")) (.var "a'")))
      (.arr (.var "a'") (.evar "z")))
    Γ.isWellFormed = .ok true ∧ Γ.isWellFormedType A = .ok true ∧ Γ.Applies A A' ∧
      Γ.apply A = .ok A' ∧ (∀ S, .solved "z" S ∉ Γ) ∧ Γ.apply A' = .ok A' ∧
      Γ.isWellFormedType A' = .ok true ∧ A'.isMono = A.isMono := by
  intro Γ A A'
  have h : Γ.isWellFormed = .ok true := by decide +kernel
  have hA : Γ.isWellFormedType A = .ok true := by decide +kernel
  have hrun : Γ.apply A = .ok A' := by decide +kernel
  obtain ⟨A₁, happlies, hA₁, hexhausted, hagain, hwf, hmono⟩ := apply_exhaustive h hA
  obtain rfl : A' = A₁ := by simpa [hrun] using hA₁
  exact ⟨h, hA, happlies, hrun, hexhausted "z" (by decide +kernel), hagain, hwf, hmono⟩

end HigherRank.Context
