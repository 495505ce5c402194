import HigherRank.Proofs.Scoping

set_option autoImplicit false
set_option relaxedAutoImplicit false

/-!
# What a type stands for under a context

Under a well-formed context an existential with a solution stands for a monotype, which is found
by going through the context once, and a type stands for its nameless form with these monotypes
filled in. Applying the context to the type will give a type with that nameless form, whatever the
binders of the type are called.

## Main definitions

* `HigherRank.Context.solution` — what an existential stands for.
* `HigherRank.Context.resolved` — what a type stands for.

## Main results

* `HigherRank.Context.WellFormed.solution_of_mem` — an existential stands for what its solution
  stands for.
* `HigherRank.Context.WellFormed.existentials_resolved`,
  `HigherRank.Context.WellFormed.frees_resolved` — which names are left.
* `HigherRank.Context.WellFormed.resolved_of_subset` — solutions that are added later may be
  filled in afterwards.
-/

namespace HigherRank

/-! ## Solutions -/

namespace Context

/-- What an existential stands for: itself, unless it has a solution. -/
def solution : Context → Name → Nameless
  | [], x => .evar x
  | .solved y A :: Γ, x =>
    if x = y then A.nameless.fillExistentials (solution Γ) else solution Γ x
  | .rigid _ :: Γ, x | .assumed _ _ :: Γ, x | .unsolved _ :: Γ, x | .marker _ :: Γ, x =>
    solution Γ x

/-- What a type stands for: its nameless form with all solutions filled in. -/
def resolved (Γ : Context) (A : Ty) : Nameless :=
  A.nameless.fillExistentials Γ.solution

section Resolved

variable (Γ : Context)

/-- The unit type stands for itself. -/
@[simp]
lemma resolved_unit : Γ.resolved .unit = .unit :=
  rfl

/-- A rigid variable stands for itself. -/
@[simp]
lemma resolved_var (a : Name) : Γ.resolved (.var a) = .free a :=
  rfl

/-- As a type an existential stands for what it stands for as a name. -/
@[simp]
lemma resolved_evar (x : Name) : Γ.resolved (.evar x) = Γ.solution x :=
  rfl

/-- An arrow stands for the arrow between what its parts stand for. -/
@[simp]
lemma resolved_arr (A B : Ty) : Γ.resolved (.arr A B) = .arr (Γ.resolved A) (Γ.resolved B) :=
  rfl

/-- A quantified type stands for one whose body has all solutions filled in. -/
lemma resolved_all (a : Name) (A : Ty) :
    Γ.resolved (.all a A) = .all ((A.namelessUnder [a]).fillExistentials Γ.solution) :=
  rfl

/-- A type without existentials stands for a type without existentials. -/
lemma existentials_resolved_eq_nil {A : Ty} (hA : A.existentials = []) :
    (Γ.resolved A).existentials = [] := by
  refine List.eq_nil_iff_forall_not_mem.mpr fun y hy => ?_
  obtain ⟨x, hx, -⟩ := Nameless.mem_existentials_fillExistentials.mp hy
  simp [hA] at hx

end Resolved

/-- An entry that is no solution of the existential does not matter to it. -/
lemma solution_cons_of_ne {Γ : Context} {m : Entry} {x : Name} (h : ∀ A, m ≠ .solved x A) :
    solution (m :: Γ) x = Γ.solution x := by
  cases m with
  | solved y A =>
    simp only [solution]
    rw [if_neg]
    rintro rfl
    exact h A rfl
  | _ => rfl

/-- A right part without a solution of the existential does not matter to it. -/
private lemma solution_concat {left right : Context} {x : Name} (h : ∀ A, .solved x A ∉ right) :
    (left.concat right).solution x = left.solution x := by
  induction right with
  | nil => rfl
  | cons m right ih =>
    rw [concat_cons, solution_cons_of_ne, ih]
    · exact fun A hA => h A (List.mem_cons_of_mem m hA)
    · rintro A rfl
      exact h A List.mem_cons_self

/-- An existential without a solution stands for itself. -/
lemma solution_of_not_mem {Γ : Context} {x : Name} (h : ∀ A, .solved x A ∉ Γ) :
    Γ.solution x = .evar x := by
  have hΓ : (concat [] Γ).solution x = solution [] x := solution_concat h
  rwa [show concat [] Γ = Γ from List.append_nil Γ] at hΓ

namespace WellFormed

variable {Γ Δ left right : Context} {x y a : Name} {A : Ty}

/-- An existential that is declared without a solution stands for itself. -/
lemma solution_of_unsolved (h : Γ.WellFormed) (hx : .unsolved x ∈ Γ) :
    Γ.solution x = .evar x :=
  solution_of_not_mem (h.not_solved_of_unsolved hx)

/-- What is declared to the left of a point has no solution to the right of it. -/
lemma not_solved_right (h : WellFormed (left.concat right)) (hx : left.Existential x)
    (A : Ty) : .solved x A ∉ right := by
  intro hA
  obtain ⟨mid, right', rfl⟩ := exists_concat_of_mem hA
  rw [← concat_assoc, concat_cons] at h
  refine h.not_declares_left (x := x) (by simp [Entry.declares]) ?_
  rw [declares_concat, declares_iff.mpr (.inr hx), Bool.or_true]

/-- What is declared to the left of a point has the same solution in the whole context. -/
private lemma solution_left (h : WellFormed (left.concat right)) (hx : left.Existential x) :
    (left.concat right).solution x = left.solution x :=
  solution_concat (h.not_solved_right hx)

/-- A type that is in scope at a point stands for the same in the whole context. -/
lemma resolved_left (h : WellFormed (left.concat right)) (hA : left.Scopes A) :
    (left.concat right).resolved A = left.resolved A := by
  refine Nameless.fillExistentials_congr fun x hx => h.solution_left (hA.existential x ?_)
  simpa using hx

/-- An existential stands for what its solution stands for. -/
theorem solution_of_mem (h : Γ.WellFormed) (hA : .solved x A ∈ Γ) :
    Γ.solution x = Γ.resolved A := by
  obtain ⟨left, right, rfl, -, hscope⟩ := h.solved_slot hA
  rw [h.solution_left (.inr ⟨A, by simp⟩)]
  have hleft : (concat left [.solved x A]).concat right = concat (.solved x A :: left) right :=
    rfl
  have hresolved : (concat (.solved x A :: left) right).resolved A = Context.resolved left A := by
    rw [← hleft, concat_assoc] at h ⊢
    exact h.resolved_left hscope
  rw [hresolved]
  simp [solution, resolved]

/-! ## What a type stands for has only unsolved existentials -/

/-- The solutions of a well-formed context are monotypes. -/
lemma monotype_solution (h : Γ.WellFormed) (x : Name) : (Γ.solution x).Monotype := by
  induction h generalizing x with
  | nil => exact Nameless.monotype_evar x
  | cons m _ hm ih =>
    cases hm with
    | solved y A _ hmono _ =>
      simp only [solution]
      split
      · exact (Ty.monotype_nameless hmono).fill Nameless.monotype_free ih
      · exact ih x
    | _ => exact ih x

/-- The existentials of a solution are unsolved, and they are declared if it is.

**Proof sketch.** Induction on the context. If its newest entry solves the existential, then the
existentials of the solution are those of what fills the existentials of the type, all of which are
in scope in the rest. If it declares the existential, then the existential stands for itself.
Otherwise the solution is that in the rest. -/
lemma unsolved_of_mem_solution (h : Γ.WellFormed) (hx : Γ.Existential x)
    (hy : y ∈ (Γ.solution x).existentials) : .unsolved y ∈ Γ := by
  induction h generalizing x y with
  | nil => rcases hx with hx | ⟨A, hx⟩ <;> simp at hx
  | @cons Γ m hΓ hm ih =>
    by_cases hs : ∃ A, m = .solved x A
    · obtain ⟨A, rfl⟩ := hs
      cases hm with
      | solved _ _ _ _ hscope =>
        simp only [solution, if_pos, Nameless.mem_existentials_fillExistentials] at hy
        obtain ⟨z, hz, hy⟩ := hy
        exact List.mem_cons_of_mem _ (ih (hscope.existential z (by simpa using hz)) hy)
    · rw [not_exists] at hs
      rw [solution_cons_of_ne hs] at hy
      have hcases : m = .unsolved x ∨ Γ.Existential x := by
        simpa [Existential, eq_comm, or_assoc, hs] using hx
      rcases hcases with rfl | hx
      · cases hm with
        | unsolved _ hnot =>
          have hfree : ∀ A, .solved x A ∉ Γ :=
            fun A hA => hnot (declares_iff.mpr (.inr (.inr ⟨A, hA⟩)))
          rw [solution_of_not_mem hfree] at hy
          obtain rfl : y = x := by simpa [Nameless.existentials] using hy
          exact List.mem_cons_self
      · exact List.mem_cons_of_mem m (ih hx hy)

/-- The free variables of a solution are declared. -/
lemma rigid_of_mem_solution (h : Γ.WellFormed) (ha : a ∈ (Γ.solution x).frees) :
    .rigid a ∈ Γ := by
  induction h generalizing x a with
  | nil => simp [solution, Nameless.frees] at ha
  | @cons Γ m hΓ hm ih =>
    by_cases hs : ∃ A, m = .solved x A
    · obtain ⟨A, rfl⟩ := hs
      cases hm with
      | solved _ _ _ _ hscope =>
        simp only [solution, if_pos, Nameless.mem_frees_fillExistentials] at ha
        rcases ha with ha | ⟨z, -, ha⟩
        · exact List.mem_cons_of_mem _ (hscope.rigid a (Ty.mem_frees_nameless.mp ha))
        · exact List.mem_cons_of_mem _ (ih ha)
    · rw [not_exists] at hs
      rw [solution_cons_of_ne hs] at ha
      exact List.mem_cons_of_mem m (ih ha)

/-- No existential of what stands for an existential has a solution. -/
lemma not_solved_of_mem_solution (h : Γ.WellFormed) (hy : y ∈ (Γ.solution x).existentials)
    (A : Ty) : .solved y A ∉ Γ := by
  by_cases hx : Γ.Existential x
  · exact h.not_solved_of_unsolved (h.unsolved_of_mem_solution hx hy) A
  · have hfree : ∀ B, .solved x B ∉ Γ := fun B hB => hx (.inr ⟨B, hB⟩)
    rw [solution_of_not_mem hfree] at hy
    obtain rfl : y = x := by simpa [Nameless.existentials] using hy
    exact hfree A

/-- Filling in all solutions once more changes nothing. -/
private lemma fill_solution (h : Γ.WellFormed) (x : Name) :
    (Γ.solution x).fillExistentials Γ.solution = Γ.solution x :=
  Nameless.fillExistentials_eq_self fun _ hy =>
    solution_of_not_mem (h.not_solved_of_mem_solution hy)

/-- Filling in all solutions of what a type stands for changes nothing. -/
lemma fill_resolved (h : Γ.WellFormed) (A : Ty) :
    (Γ.resolved A).fillExistentials Γ.solution = Γ.resolved A := by
  rw [resolved, Nameless.fillExistentials_fillExistentials]
  exact Nameless.fillExistentials_congr fun x _ => h.fill_solution x

/-- Of a type in scope only unsolved existentials are left. -/
theorem existentials_resolved (h : Γ.WellFormed) (hA : Γ.Scopes A)
    (hy : y ∈ (Γ.resolved A).existentials) : .unsolved y ∈ Γ := by
  obtain ⟨x, hx, hy⟩ := Nameless.mem_existentials_fillExistentials.mp hy
  exact h.unsolved_of_mem_solution (hA.existential x (by simpa using hx)) hy

/-- Of a type in scope only declared variables are free. -/
theorem frees_resolved (h : Γ.WellFormed) (hA : Γ.Scopes A) (ha : a ∈ (Γ.resolved A).frees) :
    .rigid a ∈ Γ := by
  rcases Nameless.mem_frees_fillExistentials.mp ha with ha | ⟨x, -, ha⟩
  · exact hA.rigid a (Ty.mem_frees_nameless.mp ha)
  · exact h.rigid_of_mem_solution ha

/-- A monotype stands for a monotype. -/
lemma monotype_resolved (h : Γ.WellFormed) (hA : A.isMono) : (Γ.resolved A).Monotype :=
  (Ty.monotype_nameless hA).fill Nameless.monotype_free h.monotype_solution

/-! ## Later solutions -/

/-- If all solutions of one context are solutions of another, then what the other says can be
filled in afterwards. -/
private lemma solution_of_subset (hΓ : Γ.WellFormed) (hΔ : Δ.WellFormed)
    (h : ∀ x A, .solved x A ∈ Γ → .solved x A ∈ Δ) (x : Name) :
    (Γ.solution x).fillExistentials Δ.solution = Δ.solution x := by
  induction hΓ generalizing x with
  | nil => rfl
  | @cons Γ m _ _ ih =>
    have hΓ : ∀ y A, .solved y A ∈ Γ → .solved y A ∈ Δ :=
      fun y A hA => h y A (List.mem_cons_of_mem m hA)
    by_cases hs : ∃ A, m = .solved x A
    · obtain ⟨A, rfl⟩ := hs
      rw [hΔ.solution_of_mem (h x A List.mem_cons_self)]
      simp only [solution, if_pos, Nameless.fillExistentials_fillExistentials]
      exact Nameless.fillExistentials_congr fun y _ => ih hΓ y
    · rw [solution_cons_of_ne (not_exists.mp hs)]
      exact ih hΓ x

/-- What a type stands for under more solutions can be filled in afterwards. -/
theorem resolved_of_subset (hΓ : Γ.WellFormed) (hΔ : Δ.WellFormed)
    (h : ∀ x A, .solved x A ∈ Γ → .solved x A ∈ Δ) (A : Ty) :
    (Γ.resolved A).fillExistentials Δ.solution = Δ.resolved A := by
  rw [resolved, Nameless.fillExistentials_fillExistentials]
  exact Nameless.fillExistentials_congr fun x _ => hΓ.solution_of_subset hΔ h x

end WellFormed

/-! ## Instances -/

/-- What an instance of a quantified type stands for. -/
lemma WellFormed.resolved_subst {Γ : Context} (h : Γ.WellFormed) (a : Name) (A R : Ty) :
    Γ.resolved (A.subst a R) =
      ((A.namelessUnder [a]).fillExistentials Γ.solution).opened (Γ.resolved R) := by
  rw [resolved, Ty.nameless_subst_eq_opened]
  exact Nameless.fill_openAt _ _ 0 (fun _ => trivial) fun x => (h.monotype_solution x).closed

end Context

end HigherRank
