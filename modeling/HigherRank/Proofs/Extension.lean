import HigherRank.Context.Extension
import HigherRank.Context.Hole
import HigherRank.Proofs.Application

set_option autoImplicit false
set_option relaxedAutoImplicit false

/-!
# What extension keeps

An extension declares all that the context declares, in the same order, and says the same of all
existentials that had a solution. What it declares besides is new.

## Main results

* `HigherRank.Context.Extends.scopes` — what is in scope stays in scope.
* `HigherRank.Context.Extends.resolved`, `HigherRank.Context.Extends.alphaEq_apply` — later
  solutions may be filled in afterwards.
* `HigherRank.Context.Extends.of_cons`, `HigherRank.Context.Extends.of_openLeft` — what
  becomes of the scopes that are opened for quantifiers.
* `HigherRank.Context.Extends.not_declared` — new names are not declared before.
-/

namespace HigherRank.Context

namespace Extends

variable {new : Name → Prop} {Γ Δ Θ left right block : Context} {x y a : Name} {A : Ty}

/-! ## What is declared -/

/-- Rigid variables stay declared. -/
lemma rigid_mem (h : Extends new Γ Δ) (ha : .rigid a ∈ Γ) : .rigid a ∈ Δ :=
  h.mem ha (by simp)

/-- Solutions stay as they are. -/
lemma solved_mem (h : Extends new Γ Δ) (hA : .solved x A ∈ Γ) : .solved x A ∈ Δ :=
  h.mem hA (by simp)

/-- A declared existential stays declared. -/
lemma existential (h : Extends new Γ Δ) (hx : Γ.Existential x) : Δ.Existential x := by
  induction h with
  | nil => exact hx
  | keep m _ ih =>
    by_cases hm : m = .unsolved x ∨ ∃ A, m = .solved x A
    · rcases hm with rfl | ⟨A, rfl⟩
      · exact .inl List.mem_cons_self
      · exact .inr ⟨A, List.mem_cons_self⟩
    · refine (ih ?_).cons m
      simpa [Existential, eq_comm, not_or.mp hm, exists_or] using hx
  | solve z B block _ _ ih =>
    by_cases hz : x = z
    · exact .inr ⟨B, by simp [hz]⟩
    · have hΓ : Existential _ x := ih (by simpa [Existential, hz] using hx)
      rcases hΓ with hu | ⟨C, hC⟩
      · exact .inl (by simp [hu])
      · exact .inr ⟨C, by simp [hC]⟩

/-- What is in scope stays in scope. -/
theorem scopes (h : Extends new Γ Δ) (hA : Γ.Scopes A) : Δ.Scopes A :=
  ⟨fun a ha => h.rigid_mem (hA.rigid a ha), fun x hx => h.existential (hA.existential x hx)⟩

/-- Every entry of an extension that declares no existential was there before. -/
lemma mem_of_mem (h : Extends new Γ Δ) {m : Entry} (hm : m ∈ Δ)
    (hex : ¬ m.IsExistential fun _ => True) : m ∈ Γ := by
  induction h with
  | nil => exact hm
  | keep n _ ih =>
    rcases List.mem_cons.mp hm with rfl | hm
    · simp
    · simp [ih hm]
  | solve x A block hblock _ ih =>
    simp only [List.mem_cons, mem_concat] at hm
    rcases hm with rfl | hm | hm
    · exact absurd trivial hex
    · have := hblock m hm
      cases m <;> simp_all [Entry.IsExistential]
    · exact List.mem_cons_of_mem _ (ih hm)

/-- A name that an extension declares was declared before, or it is new. -/
lemma declares (h : Extends new Γ Δ) (hx : Δ.declares x) : Γ.declares x ∨ new x := by
  induction h with
  | nil => exact .inl hx
  | keep m _ ih =>
    simp only [declares_cons, Bool.or_eq_true] at hx ⊢
    rcases hx with hx | hx
    · exact .inl (.inl hx)
    · exact (ih hx).imp_left .inr
  | solve y A block hblock _ ih =>
    simp only [declares_cons, declares_concat, Bool.or_eq_true] at hx ⊢
    rcases hx with hx | hx | hx
    · exact .inl (.inl hx)
    · obtain ⟨m, hm, hmx⟩ := List.any_eq_true.mp hx
      have := hblock m hm
      cases m <;> simp_all [Entry.IsExistential, Entry.declares]
    · exact (ih hx).imp_left .inr

/-- An existential without a solution in an extension had none before, or its name is new. -/
lemma unsolved_of_unsolved (h : Extends new Γ Δ) (hx : .unsolved x ∈ Δ) :
    .unsolved x ∈ Γ ∨ new x := by
  induction h with
  | nil => exact .inl hx
  | keep m _ ih =>
    rcases List.mem_cons.mp hx with rfl | hx
    · exact .inl List.mem_cons_self
    · exact (ih hx).imp_left (List.mem_cons_of_mem m)
  | solve y A block hblock _ ih =>
    simp only [List.mem_cons, reduceCtorEq, mem_concat, false_or] at hx
    rcases hx with hx | hx
    · exact .inr (hblock _ hx)
    · exact (ih hx).imp_left (List.mem_cons_of_mem _)

/-- A declared name stays declared. -/
lemma declares_of_declares (h : Extends new Γ Δ) (hx : Γ.declares x) : Δ.declares x := by
  rw [declares_iff] at hx ⊢
  exact hx.imp h.rigid_mem h.existential

/-! ## What types stand for -/

/-- What a type stands for in the extension is what it stood for with the later solutions filled
in. -/
theorem resolved (h : Extends new Γ Δ) (hΓ : Γ.WellFormed) (hΔ : Δ.WellFormed) (A : Ty) :
    (Γ.resolved A).fillExistentials Δ.solution = Δ.resolved A :=
  hΓ.resolved_of_subset hΔ (fun _ _ => h.solved_mem) A

/-- Applying a context early does not change what a type stands for later. -/
lemma resolved_apply {A' : Ty} (h : Extends new Γ Δ) (hΓ : Γ.WellFormed) (hΔ : Δ.WellFormed)
    (hA : Γ.apply A = .ok A') : Δ.resolved A' = Δ.resolved A := by
  rw [← h.resolved hΓ hΔ, ← h.resolved hΓ hΔ, hΓ.resolved_apply hA]

/-- To apply a context and then an extension of it is to apply the extension at once, up to bound
names. -/
theorem alphaEq_apply {A₀ A₁ A₂ : Ty} (h : Extends new Γ Δ) (hΓ : Γ.WellFormed) (hΔ : Δ.WellFormed)
    (hA₀ : Γ.apply A = .ok A₀) (hA₁ : Δ.apply A₀ = .ok A₁) (hA₂ : Δ.apply A = .ok A₂) :
    A₁.AlphaEq A₂ := by
  rw [Ty.AlphaEq, hΔ.nameless_apply hA₁, hΔ.nameless_apply hA₂, h.resolved_apply hΓ hΔ hA₀]

/-! ## Building extensions -/

/-- The same entries may stand to the right of both contexts. -/
lemma concat_right (h : Extends new Γ Δ) (right : Context) :
    Extends new (Γ.concat right) (Δ.concat right) := by
  induction right with
  | nil => exact h
  | cons m right ih => exact .keep m ih

/-- Filling in a slot is an extension. -/
lemma slot (x : Name) (A : Ty) (hblock : ∀ m ∈ block, m.IsExistential new) :
    Extends new (concat (.unsolved x :: left) right)
      (concat (.solved x A :: left.concat block) right) :=
  (Extends.solve x A block hblock (.refl left)).concat_right right

/-! ## Scopes of quantifiers -/

/-- Nothing is put to the right of the last entry, if it is no unsolved existential. -/
theorem of_cons {m : Entry} (h : Extends new (m :: Γ) Θ) (hm : ∀ x, m ≠ .unsolved x) :
    ∃ Δ, Θ = m :: Δ ∧ Extends new Γ Δ := by
  cases h with
  | keep _ h => exact ⟨_, rfl, h⟩
  | solve x => exact absurd rfl (hm x)

/-- Only existentials are put to the right of a marker that was the last entry but an
existential. -/
theorem of_openLeft (h : Extends new (.unsolved x :: .marker x :: Γ) Θ) :
    ∃ Δ block, Θ = concat (.marker x :: Δ) block ∧
      (∀ m ∈ block, m.IsExistential fun y => new y ∨ y = x) ∧ Extends new Γ Δ := by
  cases h with
  | keep _ h =>
    obtain ⟨Δ, rfl, hΔ⟩ := h.of_cons (by simp)
    exact ⟨Δ, [.unsolved x], rfl, by simp [Entry.IsExistential], hΔ⟩
  | solve _ A block hblock h =>
    obtain ⟨Δ, rfl, hΔ⟩ := h.of_cons (by simp)
    refine ⟨Δ, .solved x A :: block, rfl, fun m hm => ?_, hΔ⟩
    rcases List.mem_cons.mp hm with rfl | hm
    · exact .inr rfl
    · have := hblock m hm
      cases m <;> simp_all [Entry.IsExistential]

/-! ## New names are new -/

/-- What is admitted as new may be changed for names that the extension does not declare. -/
private lemma weaken_of_declares {new' : Name → Prop} (h : Extends new Γ Δ)
    (hnew : ∀ x, Δ.declares x → new x → new' x) : Extends new' Γ Δ := by
  induction h with
  | nil => exact .nil
  | keep m _ ih => exact .keep m (ih fun x hx => hnew x (by simp [hx]))
  | solve x A block hblock _ ih =>
    refine .solve x A block (fun m hm => ?_) (ih fun y hy => hnew y (by simp [hy]))
    have hy : ∀ y, m.declares y → Context.declares block y :=
      fun y hy => List.any_eq_true.mpr ⟨m, hm, hy⟩
    have := hblock m hm
    cases m with
    | unsolved y => exact hnew y (by simp [hy y (by simp [Entry.declares])]) this
    | solved y B => exact hnew y (by simp [hy y (by simp [Entry.declares])]) this
    | _ => exact this

/-- If the extension is well-formed, the new names were not declared before.

**Proof sketch.** Induction on the extension. A name of a block is declared in the block, and so
neither to the left nor to the right of it. -/
theorem not_declared (h : Extends new Γ Δ) (hΔ : Δ.WellFormed) :
    Extends (fun x => ¬ Γ.declares x ∧ new x) Γ Δ := by
  induction h with
  | nil => exact .nil
  | keep m _ ih =>
    obtain ⟨hΔ', hm⟩ := wellFormed_cons.mp hΔ
    refine .keep m ((ih hΔ').weaken_of_declares fun x hx hnew => ⟨?_, hnew.2⟩)
    have hmx : m.declares x = false := by
      simpa using fun hmx => hm.not_declares hmx hx
    simpa [hmx] using hnew.1
  | @solve Γ Δ x A block hblock hext ih =>
    obtain ⟨hΔ', hm⟩ := wellFormed_cons.mp hΔ
    have hne : ∀ y, (Δ.concat block).declares y → x ≠ y := by
      rintro y hy rfl
      exact hm.not_declares (by simp [Entry.declares]) hy
    refine .solve x A block (fun n hn => ?_)
      ((ih hΔ'.of_concat).weaken_of_declares fun y hy hnew => ⟨?_, hnew.2⟩)
    · have hfresh : ∀ y, n.declares y → ¬ Context.declares (.unsolved x :: Γ) y := by
        intro y hny
        have hxy := hne y (by simpa using .inl (List.any_eq_true.mpr ⟨n, hn, hny⟩))
        obtain ⟨lower, upper, rfl⟩ := exists_concat_of_mem hn
        rw [← concat_assoc, concat_cons] at hΔ'
        have hnot := hΔ'.not_declares_left hny
        intro hy
        have hΓy : Γ.declares y := by simpa [Entry.declares, hxy] using hy
        exact hnot (by simp [hext.declares_of_declares hΓy])
      have hnew := hblock n hn
      cases n with
      | unsolved y => exact ⟨hfresh y (by simp [Entry.declares]), hnew⟩
      | solved y B => exact ⟨hfresh y (by simp [Entry.declares]), hnew⟩
      | _ => exact hnew
    · have hxy := hne y (by simp [hy])
      simpa [Entry.declares, hxy] using hnew.1

end Extends

end HigherRank.Context
