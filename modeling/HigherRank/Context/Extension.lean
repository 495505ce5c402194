import HigherRank.Context.Basic

set_option autoImplicit false
set_option relaxedAutoImplicit false

/-!
# Extension of contexts

What subtyping does to a context: an existential is given a solution in the place where it was
declared, and existentials of new names may be declared right before it. All else stays as it is.

## Main definitions

* `HigherRank.Entry.IsExistential` — the entries that declare an existential.
* `HigherRank.Context.Extends` — one context is what another one has become.

## Main results

* `HigherRank.Context.Extends.refl`, `HigherRank.Context.Extends.trans` — extension is a
  preorder.
* `HigherRank.Context.Extends.mem` — an entry that is no unsolved existential stays.
-/

namespace HigherRank

/-- The entry declares an existential, with a solution or without, whose name is among the
given ones. -/
def Entry.IsExistential (new : Name → Prop) : Entry → Prop
  | .unsolved x | .solved x _ => new x
  | _ => False

namespace Context

/-- The second context is what the first has become: some existentials have solutions, and there
may be existentials of `new` names right before them. -/
inductive Extends (new : Name → Prop) : Context → Context → Prop where
  | nil : Extends new [] []
  | keep {Γ Δ : Context} (m : Entry) : Extends new Γ Δ → Extends new (m :: Γ) (m :: Δ)
  | solve {Γ Δ : Context} (x : Name) (A : Ty) (block : Context) :
    (∀ m ∈ block, m.IsExistential new) → Extends new Γ Δ →
      Extends new (.unsolved x :: Γ) (.solved x A :: (Δ.concat block))

namespace Extends

variable {new : Name → Prop} {Γ Δ Θ : Context}

/-- Every context extends itself. -/
theorem refl (Γ : Context) : Extends new Γ Γ := by
  induction Γ with
  | nil => exact .nil
  | cons m Γ ih => exact .keep m ih

/-- What is admitted as new may grow. -/
theorem weaken {new' : Name → Prop} (h : Extends new Γ Δ) (hnew : ∀ x, new x → new' x) :
    Extends new' Γ Δ := by
  induction h with
  | nil => exact .nil
  | keep m _ ih => exact .keep m ih
  | solve x A block hblock _ ih =>
    refine .solve x A block (fun m hm => ?_) ih
    have := hblock m hm
    cases m <;> simp_all [Entry.IsExistential]

/-- An entry that is no unsolved existential stays in the context. -/
theorem mem (h : Extends new Γ Δ) {m : Entry} (hm : m ∈ Γ) (hu : ∀ x, m ≠ .unsolved x) :
    m ∈ Δ := by
  induction h with
  | nil => exact hm
  | keep n _ ih =>
    rcases List.mem_cons.mp hm with rfl | hm
    · simp
    · simp [ih hm]
  | solve x A block _ _ ih =>
    rcases List.mem_cons.mp hm with rfl | hm
    · exact absurd rfl (hu x)
    · simp [concat, ih hm]

/-- An extension of a context with existentials of new names at its right end is an extension of
the rest, again with existentials of new names at its right end.

**Proof sketch.** Induction on the block. Its newest entry is an existential, so that it has been
kept, or solved with more existentials of new names before it; both belong to the block of the
extension. -/
theorem of_concat {block : Context} (hblock : ∀ m ∈ block, m.IsExistential new)
    (h : Extends new (Γ.concat block) Θ) :
    ∃ Δ block', Θ = Δ.concat block' ∧ (∀ m ∈ block', m.IsExistential new) ∧ Extends new Γ Δ := by
  induction block generalizing Θ with
  | nil => exact ⟨Θ, [], rfl, by simp, h⟩
  | cons n block ih =>
    have hn : n.IsExistential new := hblock n (by simp)
    have hrest : ∀ m ∈ block, m.IsExistential new := fun m hm => hblock m (by simp [hm])
    simp only [concat, List.cons_append] at h
    cases h with
    | keep _ h =>
      obtain ⟨Δ, block', rfl, hb, hΔ⟩ := ih hrest h
      exact ⟨Δ, n :: block', rfl, by simpa [hn] using hb, hΔ⟩
    | solve x A more hmore h =>
      obtain ⟨Δ, block', rfl, hb, hΔ⟩ := ih hrest h
      refine ⟨Δ, .solved x A :: (more ++ block'), by simp [concat], ?_, hΔ⟩
      intro m hm
      rcases List.mem_cons.mp hm with rfl | hm
      · exact hn
      · rcases List.mem_append.mp hm with hm | hm
        · exact hmore m hm
        · exact hb m hm

/-- Extension is transitive. -/
theorem trans (h : Extends new Γ Δ) (h' : Extends new Δ Θ) : Extends new Γ Θ := by
  induction h generalizing Θ with
  | nil => exact h'
  | keep m _ ih =>
    cases h' with
    | keep _ h' => exact .keep m (ih h')
    | solve x A block hblock h' => exact .solve x A block hblock (ih h')
  | solve x A block hblock _ ih =>
    cases h' with
    | keep _ h' =>
      obtain ⟨Δ', block', rfl, hb, hΔ⟩ := of_concat hblock h'
      exact .solve x A block' hb (ih hΔ)

end Extends

end Context

end HigherRank
