import HigherRank.Context.Scope

set_option autoImplicit false
set_option relaxedAutoImplicit false

/-!
# Well-formedness as a judgment

What the checks of types and contexts decide, said without the checks: a type is in scope if
the context declares its free names, and a context is well-formed if each of its entries is
admitted by the entries to its left.

## Main definitions

* `HigherRank.Context.Existential` — the existentials that a context declares.
* `HigherRank.Context.Scopes` — the types that are in scope.
* `HigherRank.Context.Admits` — the entries by which a context may be extended.
* `HigherRank.Context.WellFormed` — the well-formed contexts.

## Main results

* `HigherRank.Context.WellFormed.of_cons`, `HigherRank.Context.WellFormed.of_concat` — what is
  to the left of some entry of a well-formed context is well-formed.
* `HigherRank.Context.Scopes.mono` — a context that declares more has more types in scope.
-/

namespace HigherRank.Context

/-! ## Scope -/

/-- The existential of this name is declared, without a solution or with one. -/
def Existential (Γ : Context) (x : Name) : Prop :=
  .unsolved x ∈ Γ ∨ ∃ A, .solved x A ∈ Γ

/-- All free rigid variables and all existentials of the type are declared. -/
structure Scopes (Γ : Context) (A : Ty) : Prop where
  rigid : ∀ a ∈ A.rigids, .rigid a ∈ Γ
  existential : ∀ x ∈ A.existentials, Γ.Existential x

/-- What a context declares is declared by any context with its entries. -/
theorem Existential.mono {Γ Δ : Context} {x : Name} (h : Γ.Existential x) (hsub : Γ ⊆ Δ) :
    Δ.Existential x :=
  h.imp (@hsub _) fun ⟨A, hA⟩ => ⟨A, hsub hA⟩

/-- What is in scope stays so when more is declared. -/
theorem Scopes.mono {Γ Δ : Context} {A : Ty} (h : Γ.Scopes A) (hsub : Γ ⊆ Δ) : Δ.Scopes A where
  rigid a ha := hsub (h.rigid a ha)
  existential x hx := (h.existential x hx).mono hsub

/-- The unit type is in scope everywhere. -/
@[simp]
theorem scopes_unit (Γ : Context) : Γ.Scopes .unit :=
  ⟨by simp [Ty.rigids], by simp [Ty.existentials]⟩

/-- A rigid variable is in scope if it is declared. -/
theorem scopes_var {Γ : Context} {a : Name} : Γ.Scopes (.var a) ↔ .rigid a ∈ Γ :=
  ⟨fun h => h.rigid a (by simp [Ty.rigids]),
    fun h => ⟨by simpa [Ty.rigids] using h, by simp [Ty.existentials]⟩⟩

/-- An existential is in scope if it is declared, with a solution or without. -/
theorem scopes_evar {Γ : Context} {x : Name} : Γ.Scopes (.evar x) ↔ Γ.Existential x :=
  ⟨fun h => h.existential x (by simp [Ty.existentials]),
    fun h => ⟨by simp [Ty.rigids], by simpa [Ty.existentials] using h⟩⟩

/-- An arrow is in scope if both of its parts are. -/
theorem scopes_arr {Γ : Context} {A B : Ty} :
    Γ.Scopes (.arr A B) ↔ Γ.Scopes A ∧ Γ.Scopes B := by
  constructor
  · intro h
    exact ⟨⟨fun a ha => h.rigid a (by simp [Ty.rigids, ha]),
      fun x hx => h.existential x (by simp [Ty.existentials, hx])⟩,
      ⟨fun a ha => h.rigid a (by simp [Ty.rigids, ha]),
        fun x hx => h.existential x (by simp [Ty.existentials, hx])⟩⟩
  · rintro ⟨hA, hB⟩
    refine ⟨fun a ha => ?_, fun x hx => ?_⟩
    · rcases List.mem_append.mp ha with h | h
      · exact hA.rigid a h
      · exact hB.rigid a h
    · rcases List.mem_append.mp hx with h | h
      · exact hA.existential x h
      · exact hB.existential x h

/-- A quantified type is in scope exactly if its body is in scope with the bound variable
declared. -/
theorem scopes_all {Γ : Context} {a : Name} {A : Ty} :
    Γ.Scopes (.all a A) ↔ Scopes (.rigid a :: Γ) A := by
  constructor
  · intro h
    refine ⟨fun b hb => ?_, fun x hx => ?_⟩
    · by_cases hba : b = a
      · simp [hba]
      · exact List.mem_cons_of_mem _ (h.rigid b (Ty.mem_rigids_all.mpr ⟨hb, hba⟩))
    · simpa [Existential] using h.existential x hx
  · intro h
    refine ⟨fun b hb => ?_, fun x hx => ?_⟩
    · rw [Ty.mem_rigids_all] at hb
      simpa [hb.2] using h.rigid b hb.1
    · simpa [Existential] using h.existential x hx

/-! ## Well-formed contexts -/

/-- The context may be extended by the entry: its name is new, and it holds a type in scope. -/
inductive Admits (Γ : Context) : Entry → Prop where
  | rigid (a : Name) : ¬ Γ.declares a → Admits Γ (.rigid a)
  | assumed (x : Name) (A : Ty) :
    (∀ B, .assumed x B ∉ Γ) → Γ.Scopes A → Admits Γ (.assumed x A)
  | unsolved (x : Name) : ¬ Γ.declares x → Admits Γ (.unsolved x)
  | solved (x : Name) (A : Ty) :
    ¬ Γ.declares x → A.isMono → Γ.Scopes A → Admits Γ (.solved x A)
  | marker (x : Name) : .marker x ∉ Γ → ¬ Γ.declares x → Admits Γ (.marker x)

/-- Every entry of the context is admitted by the entries to its left. -/
inductive WellFormed : Context → Prop where
  | nil : WellFormed []
  | cons {Γ : Context} (m : Entry) : WellFormed Γ → Admits Γ m → WellFormed (m :: Γ)

/-- A context is well-formed if what is to the left of its newest entry is, and that admits the
entry. -/
theorem wellFormed_cons {Γ : Context} {m : Entry} :
    WellFormed (m :: Γ) ↔ WellFormed Γ ∧ Admits Γ m := by
  constructor
  · rintro (_ | ⟨_, hΓ, hm⟩)
    exact ⟨hΓ, hm⟩
  · rintro ⟨hΓ, hm⟩
    exact .cons m hΓ hm

/-- What is to the left of the newest entry is well-formed. -/
theorem WellFormed.of_cons {Γ : Context} {m : Entry} (h : WellFormed (m :: Γ)) : WellFormed Γ :=
  (wellFormed_cons.mp h).1

/-- The left part of a well-formed context is well-formed. -/
theorem WellFormed.of_concat {left right : Context} (h : WellFormed (left.concat right)) :
    WellFormed left := by
  induction right with
  | nil => exact h
  | cons m right ih => exact ih h.of_cons

end HigherRank.Context
