import HigherRank.Proofs.Measures
import HigherRank.Subtyping.Declarative

set_option autoImplicit false
set_option relaxedAutoImplicit false

/-!
# Declarative subtyping and filling in

Every type is below itself. Declarative subtyping is stable under filling in monotypes for free
variables and existentials, in particular for the variable with which a quantifier on the right is
opened. So a type below a quantified one is below its body for any new variable. Between a monotype
and another type the number of arrows can only shrink towards the monotype's opposite, so that no
monotype is related to a type in which it occurs below an arrow.

## Main definitions

* `HigherRank.Context.Covers` — the nameless types that are in scope.

## Main results

* `HigherRank.Declarative.refl` — reflexivity.
* `HigherRank.Declarative.allLeft_of_covers` — above an instance is above the quantified type.
* `HigherRank.Declarative.fill` — stability under filling in.
* `HigherRank.Declarative.instantiate` — below a quantified type is below its instances.
* `HigherRank.Declarative.opened_of_all` — inversion for a quantifier on the right.
* `HigherRank.Declarative.arrows_le_of_isMono_left`,
  `HigherRank.Declarative.arrows_le_of_isMono_right` — the other type has no more arrows than a
  monotype.
-/

namespace HigherRank

/-! ## Scope of nameless types -/

namespace Context

/-- All free variables and all existentials of the nameless type are declared. -/
structure Covers (Γ : Context) (A : Nameless) : Prop where
  free : ∀ a ∈ A.frees, .rigid a ∈ Γ
  existential : ∀ x ∈ A.existentials, Γ.Existential x

/-- A nameless form is covered by a context if the type is in scope. -/
lemma covers_nameless {Γ : Context} {A : Ty} : Γ.Covers A.nameless ↔ Γ.Scopes A := by
  rw [scopes_iff_nameless]
  exact ⟨fun h => ⟨h.free, h.existential⟩, fun h => ⟨h.1, h.2⟩⟩

/-- What is covered stays so when more is declared. -/
private lemma Covers.mono {Γ Δ : Context} {A : Nameless} (h : Γ.Covers A) (hsub : Γ ⊆ Δ) :
    Δ.Covers A where
  free a ha := hsub (h.free a ha)
  existential x hx := (h.existential x hx).imp (@hsub _) fun ⟨B, hB⟩ => ⟨B, hsub hB⟩

/-- What is covered stays so behind another entry. -/
private lemma Covers.cons {Γ : Context} {A : Nameless} (h : Γ.Covers A) (m : Entry) :
    Covers (m :: Γ) A :=
  h.mono (List.subset_cons_self m Γ)

/-- A declared rigid variable is covered. -/
lemma covers_free {Γ : Context} {a : Name} (h : .rigid a ∈ Γ) : Γ.Covers (.free a) :=
  ⟨by simpa [Nameless.frees] using h, by simp [Nameless.existentials]⟩

/-- A declared existential is covered. -/
lemma covers_evar {Γ : Context} {x : Name} (h : Γ.Existential x) : Γ.Covers (.evar x) :=
  ⟨by simp [Nameless.frees], by simpa [Nameless.existentials] using h⟩

/-- A type is in scope after filling in if all that is put into it is. -/
lemma Covers.fill {Γ Δ : Context} {A : Nameless} {ρ θ : Name → Nameless} (h : Γ.Covers A)
    (hρ : ∀ a, .rigid a ∈ Γ → Δ.Covers (ρ a)) (hθ : ∀ x, Γ.Existential x → Δ.Covers (θ x)) :
    Δ.Covers (A.fill ρ θ) where
  free a ha := by
    rcases Nameless.mem_frees_fill.mp ha with ⟨b, hb, ha⟩ | ⟨x, hx, ha⟩
    · exact (hρ b (h.free b hb)).free a ha
    · exact (hθ x (h.existential x hx)).free a ha
  existential y hy := by
    rcases Nameless.mem_existentials_fill.mp hy with ⟨b, hb, hy⟩ | ⟨x, hx, hy⟩
    · exact (hρ b (h.free b hb)).existential y hy
    · exact (hθ x (h.existential x hx)).existential y hy

/-- What a declared existential stands for is in scope. -/
lemma WellFormed.covers_solution {Γ : Context} (h : Γ.WellFormed) {x : Name}
    (hx : Γ.Existential x) : Γ.Covers (Γ.solution x) :=
  ⟨fun _ ha => h.rigid_of_mem_solution ha, fun _ hy => .inl (h.unsolved_of_mem_solution hx hy)⟩

/-- There are names that neither a context declares nor a list contains. -/
lemma exists_not_declares (Γ : Context) (used : List Name) :
    ∃ x, x ∉ used ∧ ¬ Γ.declares x := by
  obtain ⟨x, hx⟩ := Name.exists_not_mem (used ++ Γ.map Entry.name)
  rw [List.mem_append, not_or] at hx
  refine ⟨x, hx.1, fun hd => hx.2 ?_⟩
  obtain ⟨m, hm, hmx⟩ := List.any_eq_true.mp hd
  refine List.mem_map.mpr ⟨m, hm, ?_⟩
  cases m <;> simp_all [Entry.declares, Entry.name]

end Context

namespace Declarative

variable {Γ Δ : Context} {A B : Nameless}

/-! ## Reflexivity -/

/-- Every closed type is below itself.

**Proof sketch.** Induction on the height. The body of a quantified type is opened with the same new
variable on both sides. -/
theorem refl (Γ : Context) (hA : A.ClosedAt 0) : Declarative Γ A A := by
  induction hn : A.height using Nat.strongRecOn generalizing Γ A with
  | ind n ih =>
    cases A with
    | unit => exact .unit Γ
    | free a => exact .var Γ a
    | bound i => exact absurd hA (Nat.not_lt_zero i)
    | evar x => exact .evar Γ x
    | arr A B =>
      simp only [Nameless.height] at hn
      exact .arr (ih A.height (by omega) Γ hA.1 rfl) (ih B.height (by omega) Γ hA.2 rfl)
    | all A =>
      obtain ⟨t, ht, hnot⟩ := Context.exists_not_declares Γ A.frees
      have hleaf : (Nameless.free t).IsLeaf := ⟨rfl, rfl⟩
      have hheight : (A.opened (.free t)).height < n := by
        rw [Nameless.opened, Nameless.height_openAt A 0 hleaf, ← hn, Nameless.height]
        exact Nat.lt_succ_self _
      have hclosed : (A.opened (.free t)).ClosedAt 0 := Nameless.ClosedAt.openAt hA trivial
      have hbody := ih _ hheight (.rigid t :: Γ) hclosed rfl
      exact .allRight t ht ht hnot
        (.allLeft (.var t) rfl (Context.scopes_var.mpr List.mem_cons_self) hbody)

/-! ## Quantifiers on the left -/

/-- A quantified type is below whatever one of its instances at nameless monotypes in scope is
below. -/
theorem allLeft_of_covers {R : Nameless} (hR : R.Monotype) (hcovers : Γ.Covers R)
    (h : Declarative Γ (A.opened R) B) : Declarative Γ (.all A) B := by
  refine .allLeft R.toTy (Nameless.isMono_toTy R) ?_ ?_
  · rwa [← Context.covers_nameless, hR.nameless_toTy]
  · rwa [hR.nameless_toTy]

/-! ## Filling in -/

/-- Declarative subtyping is stable under filling in monotypes in scope.

**Proof sketch.** Induction on the derivation. A quantifier on the right is opened with a variable
that is new to the types after filling in, for which the old one is exchanged. -/
theorem fill {ρ θ : Name → Nameless} (h : Declarative Γ A B) (hρ : ∀ a, (ρ a).Monotype)
    (hθ : ∀ x, (θ x).Monotype) (hfree : ∀ a, .rigid a ∈ Γ → Δ.Covers (ρ a))
    (hevar : ∀ x, Γ.Existential x → Δ.Covers (θ x)) :
    Declarative Δ (A.fill ρ θ) (B.fill ρ θ) := by
  induction h generalizing Δ ρ with
  | unit Γ => exact .unit Δ
  | var Γ a => exact refl Δ (hρ a).closed
  | evar Γ x => exact refl Δ (hθ x).closed
  | arr _ _ ih₁ ih₂ => exact .arr (ih₁ hρ hfree hevar) (ih₂ hρ hfree hevar)
  | @allRight Γ A B t hA hB _ _ ih =>
    obtain ⟨t', ht', hnot⟩ :=
      Context.exists_not_declares Δ ((A.fill ρ θ).frees ++ (B.fill ρ θ).frees)
    rw [List.mem_append, not_or] at ht'
    let ρ' : Name → Nameless := fun a => if a = t then .free t' else ρ a
    have hρ' : ∀ a, (ρ' a).Monotype := by
      intro a
      simp only [ρ']
      split
      · exact Nameless.monotype_free t'
      · exact hρ a
    have hsame : ∀ C : Nameless, t ∉ C.frees → C.fill ρ' θ = C.fill ρ θ := by
      intro C hC
      refine Nameless.fill_congr (fun a ha => if_neg ?_) fun _ _ => rfl
      rintro rfl
      exact hC ha
    have hopened : (B.opened (.free t)).fill ρ' θ = (B.fill ρ θ).opened (.free t') := by
      rw [← hsame B hB]
      refine (Nameless.fill_openAt B (.free t) 0 (fun a => (hρ' a).closed)
        fun x => (hθ x).closed).trans ?_
      simp [Nameless.opened, Nameless.fill, ρ']
    have hbody := ih (Δ := .rigid t' :: Δ) hρ'
      (by
        intro a ha
        simp only [ρ']
        split
        · exact Context.covers_free (by simp)
        · rename_i hat
          exact (hfree a (by simpa [hat] using ha)).cons _)
      (by
        intro x hx
        refine (hevar x ?_).cons _
        simpa [Context.Existential] using hx)
    rw [hopened, hsame A hA] at hbody
    exact .allRight t' ht'.1 ht'.2 hnot hbody
  | @allLeft Γ A B T hT hscope _ ih =>
    have hmono : (T.nameless.fill ρ θ).Monotype := (Ty.monotype_nameless hT).fill hρ hθ
    have hcovers : Δ.Covers (T.nameless.fill ρ θ) :=
      (Context.covers_nameless.mpr hscope).fill hfree hevar
    refine .allLeft_of_covers hmono hcovers ?_
    have hopened := Nameless.fill_openAt A T.nameless 0 (fun a => (hρ a).closed)
      fun x => (hθ x).closed
    have hinst := ih hρ hfree hevar
    rwa [Nameless.opened, hopened] at hinst

/-- What holds under a context holds under any one that declares more. -/
lemma mono (h : Declarative Γ A B) (hsub : Γ ⊆ Δ) : Declarative Δ A B := by
  have hfill := h.fill (Δ := Δ) Nameless.monotype_free Nameless.monotype_evar
    (fun a ha => Context.covers_free (hsub ha))
    (fun x hx => Context.covers_evar (hx.mono hsub))
  simpa using hfill

/-! ## Quantifiers on the right -/

/-- What is below the body of a quantified type for a new variable is below every instance: any
monotype in scope may be put for the variable.

**Proof sketch.** Put the monotype for the variable in the whole derivation (`Declarative.fill`).
This leaves the type on the left and the body as they are, since the variable is free in neither,
and makes the opened body the instance. -/
theorem instantiate {t : Name} {R : Nameless}
    (h : Declarative (.rigid t :: Γ) A (B.opened (.free t))) (hA : t ∉ A.frees) (hB : t ∉ B.frees)
    (hR : R.Monotype) (hcovers : Δ.Covers R) (hsub : Γ ⊆ Δ) : Declarative Δ A (B.opened R) := by
  let ρ : Name → Nameless := fun a => if a = t then R else .free a
  have hρ : ∀ a, (ρ a).Monotype := by
    intro a
    simp only [ρ]
    split
    · exact hR
    · exact Nameless.monotype_free a
  have hsame : ∀ C : Nameless, t ∉ C.frees → C.fill ρ .evar = C :=
    fun C hC => Nameless.replaceFree_eq_self hC
  have hopened : (B.opened (.free t)).fill ρ .evar = B.opened R := by
    refine (Nameless.fill_openAt B (.free t) 0 (fun a => (hρ a).closed)
      fun x => (Nameless.monotype_evar x).closed).trans ?_
    rw [hsame B hB]
    simp [Nameless.opened, Nameless.fill, ρ]
  have hfill := h.fill (Δ := Δ) hρ Nameless.monotype_evar
    (by
      intro a ha
      simp only [ρ]
      split
      · exact hcovers
      · rename_i hat
        exact Context.covers_free (hsub (by simpa [hat] using ha)))
    (by
      intro x hx
      have hxΓ : Γ.Existential x := by simpa [Context.Existential] using hx
      exact Context.covers_evar (hxΓ.mono hsub))
  rwa [hopened, hsame A hA] at hfill

/-- A type below a quantified one is below its body for any new variable.

**Proof sketch.** Induction on the derivation. The last rule may also be one that instantiates the
type on the left, and then the instance is below the quantified type. -/
theorem opened_of_all {c : Name} (h : Declarative Γ A (.all B)) (hA : c ∉ A.frees)
    (hc : ¬ Γ.declares c) : Declarative (.rigid c :: Γ) A (B.opened (.free c)) := by
  generalize hC : Nameless.all B = C at h
  induction h with
  | unit | var | evar | arr => contradiction
  | allRight t htA htB _ hbody _ =>
    obtain rfl : B = _ := by simpa using hC
    exact hbody.instantiate htA htB (Nameless.monotype_free c) (Context.covers_free (by simp))
      (List.subset_cons_self _ _)
  | allLeft T hT hscope _ ih =>
    refine .allLeft T hT (hscope.cons _) (ih ?_ hc hC)
    intro hmem
    rcases Nameless.frees_openAt hmem with hfree | hfree
    · exact hA hfree
    · exact hc (Context.declares_iff.mpr (.inl (hscope.rigid c (Ty.mem_frees_nameless.mp hfree))))

end Declarative

/-! ## Arrows -/

namespace Declarative

variable {Γ : Context} {A B : Nameless}

/-- A declarative subtype of a monotype has at most as many arrows, and a declarative supertype too.

**Proof sketch.** Induction on the derivation; between arrows the two halves take turns, since the
domains are compared the other way round. A quantifier cannot be a monotype, and opening one does
not lose arrows. -/
private lemma arrows_le (h : Declarative Γ A B) :
    (A.isMono → B.arrows ≤ A.arrows) ∧ (B.isMono → A.arrows ≤ B.arrows) := by
  induction h with
  | unit | var | evar => simp
  | arr _ _ ih₁ ih₂ =>
    simp only [Nameless.isMono, Nameless.arrows, Bool.and_eq_true]
    refine ⟨fun hA => ?_, fun hB => ?_⟩
    · have h₁ := ih₁.2 hA.1
      have h₂ := ih₂.1 hA.2
      omega
    · have h₁ := ih₁.1 hB.1
      have h₂ := ih₂.2 hB.2
      omega
  | @allRight _ A B t _ _ _ _ ih =>
    refine ⟨fun hA => ?_, fun hB => by simp [Nameless.isMono] at hB⟩
    have hbody := ih.1 hA
    have hleaf : (Nameless.free t).IsLeaf := ⟨rfl, rfl⟩
    rwa [Nameless.opened, Nameless.arrows_openAt _ _ hleaf] at hbody
  | @allLeft _ A B T _ _ _ ih =>
    refine ⟨fun hA => by simp [Nameless.isMono] at hA, fun hB => ?_⟩
    have hinst := ih.2 hB
    have hopen := Nameless.arrows_le_openAt A T.nameless 0
    rw [Nameless.opened] at hinst
    rw [Nameless.arrows]
    omega

/-- A type above a monotype has no more arrows. -/
theorem arrows_le_of_isMono_left (h : Declarative Γ A B) (hA : A.isMono) :
    B.arrows ≤ A.arrows :=
  h.arrows_le.1 hA

/-- A type below a monotype has no more arrows. -/
theorem arrows_le_of_isMono_right (h : Declarative Γ A B) (hB : B.isMono) :
    A.arrows ≤ B.arrows :=
  h.arrows_le.2 hB

end Declarative

end HigherRank
