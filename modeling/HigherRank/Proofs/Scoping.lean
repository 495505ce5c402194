import HigherRank.Proofs.Substitution
import HigherRank.Proofs.WellFormedness

set_option autoImplicit false
set_option relaxedAutoImplicit false

/-!
# Scope is about free names

The check of a type goes down under its binders and declares each of them on the way, so that a
binder may hide a declared variable or be declared a second time. What it decides says nothing of
binders: it asks whether the free names are declared. So it cannot tell apart types that differ in
bound names, and for an instance of a quantified type it does not matter how binders were renamed.

## Main results

* `HigherRank.Context.scopes_iff_nameless`, `HigherRank.Context.scopes_iff_of_alphaEq` — scope does
  not depend on bound names.
* `HigherRank.Context.scopes_subst_iff` — when an instance of a quantified type is in scope.
* `HigherRank.Context.isWellFormedType_free_names` — what the check of types decides.
-/

namespace HigherRank.Context

/-! ## Bound names -/

/-- Whether a type is in scope can be read off its nameless form. -/
theorem scopes_iff_nameless {Γ : Context} {A : Ty} :
    Γ.Scopes A ↔ (∀ a ∈ A.nameless.frees, .rigid a ∈ Γ) ∧
      ∀ x ∈ A.nameless.existentials, Γ.Existential x := by
  simp only [Ty.mem_frees_nameless, Ty.existentials_nameless]
  exact ⟨fun h => ⟨h.rigid, h.existential⟩, fun h => ⟨h.1, h.2⟩⟩

/-- Types that are equal up to bound names are in scope together. -/
theorem scopes_iff_of_alphaEq {Γ : Context} {A B : Ty} (h : A.AlphaEq B) :
    Γ.Scopes A ↔ Γ.Scopes B := by
  rw [scopes_iff_nameless, scopes_iff_nameless, show A.nameless = B.nameless from h]

/-! ## Instances -/

/-- An instance of a quantified type is in scope exactly if the type is, and the argument as well
unless the bound variable does not occur.

Nothing is lost by substitution but the variable itself, so that the instance tells what the type
and the argument mention. -/
theorem scopes_subst_iff {Γ : Context} {a : Name} {A R : Ty} :
    Γ.Scopes (A.subst a R) ↔ Γ.Scopes (.all a A) ∧ (a ∈ A.rigids → Γ.Scopes R) := by
  constructor
  · intro h
    refine ⟨⟨fun b hb => ?_, fun x hx => ?_⟩, fun ha => ⟨fun b hb => ?_, fun x hx => ?_⟩⟩
    · exact h.rigid b (Ty.mem_rigids_subst.mpr (.inl (Ty.mem_rigids_all.mp hb)))
    · exact h.existential x (Ty.mem_existentials_subst.mpr (.inl hx))
    · exact h.rigid b (Ty.mem_rigids_subst.mpr (.inr ⟨ha, hb⟩))
    · exact h.existential x (Ty.mem_existentials_subst.mpr (.inr ⟨ha, hx⟩))
  · rintro ⟨hA, hR⟩
    refine ⟨fun b hb => ?_, fun x hx => ?_⟩
    · rcases Ty.mem_rigids_subst.mp hb with hb | ⟨ha, hb⟩
      · exact hA.rigid b (Ty.mem_rigids_all.mpr hb)
      · exact (hR ha).rigid b hb
    · rcases Ty.mem_existentials_subst.mp hx with hx | ⟨ha, hx⟩
      · exact hA.existential x hx
      · exact (hR ha).existential x hx

/-- An instance of a quantified type is in scope, if the type and the argument are. -/
lemma Scopes.subst {Γ Δ : Context} {a : Name} {A R : Ty} (hA : Γ.Scopes (.all a A))
    (hsub : Γ ⊆ Δ) (hR : Δ.Scopes R) : Δ.Scopes (A.subst a R) :=
  scopes_subst_iff.mpr ⟨hA.mono hsub, fun _ => hR⟩

/-! ## What the check of types decides -/

/-- Types that are in scope together pass the check together. -/
private lemma isWellFormedType_congr {Γ : Context} (h : Γ.SolvedOnce) {A B : Ty}
    (hAB : Γ.Scopes A ↔ Γ.Scopes B) : Γ.isWellFormedType A = Γ.isWellFormedType B := by
  obtain ⟨a, ha, hA⟩ := isWellFormedType_iff h A
  obtain ⟨b, hb, hB⟩ := isWellFormedType_iff h B
  have hab : a = b := Bool.eq_iff_iff.mpr (hA.trans (hAB.trans hB.symm))
  rw [ha, hb, hab]

/-- Under a well-formed context the check of a type never fails. It accepts the type exactly if the
context declares every free rigid variable of it as a rigid variable, and every existential of it as
an existential, with a solution or without. So it answers the same for types that are equal up to
bound names, and it accepts an instance of a quantified type exactly if it accepts the type, and the
argument too unless the bound variable does not occur. -/
theorem isWellFormedType_free_names {Γ : Context} (h : Γ.isWellFormed = .ok true) :
    (∀ A, ∃ b, Γ.isWellFormedType A = .ok b ∧
        (b = true ↔ (∀ a ∈ A.rigids, .rigid a ∈ Γ) ∧
          ∀ x ∈ A.existentials, .unsolved x ∈ Γ ∨ ∃ T, .solved x T ∈ Γ)) ∧
      (∀ A B : Ty, A.AlphaEq B → Γ.isWellFormedType A = Γ.isWellFormedType B) ∧
      ∀ (a : Name) (A R : Ty),
        Γ.isWellFormedType ((Ty.all a A).instantiate R) = .ok true ↔
          Γ.isWellFormedType (.all a A) = .ok true ∧
            (a ∈ A.rigids → Γ.isWellFormedType R = .ok true) := by
  have hΓ : Γ.SolvedOnce := (isWellFormed_eq_true_iff.mp h).solvedOnce
  refine ⟨fun A => ?_, fun A B hAB => ?_, fun a A R => ?_⟩
  · obtain ⟨b, hb, hA⟩ := isWellFormedType_iff hΓ A
    exact ⟨b, hb, hA.trans ⟨fun hs => ⟨hs.rigid, hs.existential⟩, fun hs => ⟨hs.1, hs.2⟩⟩⟩
  · exact isWellFormedType_congr hΓ (scopes_iff_of_alphaEq hAB)
  · simp only [isWellFormedType_eq_true_iff hΓ]
    exact scopes_subst_iff

/-- The outer binder of the type hides a declared variable, and the inner one has the name of a
variable that the argument mentions, so that it is renamed in the instance. -/
theorem isWellFormedType_free_names_hidden :
    let Γ : Context := ofMembers [.rigid "a", .unsolved "y", .rigid "b", .solved "x" (.var "a")]
    let A : Ty := .all "b" (.arr (.var "a") (.arr (.evar "x") (.var "b")))
    let R : Ty := .arr (.var "b") (.evar "y")
    Γ.isWellFormed = .ok true ∧
      (∃ b, Γ.isWellFormedType (.all "a" A) = .ok b ∧
        (b = true ↔ (∀ a ∈ (Ty.all "a" A).rigids, .rigid a ∈ Γ) ∧
          ∀ x ∈ (Ty.all "a" A).existentials, .unsolved x ∈ Γ ∨ ∃ T, .solved x T ∈ Γ)) ∧
      Γ.isWellFormedType (.all "a" A) =
        Γ.isWellFormedType (.all "c" (.all "b" (.arr (.var "c") (.arr (.evar "x") (.var "b"))))) ∧
      (Ty.all "a" A).instantiate R = .all "b'" (.arr R (.arr (.evar "x") (.var "b'"))) ∧
      Γ.isWellFormedType (.all "b'" (.arr R (.arr (.evar "x") (.var "b'")))) = .ok true := by
  intro Γ A R
  have hΓ : Γ.isWellFormed = .ok true := by decide
  have hinstance : (Ty.all "a" A).instantiate R =
      .all "b'" (.arr R (.arr (.evar "x") (.var "b'"))) := by decide +kernel
  obtain ⟨hdecides, hbound, hinst⟩ := isWellFormedType_free_names hΓ
  refine ⟨hΓ, hdecides _, hbound _ _ (by decide), hinstance, ?_⟩
  rw [← hinstance]
  exact (hinst "a" A R).mpr ⟨by decide, fun _ => by decide⟩

end HigherRank.Context
