import HigherRank.Proofs.DeclarativeSubtyping

set_option autoImplicit false
set_option relaxedAutoImplicit false

/-!
# Declarative subtyping is transitive

A type is below all that is above a type above it. This is no rule, so that the type in between has
to be cut out, quantifier by quantifier.

## Main definitions

* `HigherRank.Declarative.CutsBelow` — transitivity for types with few quantifiers.

## Main results

* `HigherRank.Declarative.trans` — transitivity.

## Implementation notes

The argument is no induction on derivations, since a quantified type in between is opened with a
variable on the one side and with a monotype on the other, and putting the monotype for the variable
gives another derivation. But all instances are monotypes, so that the number of quantifiers of the
three types falls with every quantifier that is opened.
-/

namespace HigherRank.Declarative

/-- What stands between two types can be cut out, as long as the three types have fewer quantifiers
than the given number. -/
def CutsBelow (q : Nat) : Prop :=
  ∀ {Γ : Context} {A B C : Nameless}, A.quantifiers + B.quantifiers + C.quantifiers < q →
    Declarative Γ A B → Declarative Γ B C → Declarative Γ A C

/-- One quantifier more is no obstacle.

**Proof sketch.** Induction on the height of the type in between, which falls in the parts of
arrows. A quantifier of the outer types is opened first. If the one in between has been opened with
a variable on the one side and with a monotype on the other, then the monotype is put for the
variable. -/
private lemma CutsBelow.succ {q : Nat} (h : CutsBelow q) : CutsBelow (q + 1) := by
  intro Γ A B C hlt hAB hBC
  induction hn : B.height using Nat.strongRecOn generalizing Γ A B C with
  | ind n ih =>
    cases hBC with
    | unit | var | evar => exact hAB
    | @arr _ B₁ B₂ C₁ C₂ hdom hcod =>
      cases hAB with
      | @arr _ A₁ A₂ _ _ hdom' hcod' =>
        simp only [Nameless.quantifiers, Nameless.height] at hlt hn
        exact .arr (ih B₁.height (by omega) (by omega) hdom hdom' rfl)
          (ih B₂.height (by omega) (by omega) hcod' hcod rfl)
      | @allLeft _ A _ T hT hscope hinst =>
        have hfewer := A.quantifiers_opened_lt (R := T.nameless) (by simpa using hT)
        exact .allLeft T hT hscope (h (by omega) hinst (.arr hdom hcod))
    | @allRight _ _ C t htB htC hnot hbody =>
      obtain ⟨c, hc, hcΓ⟩ := Context.exists_not_declares Γ (A.frees ++ B.frees ++ C.frees)
      simp only [List.mem_append, not_or] at hc
      have hbody' : Declarative (.rigid c :: Γ) B (C.opened (.free c)) :=
        hbody.instantiate htB htC (Nameless.monotype_free c) (Context.covers_free (by simp))
          (List.subset_cons_self _ _)
      have hAB' : Declarative (.rigid c :: Γ) A B := hAB.mono (List.subset_cons_self _ _)
      have hfewer := C.quantifiers_opened_lt (R := .free c) rfl
      exact .allRight c hc.1.1 hc.2 hcΓ (h (by omega) hAB' hbody')
    | @allLeft _ B _ T hT hscope hinst =>
      cases hAB with
      | allRight t htA htB _ hbody =>
        have hAB' : Declarative Γ A (B.opened T.nameless) :=
          hbody.instantiate htA htB (Ty.monotype_nameless hT) (Context.covers_nameless.mpr hscope)
            (List.Subset.refl Γ)
        have hfewer := B.quantifiers_opened_lt (R := T.nameless) (by simpa using hT)
        exact h (by omega) hAB' hinst
      | @allLeft _ A _ R hR hscope' hinst' =>
        have hfewer := A.quantifiers_opened_lt (R := R.nameless) (by simpa using hR)
        exact .allLeft R hR hscope' (h (by omega) hinst' (.allLeft T hT hscope hinst))

/-- Declarative subtyping is transitive. -/
theorem trans {Γ : Context} {A B C : Nameless} (hAB : Declarative Γ A B)
    (hBC : Declarative Γ B C) : Declarative Γ A C := by
  have hcuts : ∀ q, CutsBelow q := by
    intro q
    induction q with
    | zero => exact fun hlt => absurd hlt (Nat.not_lt_zero _)
    | succ q ih => exact ih.succ
  exact hcuts _ (Nat.lt_succ_self _) hAB hBC

end HigherRank.Declarative
