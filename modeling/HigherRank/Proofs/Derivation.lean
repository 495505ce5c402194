import HigherRank.Proofs.Transcript

set_option autoImplicit false
set_option relaxedAutoImplicit false

/-!
# Derivations

The runs that succeed, as a relation with a constructor for every rule. What is proved about a run
is proved by induction on its derivation, in which every query is about types in scope and every
session has grown from the one before.

## Main definitions

* `HigherRank.Derivation` — the runs that succeed.

## Main results

* `HigherRank.Derivation.grows` — the session that is reached has grown from the first one.
* `HigherRank.Derivation.of_judge` — a run that succeeds has a derivation.

## Implementation notes

An existential is compared with an arrow part by part, so that the rules of articulation have the
premises of the rule for arrows.
-/

namespace HigherRank

open Context (Extends WellFormed)

/-- The first session, with which two types are compared, ends as the second one. -/
inductive Derivation : Session → Ty → Ty → Session → Prop where
  | same {s : Session} {A : Ty} : s.WellPosed A A → A.isAtom → Derivation s A A s
  | arr {s s₁ s₂ : Session} {A₁ A₂ B₁ B₂ A₂' B₂' : Ty} :
    s.WellPosed (.arr A₁ A₂) (.arr B₁ B₂) → Derivation s B₁ A₁ s₁ →
      s₁.context.apply A₂ = .ok A₂' → s₁.context.apply B₂ = .ok B₂' → Derivation s₁ A₂' B₂' s₂ →
      Derivation s (.arr A₁ A₂) (.arr B₁ B₂) s₂
  | allRight {s s₁ : Session} {A B : Ty} {b : Name} {Δ : Context} :
    s.WellPosed A (.all b B) → Derivation s.openRight A (B.subst b (.var s.rightName)) s₁ →
      s₁.context = .rigid s.rightName :: Δ → Derivation s A (.all b B) (s₁.withContext Δ)
  | allLeft {s s₁ : Session} {A B : Ty} {a : Name} {Δ block : Context} :
    s.WellPosed (.all a A) B → ¬ B.isAll →
      Derivation s.openLeft (A.subst a (.evar s.leftName)) B s₁ →
      s₁.context = Context.concat (.marker s.leftName :: Δ) block →
      Derivation s (.all a A) B (s₁.withContext Δ)
  | solved {s s' : Session} {A B A' B' : Ty} :
    s.WellPosed A B → s.context.HasSolution A ∨ s.context.HasSolution B →
      s.context.apply A = .ok A' → s.context.apply B = .ok B' → Derivation s A' B' s' →
      Derivation s A B s'
  | articulateLeft {s s₁ s₂ : Session} {x : Name} {left right : Context} {B₁ B₂ C' B₂' : Ty} :
    s.WellPosed (.evar x) (.arr B₁ B₂) → s.context = Context.concat (.unsolved x :: left) right →
      x ∉ (Ty.arr B₁ B₂).existentials →
      Derivation (s.articulated x left right) B₁ (.evar s.domName) s₁ →
      s₁.context.apply (.evar s.codName) = .ok C' → s₁.context.apply B₂ = .ok B₂' →
      Derivation s₁ C' B₂' s₂ → Derivation s (.evar x) (.arr B₁ B₂) s₂
  | articulateRight {s s₁ s₂ : Session} {x : Name} {left right : Context} {A₁ A₂ A₂' C' : Ty} :
    s.WellPosed (.arr A₁ A₂) (.evar x) → s.context = Context.concat (.unsolved x :: left) right →
      x ∉ (Ty.arr A₁ A₂).existentials →
      Derivation (s.articulated x left right) (.evar s.domName) A₁ s₁ →
      s₁.context.apply A₂ = .ok A₂' → s₁.context.apply (.evar s.codName) = .ok C' →
      Derivation s₁ A₂' C' s₂ → Derivation s (.arr A₁ A₂) (.evar x) s₂
  | solve {s : Session} {x : Name} {T A B : Ty} {left right : Context} :
    s.WellPosed A B → s.context = Context.concat (.unsolved x :: left) right → T.isAtom →
      left.Scopes T → Session.Faces x T A B → Derivation s A B (s.solvedAt x T left right)

namespace Derivation

variable {s s' : Session} {A B : Ty}

/-- The two types of a derivation are in scope of a well-formed context. -/
lemma wellPosed (h : Derivation s A B s') : s.WellPosed A B := by
  cases h <;> assumption

/-- The session that is reached has grown from the first one. -/
theorem grows (h : Derivation s A B s') : s.Grows s' := by
  induction h with
  | same h _ => exact .refl h.wellFormed
  | arr _ _ _ _ _ ih₁ ih₂ => exact ih₁.trans ih₂
  | allRight _ _ hΔ ih => exact ih.closeRight hΔ
  | allLeft _ _ _ hΔ ih => exact (ih.closeLeft hΔ).1
  | solved _ _ _ _ _ ih => exact ih
  | articulateLeft h hs _ _ _ _ _ ih₁ ih₂ =>
    exact (Session.grows_articulated hs h.wellFormed).trans (ih₁.trans ih₂)
  | articulateRight h hs _ _ _ _ _ ih₁ ih₂ =>
    exact (Session.grows_articulated hs h.wellFormed).trans (ih₁.trans ih₂)
  | solve h hs hT hscope _ =>
    exact Session.grows_solvedAt hs h.wellFormed (Ty.isMono_of_isAtom hT) hscope

/-- A derivation for two arrows compares their domains and their codomains. -/
private lemma premises {A₁ A₂ B₁ B₂ : Ty} (h : Derivation s (.arr A₁ A₂) (.arr B₁ B₂) s') :
    ∃ s₁ A₂' B₂', Derivation s B₁ A₁ s₁ ∧ s₁.context.apply A₂ = .ok A₂' ∧
      s₁.context.apply B₂ = .ok B₂' ∧ Derivation s₁ A₂' B₂' s' := by
  cases h with
  | arr _ hdom hA hB hcod => exact ⟨_, _, _, hdom, hA, hB, hcod⟩
  | same _ hatom => simp [Ty.isAtom] at hatom
  | solved _ hs =>
    exact absurd hs (not_or.mpr ⟨not_hasSolution_arr _ A₁ A₂, not_hasSolution_arr _ B₁ B₂⟩)
  | solve _ _ _ _ hAB => exact absurd hAB Session.not_faces_arr

end Derivation

/-! ## Runs that succeed -/

namespace Derivation

variable {s s' : Session} {A B : Ty} {r : Traced Session}

/-- A transcript of a run that succeeds is a derivation with records.

**Proof sketch.** Induction on the transcript. The rules that fail reach no session. Where an
existential is articulated the run goes on with a comparison of arrows, and the premises of that
derivation (`Derivation.premises`) are those of the rule. -/
private lemma of_transcript (h : Transcript s A B r) (hr : r.outcome = .ok s') :
    Derivation s A B s' := by
  induction h generalizing s' with
  | exhausted | refused | arrFailed | allRightFailed | allLeftFailed => contradiction
  | same h hA =>
    obtain rfl := Except.ok.inj hr
    exact .same h hA
  | arr h _ h₁ hA hB _ ih ih₁ => exact .arr h (ih h₁) hA hB (ih₁ hr)
  | allRight h _ h₁ hΔ ih =>
    obtain rfl := Except.ok.inj hr
    exact .allRight h (ih h₁) hΔ
  | allLeft h hB _ h₁ hΔ ih =>
    obtain rfl := Except.ok.inj hr
    exact .allLeft h hB (ih h₁) hΔ
  | solved h hs hA hB _ ih => exact .solved h hs hA hB (ih hr)
  | articulateLeft h hs hx _ ih =>
    obtain ⟨s₁, C', B₂', hdom, hcod, hB, hrest⟩ := (ih hr).premises
    exact .articulateLeft h hs hx hdom hcod hB hrest
  | articulateRight h hs hx _ ih =>
    obtain ⟨s₁, A₂', C', hdom, hA, hcod, hrest⟩ := (ih hr).premises
    exact .articulateRight h hs hx hdom hA hcod hrest
  | solve h hs hT hscope hAB =>
    obtain rfl := Except.ok.inj hr
    exact .solve h hs hT hscope hAB

/-- A run that succeeds has a derivation. -/
theorem of_judge {n : Nat} (h : s.WellPosed A B) (hrun : (judge n s A B).outcome = .ok s') :
    Derivation s A B s' :=
  of_transcript (.of_judge h n) hrun

end Derivation

end HigherRank
