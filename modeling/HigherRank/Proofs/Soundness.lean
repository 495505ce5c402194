import HigherRank.Proofs.DeclarativeSubtyping
import HigherRank.Proofs.Preservation

set_option autoImplicit false
set_option relaxedAutoImplicit false

/-!
# Soundness

If a query is answered with a session, then what the two types stand for under its context are
declarative subtypes. Later solutions are filled in for the existentials of a part that has been
compared already, and existentials that are lost without a solution when the scope of a quantifier
is closed may be read as any monotype.

## Main results

* `HigherRank.Declarative.of_extends` — solutions that are added later do no harm.
* `HigherRank.Derivation.sound` — derivations are sound.
* `HigherRank.subtype_sound` — queries are sound, and make monotypes equal.
-/

namespace HigherRank

open Context (Extends WellFormed)

/-! ## Later solutions -/

/-- What has been shown of two types stays true when their existentials are solved. -/
theorem Declarative.of_extends {new : Name → Prop} {Γ Δ : Context} {A B : Ty}
    (h : Declarative Γ (Γ.resolved A) (Γ.resolved B)) (hΓ : Γ.WellFormed) (hΔ : Δ.WellFormed)
    (hext : Extends new Γ Δ) : Declarative Δ (Δ.resolved A) (Δ.resolved B) := by
  have hfill := h.fill Nameless.monotype_free hΔ.monotype_solution
    (fun a ha => Context.covers_free (hext.rigid_mem ha))
    (fun x hx => hΔ.covers_solution (hext.existential hx))
  have hA : ((Γ.resolved A).fill .free Δ.solution) = Δ.resolved A := hext.resolved hΓ hΔ A
  have hB : ((Γ.resolved B).fill .free Δ.solution) = Δ.resolved B := hext.resolved hΓ hΔ B
  rwa [hA, hB] at hfill

/-- Two arrows are related if their domains were related the other way round, and then their
codomains with the solutions filled in. -/
private lemma Declarative.arr_of_grows {s₁ s₂ : Session} {A₁ A₂ B₁ B₂ A₂' B₂' : Ty}
    (h₁ : Declarative s₁.context (s₁.context.resolved B₁) (s₁.context.resolved A₁))
    (h₂ : Declarative s₂.context (s₂.context.resolved A₂') (s₂.context.resolved B₂'))
    (hs₁ : s₁.context.WellFormed) (hgrows : s₁.Grows s₂) (hA : s₁.context.apply A₂ = .ok A₂')
    (hB : s₁.context.apply B₂ = .ok B₂') :
    Declarative s₂.context (s₂.context.resolved (.arr A₁ A₂))
      (s₂.context.resolved (.arr B₁ B₂)) := by
  rw [hgrows.extension.resolved_apply hs₁ hgrows.wellFormed hA,
    hgrows.extension.resolved_apply hs₁ hgrows.wellFormed hB] at h₂
  exact .arr (h₁.of_extends hs₁ hgrows.wellFormed hgrows.extension) h₂

/-! ## Closing the scope of a quantifier on the left -/

section Closing

/-- What is put for the existentials that may be lost when a scope is closed: nothing else than
themselves where they are still declared, and the unit type otherwise. -/
def Context.kept (Δ : Context) (x : Name) : Nameless :=
  if .unsolved x ∈ Δ then .evar x else .unit

variable {Δ block : Context} {m : Entry}

/-- What is put for a lost existential is a monotype. -/
private lemma monotype_kept (Δ : Context) (x : Name) : (Δ.kept x).Monotype := by
  unfold Context.kept
  split
  · exact Nameless.monotype_evar x
  · exact ⟨rfl, trivial⟩

/-- What is put for a lost existential is declared in what is left. -/
private lemma covers_kept (Δ : Context) (x : Name) : Δ.Covers (Δ.kept x) := by
  unfold Context.kept
  split
  · exact Context.covers_evar (.inl ‹_›)
  · exact ⟨by simp [Nameless.frees], by simp [Nameless.existentials]⟩

/-- A type in scope outside stands for the same inside the scope, and has nothing that is lost. -/
private lemma resolved_kept (h : WellFormed (Context.concat (m :: Δ) block)) {A : Ty}
    (hA : Δ.Scopes A) :
    ((Context.concat (m :: Δ) block).resolved A).fillExistentials Δ.kept = Δ.resolved A := by
  rw [Context.concat_cons_left] at h ⊢
  rw [h.resolved_left hA]
  refine Nameless.fillExistentials_eq_self fun x hx => ?_
  exact if_pos (h.of_concat.existentials_resolved hA hx)

/-- An instance of a quantified type, seen from outside of the scope in which it was taken. -/
private lemma resolved_subst_kept (h : WellFormed (Context.concat (m :: Δ) block)) {a : Name}
    {A R : Ty} (hA : Δ.Scopes (.all a A)) :
    ((Context.concat (m :: Δ) block).resolved (A.subst a R)).fillExistentials Δ.kept =
      ((A.namelessUnder [a]).fillExistentials Δ.solution).opened
        (((Context.concat (m :: Δ) block).resolved R).fillExistentials Δ.kept) := by
  have hall := resolved_kept h hA
  simp only [Context.resolved_all, Nameless.fillExistentials, Nameless.fill,
    Nameless.all.injEq] at hall
  rw [h.resolved_subst]
  refine (Nameless.fill_openAt _ _ 0 (fun b => (Nameless.monotype_free b).closed)
    fun x => (monotype_kept Δ x).closed).trans ?_
  simp only [Nameless.opened, Nameless.fillExistentials, hall]

end Closing

/-! ## Soundness of derivations -/

namespace Derivation

variable {s s₁ : Session} {A B : Ty} {Δ block : Context}

/-- The scope of a quantifier on the right may be closed. -/
private lemma sound_allRight {b : Name} (h : s.WellPosed A (.all b B))
    (hgrows : s.openRight.Grows s₁) (hΔ : s₁.context = .rigid s.rightName :: Δ)
    (hsound : Declarative s₁.context (s₁.context.resolved A)
      (s₁.context.resolved (B.subst b (.var s.rightName)))) :
    Declarative Δ (Δ.resolved A) (Δ.resolved (.all b B)) := by
  have hclosed := hgrows.closeRight hΔ
  have hwf : WellFormed (.rigid s.rightName :: Δ) := hΔ ▸ hgrows.wellFormed
  have hA : Δ.Scopes A := hclosed.extension.scopes h.left
  have hB : Δ.Scopes (.all b B) := hclosed.extension.scopes h.right
  have hnot : .rigid s.rightName ∉ Δ := (Context.wellFormed_cons.mp hwf).2.not_mem
  rw [hΔ, hwf.resolved_subst] at hsound
  rw [Context.resolved_all]
  refine .allRight s.rightName (fun hmem => ?_) (fun hmem => ?_) ?_ hsound
  · exact hnot (hclosed.wellFormed.frees_resolved hA hmem)
  · exact hnot (hclosed.wellFormed.frees_resolved hB hmem)
  · cases (Context.wellFormed_cons.mp hwf).2 with
    | rigid _ hdecl => exact hdecl

/-- The scope of a quantifier on the left may be closed. What the existential of the scope stands
for is the instance, with the existentials that are lost replaced.

**Proof sketch.** Everything that is declared from the marker on is lost. Fill existentials that are
lost with the unit type in the derivation of the instance (`Declarative.fill`); this leaves the
types that are in scope in the rest as they are, and makes what the existential of the scope stands
for a monotype in scope there. With this monotype the rule for a quantifier on the left applies. -/
private lemma sound_allLeft {a : Name} (h : s.WellPosed (.all a A) B) (hgrows : s.openLeft.Grows s₁)
    (hΔ : s₁.context = Context.concat (.marker s.leftName :: Δ) block)
    (hsound : Declarative s₁.context (s₁.context.resolved (A.subst a (.evar s.leftName)))
      (s₁.context.resolved B)) :
    Declarative Δ (Δ.resolved (.all a A)) (Δ.resolved B) := by
  obtain ⟨hclosed, hblock⟩ := hgrows.closeLeft hΔ
  have hA : Δ.Scopes (.all a A) := hclosed.extension.scopes h.left
  have hB : Δ.Scopes B := hclosed.extension.scopes h.right
  have hname : s₁.context.Existential s.leftName := hgrows.extension.existential (.inl (by simp))
  have hwf := hgrows.wellFormed
  have hrigid : ∀ c, .rigid c ∈ s₁.context → Δ.Covers (.free c) := by
    intro c hc
    rw [hΔ] at hc
    rcases Context.mem_concat.mp hc with hc | hc
    · exact (hblock _ hc).elim
    · exact Context.covers_free (by simpa using hc)
  have hinstance : Δ.Covers ((s₁.context.solution s.leftName).fill .free Δ.kept) :=
    (hwf.covers_solution hname).fill hrigid fun x _ => covers_kept Δ x
  have hmono : ((s₁.context.solution s.leftName).fill .free Δ.kept).Monotype :=
    (hwf.monotype_solution _).fill Nameless.monotype_free (monotype_kept Δ)
  have hfill := hsound.fill Nameless.monotype_free (monotype_kept Δ) hrigid
    fun x _ => covers_kept Δ x
  change Declarative Δ (Nameless.fillExistentials Δ.kept _) (Nameless.fillExistentials Δ.kept _)
    at hfill
  rw [hΔ] at hwf hfill hinstance hmono
  rw [resolved_kept hwf hB, resolved_subst_kept hwf hA] at hfill
  exact .allLeft_of_covers hmono hinstance hfill

/-- What two types stand for after a run that succeeds are declarative subtypes.

**Proof sketch.** Induction on the derivation. What a premise has shown is carried over to the last
session, in which more existentials may be solved. An existential that has been solved stands for
what its solution stands for. -/
theorem sound {s s' : Session} {A B : Ty} (h : Derivation s A B s') :
    Declarative s'.context (s'.context.resolved A) (s'.context.resolved B) := by
  induction h with
  | @same s A h hA =>
    exact .refl _ (h.wellFormed.monotype_resolved (Ty.isMono_of_isAtom hA)).closed
  | arr h hd₁ hA hB hd₂ ih₁ ih₂ => exact ih₁.arr_of_grows ih₂ hd₁.grows.wellFormed hd₂.grows hA hB
  | allRight h hd hΔ ih => exact sound_allRight h hd.grows hΔ ih
  | allLeft h _ hd hΔ ih => exact sound_allLeft h hd.grows hΔ ih
  | solved h _ hA hB hd ih =>
    have hgrows := hd.grows
    rwa [hgrows.extension.resolved_apply h.wellFormed hgrows.wellFormed hA,
      hgrows.extension.resolved_apply h.wellFormed hgrows.wellFormed hB] at ih
  | @articulateLeft s s₁ s₂ x left right B₁ B₂ C' B₂' h hs _ hd₁ hA hB hd₂ ih₁ ih₂ =>
    have harr := ih₁.arr_of_grows ih₂ hd₁.grows.wellFormed hd₂.grows hA hB
    have hsolved := (hd₁.grows.trans hd₂.grows).newArrow_mem
    rwa [Context.resolved_evar, hd₂.grows.wellFormed.solution_of_mem hsolved]
  | @articulateRight s s₁ s₂ x left right A₁ A₂ A₂' C' h hs _ hd₁ hA hB hd₂ ih₁ ih₂ =>
    have harr := ih₁.arr_of_grows ih₂ hd₁.grows.wellFormed hd₂.grows hA hB
    have hsolved := (hd₁.grows.trans hd₂.grows).newArrow_mem
    rwa [Context.resolved_evar, hd₂.grows.wellFormed.solution_of_mem hsolved]
  | @solve s x T A B left right h hs hT hscope hAB =>
    have hmono := Ty.isMono_of_isAtom hT
    have hwf := (Session.grows_solvedAt hs h.wellFormed hmono hscope).wellFormed
    have hx : (s.solvedAt x T left right).context.solution x =
        (s.solvedAt x T left right).context.resolved T := hwf.solution_of_mem (by simp)
    rcases hAB with ⟨rfl, rfl⟩ | ⟨rfl, rfl⟩
    all_goals
      rw [Context.resolved_evar, hx]
      exact .refl _ (hwf.monotype_resolved hmono).closed

end Derivation

/-! ## Soundness of queries -/

section Query

variable {s s' : Session} {A B : Ty}

/-- If a query is answered with a session, then applying its context gives declarative subtypes. Two
monotypes become equal. -/
theorem subtype_sound (h : s.context.isWellFormed = .ok true)
    (hA : s.context.isWellFormedType A = .ok true) (hB : s.context.isWellFormedType B = .ok true)
    (hrun : (subtype s A B).outcome = .ok (some s')) :
    ∃ A' B', s'.context.apply A = .ok A' ∧ s'.context.apply B = .ok B' ∧
      Declarative s'.context A'.nameless B'.nameless ∧ (A.isMono → B.isMono → A' = B') := by
  have hd := Derivation.of_subtype (.of_checks h hA hB) hrun
  have hwf := hd.grows.wellFormed
  obtain ⟨A', hA', hresA⟩ := hwf.exists_apply A
  obtain ⟨B', hB', hresB⟩ := hwf.exists_apply B
  have hsound := hd.sound
  rw [← hresA, ← hresB] at hsound
  refine ⟨A', B', hA', hB', hsound, fun hmonoA hmonoB => ?_⟩
  have hA'mono : A'.nameless.isMono := hresA ▸ (hwf.monotype_resolved hmonoA).isMono
  have hB'mono : B'.nameless.isMono := hresB ▸ (hwf.monotype_resolved hmonoB).isMono
  exact Ty.eq_of_alphaEq_of_isMono (hsound.eq_of_isMono hA'mono hB'mono) (by simpa using hA'mono)

/-- The identity is used at an existential that is solved to the variable `b`, below another
quantifier. -/
theorem subtype_sound_identity :
    let s : Session := ⟨[.unsolved "x", .rigid "b"], 0, "e", "t"⟩
    let s' : Session := ⟨[.solved "x" (.var "b"), .rigid "b"], 2, "e", "t"⟩
    let A : Ty := .all "a" (.arr (.var "a") (.var "a"))
    let B : Ty := .all "c" (.arr (.evar "x") (.var "b"))
    (subtype s A B).outcome = .ok (some s') ∧
      ∃ A' B', s'.context.apply A = .ok A' ∧ s'.context.apply B = .ok B' ∧
        Declarative s'.context A'.nameless B'.nameless ∧ (A.isMono → B.isMono → A' = B') := by
  intro s s' A B
  have hrun : (subtype s A B).outcome = .ok (some s') := by decide +kernel
  exact ⟨hrun, subtype_sound (by decide) (by decide) (by decide) hrun⟩

end Query

end HigherRank
