import HigherRank.Proofs.Derivation

set_option autoImplicit false
set_option relaxedAutoImplicit false

/-!
# What queries do to a session

A query that succeeds leaves a well-formed context, in which existentials have been solved in the
places where they were declared. New existentials stand only right before an existential that has
been solved, and their names were given out by the query. The scopes that were opened for
quantifiers are closed again. All this holds for a sequence of queries as well. So a type to which
the context was applied before a query is as good as the type itself after it.

## Main definitions

* `HigherRank.Session.Reaches` — the sessions that are reached by answering queries.

## Main results

* `HigherRank.Session.Reaches.extends_context` — what a sequence of queries does to a context.
* `HigherRank.subtype_keeps_applied` — types that were applied before a query may be applied again.
-/

namespace HigherRank

open Context (Extends WellFormed)

section Query

variable {s s' : Session} {A B : Ty}

/-- The checks of the context and of the two types establish that they are in scope. -/
lemma Session.WellPosed.of_checks (h : s.context.isWellFormed = .ok true)
    (hA : s.context.isWellFormedType A = .ok true) (hB : s.context.isWellFormedType B = .ok true) :
    s.WellPosed A B := by
  have hwf := Context.isWellFormed_eq_true_iff.mp h
  have hscope {C : Ty} := Context.isWellFormedType_eq_true_iff (A := C) hwf.solvedOnce
  exact ⟨hwf, hscope.mp hA, hscope.mp hB⟩

/-- A query is answered with a session exactly if its run ends in this session. -/
lemma outcome_subtype_eq_some :
    (subtype s A B).outcome = .ok (some s') ↔ (check s A B).outcome = .ok s' := by
  simp only [subtype]
  cases h : (check s A B).outcome with
  | ok t => simp
  | error e => cases e <;> simp

/-- A query that is answered with a session has a derivation. -/
lemma Derivation.of_subtype (h : s.WellPosed A B)
    (hrun : (subtype s A B).outcome = .ok (some s')) : Derivation s A B s' :=
  .of_judge h (outcome_subtype_eq_some.mp hrun)

end Query

namespace Session

/-- The second session is reached from the first one by queries about types in scope, all of which
succeed. -/
inductive Reaches : Session → Session → Prop where
  | refl (s : Session) : Reaches s s
  | query {s s₁ s₂ : Session} (A B : Ty) :
    s.context.isWellFormedType A = .ok true → s.context.isWellFormedType B = .ok true →
      (subtype s A B).outcome = .ok (some s₁) → Reaches s₁ s₂ → Reaches s s₂

/-- A session grows with every query. -/
private lemma Reaches.grows {s s' : Session} (h : s.context.WellFormed) (hrun : s.Reaches s') :
    s.Grows s' := by
  induction hrun with
  | refl s => exact .refl h
  | query A B hA hB hrun _ ih =>
    have hpos := WellPosed.of_checks (Context.isWellFormed_eq_true_iff.mpr h) hA hB
    have hgrows := (Derivation.of_subtype hpos hrun).grows
    exact hgrows.trans (ih hgrows.wellFormed)

/-- What queries do to a context: it stays well-formed, and an existential may be replaced by
existentials whose names were given out in the meantime and were not declared before, followed by
its solution. Everything else stays, in the same order. -/
theorem Reaches.extends_context {s s' : Session} (h : s.context.isWellFormed = .ok true)
    (hrun : s.Reaches s') :
    s'.context.isWellFormed = .ok true ∧
      Extends (fun x => ¬ s.context.declares x ∧ s.Issued s.existentialStem s'.nextName x)
        s.context s'.context := by
  have hgrows := hrun.grows (Context.isWellFormed_eq_true_iff.mp h)
  refine ⟨Context.isWellFormed_eq_true_iff.mpr hgrows.wellFormed, ?_⟩
  exact hgrows.extension.not_declared hgrows.wellFormed

/-- Two queries about `^x` and `^y` in a context where `e1` is taken. The scope that the first one
opens for `a` is closed again, and the second one solves what the first one declared. -/
theorem Reaches.extends_context_two_queries :
    let s : Session := ⟨[.rigid "e1", .unsolved "y", .unsolved "x"], 0, "e", "t"⟩
    let s' : Session := ⟨[.rigid "e1", .solved "y" (.evar "e2"),
      .solved "x" (.arr (.evar "e0") (.evar "e2")), .solved "e2" .unit, .solved "e0" .unit], 4,
      "e", "t"⟩
    s.context.isWellFormed = .ok true ∧ s.Reaches s' ∧ s'.context.isWellFormed = .ok true ∧
      Extends (fun x => ¬ s.context.declares x ∧ s.Issued s.existentialStem s'.nextName x)
        s.context s'.context := by
  intro s s'
  let s₁ : Session := ⟨[.rigid "e1", .solved "y" (.evar "e2"),
    .solved "x" (.arr (.evar "e0") (.evar "e2")), .unsolved "e2", .solved "e0" .unit], 4, "e", "t"⟩
  have hwf : s.context.isWellFormed = .ok true := by decide
  have hfirst : (subtype s (.evar "x") (.arr .unit (.all "a" (.evar "y")))).outcome =
      .ok (some s₁) := by decide +kernel
  have hsecond : (subtype s₁ (.evar "y") .unit).outcome = .ok (some s') := by
    decide +kernel
  have hrun : s.Reaches s' :=
    .query _ _ (by decide) (by decide) hfirst
      (.query _ _ (by decide) (by decide) hsecond (.refl s'))
  exact ⟨hwf, hrun, Reaches.extends_context hwf hrun⟩

end Session

/-! ## Types that were applied before -/

/-- A type that is in scope before a query is in scope after it. If the context was applied to it
before, then applying the new context to the result is the same as applying it to the type itself,
up to bound names, and the very same for a monotype.

**Proof sketch.** The context has been extended, so that what was in scope still is, and resolving a
type is the same before and after an application of the old context (`Extends.alphaEq_apply`). For
monotypes this is equality, as they bind no names. -/
theorem subtype_keeps_applied {s s' : Session} {A B T : Ty} (h : s.context.isWellFormed = .ok true)
    (hA : s.context.isWellFormedType A = .ok true) (hB : s.context.isWellFormedType B = .ok true)
    (hT : s.context.isWellFormedType T = .ok true)
    (hrun : (subtype s A B).outcome = .ok (some s')) :
    s'.context.isWellFormedType T = .ok true ∧
      ∃ T₀ T₁ T₂, s.context.apply T = .ok T₀ ∧ s'.context.apply T₀ = .ok T₁ ∧
        s'.context.apply T = .ok T₂ ∧ T₁.AlphaEq T₂ ∧ (T.isMono → T₁ = T₂) := by
  have hpos := Session.WellPosed.of_checks h hA hB
  have hgrows := (Derivation.of_subtype hpos hrun).grows
  have hwf := hpos.wellFormed
  have hwf' := hgrows.wellFormed
  have hscope := (Context.isWellFormedType_eq_true_iff hwf.solvedOnce).mp hT
  refine ⟨(Context.isWellFormedType_eq_true_iff hwf'.solvedOnce).mpr
    (hgrows.extension.scopes hscope), ?_⟩
  obtain ⟨T₀, hT₀, -⟩ := hwf.exists_apply T
  obtain ⟨T₁, hT₁, -⟩ := hwf'.exists_apply T₀
  obtain ⟨T₂, hT₂, -⟩ := hwf'.exists_apply T
  have hsame := hgrows.extension.alphaEq_apply hwf hwf' hT₀ hT₁ hT₂
  refine ⟨T₀, T₁, T₂, hT₀, hT₁, hT₂, hsame, fun hmono => ?_⟩
  refine Ty.eq_of_alphaEq_of_isMono hsame ?_
  rw [hwf'.isMono_apply hT₁, hwf.isMono_apply hT₀, hmono]

/-- The binder of the type is renamed before the query, since the solution of `^z` mentions its
name. The query solves `^x` to a variable that has the new name, so that the binder is renamed once
more. -/
theorem subtype_keeps_applied_primed :
    let s : Session :=
      ⟨[.unsolved "x", .solved "z" (.var "a"), .rigid "a'", .rigid "a"], 0, "e", "t"⟩
    let s' : Session :=
      ⟨[.solved "x" (.var "a'"), .solved "z" (.var "a"), .rigid "a'", .rigid "a"], 0, "e", "t"⟩
    let T : Ty := .all "a" (.arr (.evar "z") (.arr (.evar "x") (.var "a")))
    let T₀ : Ty := .all "a'" (.arr (.var "a") (.arr (.evar "x") (.var "a'")))
    (subtype s (.evar "x") (.var "a'")).outcome = .ok (some s') ∧
      s'.context.isWellFormedType T = .ok true ∧ s.context.apply T = .ok T₀ ∧
      ∃ T₁ T₂, s'.context.apply T₀ = .ok T₁ ∧ s'.context.apply T = .ok T₂ ∧ T₁.AlphaEq T₂ ∧
        (T.isMono → T₁ = T₂) := by
  intro s s' T T₀
  have hrun : (subtype s (.evar "x") (.var "a'")).outcome = .ok (some s') := by decide +kernel
  have happly : s.context.apply T = .ok T₀ := by decide +kernel
  obtain ⟨hscope, R, T₁, T₂, hR, hT₁, hT₂, hsame⟩ :=
    subtype_keeps_applied (s := s) (T := T) (by decide) (by decide) (by decide) (by decide) hrun
  obtain rfl : T₀ = R := Except.ok.inj (happly.symm.trans hR)
  exact ⟨hrun, hscope, happly, T₁, T₂, hT₁, hT₂, hsame⟩

end HigherRank
