import HigherRank.Proofs.Soundness
import HigherRank.Proofs.Termination
import HigherRank.Proofs.Valuation

set_option autoImplicit false
set_option relaxedAutoImplicit false

/-!
# Completeness

If monotypes can be put for the existentials without a solution so that one type becomes a
declarative subtype of the other, then the query is answered with a session, and nothing has been
decided that excludes these monotypes: they are what the existentials stand for under the new
context, for some monotypes for the existentials that still have no solution.

## Main definitions

* `HigherRank.Context.rigidPart` — the rigid variables of a context.
* `HigherRank.Session.Answers` — runs that are not refused, and that exclude nothing.

## Main results

* `HigherRank.Declarative.exists_instance` — inversion for a quantifier on the left.
* `HigherRank.answers_judge` — a query that holds under a valuation is answered.
* `HigherRank.subtype_complete` — queries are complete, and their answers are principal.

## Implementation notes

Runs that reach the bound on their depth are left open until the end, where they do not occur. In
this way the argument follows the rules alone.
-/

namespace HigherRank

open Context (Extends WellFormed)

/-! ## Rigid variables -/

/-- Whether the entry declares a rigid variable. -/
def Entry.isRigid : Entry → Bool
  | .rigid _ => true
  | _ => false

/-- The rigid variables of a context, as a context. -/
def Context.rigidPart (Γ : Context) : Context :=
  Γ.filter Entry.isRigid

section RigidPart

variable {Γ Δ : Context} {a : Name} {T : Ty}

/-- The rigid part has all rigid variables of the context. -/
lemma Context.rigid_mem_rigidPart : .rigid a ∈ Γ.rigidPart ↔ .rigid a ∈ Γ := by
  simp [rigidPart, Entry.isRigid]

/-- The rigid part declares no name that the context does not. -/
private lemma Context.not_declares_rigidPart (h : ¬ Γ.declares a) : ¬ Γ.rigidPart.declares a := by
  intro ha
  obtain ⟨m, hm, hma⟩ := List.any_eq_true.mp ha
  exact h (List.any_eq_true.mpr ⟨m, (List.mem_filter.mp hm).1, hma⟩)

/-- Among rigid variables there are no existentials in scope. -/
private lemma Context.Scopes.existentials_eq_nil (h : Γ.rigidPart.Scopes T) :
    T.existentials = [] := by
  refine List.eq_nil_iff_forall_not_mem.mpr fun x hx => ?_
  rcases h.existential x hx with hx | ⟨A, hx⟩
  · simp [rigidPart, Entry.isRigid] at hx
  · simp [rigidPart, Entry.isRigid] at hx

/-- Solving existentials does not change the rigid variables. -/
lemma Context.Extends.rigidPart_eq {new : Name → Prop} (h : Extends new Γ Δ) :
    Δ.rigidPart = Γ.rigidPart := by
  unfold rigidPart
  induction h with
  | nil => rfl
  | keep m _ ih => rw [List.filter_cons, List.filter_cons, ih]
  | @solve Γ Δ x A block hblock _ ih =>
    have hempty : block.filter Entry.isRigid = [] := by
      refine List.filter_eq_nil_iff.mpr fun m hm => ?_
      have hex := hblock m hm
      cases m <;> simp_all [Entry.IsExistential, Entry.isRigid]
    have hsolved : ¬ (Entry.solved x A).isRigid := by simp [Entry.isRigid]
    have hunsolved : ¬ (Entry.unsolved x).isRigid := by simp [Entry.isRigid]
    rw [List.filter_cons_of_neg hsolved, List.filter_cons_of_neg hunsolved, Context.concat,
      List.filter_append, hempty, List.nil_append, ih]

end RigidPart

/-! ## Inversion of declarative subtyping -/

namespace Declarative

variable {Γ : Context} {A B A₁ A₂ B₁ B₂ : Nameless}

/-- If a quantified type is below a type that is not quantified, then one of its instances is. -/
theorem exists_instance (h : Declarative Γ (.all A) B) (hB : ∀ C, B ≠ .all C) :
    ∃ T : Ty, T.isMono ∧ Γ.Scopes T ∧ Declarative Γ (A.opened T.nameless) B := by
  cases h with
  | allRight => exact absurd rfl (hB _)
  | allLeft T hT hscope h => exact ⟨T, hT, hscope, h⟩

/-- A monotype below an arrow is an arrow. -/
private lemma exists_arr_of_isMono_left (h : Declarative Γ A (.arr B₁ B₂)) (hA : A.isMono) :
    ∃ A₁ A₂, A = .arr A₁ A₂ := by
  cases h with
  | arr => exact ⟨_, _, rfl⟩
  | allLeft => simp [Nameless.isMono] at hA

/-- A monotype above an arrow is an arrow. -/
private lemma exists_arr_of_isMono_right (h : Declarative Γ (.arr A₁ A₂) B) (hB : B.isMono) :
    ∃ B₁ B₂, B = .arr B₁ B₂ := by
  cases h with
  | arr => exact ⟨_, _, rfl⟩
  | allRight => simp [Nameless.isMono] at hB

end Declarative

/-! ## Answers -/

namespace Session

/-- The run is not refused: unless its bound is reached, it ends in a session that is fitted by a
valuation that has not changed for the existentials of the first session. -/
def Answers (s : Session) (θ : Valuation) (r : Traced Session) : Prop :=
  r.outcome = .error .exhausted ∨
    ∃ (s' : Session) (θ' : Valuation),
      r.outcome = .ok s' ∧ θ'.Fits s'.context ∧ θ'.Agrees θ s.context

variable {s s₁ : Session} {θ θ₁ : Valuation} {r r' : Traced Session}

/-- Whether a run is refused is a matter of its outcome. -/
private lemma Answers.congr (h : s.Answers θ r) (hr : r'.outcome = r.outcome) : s.Answers θ r' := by
  rwa [Answers, hr]

/-- What is answered from a session that has grown is answered from the first one, if the
valuation has not changed for its existentials. -/
private lemma Answers.of_grows (h : s₁.Answers θ₁ r) (hgrows : s.Grows s₁)
    (hagrees : θ₁.Agrees θ s.context) : s.Answers θ r := by
  refine h.imp_right fun ⟨s', θ', hr, hfits, hθ'⟩ => ⟨s', θ', hr, hfits, fun x hx => ?_⟩
  rw [hθ' x (hgrows.extension.existential hx), hagrees x hx]

end Session

/-! ## Answers of the rules -/

section Rules

variable {n : Nat} {s : Session} {θ : Valuation} {A B A₁ A₂ B₁ B₂ : Ty} {x : Name}
  {left right : Context}

/-- Two arrows: the codomains are compared under the valuation that the domains have left. -/
private lemma answers_judge_arr (h : s.WellPosed (.arr A₁ A₂) (.arr B₁ B₂))
    (hdom : s.Answers θ (judge n s B₁ A₁))
    (hcod : ∀ s₁ θ₁ A₂' B₂', s.Grows s₁ → θ₁.Fits s₁.context → θ₁.Agrees θ s.context →
      s₁.context.apply A₂ = .ok A₂' → s₁.context.apply B₂ = .ok B₂' → s₁.WellPosed A₂' B₂' →
      s₁.Answers θ₁ (judge n s₁ A₂' B₂')) :
    s.Answers θ (judge (n + 1) s (.arr A₁ A₂) (.arr B₁ B₂)) := by
  rcases hdom with hexhausted | ⟨s₁, θ₁, h₁, hfits, hagrees⟩
  · exact .inl (outcome_judge_arr_of_error hexhausted)
  · have hgrows := (Derivation.of_judge h.domains h₁).grows
    obtain ⟨A₂', hA, -⟩ := hgrows.wellFormed.exists_apply A₂
    obtain ⟨B₂', hB, -⟩ := hgrows.wellFormed.exists_apply B₂
    have hpos := (h.codomains.grows hgrows).apply hA hB
    exact ((hcod s₁ θ₁ A₂' B₂' hgrows hfits hagrees hA hB hpos).of_grows hgrows hagrees).congr
      (outcome_judge_arr_of_ok h₁ hA hB)

/-- A quantifier on the right: closing its scope excludes nothing. -/
private lemma answers_judge_allRight {b : Name} (h : s.WellPosed A (.all b B))
    (hbody : s.openRight.Answers θ (judge n s.openRight A (B.subst b (.var s.rightName)))) :
    s.Answers θ (judge (n + 1) s A (.all b B)) := by
  rw [Session.Answers, outcome_judge_allRight]
  rcases hbody with hexhausted | ⟨s₁, θ₁, h₁, hfits, hagrees⟩
  · rw [hexhausted]
    exact .inl rfl
  · obtain ⟨Δ, hΔ, hclose⟩ := (Derivation.of_judge h.openRight h₁).grows.exists_closeRight
    rw [hΔ] at hfits
    rw [h₁]
    exact .inr ⟨_, θ₁, hclose, hfits.of_cons, fun x hx => hagrees x (hx.cons _)⟩

/-- A quantifier on the left: closing its scope excludes nothing. -/
private lemma answers_judge_allLeft {a : Name} (h : s.WellPosed (.all a A) B) (hB : ¬ B.isAll)
    (hbody : s.openLeft.Answers θ (judge n s.openLeft (A.subst a (.evar s.leftName)) B)) :
    s.Answers θ (judge (n + 1) s (.all a A) B) := by
  rw [Session.Answers, outcome_judge_allLeft n s a A hB]
  rcases hbody with hexhausted | ⟨s₁, θ₁, h₁, hfits, hagrees⟩
  · rw [hexhausted]
    exact .inl rfl
  · obtain ⟨Δ, block, hΔ, hclose⟩ := (Derivation.of_judge h.openLeft h₁).grows.exists_closeLeft
    rw [hΔ] at hfits
    rw [h₁]
    exact .inr ⟨_, θ₁, hclose, hfits.of_concat.of_cons, fun x hx => hagrees x ((hx.cons _).cons _)⟩

/-- An existential is solved to a type that it is under the valuation. In particular the type is no
variable that is declared later. -/
private lemma answers_solveTo {T : Ty} (h : s.context.WellFormed)
    (hs : s.context = Context.concat (.unsolved x :: left) right) (hT : T.isAtom)
    (hne : T ≠ .evar x) (hsT : ¬ s.context.HasSolution T) (hscope : s.context.Scopes T)
    (hfits : θ.Fits s.context) (hx : θ.value x = θ.type T) : s.Answers θ (s.solveTo x T) := by
  rcases outcome_solveTo h hs hT hne hsT hscope with
    ⟨-, hok⟩ | ⟨y, mid, right', rfl, rfl, hok⟩ | ⟨a, rfl, ha, -⟩
  · exact .inr ⟨_, θ, hok, hfits.solvedAt hs hx, .refl θ _⟩
  · exact .inr ⟨_, θ, hok, hfits.solvedAt (Context.slot_of_right hs) hx.symm, .refl θ _⟩
  · rw [hs] at hfits
    refine absurd (hfits.holds a ?_) ha
    simp [hx, Nameless.frees]

/-- An existential does not occur in an arrow that has no more arrows than the existential, so that
the occurs check passes. -/
private lemma not_mem_of_arrows_le (h : (θ.type (.arr A₁ A₂)).arrows ≤ (θ.value x).arrows) :
    x ∉ (Ty.arr A₁ A₂).existentials := by
  intro hx
  rw [← Ty.existentials_nameless] at hx
  have hlt : (θ.value x).arrows < (θ.type (.arr A₁ A₂)).arrows :=
    Nameless.arrows_lt_fillExistentials hx nofun
  omega

/-- Apart from quantified types and existentials, related types are equal or two arrows. -/
private lemma eq_or_isArr_of_declarative {Γ : Context} (h : Declarative Γ (θ.type A) (θ.type B))
    (hA : ¬ A.isAll) (hB : ¬ B.isAll) (hxA : ∀ x, A ≠ .evar x) (hyB : ∀ y, B ≠ .evar y) :
    A = B ∨ (A.isArr ∧ B.isArr) := by
  cases A with
  | all => simp [Ty.isAll] at hA
  | evar x => exact absurd rfl (hxA x)
  | unit | var | arr =>
    cases B with
    | all => simp [Ty.isAll] at hB
    | evar y => exact absurd rfl (hyB y)
    | unit | var | arr => cases h <;> simp [Ty.isArr]

end Rules

/-! ## Completeness of the rules -/

/-- A query that holds under a valuation that fits is answered, and the answer does not exclude
the valuation.

**Proof sketch.** Induction on the depth, along the rule that applies. A quantifier on the right is
opened with a new variable, one on the left with an instance that the declarative derivation gives.
An existential that is compared with an arrow is an arrow under the valuation, and its two parts are
the monotypes of the new existentials. -/
theorem answers_judge {n : Nat} {s : Session} {A B : Ty} {θ : Valuation} (h : s.WellPosed A B)
    (hfits : θ.Fits s.context)
    (hsub : Declarative s.context.rigidPart (θ.type A) (θ.type B)) :
    s.Answers θ (judge n s A B) := by
  induction n generalizing s A B θ with
  | zero => exact .inl rfl
  | succ n ih =>
    have hwf := h.wellFormed
    cases h.rule with
    | arr A₁ A₂ B₁ B₂ =>
      cases hsub with
      | arr hdom hcod =>
        refine answers_judge_arr h (ih h.domains hfits hdom) ?_
        intro s₁ θ₁ A₂' B₂' hgrows hfits₁ hagrees hA hB hpos
        refine ih hpos hfits₁ ?_
        rw [hgrows.extension.rigidPart_eq, hfits₁.type_apply hgrows.wellFormed hA,
          hfits₁.type_apply hgrows.wellFormed hB, hagrees.type h.codomains.left,
          hagrees.type h.codomains.right]
        exact hcod
    | allRight A b B =>
      have hname : ¬ s.context.declares s.rightName := s.unused_rightName.not_declares
      refine answers_judge_allRight h (ih h.openRight hfits.openRight ?_)
      rw [θ.type_subst, Valuation.type_var]
      refine hsub.opened_of_all (fun hmem => hname ?_) (Context.not_declares_rigidPart hname)
      exact Context.declares_iff.mpr (.inl (hfits.rigid_of_mem_frees hwf h.left hmem))
    | allLeft a A hB =>
      obtain ⟨T, hT, hscope, hinst⟩ := hsub.exists_instance (θ.type_ne_all hB)
      have hground : T.nameless.existentials = [] := by
        rw [Ty.existentials_nameless, hscope.existentials_eq_nil]
      have hfree : ∀ c ∈ T.nameless.frees, .rigid c ∈ s.context := fun c hc =>
        Context.rigid_mem_rigidPart.mp (hscope.rigid c (Ty.mem_frees_nameless.mp hc))
      have hmono := Ty.monotype_nameless hT
      have hname : ¬ s.context.declares s.leftName := s.unused_leftName.not_declares
      have hagrees := Valuation.agrees_update hmono hground (θ := θ) hname
      have hfits' := hfits.openLeft hwf hmono hground hfree
      have hall := hagrees.type h.left
      rw [Valuation.type_all, Valuation.type_all, Nameless.all.injEq] at hall
      refine (answers_judge_allLeft h hB (ih h.openLeft hfits' ?_)).of_grows (.refl hwf) hagrees
      rw [Valuation.type_subst, hall, Valuation.type_evar, Valuation.value_update_self,
        hagrees.type h.right]
      exact hinst
    | same hA => exact .inr ⟨s, θ, outcome_judge_same n s hA, hfits, .refl θ _⟩
    | solved hne hA hB hs =>
      obtain ⟨A', hA', -⟩ := hwf.exists_apply A
      obtain ⟨B', hB', -⟩ := hwf.exists_apply B
      refine (ih (h.apply hA' hB') hfits ?_).congr
        (outcome_judge_solved n hwf hne hA hB hs hA' hB')
      rwa [hfits.type_apply hwf hA', hfits.type_apply hwf hB']
    | @articulateLeft x left right B₁ B₂ hs =>
      have hmono := (θ.monotype x).isMono
      obtain ⟨R₁, R₂, hR⟩ := hsub.exists_arr_of_isMono_left hmono
      obtain ⟨θ', hfits', hagrees, hnew⟩ := hfits.articulated hs hwf hR
      have hgrows := Session.grows_articulated hs hwf
      have hocc := not_mem_of_arrows_le (hsub.arrows_le_of_isMono_left hmono)
      refine ((ih (h.articulateLeft hs) hfits' ?_).of_grows hgrows hagrees).congr
        (outcome_judge_articulateLeft n hwf hs hocc)
      rw [hgrows.extension.rigidPart_eq, hnew, hagrees.type h.right, ← hR]
      exact hsub
    | @articulateRight x left right A₁ A₂ hs =>
      have hmono := (θ.monotype x).isMono
      obtain ⟨R₁, R₂, hR⟩ := hsub.exists_arr_of_isMono_right hmono
      obtain ⟨θ', hfits', hagrees, hnew⟩ := hfits.articulated hs hwf hR
      have hgrows := Session.grows_articulated hs hwf
      have hocc := not_mem_of_arrows_le (hsub.arrows_le_of_isMono_right hmono)
      refine ((ih (h.articulateRight hs) hfits' ?_).of_grows hgrows hagrees).congr
        (outcome_judge_articulateRight n hwf hs hocc)
      rw [hgrows.extension.rigidPart_eq, hnew, hagrees.type h.left, ← hR]
      exact hsub
    | @solveLeft x left right B hs hB hne hsB =>
      have hx := hsub.eq_of_isMono (θ.monotype x).isMono (θ.isMono_type (Ty.isMono_of_isAtom hB))
      exact (answers_solveTo hwf hs hB hne hsB h.right hfits hx).congr
        (outcome_judge_solveLeft n hwf hs hB hne hsB)
    | @solveRight x left right A hs hA hne =>
      have hx := hsub.eq_of_isMono (θ.isMono_type (Ty.isMono_of_isAtom hA)) (θ.monotype x).isMono
      have hsA : ¬ s.context.HasSolution A := Context.not_hasSolution hne
      exact (answers_solveTo hwf hs hA (hne x) hsA h.left hfits hx.symm).congr
        (outcome_judge_solveRight n hwf hs hA hne)
    | mismatch hne hA hB harr hxA hyB =>
      rcases eq_or_isArr_of_declarative hsub hA hB hxA hyB with heq | harrs
      · exact absurd heq hne
      · exact absurd harrs harr

/-! ## Completeness of queries -/

section Query

variable {s : Session} {A B A' B' : Ty} {θ : Name → Ty}

/-- If an assignment of monotypes makes one type a declarative subtype of the other, then the query
is answered with a session, and the assignment factors through its context.

**Proof sketch.** The assignment is a valuation that fits the context and solves the query, so that
the run exhausts its depth, which it does not (`WellPosed.completes`), or it is answered and a
valuation that agrees with the first one fits the new context (`answers_judge`). The latter is the
assignment that is asked for. -/
theorem subtype_complete (h : s.context.isWellFormed = .ok true)
    (hA : s.context.isWellFormedType A = .ok true) (hB : s.context.isWellFormedType B = .ok true)
    (hθ : Assignment s.context θ) (hA' : s.context.apply A = .ok A')
    (hB' : s.context.apply B = .ok B')
    (hsub : Declarative s.context.rigidPart (A'.assigned θ) (B'.assigned θ)) :
    ∃ s' θ', (subtype s A B).outcome = .ok (some s') ∧ Assignment s'.context θ' ∧
      ∀ x ∈ s.context.unsolved, ∃ T, s'.context.apply (.evar x) = .ok T ∧
        (θ x).nameless = T.assigned θ' := by
  have hpos := Session.WellPosed.of_checks h hA hB
  have hwf := hpos.wellFormed
  rw [← hθ.type_valuation hwf hpos.left hA', ← hθ.type_valuation hwf hpos.right hB'] at hsub
  obtain hexhausted | ⟨s', θ', hrun, hfits, hagrees⟩ :=
    answers_judge (n := depthBound s.context A B) hpos (hθ.fits hwf) hsub
  · exact absurd hexhausted hpos.completes
  have hanswer := outcome_subtype_eq_some.mpr hrun
  have hgrows := (Derivation.of_subtype hpos hanswer).grows
  refine ⟨s', θ'.assigns, hanswer, hfits.assignment, fun x hx => ?_⟩
  rw [Context.mem_unsolved] at hx
  obtain ⟨T, hT, -⟩ := hgrows.wellFormed.exists_apply (.evar x)
  refine ⟨T, hT, ?_⟩
  rw [θ'.assigned_assigns, hfits.type_apply hgrows.wellFormed hT, Valuation.type_evar,
    hagrees x (.inl hx), hθ.value_valuation hwf hx]

/-- The identity can be used at the variable that is put for both existentials. It is not decided
that the existentials are this variable, but only that they are the same.

**Proof sketch.** The valuation that gives `b` everywhere fits the context, hence `θ` is an
assignment; that `b → b` is an instance of the identity type is one step of declarative
subtyping. -/
theorem subtype_complete_identity :
    let s : Session := ⟨[.unsolved "y", .unsolved "x", .rigid "b"], 0, "e", "t"⟩
    let s' : Session := ⟨[.solved "y" (.evar "x"), .unsolved "x", .rigid "b"], 1, "e", "t"⟩
    let A : Ty := .all "a" (.arr (.var "a") (.var "a"))
    let B : Ty := .arr (.evar "x") (.evar "y")
    let θ : Name → Ty := fun _ => .var "b"
    (subtype s A B).outcome = .ok (some s') ∧
      ∃ s' θ', (subtype s A B).outcome = .ok (some s') ∧ Assignment s'.context θ' ∧
        ∀ x ∈ s.context.unsolved, ∃ T, s'.context.apply (.evar x) = .ok T ∧
          (θ x).nameless = T.assigned θ' := by
  intro s s' A B θ
  let v : Valuation := ⟨fun _ => .free "b", fun _ => Nameless.monotype_free "b", fun _ => rfl⟩
  have hfits : v.Fits s.context :=
    .cons (.cons (.cons .nil trivial) (by simp [Entry.Holds, v, Nameless.frees]))
      (by simp [Entry.Holds, v, Nameless.frees])
  have hθ : Assignment s.context θ := hfits.assignment
  have hsub : Declarative s.context.rigidPart (A.assigned θ) (B.assigned θ) := by
    refine .allLeft (.var "b") rfl (Context.scopes_var.mpr (by decide)) ?_
    exact .arr (.var _ "b") (.var _ "b")
  exact ⟨by decide +kernel,
    subtype_complete (by decide) (by decide) (by decide) hθ (by decide) (by decide) hsub⟩

end Query

end HigherRank
