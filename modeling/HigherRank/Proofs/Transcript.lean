import HigherRank.Proofs.Growth

set_option autoImplicit false
set_option relaxedAutoImplicit false

/-!
# Transcripts

The runs of the judgment together with what they record, as a relation with a constructor for every
rule and for every way in which a rule can fail. What is proved about the events of a run is proved
by induction on its transcript, in which every query is about types in scope.

## Main definitions

* `HigherRank.Session.Refuses` — why no rule applies to a query, or the one that applies fails by
  itself.
* `HigherRank.Transcript` — the runs, those that fail too.

## Main results

* `HigherRank.Transcript.grows` — the session that is reached has grown from the first one.
* `HigherRank.Transcript.of_judge` — every run about types in scope has a transcript.

## Implementation notes

A derivation says which session is reached; a transcript says in addition what is recorded on the
way, and does not stop short of a failure. An existential that is solved is recorded directly after
the query that is answered so, which is why solving and articulating are rules by themselves and no
parts of others.
-/

namespace HigherRank

namespace Session

/-- The query is refused at once: nothing relates the two types, an existential occurs in the arrow
that is to be its solution, or a variable is out of scope where the existential is declared. -/
inductive Refuses (s : Session) : Ty → Ty → SubtypingError → Prop where
  | mismatch {A B : Ty} :
    A ≠ B → ¬ A.isAll → ¬ B.isAll → ¬ (A.isArr ∧ B.isArr) → (∀ x, A ≠ .evar x) →
      (∀ y, B ≠ .evar y) → Refuses s A B (.mismatch A B)
  | occurs {x : Name} {T A B : Ty} :
    .unsolved x ∈ s.context → T.isArr → x ∈ T.existentials → Faces x T A B →
      Refuses s A B (.occurs x T)
  | escapes {x a : Name} {A B : Ty} {left right : Context} :
    s.context = Context.concat (.unsolved x :: left) right → .rigid a ∉ left →
      Faces x (.var a) A B → Refuses s A B (.escapes x (.var a))

end Session

/-- A run in which two types are compared under a session. -/
inductive Transcript : Session → Ty → Ty → Traced Session → Prop where
  | exhausted {s : Session} {A B : Ty} :
    s.WellPosed A B → Transcript s A B ⟨[], .error .exhausted⟩
  | refused {s : Session} {A B : Ty} {e : SubtypingError} :
    s.WellPosed A B → s.Refuses A B e →
      Transcript s A B ⟨[.query A B s.context], .error (.judgment e)⟩
  | same {s : Session} {A : Ty} :
    s.WellPosed A A → A.isAtom → Transcript s A A ⟨[.query A A s.context], .ok s⟩
  | arrFailed {s : Session} {A₁ A₂ B₁ B₂ : Ty} {r : Traced Session} {e : Failure} :
    s.WellPosed (.arr A₁ A₂) (.arr B₁ B₂) → Transcript s B₁ A₁ r → r.outcome = .error e →
      Transcript s (.arr A₁ A₂) (.arr B₁ B₂)
        ⟨.query (.arr A₁ A₂) (.arr B₁ B₂) s.context :: r.events, .error e⟩
  | arr {s s₁ : Session} {A₁ A₂ B₁ B₂ A₂' B₂' : Ty} {r r₁ : Traced Session} :
    s.WellPosed (.arr A₁ A₂) (.arr B₁ B₂) → Transcript s B₁ A₁ r → r.outcome = .ok s₁ →
      s₁.context.apply A₂ = .ok A₂' → s₁.context.apply B₂ = .ok B₂' →
      Transcript s₁ A₂' B₂' r₁ →
      Transcript s (.arr A₁ A₂) (.arr B₁ B₂)
        ⟨.query (.arr A₁ A₂) (.arr B₁ B₂) s.context :: (r.events ++ r₁.events), r₁.outcome⟩
  | allRightFailed {s : Session} {A B : Ty} {b : Name} {r : Traced Session} {e : Failure} :
    s.WellPosed A (.all b B) → Transcript s.openRight A (B.subst b (.var s.rightName)) r →
      r.outcome = .error e →
      Transcript s A (.all b B) ⟨.query A (.all b B) s.context :: r.events, .error e⟩
  | allRight {s s₁ : Session} {A B : Ty} {b : Name} {r : Traced Session} {Δ : Context} :
    s.WellPosed A (.all b B) → Transcript s.openRight A (B.subst b (.var s.rightName)) r →
      r.outcome = .ok s₁ → s₁.context = .rigid s.rightName :: Δ →
      Transcript s A (.all b B)
        ⟨.query A (.all b B) s.context :: r.events, .ok (s₁.withContext Δ)⟩
  | allLeftFailed {s : Session} {A B : Ty} {a : Name} {r : Traced Session} {e : Failure} :
    s.WellPosed (.all a A) B → ¬ B.isAll →
      Transcript s.openLeft (A.subst a (.evar s.leftName)) B r → r.outcome = .error e →
      Transcript s (.all a A) B ⟨.query (.all a A) B s.context :: r.events, .error e⟩
  | allLeft {s s₁ : Session} {A B : Ty} {a : Name} {r : Traced Session} {Δ block : Context} :
    s.WellPosed (.all a A) B → ¬ B.isAll →
      Transcript s.openLeft (A.subst a (.evar s.leftName)) B r → r.outcome = .ok s₁ →
      s₁.context = Context.concat (.marker s.leftName :: Δ) block →
      Transcript s (.all a A) B
        ⟨.query (.all a A) B s.context :: r.events, .ok (s₁.withContext Δ)⟩
  | solved {s : Session} {A B A' B' : Ty} {r : Traced Session} :
    s.WellPosed A B → s.context.HasSolution A ∨ s.context.HasSolution B →
      s.context.apply A = .ok A' → s.context.apply B = .ok B' → Transcript s A' B' r →
      Transcript s A B ⟨.query A B s.context :: r.events, r.outcome⟩
  | articulateLeft {s : Session} {x : Name} {B₁ B₂ : Ty} {left right : Context}
      {r : Traced Session} :
    s.WellPosed (.evar x) (.arr B₁ B₂) → s.context = Context.concat (.unsolved x :: left) right →
      x ∉ (Ty.arr B₁ B₂).existentials →
      Transcript (s.articulated x left right) s.newArrow (.arr B₁ B₂) r →
      Transcript s (.evar x) (.arr B₁ B₂)
        ⟨.query (.evar x) (.arr B₁ B₂) s.context :: .articulated x s.newArrow :: r.events,
          r.outcome⟩
  | articulateRight {s : Session} {x : Name} {A₁ A₂ : Ty} {left right : Context}
      {r : Traced Session} :
    s.WellPosed (.arr A₁ A₂) (.evar x) → s.context = Context.concat (.unsolved x :: left) right →
      x ∉ (Ty.arr A₁ A₂).existentials →
      Transcript (s.articulated x left right) (.arr A₁ A₂) s.newArrow r →
      Transcript s (.arr A₁ A₂) (.evar x)
        ⟨.query (.arr A₁ A₂) (.evar x) s.context :: .articulated x s.newArrow :: r.events,
          r.outcome⟩
  | solve {s : Session} {x : Name} {T A B : Ty} {left right : Context} :
    s.WellPosed A B → s.context = Context.concat (.unsolved x :: left) right → T.isAtom →
      left.Scopes T → Session.Faces x T A B →
      Transcript s A B
        ⟨[.query A B s.context, .solved x T], .ok (s.solvedAt x T left right)⟩

/-! ## Premises in scope -/

namespace Session.WellPosed

variable {s s₁ : Session} {A B A' B' A₁ A₂ B₁ B₂ : Ty}

/-- Types in scope stay so when the context is applied to them. -/
lemma apply (h : s.WellPosed A B) (hA : s.context.apply A = .ok A')
    (hB : s.context.apply B = .ok B') : s.WellPosed A' B' :=
  ⟨h.wellFormed, h.wellFormed.scopes_apply h.left hA, h.wellFormed.scopes_apply h.right hB⟩

/-- What is in scope stays in scope when the session grows. -/
lemma grows (h : s.WellPosed A B) (hg : s.Grows s₁) : s₁.WellPosed A B :=
  ⟨hg.wellFormed, hg.extension.scopes h.left, hg.extension.scopes h.right⟩

/-- The domains of arrows in scope are in scope. -/
lemma domains (h : s.WellPosed (.arr A₁ A₂) (.arr B₁ B₂)) : s.WellPosed B₁ A₁ :=
  ⟨h.wellFormed, (Context.scopes_arr.mp h.right).1, (Context.scopes_arr.mp h.left).1⟩

/-- The codomains of arrows in scope are in scope. -/
lemma codomains (h : s.WellPosed (.arr A₁ A₂) (.arr B₁ B₂)) : s.WellPosed A₂ B₂ :=
  ⟨h.wellFormed, (Context.scopes_arr.mp h.left).2, (Context.scopes_arr.mp h.right).2⟩

/-- The body of a quantified type on the right is in scope with its new variable. -/
lemma openRight {b : Name} (h : s.WellPosed A (.all b B)) :
    s.openRight.WellPosed A (B.subst b (.var s.rightName)) where
  wellFormed := wellFormed_openRight h.wellFormed
  left := h.left.cons _
  right := h.right.subst (List.subset_cons_self _ _) (Context.scopes_var.mpr (by simp))

/-- The body of a quantified type on the left is in scope with its new existential. -/
lemma openLeft {a : Name} (h : s.WellPosed (.all a A) B) :
    s.openLeft.WellPosed (A.subst a (.evar s.leftName)) B where
  wellFormed := wellFormed_openLeft h.wellFormed
  left := h.left.subst (fun _ hm => by simp [hm]) (Context.scopes_evar.mpr (.inl (by simp)))
  right := (h.right.cons _).cons _

section Slot

variable {x : Name} {left right : Context}

/-- The new arrow on the left is in scope. -/
lemma articulateLeft (h : s.WellPosed (.evar x) (.arr B₁ B₂))
    (hs : s.context = Context.concat (.unsolved x :: left) right) :
    (s.articulated x left right).WellPosed s.newArrow (.arr B₁ B₂) where
  wellFormed := (grows_articulated hs h.wellFormed).wellFormed
  left := Context.scopes_arr.mpr
    ⟨Context.scopes_evar.mpr (.inl (by simp)), Context.scopes_evar.mpr (.inl (by simp))⟩
  right := (grows_articulated hs h.wellFormed).extension.scopes h.right

/-- The new arrow on the right is in scope. -/
lemma articulateRight (h : s.WellPosed (.arr A₁ A₂) (.evar x))
    (hs : s.context = Context.concat (.unsolved x :: left) right) :
    (s.articulated x left right).WellPosed (.arr A₁ A₂) s.newArrow where
  wellFormed := (grows_articulated hs h.wellFormed).wellFormed
  left := (grows_articulated hs h.wellFormed).extension.scopes h.left
  right := Context.scopes_arr.mpr
    ⟨Context.scopes_evar.mpr (.inl (by simp)), Context.scopes_evar.mpr (.inl (by simp))⟩

end Slot

end Session.WellPosed

/-! ## Runs and their transcripts -/

namespace Transcript

variable {s s' : Session} {A B : Ty} {r : Traced Session}

/-- The session that is reached has grown from the first one. -/
theorem grows (h : Transcript s A B r) (hr : r.outcome = .ok s') : s.Grows s' := by
  induction h generalizing s' with
  | exhausted | refused | arrFailed | allRightFailed | allLeftFailed => contradiction
  | same h _ =>
    obtain rfl := Except.ok.inj hr
    exact .refl h.wellFormed
  | arr _ _ h₁ _ _ _ ih₁ ih₂ => exact (ih₁ h₁).trans (ih₂ hr)
  | allRight _ _ h₁ hΔ ih =>
    obtain rfl := Except.ok.inj hr
    exact (ih h₁).closeRight hΔ
  | allLeft _ _ _ h₁ hΔ ih =>
    obtain rfl := Except.ok.inj hr
    exact ((ih h₁).closeLeft hΔ).1
  | solved _ _ _ _ _ ih => exact ih hr
  | articulateLeft h hs _ _ ih | articulateRight h hs _ _ ih =>
    exact (Session.grows_articulated hs h.wellFormed).trans (ih hr)
  | solve h hs hT hscope _ =>
    obtain rfl := Except.ok.inj hr
    exact Session.grows_solvedAt hs h.wellFormed (Ty.isMono_of_isAtom hT) hscope

/-- A query that is answered by solving an existential has a transcript. -/
private lemma of_solveTo {T : Ty} {x : Name} {left right : Context} (h : s.WellPosed A B)
    (hs : s.context = Context.concat (.unsolved x :: left) right) (hT : T.isAtom)
    (hne : T ≠ .evar x) (hsT : ¬ s.context.HasSolution T) (hscope : s.context.Scopes T)
    (hAB : Session.Faces x T A B) :
    Transcript s A B ⟨.query A B s.context :: (s.solveTo x T).events, (s.solveTo x T).outcome⟩ := by
  rcases solveTo_eq h.wellFormed hs hT hne hsT hscope with
    ⟨hleft, hrun⟩ | ⟨y, mid, right', rfl, rfl, hrun⟩ | ⟨a, rfl, ha, hrun⟩ <;> rw [hrun]
  · exact .solve h hs hT hleft hAB
  · -- the other existential is solved, so that the two change their roles
    have hscope : Context.Scopes (Context.concat (.unsolved x :: left) mid) (.evar x) :=
      Context.scopes_evar.mpr (.inl (by simp))
    exact .solve h (Context.slot_of_right hs) rfl hscope hAB.symm
  · exact .refused h (.escapes hs ha hAB)

/-- Every run about types in scope has a transcript.

**Proof sketch.** Induction on the depth. The rule that applies says what the run is, and its
premises are about types in scope again, since the sessions in between have grown. -/
theorem of_judge (h : s.WellPosed A B) (n : Nat) : Transcript s A B (judge n s A B) := by
  induction n generalizing s A B with
  | zero => exact .exhausted h
  | succ n ih =>
    cases h.rule with
    | arr A₁ A₂ B₁ B₂ =>
      have hdom := ih h.domains
      cases h₁ : (judge n s B₁ A₁).outcome with
      | error e =>
        rw [judge_arr_of_error h₁]
        exact .arrFailed h hdom h₁
      | ok s₁ =>
        have hgrows := hdom.grows h₁
        obtain ⟨A₂', hA, -⟩ := hgrows.wellFormed.exists_apply A₂
        obtain ⟨B₂', hB, -⟩ := hgrows.wellFormed.exists_apply B₂
        rw [judge_arr_of_ok h₁ hA hB]
        exact .arr h hdom h₁ hA hB (ih ((h.codomains.grows hgrows).apply hA hB))
    | allRight A b B =>
      rw [judge_allRight]
      have hscope := ih h.openRight
      cases h₁ : (judge n s.openRight A (B.subst b (.var s.rightName))).outcome with
      | error e => exact .allRightFailed h hscope h₁
      | ok s₁ =>
        obtain ⟨Δ, hΔ, hclose⟩ := (hscope.grows h₁).exists_closeRight
        simp only [Except.bind, hclose]
        exact .allRight h hscope h₁ hΔ
    | allLeft a A hB =>
      rw [judge_allLeft _ _ _ _ hB]
      have hscope := ih h.openLeft
      cases h₁ : (judge n s.openLeft (A.subst a (.evar s.leftName)) B).outcome with
      | error e => exact .allLeftFailed h hB hscope h₁
      | ok s₁ =>
        obtain ⟨Δ, block, hΔ, hclose⟩ := (hscope.grows h₁).exists_closeLeft
        simp only [Except.bind, hclose]
        exact .allLeft h hB hscope h₁ hΔ
    | same hA =>
      rw [judge_same n s hA]
      exact .same h hA
    | solved hne hA hB hs =>
      obtain ⟨A', hA', -⟩ := h.wellFormed.exists_apply A
      obtain ⟨B', hB', -⟩ := h.wellFormed.exists_apply B
      rw [judge_solved n h.wellFormed hne hA hB hs hA' hB']
      exact .solved h hs hA' hB' (ih (h.apply hA' hB'))
    | @articulateLeft x left right B₁ B₂ hs =>
      by_cases hx : x ∈ (Ty.arr B₁ B₂).existentials
      · rw [judge_articulateLeft_of_occurs n h.wellFormed hs hx]
        exact .refused h (.occurs (by simp [hs]) rfl hx (.inl ⟨rfl, rfl⟩))
      · rw [judge_articulateLeft n h.wellFormed hs hx]
        exact .articulateLeft h hs hx (ih (h.articulateLeft hs))
    | @articulateRight x left right A₁ A₂ hs =>
      by_cases hx : x ∈ (Ty.arr A₁ A₂).existentials
      · rw [judge_articulateRight_of_occurs n h.wellFormed hs hx]
        exact .refused h (.occurs (by simp [hs]) rfl hx (.inr ⟨rfl, rfl⟩))
      · rw [judge_articulateRight n h.wellFormed hs hx]
        exact .articulateRight h hs hx (ih (h.articulateRight hs))
    | solveLeft hs hB hne hsB =>
      rw [judge_solveLeft n h.wellFormed hs hB hne hsB]
      exact .of_solveTo h hs hB hne hsB h.right (.inl ⟨rfl, rfl⟩)
    | solveRight hs hA hne =>
      rw [judge_solveRight n h.wellFormed hs hA hne]
      exact .of_solveTo h hs hA (hne _) (Context.not_hasSolution hne) h.left (.inr ⟨rfl, rfl⟩)
    | mismatch hne hA hB harr hxA hyB =>
      rw [judge_mismatch n hne hA hB harr hxA hyB]
      exact .refused h (.mismatch hne hA hB harr hxA hyB)

end Transcript

end HigherRank
