import HigherRank.Proofs.Termination

set_option autoImplicit false
set_option relaxedAutoImplicit false

/-!
# Safety

A query about types in scope of a well-formed context never finds its context broken. All queries
that its rules ask in turn are about types in scope of a well-formed context again, a scope is
closed at the entry with which it was opened, and an existential that is to be solved is found in
its slot. So a query is answered with a session or it is refused.

## Main definitions

* `HigherRank.Traced.Safe` — runs that do not find their context broken, and whose queries are about
  types in scope.
* `HigherRank.Context.Intact` — contexts in which every existential is found, as often as it should.

## Main results

* `HigherRank.Transcript.safe`, `HigherRank.safe_judge` — the rules are safe.
* `HigherRank.check_safe` — queries are answered or refused, and nothing else.
-/

namespace HigherRank

open Context (WellFormed)

/-! ## Safe runs -/

/-- The run does not find its context broken, and all types that it compares are in scope of the
well-formed context under which they are compared. -/
structure Traced.Safe {α : Type} (r : Traced α) : Prop where
  unbroken : ∀ v, r.outcome ≠ .error (.violation v)
  inScope : ∀ A B Γ, .query A B Γ ∈ r.events → Γ.WellFormed ∧ Γ.Scopes A ∧ Γ.Scopes B

section Runs

variable {s : Session} {A B : Ty} {r : Traced Session}

/-- A query about types in scope, and what is recorded afterwards. -/
private lemma Session.WellPosed.safe_query {es : List Event} {out : Except Failure Session}
    (h : s.WellPosed A B) (hr : (⟨es, out⟩ : Traced Session).Safe) :
    (⟨.query A B s.context :: es, out⟩ : Traced Session).Safe := by
  refine ⟨hr.unbroken, fun C D Γ hmem => ?_⟩
  rcases List.mem_cons.mp hmem with heq | hmem
  · obtain ⟨rfl, rfl, rfl⟩ : C = A ∧ D = B ∧ Γ = s.context := by simpa using heq
    exact ⟨h.wellFormed, h.left, h.right⟩
  · exact hr.inScope C D Γ hmem

namespace Transcript

/-- A run is safe.

**Proof sketch.** Induction on the transcript. No rule ends in a broken context, since the scopes
that it opens can be closed and the slots that it fills in are there, and it compares types that are
in scope. -/
theorem safe (h : Transcript s A B r) : r.Safe := by
  induction h with
  | exhausted => exact ⟨by simp, by simp⟩
  | refused h _ => exact h.safe_query ⟨by simp, by simp⟩
  | same h _ => exact h.safe_query ⟨by simp, by simp⟩
  | arrFailed h _ he ih | allRightFailed h _ he ih | allLeftFailed h _ _ he ih =>
    exact h.safe_query ⟨fun v => he ▸ ih.unbroken v, ih.inScope⟩
  | arr h _ _ _ _ _ ih ih₁ =>
    refine h.safe_query ⟨ih₁.unbroken, fun C D Γ hmem => ?_⟩
    exact (List.mem_append.mp hmem).elim (ih.inScope C D Γ) (ih₁.inScope C D Γ)
  | allRight h _ _ _ ih => exact h.safe_query ⟨by simp, ih.inScope⟩
  | allLeft h _ _ _ _ ih => exact h.safe_query ⟨by simp, ih.inScope⟩
  | solved h _ _ _ _ ih => exact h.safe_query ih
  | articulateLeft h _ _ _ ih | articulateRight h _ _ _ ih =>
    exact h.safe_query ⟨ih.unbroken, fun C D Γ hmem => ih.inScope C D Γ (by simpa using hmem)⟩
  | solve h _ _ _ _ => exact h.safe_query ⟨by simp, by simp⟩

end Transcript

/-- The rules are safe for types in scope. -/
theorem safe_judge {n : Nat} (h : s.WellPosed A B) : (judge n s A B).Safe :=
  (Transcript.of_judge h n).safe

end Runs

/-! ## Queries -/

/-- Every declared existential either has one solution, which is found, or it has none and is found
in the only slot of its name. -/
def Context.Intact (Γ : Context) : Prop :=
  ∀ x, Γ.Existential x →
    (∃ T, .solved x T ∈ Γ ∧ Γ.lookupSolution x = .ok (some T)) ∨
      Γ.lookupSolution x = .ok none ∧ ∃ left right, Γ = concat (.unsolved x :: left) right ∧
        Γ.excise (.unsolved x) = .ok (left, right)

/-- A well-formed context is intact. -/
private lemma Context.WellFormed.intact {Γ : Context} (h : Γ.WellFormed) : Γ.Intact := by
  intro x hx
  by_cases hs : ∃ T, .solved x T ∈ Γ
  · obtain ⟨T, hT⟩ := hs
    exact .inl ⟨T, hT, lookupSolution_of_mem h.solvedOnce hT⟩
  · obtain ⟨left, right, rfl⟩ := exists_concat_of_mem (hx.resolve_right hs)
    exact .inr ⟨lookupSolution_of_not_mem (not_exists.mp hs), left, right, rfl,
      excise_of_slot rfl (h.not_mem_left rfl)⟩

section Query

variable {s : Session} {A B : Ty}

/-- A scope that is opened for the query is closed at the entry with which it was opened, whatever
has been answered inside of it. -/
structure Session.ClosesScopes (s : Session) (A B : Ty) : Prop where
  right : ∀ (b : Name) (C : Ty) (n : Nat) (s₁ : Session), B = .all b C →
    (judge n s.openRight A (C.subst b (.var s.rightName))).outcome = .ok s₁ →
      ∃ Δ, s₁.context = .rigid s.rightName :: Δ ∧
        s₁.context.truncate (.rigid s.rightName) = .ok Δ
  left : ∀ (a : Name) (C : Ty) (n : Nat) (s₁ : Session), A = .all a C →
    (judge n s.openLeft (C.subst a (.evar s.leftName)) B).outcome = .ok s₁ →
      ∃ Δ block, s₁.context = Context.concat (.marker s.leftName :: Δ) block ∧
        (∀ m ∈ block, m.IsExistential fun _ => True) ∧
        s₁.context.truncate (.marker s.leftName) = .ok Δ

/-- A query about types in scope closes the scopes that it opens. -/
private lemma Session.WellPosed.closesScopes (h : s.WellPosed A B) : s.ClosesScopes A B where
  right := by
    rintro b C n s₁ rfl hrun
    have hgrows := (Derivation.of_judge h.openRight hrun).grows
    obtain ⟨Δ, hΔ, -⟩ := hgrows.exists_closeRight
    have hslot : s₁.context = Context.concat (.rigid s.rightName :: Δ) [] := hΔ
    exact ⟨Δ, hΔ, Context.truncate_of_slot hslot (hgrows.wellFormed.not_mem_left hslot)⟩
  left := by
    rintro a C n s₁ rfl hrun
    have hgrows := (Derivation.of_judge h.openLeft hrun).grows
    obtain ⟨Δ, block, hΔ, -⟩ := hgrows.exists_closeLeft
    exact ⟨Δ, block, hΔ, (hgrows.closeLeft hΔ).2,
      Context.truncate_of_slot hΔ (hgrows.wellFormed.not_mem_left hΔ)⟩

/-- A query about types in scope ends in a session or because the judgment does not hold. -/
lemma Session.WellPosed.outcome_check (h : s.WellPosed A B) :
    (∃ s', (check s A B).outcome = .ok s') ∨
      ∃ e, (check s A B).outcome = .error (.judgment e) := by
  cases hrun : (check s A B).outcome with
  | ok s' => exact .inl ⟨s', rfl⟩
  | error e =>
    cases e with
    | judgment e => exact .inr ⟨e, rfl⟩
    | violation v => exact absurd hrun ((safe_judge h).unbroken v)
    | exhausted => exact absurd hrun h.completes

/-- A query that does not end in a session is answered without one. -/
lemma Session.WellPosed.outcome_subtype_of_error {e : Failure} (h : s.WellPosed A B)
    (hrun : (check s A B).outcome = .error e) : (subtype s A B).outcome = .ok none := by
  rcases h.outcome_check with ⟨s', hok⟩ | ⟨e', herr⟩
  · simp [hok] at hrun
  · simp [subtype, herr]

/-- A query about types in scope is answered without a session or with one. -/
lemma Session.WellPosed.outcome_subtype (h : s.WellPosed A B) :
    (subtype s A B).outcome = .ok none ∨ ∃ s', (subtype s A B).outcome = .ok (some s') := by
  rcases h.outcome_check with ⟨s', hok⟩ | ⟨e, herr⟩
  · exact .inr ⟨s', outcome_subtype_eq_some.mpr hok⟩
  · exact .inl (h.outcome_subtype_of_error herr)

/-- A query about types in scope of a well-formed context is answered or refused: it never finds a
context broken. Every query that its rules ask is about types in scope of a well-formed context,
whose existentials are found as often as they should be, and for every such query the scope of a
quantifier is closed where it was opened. -/
theorem check_safe (h : s.context.isWellFormed = .ok true)
    (hA : s.context.isWellFormedType A = .ok true) (hB : s.context.isWellFormedType B = .ok true) :
    ((∃ s', (check s A B).outcome = .ok s') ∨ ∃ e, (check s A B).outcome = .error (.judgment e)) ∧
      (∀ C D Γ, .query C D Γ ∈ (check s A B).events →
        Γ.isWellFormed = .ok true ∧ Γ.isWellFormedType C = .ok true ∧
          Γ.isWellFormedType D = .ok true ∧ Γ.Intact) ∧
      ∀ (t : Session) (C D : Ty), t.WellPosed C D → t.ClosesScopes C D := by
  have hpos := Session.WellPosed.of_checks h hA hB
  refine ⟨hpos.outcome_check, fun C D Γ hmem => ?_, fun t C D ht => ht.closesScopes⟩
  obtain ⟨hΓ, hC, hD⟩ := (safe_judge hpos).inScope C D Γ hmem
  have hscope {E : Ty} := Context.isWellFormedType_eq_true_iff (A := E) hΓ.solvedOnce
  exact ⟨Context.isWellFormed_eq_true_iff.mpr hΓ, hscope.mpr hC, hscope.mpr hD, hΓ.intact⟩

/-- The variables of the scopes and the existentials have names that look alike. The query is
refused when the codomains are compared, after the domains have solved the existential of a scope
that is still open. -/
theorem check_safe_refused :
    let s : Session := ⟨[.unsolved "x", .rigid "e"], 0, "e", "e"⟩
    let A : Ty := .all "e0" (.arr (.arr (.var "e0") (.var "e")) (.evar "x"))
    let B : Ty := .all "e1" (.arr (.arr (.var "e1") (.var "e")) (.var "e1"))
    (check s A B).outcome = .error (.judgment (.escapes "x" (.var "e0"))) ∧
      ((∃ s', (check s A B).outcome = .ok s') ∨
        ∃ e, (check s A B).outcome = .error (.judgment e)) ∧
      (∀ C D Γ, .query C D Γ ∈ (check s A B).events →
        Γ.isWellFormed = .ok true ∧ Γ.isWellFormedType C = .ok true ∧
          Γ.isWellFormedType D = .ok true ∧ Γ.Intact) ∧
      ∀ (t : Session) (C D : Ty), t.WellPosed C D → t.ClosesScopes C D := by
  intro s A B
  exact ⟨by decide +kernel, check_safe (by decide) (by decide) (by decide)⟩

end Query

end HigherRank
