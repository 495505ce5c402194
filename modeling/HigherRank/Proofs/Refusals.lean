import HigherRank.Proofs.Safety
import HigherRank.Report

set_option autoImplicit false
set_option relaxedAutoImplicit false

/-!
# Why a query fails

A query fails because of one judgment, which is the last one that is asked for, and which is refused
at once. So what is reported is about this judgment. Few failures can happen: an existential is
never solved to a quantified type, since quantifiers are opened first, and nothing but a rigid
variable can escape from its scope, since an existential that is declared later is solved instead.

## Main definitions

* `HigherRank.EndsRefused` — what is recorded ends with a query that is refused at once.
* `HigherRank.JudgmentReport.Arises` — the reports of the failures that can happen.

## Main results

* `HigherRank.Transcript.endsRefused` — a run that fails ends with the query that is refused.
* `HigherRank.check_reports` — the failures of a query.
* `HigherRank.check_reports_query` — the types that are reported, and their order.
-/

namespace HigherRank

/-! ## The query that is refused -/

/-- What is recorded last is a query about types in scope that is refused at once. -/
def EndsRefused (events : List Event) (e : SubtypingError) : Prop :=
  ∃ earlier t C D, events = earlier ++ [.query C D t.context] ∧ t.WellPosed C D ∧
    Session.Refuses t C D e

/-- What is recorded before does not matter. -/
private lemma EndsRefused.prepend {events : List Event} {e : SubtypingError}
    (h : EndsRefused events e) (es : List Event) : EndsRefused (es ++ events) e := by
  obtain ⟨earlier, t, C, D, rfl, hpos, hrefuses⟩ := h
  exact ⟨es ++ earlier, t, C, D, (List.append_assoc ..).symm, hpos, hrefuses⟩

/-- A run that fails ends with the query that is refused.

**Proof sketch.** Induction on the transcript. A rule fails if one of its premises does, and what it
records of that premise comes last, since no rule goes on after a failure. -/
theorem Transcript.endsRefused {s : Session} {A B : Ty} {r : Traced Session} {e : SubtypingError}
    (h : Transcript s A B r) (hr : r.outcome = .error (.judgment e)) : EndsRefused r.events e := by
  induction h with
  | exhausted => simp at hr
  | same | allRight | allLeft | solve => contradiction
  | @refused s A B _ h hrefuses =>
    obtain rfl : _ = e := by simpa using hr
    exact ⟨[], s, A, B, rfl, h, hrefuses⟩
  | @arrFailed s A₁ A₂ B₁ B₂ _ _ _ _ he ih =>
    exact (ih (he.trans hr)).prepend [.query (.arr A₁ A₂) (.arr B₁ B₂) s.context]
  | @arr s _ A₁ A₂ B₁ B₂ _ _ r _ _ _ _ _ _ _ _ ih =>
    exact (ih hr).prepend (.query (.arr A₁ A₂) (.arr B₁ B₂) s.context :: r.events)
  | @allRightFailed s A B b _ _ _ _ he ih =>
    exact (ih (he.trans hr)).prepend [.query A (.all b B) s.context]
  | @allLeftFailed s A B a _ _ _ _ _ he ih =>
    exact (ih (he.trans hr)).prepend [.query (.all a A) B s.context]
  | @solved s A B _ _ _ _ _ _ _ _ ih => exact (ih hr).prepend [.query A B s.context]
  | @articulateLeft s x B₁ B₂ _ _ _ _ _ _ _ ih =>
    exact (ih hr).prepend [.query (.evar x) (.arr B₁ B₂) s.context, .articulated x s.newArrow]
  | @articulateRight s x A₁ A₂ _ _ _ _ _ _ _ ih =>
    exact (ih hr).prepend [.query (.arr A₁ A₂) (.evar x) s.context, .articulated x s.newArrow]

/-! ## Reports -/

/-- The reports of the failures that can happen, where `Γ` is the context of the judgment that is
refused. -/
inductive JudgmentReport.Arises (Γ : Context) : JudgmentReport → Prop where
  /-- The two types are neither existentials nor quantified, and no rule is about them. -/
  | mismatch {X Y : Ty} :
    X ≠ Y → ¬ (X.isArr ∧ Y.isArr) → ¬ X.isAll → ¬ Y.isAll → (∀ x, X ≠ .evar x) →
      (∀ y, Y ≠ .evar y) →
      Arises Γ ⟨X.text ++ " cannot be a subtype of " ++ Y.text, none, some (X, Y)⟩
  /-- The existential occurs in the arrow to which it would be solved. -/
  | occurs {x : Name} {T : Ty} :
    T.isArr → x ∈ T.existentials →
      Arises Γ ⟨"^" ++ x ++ " cannot be solved to " ++ T.text ++
        " because it would form a recursive type", some true, some (.evar x, T)⟩
  /-- The rigid variable is not declared to the left of the existential, which has no solution. -/
  | escapes {x a : Name} {left right : Context} :
    Γ = Context.concat (.unsolved x :: left) right → .rigid a ∉ left →
      Arises Γ ⟨a ++ " is not in scope where ^" ++ x ++ " was declared", some false,
        some (.evar x, .var a)⟩

namespace Session.Refuses

variable {s : Session} {A B : Ty} {e : SubtypingError}

/-- A refusal is reported as what it is. -/
private lemma arises (h : s.Refuses A B e) : e.report.Arises s.context := by
  cases h with
  | mismatch hne hA hB harr hxA hyB => exact .mismatch hne harr hA hB hxA hyB
  | occurs _ hT hx _ => exact .occurs hT hx
  | escapes hs ha _ => exact .escapes hs ha

/-- No query is refused because of a quantified solution. -/
private lemma ne_polymorphic (h : s.Refuses A B e) (x : Name) (T : Ty) : e ≠ .polymorphic x T := by
  cases h <;> simp

/-- The two types are reported in order if the second one is no existential. -/
private lemma query_eq (h : s.Refuses A B e) (hB : ∀ y, B ≠ .evar y) : e.query = (A, B) := by
  cases h with
  | mismatch => rfl
  | occurs _ _ _ hAB | escapes _ _ hAB =>
    rcases hAB with ⟨rfl, rfl⟩ | ⟨-, rfl⟩
    · rfl
    · exact absurd rfl (hB _)

/-- The two types are reported in the reverse order if the second one is an existential. -/
private lemma query_eq_swap {y : Name} (h : s.Refuses A (.evar y) e) :
    e.query = (.evar y, A) ∧ A ≠ .evar y := by
  cases h with
  | mismatch _ _ _ _ _ hyB => exact absurd rfl (hyB y)
  | occurs _ hT _ hAB =>
    rcases hAB with ⟨-, rfl⟩ | ⟨rfl, hB⟩
    · contradiction
    · obtain rfl : y = _ := by simpa using hB
      exact ⟨rfl, by rintro rfl; contradiction⟩
  | escapes _ _ hAB =>
    rcases hAB with ⟨-, hB⟩ | ⟨rfl, hB⟩
    · contradiction
    · obtain rfl : y = _ := by simpa using hB
      exact ⟨rfl, by simp⟩

end Session.Refuses

/-! ## Queries -/

section Query

variable {s : Session} {A B : Ty} {e : SubtypingError}

/-- A query that fails ends with the query that is refused. -/
private lemma Session.WellPosed.endsRefused_check (h : s.WellPosed A B)
    (hrun : (check s A B).outcome = .error (.judgment e)) :
    EndsRefused (check s A B).events e :=
  (Transcript.of_judge h _).endsRefused hrun

/-- What the failure of a query about types in scope can be. It is always a judgment that does not
hold, namely the last one that was asked for: two types that no rule relates and that are neither
existentials nor quantified, an existential and an arrow in which it occurs, or an existential and a
rigid variable that is declared later. It is never that a solution would be polymorphic. -/
theorem check_reports {f : Failure} (h : s.context.isWellFormed = .ok true)
    (hA : s.context.isWellFormedType A = .ok true) (hB : s.context.isWellFormedType B = .ok true)
    (hrun : (check s A B).outcome = .error f) :
    ∃ e earlier C D Γ, f = .judgment e ∧ (∀ x T, e ≠ .polymorphic x T) ∧
      (check s A B).events = earlier ++ [.query C D Γ] ∧ e.report.Arises Γ := by
  have hpos := Session.WellPosed.of_checks h hA hB
  rcases hpos.outcome_check with ⟨s', hok⟩ | ⟨e, herr⟩
  · simp [hok] at hrun
  · obtain rfl : f = .judgment e := by simpa [herr, eq_comm] using hrun
    obtain ⟨earlier, t, C, D, hevents, -, hrefuses⟩ := hpos.endsRefused_check herr
    exact ⟨e, earlier, C, D, t.context, rfl, hrefuses.ne_polymorphic, hevents, hrefuses.arises⟩

/-- The quantifier is opened before the existential is looked at, so that its variable would escape,
and not the quantified type be the solution. -/
theorem check_reports_escape :
    let s : Session := ⟨[.unsolved "x"], 0, "e", "t"⟩
    let B : Ty := .all "a" (.arr (.var "a") (.var "a"))
    let f : Failure := .judgment (.escapes "e1" (.var "t0"))
    (check s (.evar "x") B).outcome = .error f ∧
      ∃ e earlier C D Γ, f = .judgment e ∧ (∀ x T, e ≠ .polymorphic x T) ∧
        (check s (.evar "x") B).events = earlier ++ [.query C D Γ] ∧ e.report.Arises Γ := by
  intro s B f
  have hrun : (check s (.evar "x") B).outcome = .error f := by decide +kernel
  exact ⟨hrun, check_reports (by decide) (by decide) (by decide) hrun⟩

/-- The types that are reported are those of the last judgment that was asked for. They are in
order, the subtype first, exactly if the supertype is no existential. An existential that is the
supertype is reported first nevertheless. -/
theorem check_reports_query (h : s.context.isWellFormed = .ok true)
    (hA : s.context.isWellFormedType A = .ok true) (hB : s.context.isWellFormedType B = .ok true)
    (hrun : (check s A B).outcome = .error (.judgment e)) :
    ∃ earlier C D Γ, (check s A B).events = earlier ++ [.query C D Γ] ∧
      ((∀ y, D ≠ .evar y) → e.report.query = some (C, D)) ∧
      ∀ y, D = .evar y → e.report.query = some (D, C) ∧ C ≠ D := by
  have hpos := Session.WellPosed.of_checks h hA hB
  obtain ⟨earlier, t, C, D, hevents, -, hrefuses⟩ := hpos.endsRefused_check hrun
  refine ⟨earlier, C, D, t.context, hevents, fun hD => congrArg some (hrefuses.query_eq hD), ?_⟩
  rintro y rfl
  obtain ⟨hquery, hne⟩ := hrefuses.query_eq_swap
  exact ⟨congrArg some hquery, hne⟩

/-- The domains are compared the other way round, so that the existential is the supertype. -/
theorem check_reports_query_domain :
    let s : Session := ⟨[.rigid "b", .unsolved "x"], 0, "e", "t"⟩
    let A : Ty := .arr (.evar "x") .unit
    let B : Ty := .arr (.var "b") .unit
    let e : SubtypingError := .escapes "x" (.var "b")
    (check s A B).outcome = .error (.judgment e) ∧
      (check s A B).events = [.query A B s.context, .query (.var "b") (.evar "x") s.context] ∧
      ∃ earlier C D Γ, (check s A B).events = earlier ++ [.query C D Γ] ∧
        ((∀ y, D ≠ .evar y) → e.report.query = some (C, D)) ∧
        ∀ y, D = .evar y → e.report.query = some (D, C) ∧ C ≠ D := by
  intro s A B e
  have hrun : (check s A B).outcome = .error (.judgment e) := by decide +kernel
  exact ⟨hrun, by decide +kernel, check_reports_query (by decide) (by decide) (by decide) hrun⟩

/-- The types of the last judgment are not always reported in order: `b` is no subtype of `^x`,
which is reported of `^x` and `b`. -/
theorem check_reports_query_reversed :
    ¬ ∀ (s : Session) (A B : Ty) (e : SubtypingError), s.context.isWellFormed = .ok true →
      s.context.isWellFormedType A = .ok true → s.context.isWellFormedType B = .ok true →
      (check s A B).outcome = .error (.judgment e) →
      ∃ earlier C D Γ, (check s A B).events = earlier ++ [.query C D Γ] ∧
        e.report.query = some (C, D) := by
  intro hall
  let s : Session := ⟨[.rigid "b", .unsolved "x"], 0, "e", "t"⟩
  have hevents : (check s (.var "b") (.evar "x")).events =
      [.query (.var "b") (.evar "x") s.context] := by decide +kernel
  have hrun : (check s (.var "b") (.evar "x")).outcome =
      .error (.judgment (.escapes "x" (.var "b"))) := by decide +kernel
  obtain ⟨earlier, C, D, Γ, hlast, hquery⟩ :=
    hall s (.var "b") (.evar "x") _ (by decide) (by decide) (by decide) hrun
  rw [hevents] at hlast
  obtain ⟨rfl, rfl⟩ : C = .var "b" ∧ D = .evar "x" := by
    cases earlier <;> simp_all
  exact absurd hquery (by decide)

end Query

end HigherRank
