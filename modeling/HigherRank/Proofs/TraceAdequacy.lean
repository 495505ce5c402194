import HigherRank.Logging.Trace
import HigherRank.Proofs.Inertness
import HigherRank.Proofs.Safety
import HigherRank.Proofs.Transcript
import HigherRank.Report

set_option autoImplicit false
set_option relaxedAutoImplicit false

/-!
# The trace tells what happened

The trace of a query is an account of the solutions that it finds. Each solution is recorded
directly after the query that asked for it, no existential gets two of them, and what is recorded
of an existential of the first context is what the last context says of it.

## Main definitions

* `HigherRank.solutions` — the solutions that are recorded.
* `HigherRank.Session.Open` — the existentials that may still get a solution.
* `HigherRank.Adequate` — a run records what it does.

## Main results

* `HigherRank.Adequate.andThen`, `HigherRank.Adequate.closeScope` — one run after another, and a run
  in a scope.
* `HigherRank.Transcript.adequate` — every run records what it does.
* `HigherRank.subtype_trace` — the trace of a query.

## Implementation notes

That an existential is never solved twice is not a fact about one context, since the context forgets
the existentials of a scope when the scope is closed. The invariant is about what may still get a
solution: the existentials without one, and those whose names have not been given out. This only
shrinks, and a solution takes its existential out of it for good.
-/

namespace HigherRank

/-! ## Recorded solutions -/

/-- The existential that is solved when the event is recorded, and its solution. -/
def Event.solution? : Event → Option (Name × Ty)
  | .articulated x A | .solved x A => some (x, A)
  | .query _ _ _ | .failed _ _ _ => none

/-- The existentials that are solved, in order, and their solutions. -/
def solutions (events : List Event) : List (Name × Ty) :=
  events.filterMap Event.solution?

/-- The solutions of two runs are recorded one after the other. -/
@[simp]
lemma solutions_append (es es' : List Event) :
    solutions (es ++ es') = solutions es ++ solutions es' :=
  List.filterMap_append

/-- A query records no solution. -/
@[simp]
lemma Event.solution?_query (A B : Ty) (Γ : Context) : (query A B Γ).solution? = none :=
  rfl

/-- An existential is recorded with its solution when it is articulated or solved. -/
lemma Event.solution?_eq_some {e : Event} {x : Name} {T : Ty} :
    e.solution? = some (x, T) ↔ e = .articulated x T ∨ e = .solved x T := by
  cases e <;> simp [solution?]

/-- A solution is recorded if its existential was articulated or solved so. -/
private lemma mem_solutions {events : List Event} {x : Name} {T : Ty} :
    (x, T) ∈ solutions events ↔ .articulated x T ∈ events ∨ .solved x T ∈ events := by
  simp [solutions, Event.solution?_eq_some, and_or_left, exists_or]

/-- Every solution is recorded directly after a query under a context in which the existential has
none. -/
def Prompt (events : List Event) : Prop :=
  ∀ before e after x T, events = before ++ e :: after → e = .articulated x T ∨ e = .solved x T →
    ∃ earlier A B Γ, before = earlier ++ [.query A B Γ] ∧ .unsolved x ∈ Γ

namespace Prompt

variable {es es' : List Event} {e : Event} {A B : Ty} {Γ : Context}

/-- If no solutions are recorded, there is nothing to ask. -/
private lemma of_solutions_eq_nil (h : solutions es = []) : Prompt es := by
  rintro before e after x T rfl he
  have hnone := List.filterMap_eq_nil_iff.mp h e (by simp)
  simp [Event.solution?_eq_some.mpr he] at hnone

/-- A query that is answered by a solution. -/
private lemma answered (h : ∀ x T, e = .articulated x T ∨ e = .solved x T → .unsolved x ∈ Γ) :
    Prompt [.query A B Γ, e] := by
  intro before e' after x T hes he'
  rcases before with _ | ⟨q, _ | ⟨q', before⟩⟩
  · -- the first event is the query itself
    obtain ⟨rfl, -⟩ : Event.query A B Γ = e' ∧ [e] = after := by simpa using hes
    simp at he'
  · obtain ⟨rfl, rfl, -⟩ : Event.query A B Γ = q ∧ e = e' ∧ [] = after := by simpa using hes
    exact ⟨[], A, B, Γ, rfl, h x T he'⟩
  · simp at hes

/-- Runs may be put one after another, since no run begins with a solution. -/
private lemma append (h : Prompt es) (h' : Prompt es') : Prompt (es ++ es') := by
  intro before e after x T hes he
  rcases List.append_eq_append_iff.mp hes with ⟨mid, rfl, hmid⟩ | ⟨mid, rfl, hmid⟩
  · obtain ⟨earlier, A, B, Γ, rfl, hx⟩ := h' mid e after x T hmid he
    exact ⟨es ++ earlier, A, B, Γ, by simp, hx⟩
  · cases mid with
    | nil =>
      -- no solution comes first
      obtain ⟨earlier, A, B, Γ, hempty, -⟩ := h' [] e after x T hmid.symm he
      simp at hempty
    | cons e' mid =>
      obtain ⟨rfl, -⟩ : e = e' ∧ after = mid ++ es' := by simpa using hmid
      exact h before e mid x T rfl he

end Prompt

/-! ## Existentials that may still be solved -/

namespace Session

open Context (WellFormed)

variable {s s₀ s₁ s' : Session} {x : Name} {T : Ty}

/-- The existential may still get a solution: it has none, or its name has not been given out. -/
def Open (s : Session) (x : Name) : Prop :=
  .unsolved x ∈ s.context ∨
    ¬ s.context.declares x ∧ ∃ k : Int, s.nextName ≤ k ∧ x = s.existentialStem.numbered k

/-- A name that was given out before a number was reached has a smaller number. -/
private lemma Issued.lt {stem : Name} {next k : Int} (h : s.Issued stem next (stem.numbered k)) :
    k < next := by
  obtain ⟨j, -, hj, hjk⟩ := h
  rwa [Name.numbered_injective stem hjk]

/-- A name that is still to be given out may get a solution. -/
private lemma Open.of_issued {next : Int} (hx : ¬ s.context.declares x)
    (h : s.Issued s.existentialStem next x) : s.Open x := by
  obtain ⟨k, hk, -, rfl⟩ := h
  exact .inr ⟨hx, k, hk, rfl⟩

/-- A declared existential that may get a solution has none. -/
private lemma Open.unsolved (hx : s.Open x) (h : s.context.declares x) : .unsolved x ∈ s.context :=
  hx.resolve_right fun hnew => hnew.1 h

/-- An existential with a solution gets no other one. -/
private lemma not_open_of_solved (h : s.context.WellFormed) (hT : .solved x T ∈ s.context) :
    ¬ s.Open x := by
  intro hx
  have hdecl : s.context.declares x := Context.declares_iff.mpr (.inr (.inr ⟨T, hT⟩))
  exact h.not_solved_of_unsolved (hx.unsolved hdecl) T hT

/-- What may get a solution in a session that has grown might have got it before. -/
private lemma Open.of_grows (hx : s'.Open x) (h : s.Grows s') : s.Open x := by
  rcases hx with hx | ⟨hx, k, hk, rfl⟩
  · have hext := h.extension.not_declared h.wellFormed
    rcases hext.unsolved_of_unsolved hx with hx | ⟨hx, hissued⟩
    · exact .inl hx
    · exact .of_issued hx hissued
  · rw [h.existentialStem] at hx ⊢
    exact .inr ⟨fun hd => hx (h.extension.declares_of_declares hd), k,
      Int.le_trans h.nextName hk, rfl⟩

/-! ### Scopes -/

/-- The second session is the first one in a new scope, with which a new existential may have
been declared. -/
structure Enters (s s₀ : Session) : Prop where
  subset : s.context ⊆ s₀.context
  nextName : s.nextName ≤ s₀.nextName
  existentialStem : s₀.existentialStem = s.existentialStem
  unsolved : ∀ x, .unsolved x ∈ s₀.context →
    .unsolved x ∈ s.context ∨ ¬ s.context.declares x ∧ s.Issued s.existentialStem s₀.nextName x

/-- Opening a quantifier on the right enters a scope. -/
private lemma enters_openRight (s : Session) : s.Enters s.openRight where
  subset := List.subset_cons_self _ _
  nextName := s.nextName_le_openRight
  existentialStem := rfl
  unsolved x hx := .inl (by simpa using hx)

/-- Opening a quantifier on the left enters a scope, with a new existential. -/
private lemma enters_openLeft (s : Session) : s.Enters s.openLeft where
  subset m hm := by simp [hm]
  nextName := s.nextName_le_openLeft
  existentialStem := rfl
  unsolved x hx := by
    rw [context_openLeft] at hx
    rcases List.mem_cons.mp hx with heq | hx
    · obtain rfl : x = s.leftName := by simpa using heq
      exact .inr ⟨s.unused_leftName.not_declares, s.fresh_issued s.existentialStem⟩
    · exact .inl (by simpa using hx)

/-- What may get a solution in a scope might have got it outside. -/
private lemma Open.of_enters (hx : s₀.Open x) (h : s.Enters s₀) : s.Open x := by
  rcases hx with hx | ⟨hx, k, hk, rfl⟩
  · rcases h.unsolved x hx with hx | ⟨hx, hissued⟩
    · exact .inl hx
    · exact .of_issued hx hissued
  · rw [h.existentialStem] at hx ⊢
    exact .inr ⟨fun hd => hx (Context.declares_mono hd h.subset), k,
      Int.le_trans h.nextName hk, rfl⟩

/-- What gets no other solution in a scope gets none after the scope has been closed.

**Proof sketch.** If the scope declares the existential, but what is left of it does not, then it
was new in the scope, so that its number has been passed. -/
private lemma Open.of_closed {m : Entry} {Δ block : Context} (hx : (s₁.withContext Δ).Open x)
    (hx₀ : s₀.Open x) (h : s.Enters s₀) (h₀ : s₀.Grows s₁) (h' : s.Grows (s₁.withContext Δ))
    (hΔ : s₁.context = Context.concat (m :: Δ) block) : s₁.Open x := by
  rcases hx with hx | ⟨hx, k, hk, rfl⟩
  · have hmem : .unsolved x ∈ Δ := hx
    exact .inl (by simp [hΔ, hmem])
  · have hstem : s₀.existentialStem = s.existentialStem := h.existentialStem
    have hle : s₁.nextName ≤ k := hk
    refine .inr ⟨fun hd => ?_, k, hk, rfl⟩
    rw [h'.existentialStem] at hx hx₀ hd
    rcases h₀.extension.declares hd with hd₀ | hissued
    · rcases h.unsolved _ (hx₀.unsolved hd₀) with hu | ⟨-, hissued⟩
      · have hdecl := Context.declares_iff.mpr (.inr (.inl hu))
        exact hx (h'.extension.declares_of_declares hdecl)
      · have := hissued.lt
        have := h₀.nextName
        omega
    · rw [hstem] at hissued
      have := hissued.lt
      omega

end Session

/-! ## Runs that record what they do -/

/-- What a run under a session records is what it does: every solution is recorded directly after
the query that asked for it, no existential gets a solution twice or when it had one, and at the end
the existentials of the session have the solutions that are recorded. -/
structure Adequate (s : Session) (r : Traced Session) : Prop where
  prompt : Prompt r.events
  isOpen : ∀ p ∈ solutions r.events, s.Open p.1
  once : ((solutions r.events).map Prod.fst).Nodup
  settled : ∀ s', r.outcome = .ok s' → ∀ p ∈ solutions r.events, ¬ s'.Open p.1
  stored : ∀ s', r.outcome = .ok s' → ∀ x T, .unsolved x ∈ s.context →
    (.solved x T ∈ s'.context ↔ (x, T) ∈ solutions r.events)

namespace Adequate

variable {s s₀ s₁ s' : Session} {r : Traced Session} {es : List Event} {e : Failure} {A B T : Ty}
  {x : Name}

/-- A run that records no solution and does not change the session. -/
private lemma of_solutions_eq_nil (h : s.context.WellFormed) (hes : solutions r.events = [])
    (hr : ∀ s', r.outcome = .ok s' → s' = s) : Adequate s r where
  prompt := .of_solutions_eq_nil hes
  isOpen := by simp [hes]
  once := by simp [hes]
  settled := by simp [hes]
  stored s' hs' x T hx := by
    obtain rfl := hr s' hs'
    simpa [hes] using h.not_solved_of_unsolved hx T

/-- A query is answered by a solution, and nothing else changes.

**Proof sketch.** The one solution that is recorded is that of `x`, directly after the query. In the
new session `x` has this solution, which is the only one in a well-formed context, and all other
existentials have none, like before. -/
private lemma answered {e : Event} (hg : s.Grows s') (he : e.solution? = some (x, T))
    (hx : .unsolved x ∈ s.context) (hT : .solved x T ∈ s'.context)
    (hrest : ∀ y, y ≠ x → .unsolved y ∈ s.context → .unsolved y ∈ s'.context) :
    Adequate s ⟨[.query A B s.context, e], .ok s'⟩ := by
  have hes : solutions [.query A B s.context, e] = [(x, T)] := by
    simp [solutions, List.filterMap_cons, he]
  constructor
  case prompt =>
    refine .answered fun y U hy => ?_
    obtain ⟨rfl, -⟩ : x = y ∧ T = U := by simpa [he] using Event.solution?_eq_some.mpr hy
    exact hx
  case isOpen =>
    intro p hp
    obtain rfl : p = (x, T) := by simpa [hes] using hp
    exact .inl hx
  case once => simp [hes]
  case settled =>
    rintro _ ⟨⟩
    simpa [hes] using Session.not_open_of_solved hg.wellFormed hT
  case stored =>
    rintro _ ⟨⟩ y U hy
    simp only [hes, List.mem_singleton, Prod.mk.injEq]
    by_cases hyx : y = x
    · subst hyx
      exact ⟨fun hU => ⟨rfl, hg.wellFormed.solution_unique hU hT⟩, fun hU => hU.2 ▸ hT⟩
    · have hnone := hg.wellFormed.not_solved_of_unsolved (hrest y hyx hy) U
      simp [hnone, hyx]

/-- An existential is articulated. -/
private lemma articulate {left right : Context} (h : s.context.WellFormed)
    (hs : s.context = Context.concat (.unsolved x :: left) right) :
    Adequate s
      ⟨[.query A B s.context, .articulated x s.newArrow], .ok (s.articulated x left right)⟩ :=
  .answered (Session.grows_articulated hs h) rfl (by simp [hs]) (by simp)
    fun _ hne hy => Session.unsolved_articulated hs hne hy

/-- One run after another.

**Proof sketch.** What the first run has solved is not open afterwards, and what the second one
solves is open before it; so no existential is solved in both. An existential of the first session
is solved by the first run, and then it keeps its solution, or it is left to the second run. -/
theorem andThen (h : Adequate s ⟨es, .ok s₁⟩) (hg : s.Grows s₁) (h₁ : Adequate s₁ r)
    (hg₁ : ∀ s', r.outcome = .ok s' → s₁.Grows s') :
    Adequate s ⟨es ++ r.events, r.outcome⟩ := by
  have hsettled : ∀ p ∈ solutions es, ¬ s₁.Open p.1 := h.settled s₁ rfl
  constructor
  case prompt => exact h.prompt.append h₁.prompt
  case isOpen =>
    intro p hp
    rw [solutions_append, List.mem_append] at hp
    exact hp.elim (h.isOpen p) fun hp => (h₁.isOpen p hp).of_grows hg
  case once =>
    -- what the first part has solved is not open in the second part
    rw [solutions_append, List.map_append]
    refine h.once.append h₁.once fun x hx hx₁ => ?_
    obtain ⟨p, hp, rfl⟩ := List.mem_map.mp hx
    obtain ⟨p₁, hp₁, heq⟩ := List.mem_map.mp hx₁
    exact hsettled p hp (heq ▸ h₁.isOpen p₁ hp₁)
  case settled =>
    intro s' hs' p hp
    rw [solutions_append, List.mem_append] at hp
    rcases hp with hp | hp
    · exact fun hopen => hsettled p hp (hopen.of_grows (hg₁ s' hs'))
    · exact h₁.settled s' hs' p hp
  case stored =>
    intro s' hs' x T hx
    rw [solutions_append, List.mem_append]
    rcases hg.extension.existential (.inl hx) with hx₁ | ⟨R, hR⟩
    · -- it is for the second part to solve the existential
      have hnot : (x, T) ∉ solutions es := fun hp => hsettled _ hp (.inl hx₁)
      rw [h₁.stored s' hs' x T hx₁]
      simp [hnot]
    · have hnot : (x, T) ∉ solutions r.events :=
        fun hp => Session.not_open_of_solved hg.wellFormed hR (h₁.isOpen _ hp)
      have hR' : .solved x R ∈ s'.context := (hg₁ s' hs').extension.solved_mem hR
      have hkept : .solved x T ∈ s'.context ↔ .solved x T ∈ s₁.context := by
        refine ⟨fun hT => ?_, (hg₁ s' hs').extension.solved_mem⟩
        rwa [(hg₁ s' hs').wellFormed.solution_unique hT hR']
      rw [hkept, h.stored s₁ rfl x T hx]
      simp [hnot]

/-- A query that is answered by another run. -/
private lemma query (h : s.context.WellFormed) (hr : Adequate s r)
    (hg : ∀ s', r.outcome = .ok s' → s.Grows s') :
    Adequate s ⟨.query A B s.context :: r.events, r.outcome⟩ := by
  have hquery : Adequate s ⟨[.query A B s.context], .ok s⟩ :=
    .of_solutions_eq_nil h rfl fun s' hs' => (Except.ok.inj hs').symm
  exact hquery.andThen (.refl h) hr hg

/-- A run that fails in a scope. -/
private lemma failScope (h : Adequate s₀ ⟨es, .error e⟩) (hs : s.Enters s₀) :
    Adequate s ⟨es, .error e⟩ where
  prompt := h.prompt
  isOpen p hp := (h.isOpen p hp).of_enters hs
  once := h.once
  settled _ hs' := by simp at hs'
  stored _ hs' := by simp at hs'

/-- A run in a scope, which is closed at the end.

**Proof sketch.** The record is the same. An existential that might get a solution after the scope
has been closed might have got one within it (`Open.of_closed`), and the existentials from before
the scope stand to the left of the marker, with their solutions. -/
theorem closeScope {m : Entry} {Δ block : Context} (h : Adequate s₀ ⟨es, .ok s₁⟩)
    (hs : s.Enters s₀) (h₀ : s₀.Grows s₁) (h' : s.Grows (s₁.withContext Δ))
    (hΔ : s₁.context = Context.concat (m :: Δ) block) :
    Adequate s ⟨es, .ok (s₁.withContext Δ)⟩ := by
  constructor
  case prompt => exact h.prompt
  case isOpen => exact fun p hp => (h.isOpen p hp).of_enters hs
  case once => exact h.once
  case settled =>
    rintro _ ⟨⟩ p hp hopen
    exact h.settled s₁ rfl p hp (hopen.of_closed (h.isOpen p hp) hs h₀ h' hΔ)
  case stored =>
    rintro _ ⟨⟩ x T hx
    rw [← h.stored s₁ rfl x T (hs.subset hx)]
    have hwf := h₀.wellFormed
    have hdecl : Δ.declares x :=
      h'.extension.declares_of_declares (Context.declares_iff.mpr (.inr (.inl hx)))
    rw [hΔ] at hwf ⊢
    refine ⟨fun hT => ?_, fun hT => hwf.mem_left_of_declares hT (by simp [Entry.declares]) hdecl⟩
    have hmem : .solved x T ∈ Δ := hT
    simp [hmem]

end Adequate

namespace Transcript

variable {s : Session} {A B : Ty} {r : Traced Session}

/-- Every run records what it does.

**Proof sketch.** Induction on the transcript. A run consists of queries that are answered by a
solution or without one, one after another and within scopes, and all of these keep the account. -/
theorem adequate (h : Transcript s A B r) : Adequate s r := by
  induction h with
  | exhausted h => exact .of_solutions_eq_nil h.wellFormed rfl (by simp)
  | refused h _ => exact .of_solutions_eq_nil h.wellFormed rfl (by simp)
  | same h _ =>
    exact .of_solutions_eq_nil h.wellFormed rfl fun s' hs' => (Except.ok.inj hs').symm
  | @arrFailed _ _ _ _ _ r _ h hrun he ih =>
    rw [← he]
    exact ih.query h.wellFormed fun s' => hrun.grows
  | @arr s s₁ _ _ _ _ _ _ r r₁ h hdom h₁ _ _ hcod ih ih₁ =>
    have hgrows := hdom.grows h₁
    have hfirst : Adequate s ⟨r.events, .ok s₁⟩ := h₁ ▸ ih
    exact (hfirst.andThen hgrows ih₁ fun s' => hcod.grows).query h.wellFormed
      fun s' hs' => hgrows.trans (hcod.grows hs')
  | @allRightFailed s _ _ _ r e h _ he ih =>
    have hscope : Adequate s.openRight ⟨r.events, .error e⟩ := he ▸ ih
    exact (hscope.failScope s.enters_openRight).query h.wellFormed (by simp)
  | @allRight s s₁ _ _ _ r Δ h hrun h₁ hΔ ih =>
    have hgrows := (hrun.grows h₁).closeRight hΔ
    have hscope : Adequate s.openRight ⟨r.events, .ok s₁⟩ := h₁ ▸ ih
    have hslot : s₁.context = Context.concat (.rigid s.rightName :: Δ) [] := hΔ
    refine (hscope.closeScope s.enters_openRight (hrun.grows h₁) hgrows hslot).query
      h.wellFormed ?_
    rintro _ ⟨⟩
    exact hgrows
  | @allLeftFailed s _ _ _ r e h _ _ he ih =>
    have hscope : Adequate s.openLeft ⟨r.events, .error e⟩ := he ▸ ih
    exact (hscope.failScope s.enters_openLeft).query h.wellFormed (by simp)
  | @allLeft s s₁ _ _ _ r Δ _ h _ hrun h₁ hΔ ih =>
    have hgrows := ((hrun.grows h₁).closeLeft hΔ).1
    have hscope : Adequate s.openLeft ⟨r.events, .ok s₁⟩ := h₁ ▸ ih
    refine (hscope.closeScope s.enters_openLeft (hrun.grows h₁) hgrows hΔ).query h.wellFormed ?_
    rintro _ ⟨⟩
    exact hgrows
  | solved h _ _ _ hrun ih => exact ih.query h.wellFormed fun s' => hrun.grows
  | articulateLeft h hs _ hrun ih | articulateRight h hs _ hrun ih =>
    exact (Adequate.articulate h.wellFormed hs).andThen (Session.grows_articulated hs h.wellFormed)
      ih fun s' => hrun.grows
  | solve h hs hT hscope _ =>
    have hgrows := Session.grows_solvedAt hs h.wellFormed (Ty.isMono_of_isAtom hT) hscope
    exact .answered hgrows rfl (by simp [hs]) (by simp)
      fun y hne hy => Session.unsolved_solvedAt hs hne hy

/-- No failure is recorded before the end of a query. -/
private lemma failed_not_mem (h : Transcript s A B r) (C D : Ty) (e : SubtypingError) :
    .failed C D e ∉ r.events := by
  induction h <;> simp_all

end Transcript

/-! ## Queries -/

section Query

variable {s s' : Session} {A B : Ty} {e : SubtypingError}

/-- If the judgment holds, the trace is that of the check. -/
private lemma subtype_of_ok (h : (check s A B).outcome = .ok s') :
    subtype s A B = ⟨(check s A B).events, .ok (some s')⟩ := by
  simp [subtype, h]

/-- If the judgment does not hold, the failure is recorded behind the trace of the check. -/
private lemma subtype_of_judgment (h : (check s A B).outcome = .error (.judgment e)) :
    subtype s A B = ⟨(check s A B).events ++ [.failed A B e], .ok none⟩ := by
  simp [subtype, h]

/-- The failure that is recorded at the end is the only one. -/
private lemma failed_unique {es before after : List Event} {C D : Ty} {e' : SubtypingError}
    (hes : .failed C D e' ∉ es)
    (h : es ++ [.failed A B e] = before ++ .failed C D e' :: after) :
    (C = A ∧ D = B ∧ e' = e) ∧ before = es ∧ after = [] := by
  rcases List.append_eq_append_iff.mp h with ⟨mid, rfl, hmid⟩ | ⟨mid, rfl, hmid⟩
  · cases mid with
    | nil => simpa [eq_comm] using hmid
    | cons m mid => simp at hmid
  · cases mid with
    | nil => simpa [eq_comm] using hmid
    | cons m mid =>
      obtain ⟨rfl, -⟩ : Event.failed C D e' = m ∧ _ := by simpa using hmid
      simp at hes

/-- The trace of a query about types in scope is an account of it. The log has a message for each
event, in order, which names the types and the context of a query, an existential and what it is
solved to, or a failure and its report. Every solution is recorded directly after a query under a
context in which the existential has none, and no existential gets two. If the judgment does not
hold, the failure that a caller gets to see is recorded at the end, and it is recorded only there
and only then. If the judgment holds, then an existential has been solved if and only if that is
recorded.

**Proof sketch.** The run of the judgment records what it does (`Transcript.adequate`) and records
no failure (`Transcript.failed_not_mem`); the query about subtyping adds the record of the failure
at the end, if there is one. That each kind of event has the message that is claimed is a case
distinction on the event. -/
theorem subtype_trace (h : s.context.isWellFormed = .ok true)
    (hA : s.context.isWellFormedType A = .ok true)
    (hB : s.context.isWellFormedType B = .ok true) :
    let run := subtype s A B
    let records := traceRecords .debug run.events
    (∀ r ∈ records, r.logger = "rankn.typecheck" ∧ r.level = .debug) ∧
      records.map (·.message) = run.events.map (fun
        | .query C D Γ => C.text ++ " <:? " ++ D.text ++ " in " ++ Γ.text
        | .articulated x T => "articulated ^" ++ x ++ " as " ++ T.text
        | .solved x T => "solved ^" ++ x ++ " := " ++ T.text
        | .failed C D e => C.text ++ " </: " ++ D.text ++ ": " ++ e.report.message) ∧
      (∀ before e after x T, run.events = before ++ e :: after →
        e = .articulated x T ∨ e = .solved x T →
          ∃ earlier C D Γ, before = earlier ++ [.query C D Γ] ∧ .unsolved x ∈ Γ) ∧
      ((solutions run.events).map Prod.fst).Nodup ∧
      (run.outcome = .ok none → ∃ before e, run.events = before ++ [.failed A B e]) ∧
      (∀ before C D e after, run.events = before ++ .failed C D e :: after →
        run.outcome = .ok none ∧ after = [] ∧ (check s A B).outcome = .error (.judgment e) ∧
          (Event.failed C D e).record.message =
            A.text ++ " </: " ++ B.text ++ ": " ++ e.report.message) ∧
      (run.outcome ≠ .ok none → ∃ s', run.outcome = .ok (some s') ∧
        ∀ x T, .unsolved x ∈ s.context → (.solved x T ∈ s'.context ↔
          .articulated x T ∈ run.events ∨ .solved x T ∈ run.events)) := by
  have hpos := Session.WellPosed.of_checks h hA hB
  have htranscript : Transcript s A B (check s A B) := .of_judge hpos _
  have hadequate := htranscript.adequate
  have hnone := htranscript.failed_not_mem
  intro run records
  refine ⟨fun r => of_mem_traceRecords_debug, ?_, ?_⟩
  · rw [show records.map (·.message) = run.events.map Event.text from messages_traceRecords_debug _]
    exact List.map_congr_left fun e _ => by cases e <;> rfl
  rcases hpos.outcome_check with ⟨s', hok⟩ | ⟨e, herr⟩
  · have hrun : run = ⟨(check s A B).events, .ok (some s')⟩ := subtype_of_ok hok
    rw [hrun]
    refine ⟨hadequate.prompt, hadequate.once, by simp, ?_, fun _ => ⟨s', rfl, ?_⟩⟩
    · intro before C D e after hes
      have hes : (check s A B).events = before ++ .failed C D e :: after := hes
      exact absurd (by simp [hes]) (hnone C D e)
    · intro x T hx
      rw [hadequate.stored s' hok x T hx, mem_solutions]
  · have hrun : run = ⟨(check s A B).events ++ [.failed A B e], .ok none⟩ :=
      subtype_of_judgment herr
    rw [hrun]
    have hprompt : Prompt ((check s A B).events ++ [.failed A B e]) :=
      hadequate.prompt.append (.of_solutions_eq_nil rfl)
    refine ⟨hprompt, ?_, fun _ => ⟨_, e, rfl⟩, ?_, fun hne => absurd rfl hne⟩
    · rw [solutions_append, show solutions [.failed A B e] = [] from rfl, List.append_nil]
      exact hadequate.once
    · intro before C D e' after hes
      obtain ⟨⟨rfl, rfl, rfl⟩, -, rfl⟩ := failed_unique (hnone C D e') hes
      exact ⟨rfl, rfl, herr, rfl⟩

/-- The existential of the scope is solved to `^x`, which is declared before it, and forgotten with
the scope. Then `^x` is solved to a new arrow, and the domain of that to `^y`. Under the same
context `^x` is not below a type in which a quantified variable would get out of its scope. -/
theorem subtype_trace_articulated :
    let s : Session := ⟨[.unsolved "x", .unsolved "y"], 0, "e", "t"⟩
    let A : Ty := .all "a" (.arr (.var "a") (.var "a"))
    let B : Ty := .arr (.evar "x") (.arr (.evar "y") .unit)
    let C : Ty := .arr .unit (.all "a" (.arr (.evar "y") (.var "a")))
    let run := subtype s A B
    let records := traceRecords .debug run.events
    records.map (·.message) =
        ["forall a. a -> a <:? ^x -> ^y -> 1 in [^y, ^x]",
          "^e0 -> ^e0 <:? ^x -> ^y -> 1 in [^y, ^x, >^e0, ^e0]",
          "^x <:? ^e0 in [^y, ^x, >^e0, ^e0]",
          "solved ^e0 := ^x",
          "^x <:? ^y -> 1 in [^y, ^x, >^e0, ^e0 = ^x]",
          "articulated ^x as ^e1 -> ^e2",
          "^e1 -> ^e2 <:? ^y -> 1 in [^y, ^e1, ^e2, ^x = ^e1 -> ^e2, >^e0, ^e0 = ^x]",
          "^y <:? ^e1 in [^y, ^e1, ^e2, ^x = ^e1 -> ^e2, >^e0, ^e0 = ^x]",
          "solved ^e1 := ^y",
          "^e2 <:? 1 in [^y, ^e1 = ^y, ^e2, ^x = ^e1 -> ^e2, >^e0, ^e0 = ^x]",
          "solved ^e2 := 1"] ∧
      ((traceRecords .debug (subtype s (.evar "x") C).events).map (·.message)).getLast? =
        some "^x </: 1 -> (forall a. ^y -> a): t2 is not in scope where ^e4 was declared" ∧
      solutions run.events =
        [("e0", .evar "x"), ("x", .arr (.evar "e1") (.evar "e2")), ("e1", .evar "y"),
          ("e2", .unit)] ∧
      (∀ r ∈ records, r.logger = "rankn.typecheck" ∧ r.level = .debug) ∧
      records.map (·.message) = run.events.map (fun
        | .query C D Γ => C.text ++ " <:? " ++ D.text ++ " in " ++ Γ.text
        | .articulated x T => "articulated ^" ++ x ++ " as " ++ T.text
        | .solved x T => "solved ^" ++ x ++ " := " ++ T.text
        | .failed C D e => C.text ++ " </: " ++ D.text ++ ": " ++ e.report.message) ∧
      (∀ before e after x T, run.events = before ++ e :: after →
        e = .articulated x T ∨ e = .solved x T →
          ∃ earlier C D Γ, before = earlier ++ [.query C D Γ] ∧ .unsolved x ∈ Γ) ∧
      ((solutions run.events).map Prod.fst).Nodup ∧
      (run.outcome = .ok none → ∃ before e, run.events = before ++ [.failed A B e]) ∧
      (∀ before C D e after, run.events = before ++ .failed C D e :: after →
        run.outcome = .ok none ∧ after = [] ∧ (check s A B).outcome = .error (.judgment e) ∧
          (Event.failed C D e).record.message =
            A.text ++ " </: " ++ B.text ++ ": " ++ e.report.message) ∧
      (run.outcome ≠ .ok none → ∃ s', run.outcome = .ok (some s') ∧
        ∀ x T, .unsolved x ∈ s.context → (.solved x T ∈ s'.context ↔
          .articulated x T ∈ run.events ∨ .solved x T ∈ run.events)) := by
  intro s A B C run records
  exact ⟨by decide +kernel, by decide +kernel, by decide +kernel,
    subtype_trace (by decide) (by decide) (by decide)⟩

end Query

end HigherRank
