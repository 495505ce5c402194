import HigherRank.Subtyping.Failure

set_option autoImplicit false
set_option relaxedAutoImplicit false

/-!
# Traced runs

A run of the subtyping engine records what it does, and ends in a result or in a failure. The
events up to a failure are kept.

## Main definitions

* `HigherRank.Event` — what a run records.
* `HigherRank.Traced` — the runs, with their events and their outcome.

## Main results

* `HigherRank.Traced.bind_of_ok`, `HigherRank.Traced.bind_of_error` — a run after another.
-/

namespace HigherRank

/-! ## Events -/

/-- What a run of the engine records. -/
inductive Event where
  /-- A judgment was asked for under a context. -/
  | query (A B : Ty) (Γ : Context)
  /-- An existential was solved to an arrow between two new ones. -/
  | articulated (x : Name) (A : Ty)
  /-- An existential was solved. -/
  | solved (x : Name) (A : Ty)
  /-- The judgment that was asked for first does not hold. -/
  | failed (A B : Ty) (e : SubtypingError)
  deriving DecidableEq

/-- The line for an event. -/
def Event.text : Event → String
  | .query A B Γ => A.text ++ " <:? " ++ B.text ++ " in " ++ Γ.text
  | .articulated x A => "articulated ^" ++ x ++ " as " ++ A.text
  | .solved x A => "solved ^" ++ x ++ " := " ++ A.text
  | .failed A B e => A.text ++ " </: " ++ B.text ++ ": " ++ e.message

/-! ## Runs -/

/-- A run with its events, in order, and its outcome. -/
structure Traced (α : Type) where
  events : List Event
  outcome : Except Failure α

namespace Traced

variable {α β : Type}

/-- A run that does nothing but to return a result. -/
def done (a : α) : Traced α :=
  ⟨[], .ok a⟩

/-- A run that fails at once. -/
def fail (e : Failure) : Traced α :=
  ⟨[], .error e⟩

/-- A run that records one event. -/
def record (e : Event) : Traced Unit :=
  ⟨[e], .ok ()⟩

/-- A run that asks the context, which may be broken. -/
def ask (r : Except Violation α) : Traced α :=
  ⟨[], r.mapError .violation⟩

/-- One run and then another that takes its result. -/
def andThen (r : Traced α) (k : α → Traced β) : Traced β :=
  match r.outcome with
  | .ok a => ⟨r.events ++ (k a).events, (k a).outcome⟩
  | .error e => ⟨r.events, .error e⟩

instance : Monad Traced where
  pure := done
  bind := andThen

/-! ## The parts of a run -/

/-- A run that fails at once ends in that failure. -/
@[simp]
theorem outcome_fail (e : Failure) : (fail e : Traced α).outcome = .error e :=
  rfl

/-- A question that the context answers records nothing. -/
@[simp]
theorem ask_ok (a : α) : ask (.ok a) = ⟨[], .ok a⟩ :=
  rfl

/-- To return a result records nothing. -/
@[simp]
theorem pure_eq (a : α) : (pure a : Traced α) = ⟨[], .ok a⟩ :=
  rfl

/-- A run after one that has succeeded records behind it. -/
@[simp]
theorem bind_ok (es : List Event) (a : α) (k : α → Traced β) :
    (⟨es, .ok a⟩ >>= k) = ⟨es ++ (k a).events, (k a).outcome⟩ :=
  rfl

/-- Nothing comes after a run that has failed. -/
@[simp]
theorem bind_error (es : List Event) (e : Failure) (k : α → Traced β) :
    (⟨es, .error e⟩ >>= k) = ⟨es, .error e⟩ :=
  rfl

/-- What is recorded first comes before what a run records. -/
@[simp]
theorem bind_record (e : Event) (k : Unit → Traced β) :
    (record e >>= k) = ⟨e :: (k ()).events, (k ()).outcome⟩ :=
  rfl

/-- A run after one that succeeds. -/
theorem bind_of_ok {r : Traced α} {a : α} (h : r.outcome = .ok a) (k : α → Traced β) :
    (r >>= k) = ⟨r.events ++ (k a).events, (k a).outcome⟩ := by
  obtain ⟨events, outcome⟩ := r
  obtain rfl : outcome = .ok a := h
  rfl

/-- Nothing is run after a run that fails. -/
theorem bind_of_error {r : Traced α} {e : Failure} (h : r.outcome = .error e) (k : α → Traced β) :
    (r >>= k) = ⟨r.events, .error e⟩ := by
  obtain ⟨events, outcome⟩ := r
  obtain rfl : outcome = .error e := h
  rfl

end Traced

end HigherRank
