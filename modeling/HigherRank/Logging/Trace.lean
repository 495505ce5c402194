import HigherRank.Logging.Logger
import HigherRank.Subtyping.Traced

set_option autoImplicit false
set_option relaxedAutoImplicit false

/-!
# The trace of the engine in the log

The engine logs every event of a run at the lowest level, and each record says which part of the
engine wrote it.

## Main definitions

* `HigherRank.TraceRecord` — a record with the place that wrote it.
* `HigherRank.Event.record` — the record for an event.
* `HigherRank.traceRecords` — the records of a run at a level.

## Main results

* `HigherRank.traceRecords_debug`, `HigherRank.messages_traceRecords_debug` — what is in the log at
  the lowest level.
-/

namespace HigherRank

/-- A record of the log together with the place that wrote it. -/
structure TraceRecord extends LogRecord where
  moduleName : String
  fileName : String
  function : String
  deriving DecidableEq

/-- The part of the engine that an event comes from. -/
def Event.site : Event → String
  | .query _ _ _ => "_subtype"
  | .articulated _ _ => "_articulate"
  | .solved _ _ => "_solve"
  | .failed _ _ _ => "subtype"

/-- The record for an event. -/
def Event.record (e : Event) : TraceRecord where
  logger := engineLogger
  message := e.text
  level := .debug
  moduleName := engineLogger
  fileName := "__init__.py"
  function := e.site

/-- The records of a run, where `level` is set for the package. -/
def traceRecords (level : Level) (events : List Event) : List TraceRecord :=
  if Logger.isEnabled level engineLogger .debug then events.map Event.record else []

/-- At the lowest level all events are in the log. -/
theorem traceRecords_debug (events : List Event) :
    traceRecords .debug events = events.map Event.record := by
  simp [traceRecords, Logger.isEnabled, Logger.effectiveLevel, inPackage_engineLogger]

/-- At the lowest level the messages in the log are the lines for the events, in order. -/
theorem messages_traceRecords_debug (events : List Event) :
    (traceRecords .debug events).map (·.message) = events.map Event.text := by
  rw [traceRecords_debug, List.map_map]
  rfl

/-- The records of a run come from the logger of the engine and have the lowest level. -/
theorem of_mem_traceRecords_debug {events : List Event} {r : TraceRecord}
    (hr : r ∈ traceRecords .debug events) : r.logger = "rankn.typecheck" ∧ r.level = .debug := by
  rw [traceRecords_debug] at hr
  obtain ⟨e, -, rfl⟩ := List.mem_map.mp hr
  exact ⟨rfl, rfl⟩

end HigherRank
