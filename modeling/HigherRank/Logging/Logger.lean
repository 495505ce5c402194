import HigherRank.Logging.Template
import HigherRank.Version

set_option autoImplicit false
set_option relaxedAutoImplicit false

/-!
# Loggers

Loggers are named, and names with dots are below the name up to the dot. The logger of the
package and those below it write to the log, from a level on that is set once. All others take
warnings only and write nothing.

## Main definitions

* `HigherRank.Level` — the levels, with their rank.
* `HigherRank.Logger.isEnabled` — whether a logger takes messages of a level.
* `HigherRank.LogCall.record?` — the record that a call writes.
-/

namespace HigherRank

/-! ## Levels -/

/-- The levels of messages. -/
inductive Level where
  | debug
  | info
  | warning
  deriving DecidableEq

/-- The rank of a level; more urgent messages have a higher one. -/
def Level.rank : Level → Nat
  | .debug => 10
  | .info => 20
  | .warning => 30

/-- The name of a level. -/
def Level.name : Level → String
  | .debug => "DEBUG"
  | .info => "INFO"
  | .warning => "WARNING"

/-! ## Loggers -/

namespace Logger

/-- The level from which on a logger takes messages, where `level` is set for the package. -/
def effectiveLevel (level : Level) (logger : String) : Level :=
  if inPackage logger then level else .warning

/-- Whether a logger takes messages of the level `asked`. -/
def isEnabled (level : Level) (logger : String) (asked : Level) : Bool :=
  (effectiveLevel level logger).rank ≤ asked.rank

end Logger

/-! ## Calls and records -/

/-- What is written to the log for a message. -/
structure LogRecord where
  logger : String
  message : String
  level : Level
  deriving DecidableEq

/-- How a message is given: as a template at a level, or as a warning to be taken as it is. -/
inductive LogStyle where
  | template (level : Level)
  | verbatim
  deriving DecidableEq

/-- A call of a logger, with the texts of the arguments. -/
structure LogCall where
  logger : String
  style : LogStyle
  message : String
  positional : List String
  keyed : List (String × String)

namespace LogCall

/-- The level of the message of a call. -/
def level (call : LogCall) : Level :=
  match call.style with
  | .template level => level
  | .verbatim => .warning

/-- The message of a call, if its arguments fit its template. -/
def messageText? (call : LogCall) : Option String :=
  match call.style with
  | .template _ => Template.format call.message call.positional call.keyed
  | .verbatim => some call.message

/-- The record that a call writes, where `level` is set for the package. Nothing is written if
the logger does not take the message or does not write to the log, and a message whose arguments
do not fit is dropped. -/
def record? (level : Level) (call : LogCall) : Option LogRecord :=
  if Logger.isEnabled level call.logger call.level ∧ Logger.inPackage call.logger then
    call.messageText?.map fun text => ⟨call.logger, text, call.level⟩
  else none

end LogCall

end HigherRank
