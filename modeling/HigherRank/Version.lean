set_option autoImplicit false
set_option relaxedAutoImplicit false

/-!
# The package

What the library says of itself: the version that it reports, and the names under which it writes to
the log. Names with dots are below the name up to the dot, so that the loggers of the parts of the
package are below the logger of the package.

## Main definitions

* `HigherRank.version` — the version that is reported.
* `HigherRank.Logger.package`, `HigherRank.engineLogger` — the loggers of the package and of the
  engine.
* `HigherRank.Logger.inPackage` — whether a logger belongs to the package.

## Main results

* `HigherRank.inPackage_engineLogger` — the engine belongs to the package.
-/

namespace HigherRank

/-- The version that is reported. -/
def version : String :=
  "0.1.0"

/-! ## The names of its loggers -/

namespace Logger

/-- The logger of the package. -/
def package : String :=
  "rankn"

/-- Whether a logger is that of the package or below it. -/
def inPackage (logger : String) : Bool :=
  logger = package ∨ (package ++ ".").toList.isPrefixOf logger.toList

end Logger

/-- The logger of the engine. -/
def engineLogger : String :=
  Logger.package ++ ".typecheck"

/-- The logger of the engine is below that of the package. -/
theorem inPackage_engineLogger : Logger.inPackage engineLogger = true := by
  simp [Logger.inPackage, engineLogger, Logger.package]

end HigherRank
