import HigherRank.Ty.Printer

set_option autoImplicit false
set_option relaxedAutoImplicit false

/-!
# The entries of a context

A context declares rigid variables and existentials, solves existentials, assumes types for term
variables, and marks where the scope of a quantifier begins.

## Main definitions

* `HigherRank.Entry` — the entries.
* `HigherRank.Entry.name`, `HigherRank.Entry.type?` — what an entry is about.
* `HigherRank.Entry.declares` — whether an entry declares a type variable of a name.
* `HigherRank.Entry.takenName?` — the name that an entry keeps from being generated.
* `HigherRank.Entry.text`, `HigherRank.Entry.literal` — the display form and the literal form.
-/

namespace HigherRank

/-- The entries of a context. -/
inductive Entry where
  /-- Declares a rigid type variable. -/
  | rigid (a : Name)
  /-- Assumes that a term variable has a type. -/
  | assumed (x : Name) (A : Ty)
  /-- Declares an existential that has no solution yet. -/
  | unsolved (x : Name)
  /-- Declares an existential together with its solution. -/
  | solved (x : Name) (A : Ty)
  /-- Marks the beginning of the scope that was opened for an existential. -/
  | marker (x : Name)
  deriving DecidableEq, Inhabited

namespace Entry

/-- The kinds of entries. -/
inductive Kind where
  | rigid
  | assumed
  | unsolved
  | solved
  | marker
  deriving DecidableEq

/-- The kind of an entry. -/
def kind : Entry → Kind
  | .rigid _ => .rigid
  | .assumed _ _ => .assumed
  | .unsolved _ => .unsolved
  | .solved _ _ => .solved
  | .marker _ => .marker

/-- The variable that an entry is about. -/
def name : Entry → Name
  | .rigid a => a
  | .assumed x _ | .unsolved x | .solved x _ | .marker x => x

/-- The type that an entry holds: that of an assumption, or a solution. -/
def type? : Entry → Option Ty
  | .assumed _ A | .solved _ A => some A
  | .rigid _ | .unsolved _ | .marker _ => none

/-- Whether the entry declares a type variable of this name, rigid or existential. -/
def declares (m : Entry) (x : Name) : Bool :=
  match m with
  | .rigid y | .unsolved y | .solved y _ => y = x
  | .assumed _ _ | .marker _ => false

/-- The name that an entry keeps from being generated again. Names of term variables are free to
use, since they are never mistaken for type variables. -/
def takenName? : Entry → Option Name
  | .assumed _ _ => none
  | m => some m.name

/-- The type that an entry assumes for a term variable. -/
def assumption? (m : Entry) (x : Name) : Option Ty :=
  match m with
  | .assumed y A => if y = x then some A else none
  | _ => none

/-- The type to which an entry solves an existential. -/
def solution? (m : Entry) (x : Name) : Option Ty :=
  match m with
  | .solved y A => if y = x then some A else none
  | _ => none

/-! ## Written forms -/

/-- The display form. -/
def text : Entry → String
  | .rigid a => a
  | .assumed x A => x ++ " : " ++ A.text
  | .unsolved x => "^" ++ x
  | .solved x A => "^" ++ x ++ " = " ++ A.text
  | .marker x => ">^" ++ x

/-- The literal form. -/
def literal : Entry → String
  | .rigid a => "VarMember(" ++ Text.quote a ++ ")"
  | .assumed x A => "Assumption(" ++ Text.quote x ++ ", " ++ A.literal ++ ")"
  | .unsolved x => "EVarMember(" ++ Text.quote x ++ ")"
  | .solved x A => "Solved(" ++ Text.quote x ++ ", " ++ A.literal ++ ")"
  | .marker x => "Marker(" ++ Text.quote x ++ ")"

/-! ## What an entry holds -/

/-- Only an assumption about the term variable assumes a type for it. -/
theorem assumption?_eq_some {m : Entry} {x : Name} {A : Ty} :
    m.assumption? x = some A ↔ m = .assumed x A := by
  cases m <;> simp [assumption?]

/-- Only a solution of the existential solves it. -/
theorem solution?_eq_some {m : Entry} {x : Name} {A : Ty} :
    m.solution? x = some A ↔ m = .solved x A := by
  cases m <;> simp [solution?]

/-- What an entry declares is the name that it keeps from being generated. -/
theorem takenName?_of_declares {m : Entry} {x : Name} (h : m.declares x) :
    m.takenName? = some x := by
  cases m <;> simp_all [declares, takenName?, name]

end Entry

end HigherRank
