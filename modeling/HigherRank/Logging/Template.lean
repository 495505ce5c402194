import HigherRank.Text.Digits

set_option autoImplicit false
set_option relaxedAutoImplicit false

/-!
# Message templates

A template is a text with fields in curly brackets. A field is empty, a number or a name, and
stands for the next argument, the argument at that position, or the argument of that name. A
curly bracket that is written twice stands for itself. Numbers may be written with the decimal
digits of any script.

## Main definitions

* `HigherRank.Template.parse` — the parts of a template.
* `HigherRank.Template.format` — the text with the fields filled in.
-/

namespace HigherRank.Template

/-! ## Reading -/

/-- What a field stands for. -/
inductive Field where
  /-- The argument after the one that was taken last. -/
  | next
  /-- The argument at a position. -/
  | position (i : Nat)
  /-- The argument of a name. -/
  | named (key : String)
  deriving DecidableEq

/-- A part of a template. -/
inductive Part where
  | char (c : Char)
  | field (f : Field)
  deriving DecidableEq

/-- The field that is written as the given characters. -/
def fieldOf (cs : List Char) : Field :=
  if cs = [] then .next
  else
    match Text.decimal? cs with
    | some i => .position i
    | none => .named (String.ofList cs)

/-- The marks that would ask for a part of an argument or for a layout; arguments have neither. -/
def marks : List Char :=
  ['.', '[', '!', ':']

/-- The parts of a template. The first argument holds the characters of an open field in reverse
order. There are none if a curly bracket stands alone or a field holds a mark. -/
def parseFrom : Option (List Char) → List Char → Option (List Part)
  | none, [] => some []
  | none, '\x7b' :: '\x7b' :: cs => (parseFrom none cs).map (.char '\x7b' :: ·)
  | none, '\x7d' :: '\x7d' :: cs => (parseFrom none cs).map (.char '\x7d' :: ·)
  | none, '\x7b' :: cs => parseFrom (some []) cs
  | none, '\x7d' :: _ => none
  | none, c :: cs => (parseFrom none cs).map (.char c :: ·)
  | some _, [] => none
  | some _, '\x7b' :: _ => none
  | some seen, '\x7d' :: cs => (parseFrom none cs).map (.field (fieldOf seen.reverse) :: ·)
  | some seen, c :: cs => if c ∈ marks then none else parseFrom (some (c :: seen)) cs

/-- The parts of a template, if no curly bracket stands alone and no field holds a mark. -/
def parse (template : String) : Option (List Part) :=
  parseFrom none template.toList

/-! ## Filling in -/

/-- Whether fields have been counted so far, and up to which argument, or have been given by
number. -/
inductive Numbering where
  | undecided
  | counted (next : Nat)
  | given

/-- The argument that a field stands for, and the numbering after it. Counted fields and fields
with a number do not go together. -/
def argument (positional : List String) (keyed : List (String × String)) :
    Numbering → Field → Option (String × Numbering)
  | .undecided, .next => positional[0]?.map (·, .counted 1)
  | .counted i, .next => positional[i]?.map (·, .counted (i + 1))
  | .given, .next => none
  | .counted _, .position _ => none
  | .undecided, .position i | .given, .position i => positional[i]?.map (·, .given)
  | numbering, .named key => (keyed.lookup key).map (·, numbering)

/-- The text of the parts with the fields filled in, if every field has an argument. -/
def fill (positional : List String) (keyed : List (String × String)) :
    Numbering → List Part → Option String
  | _, [] => some ""
  | numbering, .char c :: parts =>
    (fill positional keyed numbering parts).map (String.singleton c ++ ·)
  | numbering, .field f :: parts => do
    let (text, numbering') ← argument positional keyed numbering f
    let rest ← fill positional keyed numbering' parts
    pure (text ++ rest)

/-- The template with its fields filled in. There is no result if it cannot be read, if an
argument is missing or if the fields are numbered in two ways. Arguments that no field stands for
are ignored. -/
def format (template : String) (positional : List String) (keyed : List (String × String)) :
    Option String :=
  (parse template).bind (fill positional keyed .undecided)

end HigherRank.Template
