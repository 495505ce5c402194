import HigherRank.Text.Printable

set_option autoImplicit false
set_option relaxedAutoImplicit false

/-!
# Quoted text

A text is quoted with apostrophes, or with quotation marks if it holds an apostrophe and no
quotation mark. The backslash and the delimiter in use are written with a backslash before them,
and a character that is not printable is written as an escape.

## Main definitions

* `HigherRank.Text.delimiter` — the mark around a text.
* `HigherRank.Text.escape` — one character as it is written inside a text.
* `HigherRank.Text.quote` — the quoted text.
* `HigherRank.Text.enclose`, `HigherRank.Text.commaSeparated` — brackets and lists.
-/

namespace HigherRank.Text

/-! ## Escapes -/

/-- The lower-case hexadecimal digits of a number, cut or filled with zeros to a width. -/
def hexWord : Nat → Nat → List Char
  | 0, _ => []
  | width + 1, n => hexWord width (n / 16) ++ [Nat.digitChar (n % 16)]

/-- A number is written with as many digits as are asked for. -/
theorem length_hexWord (width n : Nat) : (hexWord width n).length = width := by
  induction width generalizing n with
  | zero => rfl
  | succ width ih => simp [hexWord, ih]

/-- The escape by code point, of two, four or eight digits, whichever suffices first. -/
def codeEscape (n : Nat) : List Char :=
  if n < 0x100 then '\\' :: 'x' :: hexWord 2 n
  else if n < 0x10000 then '\\' :: 'u' :: hexWord 4 n
  else '\\' :: 'U' :: hexWord 8 n

/-- A character as it is written inside a text with the given delimiter. -/
def escape (delim c : Char) : List Char :=
  if c = delim ∨ c = '\\' then ['\\', c]
  else if c = '\n' then ['\\', 'n']
  else if c = '\r' then ['\\', 'r']
  else if c = '\t' then ['\\', 't']
  else if isPrintable c then [c]
  else codeEscape c.toNat

/-! ## Quotation -/

/-- The delimiter of a text: the apostrophe, unless the text holds one and no quotation mark. -/
def delimiter (cs : List Char) : Char :=
  if '\x27' ∈ cs ∧ '\x22' ∉ cs then '\x22' else '\x27'

/-- The text between delimiters, with its characters escaped. -/
def quoteChars (cs : List Char) : List Char :=
  delimiter cs :: (cs.flatMap (escape (delimiter cs)) ++ [delimiter cs])

/-- The text between delimiters, with its characters escaped. -/
def quote (s : String) : String :=
  String.ofList (quoteChars s.toList)

/-- The characters of a quoted text. -/
@[simp]
theorem toList_quote (s : String) : (quote s).toList = quoteChars s.toList := by
  simp [quote]

/-! ## Brackets and lists -/

/-- The text in round brackets. -/
def enclose (s : String) : String :=
  "(" ++ s ++ ")"

/-- The texts one after the other, with a comma and a space between two of them. -/
def commaSeparated : List String → String
  | [] => ""
  | [s] => s
  | s :: rest => s ++ ", " ++ commaSeparated rest

/-- The texts between square brackets, with a comma and a space between two of them. -/
def bracketed (items : List String) : String :=
  "[" ++ commaSeparated items ++ "]"

end HigherRank.Text
