import HigherRank.Text.Quoted
import Mathlib.Algebra.Group.Nat.Defs
import Mathlib.Tactic.Common

set_option autoImplicit false
set_option relaxedAutoImplicit false

/-!
# Written forms that can be read back

A written form can be read back if a text that begins with it tells what is written there and where
it ends. Some written forms end by themselves, such as a quoted text. Others end only where
something follows that cannot belong to them, and only some values can be read back.

## Main definitions

* `HigherRank.Text.ReadsBack` — one value can be read back.
* `HigherRank.Text.Readable` — all values of a class can be read back.
* `HigherRank.Text.SelfDelimiting` — all values can be read back, whatever follows.
* `HigherRank.Text.shortEscape?` — the escapes that consist of two characters.

## Main results

* `HigherRank.Text.append_inj_of_stops` — where a run of characters of a class ends.
* `HigherRank.Text.hexWord_inj` — a number is determined by enough of its digits.
* `HigherRank.Text.escape_append_inj` — a character is determined by what it is written as.
* `HigherRank.Text.quote_append_inj` — quoted texts end by themselves.
* `HigherRank.Text.readable_bracketed` — lists between square brackets end by themselves.
-/

namespace HigherRank.Text

/-! ## Reading back -/

section ReadsBack

variable {α : Type}

/-- A text that begins with the written form of `a`, and goes on with something that may follow,
does not begin in the same way with that of another value of the class. -/
def ReadsBack (write : α → String) (Class : α → Prop) (Follows : List Char → Prop) (a : α) : Prop :=
  ∀ ⦃b : α⦄ ⦃r s : List Char⦄, Class b → Follows r → Follows s →
    (write a).toList ++ r = (write b).toList ++ s → a = b ∧ r = s

/-- Every value of the class can be read back from its written form, if what comes behind is
something that may follow. -/
def Readable (write : α → String) (Class : α → Prop) (Follows : List Char → Prop) : Prop :=
  ∀ a, Class a → ReadsBack write Class Follows a

variable {write : α → String} {Class : α → Prop} {Follows : List Char → Prop}

/-- Values that can be read back are equal if they are written alike. -/
lemma Readable.injective (h : Readable write Class Follows) (hnil : Follows []) {a b : α}
    (ha : Class a) (hb : Class b) (heq : write a = write b) : a = b :=
  (h a ha hb hnil hnil (by rw [heq])).1

end ReadsBack

section SelfDelimiting

variable {α : Type} {write : α → String}

/-- Every value can be read back from its written form, whatever comes behind it. -/
def SelfDelimiting (write : α → String) : Prop :=
  ∀ ⦃a b : α⦄ ⦃r s : List Char⦄,
    (write a).toList ++ r = (write b).toList ++ s → a = b ∧ r = s

/-- A written form that tells where it ends can be read back in every class and before every
text. -/
lemma SelfDelimiting.readable (h : SelfDelimiting write) (Class : α → Prop)
    (Follows : List Char → Prop) : Readable write Class Follows :=
  fun _ _ _ _ _ _ _ _ heq => h heq

/-- If every value can be read back before every text, the written form tells where it ends. -/
lemma SelfDelimiting.of_readable {Class : α → Prop}
    (h : Readable write Class fun _ => True) (hall : ∀ a, Class a) : SelfDelimiting write :=
  fun a b _ _ heq => h a (hall a) (hall b) trivial trivial heq

/-- Values that end by themselves are equal if they are written alike. -/
lemma SelfDelimiting.injective (h : SelfDelimiting write) {a b : α} (heq : write a = write b) :
    a = b :=
  (h (r := []) (s := []) (by rw [heq])).1

end SelfDelimiting

/-! ## Runs of characters -/

/-- A run of characters of a class ends where one follows that is not of the class. -/
theorem append_inj_of_stops {p : Char → Bool} {xs ys r s : List Char} (hxs : ∀ c ∈ xs, p c)
    (hys : ∀ c ∈ ys, p c) (hr : ∀ c ∈ r.head?, ¬ p c) (hs : ∀ c ∈ s.head?, ¬ p c)
    (h : xs ++ r = ys ++ s) : xs = ys ∧ r = s := by
  have hstop : ∀ t : List Char, (∀ c ∈ t.head?, ¬ p c) → t.takeWhile p = [] := by
    intro t ht
    cases t with
    | nil => rfl
    | cons c t => exact List.takeWhile_cons_of_neg (ht c rfl)
  have hrun := congrArg (List.takeWhile p) h
  rw [List.takeWhile_append_of_pos hxs, List.takeWhile_append_of_pos hys, hstop r hr, hstop s hs,
    List.append_nil, List.append_nil] at hrun
  subst hrun
  exact ⟨rfl, List.append_cancel_left h⟩

/-! ## Escapes -/

/-- A number is determined by its last hexadecimal digits if it has no more than these. -/
theorem hexWord_inj {width m n : Nat} (hm : m < 16 ^ width) (hn : n < 16 ^ width)
    (h : hexWord width m = hexWord width n) : m = n := by
  induction width generalizing m n with
  | zero => omega
  | succ width ih =>
    obtain ⟨hhigh, hlow⟩ := List.append_inj' h rfl
    have hdigit : ∀ j < 16, ∀ k < 16, Nat.digitChar j = Nat.digitChar k → j = k := by decide
    have hmod : m % 16 = n % 16 :=
      hdigit _ (Nat.mod_lt _ (by decide)) _ (Nat.mod_lt _ (by decide)) (by simpa using hlow)
    have hdiv : m / 16 = n / 16 := ih (by omega) (by omega) hhigh
    omega

/-- How many digits come behind the letter of an escape by code point. -/
def escapeWidth (t : Char) : Nat :=
  if t = 'x' then 2 else if t = 'u' then 4 else 8

/-- An escape by code point is one of three letters with as many digits as the letter says, and
these are enough. -/
private lemma exists_codeEscape {n : Nat} (hn : n < 16 ^ 8) :
    ∃ t ∈ ['x', 'u', 'U'], n < 16 ^ escapeWidth t ∧
      codeEscape n = '\\' :: t :: hexWord (escapeWidth t) n := by
  unfold codeEscape
  split
  · exact ⟨'x', by simp, by assumption, rfl⟩
  · split
    · exact ⟨'u', by simp, by assumption, rfl⟩
    · exact ⟨'U', by simp, hn, rfl⟩

/-- The second character of an escape that has two: the delimiter, a backslash, or a letter for a
line break or a tab. -/
def shortEscape? (delim c : Char) : Option Char :=
  if c = delim ∨ c = '\\' then some c
  else if c = '\n' then some 'n'
  else if c = '\r' then some 'r'
  else if c = '\t' then some 't'
  else none

/-- A character with a short escape is written with a backslash and a second character. -/
private lemma escape_of_some {delim c t : Char} (h : shortEscape? delim c = some t) :
    escape delim c = ['\\', t] := by
  unfold shortEscape? at h
  unfold escape
  grind

/-- Any other character stands for itself, or is written by its code point. -/
private lemma escape_of_none {delim c : Char} (h : shortEscape? delim c = none) :
    escape delim c = if isPrintable c then [c] else codeEscape c.toNat := by
  unfold shortEscape? at h
  unfold escape
  grind

/-- A character without a short escape is neither the delimiter nor a backslash. -/
private lemma ne_of_shortEscape?_none {delim c : Char} (h : shortEscape? delim c = none) :
    c ≠ delim ∧ c ≠ '\\' := by
  unfold shortEscape? at h
  grind

/-- A delimiter is an apostrophe or a quotation mark. -/
def IsDelimiter (c : Char) : Prop :=
  c = '\x27' ∨ c = '\x22'

/-- The delimiter that is chosen is a delimiter. -/
lemma isDelimiter_delimiter (cs : List Char) : IsDelimiter (delimiter cs) := by
  unfold delimiter IsDelimiter
  split <;> simp

variable {delim a b t : Char} {r s : List Char}

/-- Two characters have different escapes, since the letters in use are no delimiters. -/
private lemma shortEscape?_inj (hd : IsDelimiter delim) (ha : shortEscape? delim a = some t)
    (hb : shortEscape? delim b = some t) : a = b := by
  unfold shortEscape? at ha hb
  rcases hd with rfl | rfl <;> grind

/-- The letters of the escapes by code point are not used for anything else. -/
private lemma not_mem_of_shortEscape?_some (hd : IsDelimiter delim)
    (h : shortEscape? delim a = some t) :
    t ∉ ['x', 'u', 'U'] := by
  unfold shortEscape? at h
  rcases hd with rfl | rfl <;> grind

/-- Every code point has at most eight hexadecimal digits. -/
private lemma toNat_lt (c : Char) : c.toNat < 16 ^ 8 :=
  c.val.toNat_lt

/-- How a character is written: by itself, with one character behind a backslash, or by its code
point. -/
private lemma escape_cases (hd : IsDelimiter delim) (c : Char) :
    (escape delim c = [c] ∧ c ≠ delim ∧ c ≠ '\\') ∨
    (∃ t, shortEscape? delim c = some t ∧ t ∉ ['x', 'u', 'U'] ∧ escape delim c = ['\\', t]) ∨
    ∃ t ∈ ['x', 'u', 'U'], c.toNat < 16 ^ escapeWidth t ∧
      escape delim c = '\\' :: t :: hexWord (escapeWidth t) c.toNat := by
  cases h : shortEscape? delim c with
  | some t =>
    exact .inr (.inl ⟨t, rfl, not_mem_of_shortEscape?_some hd h, escape_of_some h⟩)
  | none =>
    rw [escape_of_none h]
    split
    · exact .inl ⟨rfl, ne_of_shortEscape?_none h⟩
    · exact .inr (.inr (exists_codeEscape (toNat_lt c)))

/-- The written form of a character tells where it ends and which character it is. -/
theorem escape_append_inj (hd : IsDelimiter delim) (h : escape delim a ++ r = escape delim b ++ s) :
    a = b ∧ r = s := by
  rcases escape_cases hd a with ⟨ha, -, hne⟩ | ⟨t, hat, ht, ha⟩ | ⟨t, ht, hat, ha⟩ <;>
    rcases escape_cases hd b with ⟨hb, -, hne'⟩ | ⟨u, hbu, hu, hb⟩ | ⟨u, hu, hbu, hb⟩ <;>
    rw [ha, hb] at h <;>
    simp only [List.cons_append, List.nil_append, List.cons.injEq, true_and] at h
  · exact h
  · exact absurd h.1 hne
  · exact absurd h.1 hne
  · exact absurd h.1.symm hne'
  · obtain ⟨rfl, hrest⟩ := h
    exact ⟨shortEscape?_inj hd hat hbu, hrest⟩
  · exact absurd (h.1 ▸ hu) ht
  · exact absurd h.1.symm hne'
  · exact absurd (h.1 ▸ ht) hu
  · obtain ⟨rfl, hdigits⟩ := h
    obtain ⟨hword, hrest⟩ := List.append_inj hdigits (by rw [length_hexWord, length_hexWord])
    exact ⟨Char.toNat_inj.mp (hexWord_inj hat hbu hword), hrest⟩

/-- No written character begins like the end of the text. -/
private lemma escape_append_ne (hd : IsDelimiter delim) (c : Char) :
    escape delim c ++ r ≠ delim :: s := by
  have hback : '\\' ≠ delim := by rcases hd with rfl | rfl <;> decide
  rcases escape_cases hd c with ⟨hc, hne, -⟩ | ⟨t, -, -, hc⟩ | ⟨t, -, -, hc⟩ <;> rw [hc] <;>
    simp [hback]
  exact fun h => absurd h hne

/-- The written form of a text ends at the first delimiter without a backslash.

**Proof sketch.** Induction on the first text. Nothing that is written for a character begins with
the delimiter (`escape_append_ne`), so that both texts end at the same place, and what is written
for a character tells which one it is and where it ends (`escape_append_inj`). -/
private lemma flatMap_escape_append_inj (hd : IsDelimiter delim) {cs ds : List Char}
    (h : cs.flatMap (escape delim) ++ delim :: r = ds.flatMap (escape delim) ++ delim :: s) :
    cs = ds ∧ r = s := by
  induction cs generalizing ds with
  | nil =>
    cases ds with
    | nil => simpa using h
    | cons d ds =>
      simp only [List.flatMap_nil, List.nil_append, List.flatMap_cons, List.append_assoc] at h
      exact absurd h.symm (escape_append_ne hd d)
  | cons c cs ih =>
    cases ds with
    | nil =>
      simp only [List.flatMap_nil, List.nil_append, List.flatMap_cons, List.append_assoc] at h
      exact absurd h (escape_append_ne hd c)
    | cons d ds =>
      simp only [List.flatMap_cons, List.append_assoc] at h
      obtain ⟨rfl, hrest⟩ := escape_append_inj hd h
      obtain ⟨rfl, hend⟩ := ih hrest
      exact ⟨rfl, hend⟩

/-- A quoted text ends by itself. -/
private lemma quoteChars_append_inj {cs ds : List Char}
    (h : quoteChars cs ++ r = quoteChars ds ++ s) :
    cs = ds ∧ r = s := by
  simp only [quoteChars, List.cons_append, List.append_assoc, List.nil_append,
    List.cons.injEq] at h
  obtain ⟨hdelim, hrest⟩ := h
  rw [← hdelim] at hrest
  exact flatMap_escape_append_inj (isDelimiter_delimiter cs) hrest

/-- A quoted name ends by itself. -/
theorem quote_append_inj {x y : String}
    (h : quoteChars x.toList ++ r = quoteChars y.toList ++ s) : x = y ∧ r = s :=
  (quoteChars_append_inj h).imp_left String.toList_inj.mp

/-- Different texts are quoted differently. -/
lemma quote_injective {x y : String} (h : quote x = quote y) : x = y := by
  have hchars := congrArg String.toList h
  rw [toList_quote, toList_quote] at hchars
  exact (quote_append_inj (congrArg (· ++ []) hchars)).1

/-! ## Lists -/

/-- What stands behind an item of a list: the other items, the closing bracket and a text. -/
def behindItem (r : List Char) : List String → List Char
  | [] => ']' :: r
  | s :: rest => ',' :: ' ' :: ((commaSeparated (s :: rest)).toList ++ ']' :: r)

/-- Behind the first item of a list comes what stands behind an item. -/
private lemma commaSeparated_cons (s : String) (rest : List String) (r : List Char) :
    (commaSeparated (s :: rest)).toList ++ ']' :: r = s.toList ++ behindItem r rest := by
  cases rest <;> simp [commaSeparated, behindItem]

section Bracketed

variable {α : Type} {write : α → String} {Class : α → Prop} {Follows : List Char → Prop}

/-- What stands behind an item may follow it. -/
private lemma follows_behindItem (hcomma : ∀ r, Follows (',' :: r))
    (hclose : ∀ r, Follows (']' :: r))
    (r : List Char) (items : List String) : Follows (behindItem r items) := by
  cases items with
  | nil => exact hclose r
  | cons s rest => exact hcomma _

/-- The items of a list and the text behind the closing bracket are determined.

**Proof sketch.** Induction on the list. The first item can be read back, since a comma or the
closing bracket comes behind it, and which of the two it is tells whether the list goes on. -/
private lemma commaSeparated_append_inj (hread : Readable write Class Follows)
    (hcomma : ∀ r, Follows (',' :: r)) (hclose : ∀ r, Follows (']' :: r))
    (hne : ∀ a, Class a → ∀ r s, (write a).toList ++ r ≠ ']' :: s) {as bs : List α}
    (has : ∀ a ∈ as, Class a) (hbs : ∀ b ∈ bs, Class b) {r s : List Char}
    (h : (commaSeparated (as.map write)).toList ++ ']' :: r =
      (commaSeparated (bs.map write)).toList ++ ']' :: s) : as = bs ∧ r = s := by
  induction as generalizing bs with
  | nil =>
    cases bs with
    | nil => simpa using h
    | cons b bs =>
      rw [List.map_cons, commaSeparated_cons] at h
      exact absurd h.symm (hne b (hbs b List.mem_cons_self) _ _)
  | cons a as ih =>
    cases bs with
    | nil =>
      rw [List.map_cons, commaSeparated_cons] at h
      exact absurd h (hne a (has a List.mem_cons_self) _ _)
    | cons b bs =>
      simp only [List.map_cons, commaSeparated_cons] at h
      obtain ⟨rfl, hrest⟩ := hread a (has a List.mem_cons_self) (hbs b List.mem_cons_self)
        (follows_behindItem hcomma hclose _ _) (follows_behindItem hcomma hclose _ _) h
      have has' : ∀ c ∈ as, Class c := fun c hc => has c (List.mem_cons_of_mem _ hc)
      have hbs' : ∀ c ∈ bs, Class c := fun c hc => hbs c (List.mem_cons_of_mem _ hc)
      cases as with
      | nil =>
        cases bs with
        | nil => simpa [behindItem] using hrest
        | cons d bs => simp [behindItem] at hrest
      | cons c as =>
        cases bs with
        | nil => simp [behindItem] at hrest
        | cons d bs =>
          simp only [List.map_cons, behindItem, List.cons.injEq, true_and] at hrest
          obtain ⟨htail, hend⟩ := ih has' hbs' hrest
          exact ⟨congrArg (a :: ·) htail, hend⟩

/-- A list between square brackets ends by itself, if its items can be read back where a comma or
the closing bracket follows and none of them begins with that bracket. -/
theorem readable_bracketed (hread : Readable write Class Follows)
    (hcomma : ∀ r, Follows (',' :: r)) (hclose : ∀ r, Follows (']' :: r))
    (hne : ∀ a, Class a → ∀ r s, (write a).toList ++ r ≠ ']' :: s) :
    Readable (fun as : List α => bracketed (as.map write)) (fun as => ∀ a ∈ as, Class a)
      (fun _ => True) := by
  intro as has bs r s hbs _ _ h
  refine commaSeparated_append_inj hread hcomma hclose hne has hbs ?_
  simpa [bracketed] using h

end Bracketed

end HigherRank.Text
