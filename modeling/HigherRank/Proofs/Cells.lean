import HigherRank.Proofs.Holes
import Mathlib.Logic.Function.Iterate

set_option autoImplicit false
set_option relaxedAutoImplicit false

/-!
# Contexts as cells

A context may be kept as cells that grow to the right. Each cell holds what is to its left, one
entry, and the number of entries so far, so that the length of a context is at hand. Positions are
counted from the left, cells are taken off from the right, and the number of cells to take off comes
from the lengths that are kept.

## Main definitions

* `HigherRank.Cells` — the cells, and the operations on them.
* `HigherRank.Context.cells` — the cells of a context.

## Main results

* `HigherRank.Context.length_cells` — the length that is kept is the number of entries.
* `HigherRank.Context.add_cells`, `HigherRank.Context.drop_cells`, `HigherRank.Context.get_cells`,
  `HigherRank.Context.splitAt_cells`, … — each operation on the cells of a context gives what it
  gives on the context, and its lengths are right again.
-/

namespace HigherRank

/-- Cells with an entry, what is to its left, and the number of entries so far. -/
inductive Cells where
  | empty
  | cell (left : Cells) (m : Entry) (length : Nat)

namespace Cells

open Context (AccessError Slice)

/-- The length that is kept. -/
def length : Cells → Nat
  | empty => 0
  | cell _ _ n => n

/-- One entry more on the right. -/
def add (c : Cells) (m : Entry) : Cells :=
  cell c m (1 + c.length)

/-- The entries from right to left. -/
def reversed : Cells → List Entry
  | empty => []
  | cell left m _ => m :: left.reversed

/-- The entries from left to right. -/
def members (c : Cells) : List Entry :=
  c.reversed.reverse

/-- Further entries on the right, from left to right. -/
def addAll (c : Cells) (ms : List Entry) : Cells :=
  ms.foldl add c

/-- The cells of the given entries from left to right. -/
def ofMembers (ms : List Entry) : Cells :=
  empty.addAll ms

def dropLast : Cells → Cells
  | empty => empty
  | cell left _ _ => left

/-- All but the last `n` entries. They are taken off one by one, unless all are to go. -/
def drop (c : Cells) (n : Int) : Cells :=
  if c.length ≤ n then empty else dropLast^[n.toNat] c

def last : Cells → Except AccessError Entry
  | empty => .error .noLast
  | cell _ m _ => .ok m

/-- The entry at a position. -/
def get (c : Cells) (i : Int) : Except AccessError Entry :=
  let j := if i < 0 then i + c.length else i
  if 0 ≤ j ∧ j < c.length then (c.drop (c.length - j - 1)).last
  else .error (.outOfRange j)

/-- Whether both have the same entries: their lengths come first, then entry by entry from the
right. -/
def same (c d : Cells) : Bool :=
  c.length == d.length && (c.reversed.zip d.reversed).all fun (m, n) => m == n

def filter (c : Cells) (p : Entry → Bool) : Cells :=
  ofMembers (c.members.filter p)

def slice (c : Cells) (s : Slice) : Except AccessError Cells :=
  (s.positions c.members.length).map fun is => ofMembers (is.filterMap (c.members[·]?))

/-- What is to the left of the first occurrence of an entry, and what starts with it. -/
def splitAt (c : Cells) (m : Entry) : Option (Cells × Cells) :=
  (c.members.idxOf? m).map fun i : Nat =>
    (c.drop (c.length - i), ofMembers (c.members.drop i))

/-- What is to the left and to the right of the first occurrence of an entry. -/
def hole (c : Cells) (m : Entry) : Option (Cells × Cells) :=
  (c.splitAt m).map fun (left, rest) => (left, ofMembers (rest.members.drop 1))

/-- The given entries in the place of the first occurrence of one. -/
def replace (c : Cells) (m : Entry) (ms : List Entry) : Option Cells :=
  (c.hole m).map fun (left, right) => (left.addAll ms).addAll right.members

/-- What is to the left of the first occurrence of an entry. -/
def truncate (c : Cells) (m : Entry) : Option Cells :=
  (c.hole m).map Prod.fst

end Cells

namespace Context

variable (Γ Δ : Context) (m : Entry)

/-- The cells of a context. -/
def cells : Context → Cells
  | [] => .empty
  | m :: Γ => (cells Γ).add m

/-! ## Growing -/

/-- Adding a cell adds an entry on the right. -/
@[simp]
theorem add_cells : Γ.cells.add m = cells (m :: Γ) :=
  rfl

/-- The length that is kept is that of the context. -/
@[simp]
theorem length_cells : Γ.cells.length = Γ.length := by
  induction Γ with
  | nil => rfl
  | cons m Γ ih => rw [← add_cells, Cells.add, Cells.length, ih, List.length_cons, Nat.add_comm]

/-- From right to left the cells hold the entries as the context does. -/
@[simp]
lemma reversed_cells : Γ.cells.reversed = Γ := by
  induction Γ with
  | nil => rfl
  | cons m Γ ih => rw [← add_cells, Cells.add, Cells.reversed, ih]

/-- From left to right the cells hold the entries of the context. -/
@[simp]
lemma members_cells : Γ.cells.members = Γ.members := by
  rw [Cells.members, reversed_cells, members]

/-- Adding entries one by one puts them to the right of the context. -/
@[simp]
lemma addAll_cells (ms : List Entry) : Γ.cells.addAll ms = cells (Γ.concat (ofMembers ms)) := by
  induction ms generalizing Γ with
  | nil => rfl
  | cons m ms ih =>
    have hcons : concat (m :: Γ) (ofMembers ms) = Γ.concat (ofMembers (m :: ms)) := by
      simp [concat, ofMembers]
    rw [← hcons, ← ih]
    rfl

/-- Cells and contexts are made alike from a list of entries. -/
@[simp]
lemma ofMembers_cells (ms : List Entry) : Cells.ofMembers ms = cells (ofMembers ms) := by
  have h := addAll_cells [] ms
  rwa [concat, List.append_nil] at h

/-- Leaving out entries does the same to the cells. -/
@[simp]
lemma filter_cells (p : Entry → Bool) : Γ.cells.filter p = cells (Γ.filter p) := by
  rw [Cells.filter, members_cells, ← members_filter, ofMembers_cells, ofMembers_members]

/-- A slice of the cells is a slice of the context. -/
lemma slice_cells (s : Slice) : Γ.cells.slice s = (Γ.slice s).map cells := by
  unfold Cells.slice slice
  rw [members_cells, length_members]
  cases s.positions Γ.length <;> simp [Except.map]

/-! ## Cutting -/

/-- Taking off the last cell takes off the newest entry. -/
@[simp]
lemma dropLast_cells : Γ.cells.dropLast = Γ.dropLast.cells := by
  cases Γ <;> rfl

/-- Taking off cells one by one takes off as many entries at once. -/
private lemma iterate_dropLast_cells (n : Nat) : Cells.dropLast^[n] Γ.cells = cells (Γ.drop n) := by
  induction n generalizing Γ with
  | zero => rfl
  | succ n ih => rw [Function.iterate_succ_apply, dropLast_cells, ih, dropLast, List.drop_tail]

/-- Dropping cells drops the newest entries, for any number. -/
@[simp]
theorem drop_cells (n : Int) : Γ.cells.drop n = cells (Γ.dropNewest n) := by
  unfold Cells.drop dropNewest
  rw [length_cells, iterate_dropLast_cells]
  split
  · next h => rw [List.drop_eq_nil_of_le (by omega), cells]
  · rfl

/-! ## Access -/

/-- The last cell holds the newest entry. -/
@[simp]
lemma last_cells : Γ.cells.last = Γ.last := by
  cases Γ <;> rfl

/-- Both give the same entry at a position, or fail alike. -/
theorem get_cells (i : Int) : Γ.cells.get i = Γ.get i := by
  simp only [Cells.get, get, length_cells, drop_cells, last_cells]

/-- Contexts of the same length, compared entry by entry. -/
private lemma all_zip_eq {l l' : List Entry} (h : l.length = l'.length) :
    ((l.zip l').all fun (m, n) => m == n) = decide (l = l') := by
  induction l generalizing l' with
  | nil => cases l' <;> simp_all
  | cons m l ih =>
    cases l' with
    | nil => simp at h
    | cons n l' =>
      rw [List.zip_cons_cons, List.all_cons, ih (by simpa using h)]
      by_cases hmn : m = n <;> simp [hmn]

/-- Comparing lengths and then entries decides whether the contexts are equal. -/
lemma same_cells : Γ.cells.same Δ.cells = decide (Γ = Δ) := by
  unfold Cells.same
  simp only [length_cells, reversed_cells]
  by_cases h : Γ.length = Δ.length
  · rw [all_zip_eq h]
    simp [h]
  · have hne : Γ ≠ Δ := fun heq => h (congrArg List.length heq)
    simp [h, hne]

/-! ## Holes -/

/-- Splitting at an entry does the same to the cells. -/
theorem splitAt_cells :
    Γ.cells.splitAt m = (Γ.splitAt m).map fun (left, rest) => (left.cells, rest.cells) := by
  unfold Cells.splitAt
  simp only [members_cells, length_cells, drop_cells, ofMembers_cells]
  cases hindex : Γ.members.idxOf? m with
  | none =>
    have hm : m ∉ Γ := by rwa [List.idxOf?_eq_none_iff, mem_members] at hindex
    rw [splitAt, hole_eq_none_iff.mpr hm]
    rfl
  | some i =>
    have hi : Γ.index m = .ok i := by rw [index, hindex]
    rw [splitAt_eq_of_index hi]
    rfl

/-- Splitting around an entry does the same to the cells. -/
private lemma hole_cells :
    Γ.cells.hole m = (Γ.hole m).map fun (left, right) => (left.cells, right.cells) := by
  unfold Cells.hole
  rw [splitAt_cells, splitAt]
  cases Γ.hole m with
  | none => rfl
  | some parts => simp

/-- Replacing an entry does the same to the cells. -/
lemma replace_cells (ms : List Entry) :
    Γ.cells.replace m ms = (Γ.replace m ms).toOption.map cells := by
  unfold Cells.replace replace excise
  rw [hole_cells]
  cases Γ.hole m <;> simp [Except.map, Except.toOption]

/-- Cutting off at an entry does the same to the cells. -/
lemma truncate_cells : Γ.cells.truncate m = (Γ.truncate m).toOption.map cells := by
  unfold Cells.truncate truncate excise
  rw [hole_cells]
  cases Γ.hole m <;> simp [Except.map, Except.toOption]

end Context

end HigherRank
