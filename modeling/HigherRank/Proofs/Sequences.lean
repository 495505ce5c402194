import HigherRank.Proofs.Cells
import Mathlib.Data.List.DropRight

set_option autoImplicit false
set_option relaxedAutoImplicit false

/-!
# Contexts as lists

A context is kept with its last entry first, but it answers as the list of its entries from left to
right does, whatever operations have made it.

## Main definitions

* `HigherRank.Context.Construction` — the ways in which a context is made.
* `HigherRank.Context.Construction.build`, `HigherRank.Context.Construction.list`,
  `HigherRank.Context.Construction.cells` — the context that is made, and what the same operations
  on lists and on cells make.
* `HigherRank.Context.AnswersAs` — what a context answers, in terms of a list.

## Main results

* `HigherRank.Context.get_eq_ok_iff` — access by position, also from the right end.
* `HigherRank.Context.members_slice`, `HigherRank.Context.members_replace`,
  `HigherRank.Context.members_truncate` — operations that may fail, on the entries in reading order.
* `HigherRank.Context.Construction.members_build`, `HigherRank.Context.Construction.cells_build` —
  a construction of contexts is one of lists, and one of cells.
* `HigherRank.Context.Construction.answersAs` — whatever is built answers as the list does.
-/

namespace HigherRank.Context

variable {Γ : Context} {m : Entry} {i : Int}

/-! ## Operations on lists -/

/-- The position that is meant, where a negative one counts from the right end. -/
def position (length : Nat) (i : Int) : Int :=
  if i < 0 then length + i else i

/-- The item at a position. -/
def itemAt (l : List Entry) (i : Int) : Option Entry :=
  if 0 ≤ position l.length i then l[(position l.length i).toNat]? else none

/-- The items of a slice. -/
def sliceOf (l : List Entry) (s : Slice) : Option (List Entry) :=
  (s.positions l.length).toOption.bind fun is => is.mapM (l[·]?)

/-- The items before the first occurrence of one. -/
def before (l : List Entry) (m : Entry) : Option (List Entry) :=
  if m ∈ l then some (l.take (l.idxOf m)) else none

/-- The list with other items in the place of the first occurrence of one. -/
def replaceFirst (l : List Entry) (m : Entry) (ms : List Entry) : Option (List Entry) :=
  if m ∈ l then some (l.take (l.idxOf m) ++ ms ++ l.drop (l.idxOf m + 1)) else none

/-! ## Access by position -/

/-- There is an item at a position exactly if the position lies between the two ends. -/
private lemma itemAt_eq_none_iff {l : List Entry} :
    itemAt l i = none ↔ i < -l.length ∨ l.length ≤ i := by
  unfold itemAt position
  split <;> split <;> simp <;> omega

/-- Only the position that is meant matters. -/
private lemma get_eq_of_position {n : Nat} (h : position Γ.length i = n) : Γ.get i = Γ.get n := by
  have hn : ¬ (n : Int) < 0 := by omega
  simp only [position, Int.add_comm _ i] at h
  simp only [get, h, hn, if_false]

/-- An access outside of the list fails with the position that is meant. -/
private lemma get_of_itemAt_none (h : itemAt Γ.members i = none) :
    Γ.get i = .error (.outOfRange (position Γ.length i)) := by
  rw [itemAt_eq_none_iff, length_members] at h
  simp only [get, position, Int.add_comm _ i]
  refine if_neg fun hj => ?_
  split at hj <;> omega

/-- An entry is found where the list has it, although the context is cut back from the right to find
it. -/
private lemma get_of_itemAt_some (h : itemAt Γ.members i = some m) : Γ.get i = .ok m := by
  unfold itemAt at h
  rw [length_members] at h
  split at h
  · next hpos =>
    rw [get_eq_of_position (Int.toNat_of_nonneg hpos).symm]
    exact get_of_getElem? h
  · exact absurd h (by simp)

/-- An access gives the item at the position. -/
theorem get_eq_ok_iff : Γ.get i = .ok m ↔ itemAt Γ.members i = some m := by
  refine ⟨fun h => ?_, get_of_itemAt_some⟩
  cases hitem : itemAt Γ.members i with
  | none => simp [get_of_itemAt_none hitem] at h
  | some n => simpa [get_of_itemAt_some hitem] using h

/-- An access fails exactly at the positions outside of the list. -/
private lemma get_eq_error_iff :
    (∃ j, Γ.get i = .error (.outOfRange j)) ↔ i < -Γ.members.length ∨ Γ.members.length ≤ i := by
  rw [← itemAt_eq_none_iff]
  cases hitem : itemAt Γ.members i with
  | none => simp [get_of_itemAt_none hitem]
  | some n => simp [get_of_itemAt_some hitem]

/-- From the right end the last position is `-1`, and the first one is minus the length. -/
example : get (ofMembers [.rigid "a", .marker "a"]) (-2) = .ok (.rigid "a") :=
  rfl

/-! ## Slices and holes -/

/-- Of positions within a list all have an item. -/
private lemma mapM_getElem? {l : List Entry} {is : List Nat} (h : ∀ i ∈ is, i < l.length) :
    is.mapM (l[·]?) = some (is.filterMap (l[·]?)) := by
  induction is with
  | nil => rfl
  | cons i is ih =>
    obtain ⟨hi, his⟩ := List.forall_mem_cons.mp h
    simp [ih his, List.getElem?_eq_getElem hi]

/-- A slice has the items of the list at its positions, all of which lie in the list. -/
theorem members_slice (Γ : Context) (s : Slice) :
    (Γ.slice s).toOption.map members = sliceOf Γ.members s := by
  unfold slice sliceOf
  rw [length_members]
  cases hs : s.positions Γ.length with
  | error e => rfl
  | ok is =>
    have hlt : ∀ i ∈ is, i < Γ.members.length := by
      intro i hi
      rw [length_members]
      by_cases hstep : s.step.getD 1 = 0
      · simp [Slice.positions, hstep] at hs
      · simp only [Slice.positions, hstep, if_false, Except.ok.injEq] at hs
        exact Slice.lt_of_mem_positionsBy hstep (hs ▸ hi)
    simp [Except.map, Except.toOption, mapM_getElem? hlt]

/-- The position of the first occurrence, in the list and in the context. -/
private lemma idxOf_members {left right : Context} (h : m ∉ left) :
    (concat (m :: left) right).members.idxOf m = left.members.length := by
  rw [members_hole, List.idxOf_append]
  simp [h]

/-- Cutting off leaves what is before the first occurrence. -/
theorem members_truncate (Γ : Context) (m : Entry) :
    (Γ.truncate m).toOption.map members = before Γ.members m := by
  unfold before truncate excise
  simp only [mem_members]
  by_cases hm : m ∈ Γ
  · obtain ⟨left, right, hhole, rfl, hleft⟩ := exists_hole hm
    rw [if_pos hm, hhole, idxOf_members hleft, members_hole, List.take_left]
    rfl
  · rw [if_neg hm, hole_eq_none_iff.mpr hm]
    rfl

/-- Replacing an entry replaces its first occurrence. -/
theorem members_replace (Γ : Context) (m : Entry) (ms : List Entry) :
    (Γ.replace m ms).toOption.map members = replaceFirst Γ.members m ms := by
  unfold replaceFirst replace excise
  simp only [mem_members]
  by_cases hm : m ∈ Γ
  · obtain ⟨left, right, hhole, rfl, hleft⟩ := exists_hole hm
    rw [if_pos hm, hhole, idxOf_members hleft, members_hole, List.take_left,
      List.drop_length_add_append, List.drop_one, List.tail_cons]
    simp [Except.map, Except.toOption]
  · rw [if_neg hm, hole_eq_none_iff.mpr hm]
    rfl

/-! ## What a context answers -/

/-- A context answers as a list of entries does. -/
structure AnswersAs (Γ : Context) (l : List Entry) : Prop where
  /-- From left to right the entries are those of the list. -/
  members_eq : Γ.members = l
  /-- From right to left they are those of the list in reverse. -/
  reverse_eq : Γ = l.reverse
  reversed_cells : Γ.cells.reversed = l.reverse
  length_eq : Γ.length = l.length
  length_cells : Γ.cells.length = l.length
  get_cells : ∀ i, Γ.cells.get i = Γ.get i
  get_eq_ok : ∀ i m, Γ.get i = .ok m ↔ itemAt l i = some m
  get_eq_error : ∀ i, (∃ j, Γ.get i = .error (.outOfRange j)) ↔ i < -l.length ∨ l.length ≤ i
  drop_cells : ∀ n : Int, Γ.cells.drop n = (Γ.dropNewest n).cells
  dropNewest_eq : ∀ n : Nat, (Γ.dropNewest n).members = l.rdrop n
  dropNewest_all : ∀ n : Nat, l.length ≤ n → Γ.dropNewest n = []
  dropNewest_neg : ∀ n : Int, n < 0 → Γ.dropNewest n = Γ
  contains_eq : ∀ m, Γ.contains m = l.contains m
  index_eq_ok : ∀ m i, Γ.index m = .ok i ↔ l[i]? = some m ∧ ∀ j < i, l[j]? ≠ some m
  index_eq_error : ∀ m, Γ.index m = .error .absent ↔ m ∉ l
  count_eq : ∀ m, Γ.count m = l.count m
  filter_eq : ∀ p, members (Γ.filter p) = l.filter p
  append_eq : ∀ Δ, ∃ Θ, Γ.append (.context Δ) = .ok Θ ∧ Θ.members = l ++ Δ.members
  same_cells : ∀ Δ, Γ.cells.same Δ.cells = Γ.sameAs (.context Δ)
  sameAs_iff : ∀ Δ, Γ.sameAs (.context Δ) = true ↔ l = Δ.members

/-- Every context answers as the list of its entries does.

**Proof sketch.** Every query of the context has a lemma that says what it gives on the entries; for
the entries in the order of the list these are what is asked for. -/
private lemma answersAs_members (Γ : Context) : Γ.AnswersAs Γ.members where
  members_eq := rfl
  reverse_eq := by simp [members]
  reversed_cells := by simp [members]
  length_eq := Γ.length_members.symm
  length_cells := by simp
  get_cells := Γ.get_cells
  get_eq_ok _ _ := get_eq_ok_iff
  get_eq_error _ := get_eq_error_iff
  drop_cells := Γ.drop_cells
  dropNewest_eq n := by simp [List.rdrop]
  dropNewest_all n hn := by
    rw [length_members] at hn
    simp [dropNewest, hn]
  dropNewest_neg n hn := by
    have : n.toNat = 0 := by omega
    simp [dropNewest, this]
  contains_eq m := by simp
  index_eq_ok _ _ := index_eq_ok_iff
  index_eq_error m := by rw [index_eq_error_iff, mem_members]
  count_eq m := by simp [members]
  filter_eq p := members_filter p Γ
  append_eq Δ := ⟨Γ.concat Δ, rfl, members_concat Γ Δ⟩
  same_cells := Γ.same_cells
  sameAs_iff Δ := by simp [sameAs, members_inj]

/-! ## Constructions -/

/-- The ways in which a context is made from lists of entries and from other contexts. -/
inductive Construction where
  | ofMembers (ms : List Entry)
  | add (c : Construction) (m : Entry)
  | concat (c d : Construction)
  | drop (c : Construction) (n : Int)
  | dropLast (c : Construction)
  | filter (c : Construction) (p : Entry → Bool)
  | slice (c : Construction) (s : Slice)
  | replace (c : Construction) (m : Entry) (ms : List Entry)
  | truncate (c : Construction) (m : Entry)

namespace Construction

/-- The context that is made, unless an operation fails. -/
def build : Construction → Option Context
  | ofMembers ms => some (Context.ofMembers ms)
  | add c m => c.build.map (m :: ·)
  | concat c d => c.build.bind fun Γ => d.build.map Γ.concat
  | drop c n => c.build.map (·.dropNewest n)
  | dropLast c => c.build.map Context.dropLast
  | filter c p => c.build.map (List.filter p)
  | slice c s => c.build.bind fun Γ => (Γ.slice s).toOption
  | replace c m ms => c.build.bind fun Γ => (Γ.replace m ms).toOption
  | truncate c m => c.build.bind fun Γ => (Γ.truncate m).toOption

/-- The cells that the same operations on cells make. -/
def cells : Construction → Option Cells
  | ofMembers ms => some (Cells.ofMembers ms)
  | add c m => c.cells.map (·.add m)
  | concat c d => c.cells.bind fun C => d.cells.map fun D => C.addAll D.members
  | drop c n => c.cells.map (·.drop n)
  | dropLast c => c.cells.map Cells.dropLast
  | filter c p => c.cells.map (·.filter p)
  | slice c s => c.cells.bind fun C => (C.slice s).toOption
  | replace c m ms => c.cells.bind (·.replace m ms)
  | truncate c m => c.cells.bind (·.truncate m)

/-- The list that the same operations on lists make. -/
def list : Construction → Option (List Entry)
  | ofMembers ms => some ms
  | add c m => c.list.map (· ++ [m])
  | concat c d => c.list.bind fun l => d.list.map (l ++ ·)
  | drop c n => c.list.map (·.rdrop n.toNat)
  | dropLast c => c.list.map List.dropLast
  | filter c p => c.list.map (List.filter p)
  | slice c s => c.list.bind (sliceOf · s)
  | replace c m ms => c.list.bind (replaceFirst · m ms)
  | truncate c m => c.list.bind (before · m)

/-- What is built has the entries of the list. -/
theorem members_build (c : Construction) : c.build.map members = c.list := by
  -- one case for each operation, with what the operation does to the entries
  induction c with
  | ofMembers ms => simp [build, list]
  | add c m ih | drop c n ih | dropLast c ih | filter c p ih =>
    rw [build, list, ← ih]
    cases c.build <;> simp [List.rdrop]
  | concat c d ihc ihd =>
    rw [build, list, ← ihc, ← ihd]
    cases c.build <;> cases d.build <;> simp
  | slice c s ih =>
    rw [build, list, ← ih]
    cases c.build <;> simp [members_slice]
  | replace c m ms ih =>
    rw [build, list, ← ih]
    cases c.build <;> simp [members_replace]
  | truncate c m ih =>
    rw [build, list, ← ih]
    cases c.build <;> simp [members_truncate]

/-- What is kept is cells of the context, with lengths that are right.

**Proof sketch.** Induction on the construction. Every operation on contexts agrees with that on
cells (`drop_cells`, `slice_cells`, …), and it fails on the cells exactly if it does on the
context. -/
theorem cells_build (c : Construction) : c.cells = c.build.map Context.cells := by
  induction c with
  | ofMembers ms => simp [cells, build]
  | add c m ih | drop c n ih | dropLast c ih | filter c p ih =>
    rw [cells, build, ih]
    cases c.build <;> simp
  | concat c d ihc ihd =>
    rw [cells, build, ihc, ihd]
    cases c.build <;> cases d.build <;> simp
  | slice c s ih =>
    rw [cells, build, ih]
    cases c.build with
    | none => rfl
    | some Γ =>
      simp only [Option.map_some, Option.bind_some, slice_cells]
      cases Γ.slice s <;> rfl
  | replace c m ms ih =>
    rw [cells, build, ih]
    cases c.build <;> simp [replace_cells]
  | truncate c m ih =>
    rw [cells, build, ih]
    cases c.build <;> simp [truncate_cells]

/-- A construction fails exactly if the one of lists does, and what it builds answers as the list
does. Its cells are made by the same operations on cells. -/
theorem answersAs (c : Construction) :
    c.cells = c.build.map Context.cells ∧ Option.Rel AnswersAs c.build c.list := by
  refine ⟨c.cells_build, ?_⟩
  rw [← members_build]
  cases c.build with
  | none => exact .none
  | some Γ => exact .some Γ.answersAs_members

end Construction

end HigherRank.Context
