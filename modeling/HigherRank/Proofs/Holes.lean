import HigherRank.Context.Access
import HigherRank.Context.Hole
import HigherRank.Proofs.WellFormedness

set_option autoImplicit false
set_option relaxedAutoImplicit false

/-!
# Holes and positions

A hole is where the entry occurs first. Its parts are what is left when the context is cut back to
that position, and what comes behind it.

## Main results

* `HigherRank.Context.exists_hole` — an entry of a context has a hole.
* `HigherRank.Context.index_eq_ok_iff` — the first position of an entry.
* `HigherRank.Context.hole_eq_of_index`, `HigherRank.Context.splitAt_eq_of_index` — the parts around
  an entry, computed from its first position.
* `HigherRank.Context.hole₂_eq_some_iff`, `HigherRank.Context.hole₂_ne_none_iff` — what two holes
  are, and when there are two.
* `HigherRank.Context.excise_of_slot`, `HigherRank.Context.replace_of_slot`, … — the operations on a
  slot.
* `HigherRank.Context.hole_exact` — what holes, and the operations at a hole, give.
-/

namespace HigherRank.Context

variable {Γ left right : Context} {m n : Entry}

/-! ## The first occurrence -/

/-- From left to right a slot stands between its two parts. -/
lemma members_hole (left right : Context) (m : Entry) :
    members (concat (m :: left) right) = left.members ++ m :: right.members := by
  simp

/-- Behind the position of the hole stands the right part. -/
private lemma getElem?_members_hole (left right : Context) (m : Entry) (k : Nat) :
    (members (concat (m :: left) right))[left.length + 1 + k]? = right.members[k]? := by
  have hk : left.length + 1 + k = left.members.length + (k + 1) := by
    rw [length_members]
    omega
  rw [members_hole, hk, List.getElem?_append_right (by omega), Nat.add_sub_cancel_left,
    List.getElem?_cons_succ]

/-- An entry of a context has a hole. -/
theorem exists_hole (hm : m ∈ Γ) :
    ∃ left right, Γ.hole m = some (left, right) ∧ concat (m :: left) right = Γ ∧ m ∉ left := by
  cases h : Γ.hole m with
  | none => exact absurd hm (hole_eq_none_iff.mp h)
  | some parts =>
    obtain ⟨hΓ, hleft⟩ := hole_eq_some_iff.mp h
    exact ⟨parts.1, parts.2, rfl, hΓ.symm, hleft⟩

/-- The position of an entry is the first one where it stands. -/
theorem index_eq_ok_iff {i : Nat} :
    Γ.index m = .ok i ↔ Γ.members[i]? = some m ∧ ∀ j < i, Γ.members[j]? ≠ some m := by
  have hfirst : Γ.index m = .ok i ↔ Γ.members.idxOf? m = some i := by
    unfold index
    cases Γ.members.idxOf? m <;> simp
  rw [hfirst, List.idxOf?_eq_some_iff, List.getElem?_eq_some_iff]
  constructor
  · rintro ⟨hi, hm, hlt⟩
    refine ⟨⟨hi, hm⟩, fun j hj hjm => ?_⟩
    obtain ⟨_, hjm⟩ := List.getElem?_eq_some_iff.mp hjm
    exact hlt j hj hjm
  · rintro ⟨⟨hi, hm⟩, hlt⟩
    exact ⟨hi, hm, fun j hj hjm => hlt j hj (List.getElem?_eq_some_iff.mpr ⟨_, hjm⟩)⟩

/-- An entry has no position exactly if the context does not have it. -/
lemma index_eq_error_iff : Γ.index m = .error .absent ↔ m ∉ Γ := by
  have habsent : Γ.index m = .error .absent ↔ Γ.members.idxOf? m = none := by
    unfold index
    cases Γ.members.idxOf? m <;> simp
  rw [habsent, List.idxOf?_eq_none_iff, mem_members]

/-- The position of an entry is the length of what stands to the left of its first occurrence. -/
lemma index_concat (h : m ∉ left) : (concat (m :: left) right).index m = .ok left.length := by
  rw [index_eq_ok_iff, members_hole, ← length_members left]
  refine ⟨by simp, fun j hj hjm => h ?_⟩
  rw [List.getElem?_append_left hj] at hjm
  exact mem_members.mp (List.mem_of_getElem? hjm)

/-- A hole is found by its position: the context is cut back from the right to get the left part,
and the right part is what comes behind the position. -/
theorem hole_eq_of_index {i : Nat} (h : Γ.index m = .ok i) :
    Γ.hole m = some (Γ.dropNewest (Γ.length - i), ofMembers (Γ.members.drop (i + 1))) := by
  have hm : m ∈ Γ := mem_members.mp (List.mem_of_getElem? (index_eq_ok_iff.mp h).1)
  obtain ⟨left, right, hhole, rfl, hleft⟩ := exists_hole hm
  obtain rfl : left.length = i := by simpa [index_concat hleft] using h
  have hcount : ((concat (m :: left) right).length - left.length : Int).toNat =
      right.length + 1 := by
    simp only [concat, List.length_append, List.length_cons]
    omega
  have hcut : (concat (m :: left) right).dropNewest
      ((concat (m :: left) right).length - left.length) = left := by
    rw [dropNewest, hcount, concat, List.drop_length_add_append, List.drop_one, List.tail_cons]
  have hrest : ofMembers ((concat (m :: left) right).members.drop (left.length + 1)) = right := by
    rw [members_hole, ← length_members left, List.drop_length_add_append, List.drop_one,
      List.tail_cons, ofMembers_members]
  rw [hcut, hrest, hhole]

/-- What starts with the entry is what comes from its position on. -/
theorem splitAt_eq_of_index {i : Nat} (h : Γ.index m = .ok i) :
    Γ.splitAt m = some (Γ.dropNewest (Γ.length - i), ofMembers (Γ.members.drop i)) := by
  obtain ⟨hi, hm⟩ := List.getElem?_eq_some_iff.mp (index_eq_ok_iff.mp h).1
  have hcons : concat [m] (ofMembers (Γ.members.drop (i + 1))) = ofMembers (Γ.members.drop i) := by
    rw [List.drop_eq_getElem_cons hi, hm]
    simp [concat, ofMembers]
  rw [splitAt, hole_eq_of_index h, ← hcons]
  rfl

/-! ## Two holes -/

/-- Two holes take a context apart at the first occurrence of one entry, and at the first occurrence
of another one to the right of it.

**Proof sketch.** Two holes are a hole and a hole of what is to the right of it. Use
`hole_eq_some_iff` for both. -/
theorem hole₂_eq_some_iff {x y z : Context} :
    Γ.hole₂ m n = some (x, y, z) ↔
      concat (concat (m :: x) (n :: y)) z = Γ ∧ m ∉ x ∧ n ∉ y := by
  rw [concat_assoc]
  constructor
  · intro h
    cases hm : Γ.hole m with
    | none => simp [hole₂, hm] at h
    | some parts =>
      obtain ⟨left, right⟩ := parts
      simp only [hole₂, hm] at h
      obtain ⟨⟨mid, last⟩, hn, hparts⟩ := Option.map_eq_some_iff.mp h
      cases hparts
      obtain ⟨rfl, hleft⟩ := hole_eq_some_iff.mp hm
      obtain ⟨rfl, hmid⟩ := hole_eq_some_iff.mp hn
      exact ⟨rfl, hleft, hmid⟩
  · rintro ⟨rfl, hx, hy⟩
    have hm : (concat (m :: x) (concat (n :: y) z)).hole m = some (x, concat (n :: y) z) :=
      hole_eq_some_iff.mpr ⟨rfl, hx⟩
    have hn : (concat (n :: y) z).hole n = some (y, z) := hole_eq_some_iff.mpr ⟨rfl, hy⟩
    simp only [hole₂, hm, hn, Option.map_some]

/-- There are two holes exactly if the second entry stands somewhere to the right of the first
occurrence of the first one. -/
theorem hole₂_ne_none_iff :
    Γ.hole₂ m n ≠ none ↔
      ∃ i j : Nat, Γ.index m = .ok i ∧ i < j ∧ Γ.members[j]? = some n := by
  constructor
  · intro h
    obtain ⟨⟨x, y, z⟩, hparts⟩ := Option.ne_none_iff_exists'.mp h
    obtain ⟨rfl, hx, hy⟩ := hole₂_eq_some_iff.mp hparts
    rw [concat_assoc]
    refine ⟨x.length, x.length + 1 + y.length, index_concat hx, by omega, ?_⟩
    rw [getElem?_members_hole]
    exact (index_eq_ok_iff.mp (index_concat hy)).1
  · rintro ⟨i, j, hi, hij, hj⟩
    have hm : m ∈ Γ := mem_members.mp (List.mem_of_getElem? (index_eq_ok_iff.mp hi).1)
    obtain ⟨left, right, hhole, rfl, hleft⟩ := exists_hole hm
    obtain rfl : left.length = i := by simpa [index_concat hleft] using hi
    obtain ⟨k, rfl⟩ : ∃ k, j = left.length + 1 + k := ⟨j - (left.length + 1), by omega⟩
    rw [getElem?_members_hole] at hj
    obtain ⟨mid, last, hhole', -, -⟩ := exists_hole (mem_members.mp (List.mem_of_getElem? hj))
    simp [hole₂, hhole, hhole']

/-! ## Operations on a slot -/

/-- An entry that is not to the left of its slot is found there. -/
theorem excise_of_slot (hs : Γ = concat (m :: left) right) (hm : m ∉ left) :
    Γ.excise m = .ok (left, right) := by
  simp only [excise, hole_eq_some_iff.mpr ⟨hs, hm⟩]

/-- What is cut off at an entry is its slot and all to the right of it. -/
lemma truncate_of_slot (hs : Γ = concat (m :: left) right) (hm : m ∉ left) :
    Γ.truncate m = .ok left := by
  rw [truncate, excise_of_slot hs hm]
  rfl

/-- What replaces an entry stands in its slot. -/
theorem replace_of_slot (hs : Γ = concat (m :: left) right) (hm : m ∉ left) (ms : List Entry) :
    Γ.replace m ms = .ok ((left.concat (ofMembers ms)).concat right) := by
  rw [replace, excise_of_slot hs hm]
  rfl

/-- The solution of an existential stands where the existential was declared. -/
lemma solve_of_slot {x : Name} (hs : Γ = concat (.unsolved x :: left) right)
    (hx : .unsolved x ∉ left) (A : Ty) :
    Γ.solve x A = .ok (concat (.solved x A :: left) right) :=
  replace_of_slot hs hx [.solved x A]

/-! ## What holes give -/

/-- Of an entry that is not in the context there is no hole, and the operations that need one report
it as missing. An entry of the context has a hole at its first position. The parts on both sides of
it, with the entry between them, are the context again, and the left one does not hold the entry.
They are what cutting the context at that position gives, and all operations at the entry go by
them. Two holes are at the first occurrence of one entry, and at the first one of another to the
right of that; there are two exactly if the second entry stands there at all.

**Proof sketch.** Everything is read off the hole: there is none of an entry that is missing
(`hole_eq_none_iff`), and otherwise the one at the first position (`exists_hole`), which the
index gives (`index_concat`) and at which cutting the context gives the same parts
(`hole_eq_of_index`). -/
theorem hole_exact (Γ : Context) (m : Entry) :
    (m ∉ Γ →
      Γ.hole m = none ∧ Γ.splitAt m = none ∧ Γ.excise m = .error (.missingEntry m) ∧
        Γ.truncate m = .error (.missingEntry m) ∧
        ∀ ms, Γ.replace m ms = .error (.missingEntry m)) ∧
      (m ∈ Γ → ∃ (i : Nat) (left right : Context),
        Γ.hole m = some (left, right) ∧ m ∉ left ∧ concat (m :: left) right = Γ ∧
        Γ.index m = .ok i ∧ Γ.dropNewest (Γ.length - i) = left ∧
        ofMembers (Γ.members.drop (i + 1)) = right ∧
        Γ.splitAt m = some (left, concat [m] right) ∧ Γ.excise m = .ok (left, right) ∧
        Γ.truncate m = .ok left ∧
        ∀ ms, ∃ Δ, Γ.replace m ms = .ok Δ ∧ Δ.members = left.members ++ ms ++ right.members) ∧
      ∀ n,
        (Γ.hole₂ m n ≠ none ↔
          ∃ i j : Nat, Γ.index m = .ok i ∧ i < j ∧ Γ.members[j]? = some n) ∧
        ∀ x y z, Γ.hole₂ m n = some (x, y, z) →
          concat (concat (m :: x) (n :: y)) z = Γ ∧ m ∉ x ∧ n ∉ y := by
  refine ⟨fun hm => ?_, fun hm => ?_, fun n => ⟨hole₂_ne_none_iff, fun x y z h => ?_⟩⟩
  · have hhole := hole_eq_none_iff.mpr hm
    simp [splitAt, excise, truncate, replace, hhole, Except.map]
  · obtain ⟨left, right, hhole, hΓ, hleft⟩ := exists_hole hm
    have hindex : Γ.index m = .ok left.length := hΓ ▸ index_concat hleft
    obtain ⟨hcut, hrest⟩ := Prod.mk.inj (Option.some.inj
      ((hole_eq_of_index hindex).symm.trans hhole))
    refine ⟨left.length, left, right, hhole, hleft, hΓ, hindex, hcut, hrest, ?_, ?_, ?_,
      fun ms => ⟨(left.concat (ofMembers ms)).concat right, ?_, ?_⟩⟩
    · simp [splitAt, hhole]
    · simp [excise, hhole]
    · simp [truncate, excise, hhole, Except.map]
    · simp [replace, excise, hhole, Except.map]
    · simp
  · exact hole₂_eq_some_iff.mp h

/-- An entry that occurs three times, also as the second one of two holes, and one that does not
occur. -/
theorem hole_exact_repeated :
    let Γ := ofMembers [.unsolved "x", .rigid "a", .unsolved "x", .marker "a", .unsolved "x"]
    (Entry.rigid "b" ∉ Γ ∧ Γ.hole (.rigid "b") = none) ∧
      (Entry.unsolved "x" ∈ Γ ∧
        ∃ left right, Γ.hole (.unsolved "x") = some (left, right) ∧ .unsolved "x" ∉ left ∧
          concat (.unsolved "x" :: left) right = Γ) ∧
      ∃ x y z, Γ.hole₂ (.unsolved "x") (.unsolved "x") = some (x, y, z) ∧
        concat (concat (.unsolved "x" :: x) (.unsolved "x" :: y)) z = Γ ∧
        y = ofMembers [.rigid "a"] := by
  intro Γ
  have habsent : Entry.rigid "b" ∉ Γ := by decide
  have hpresent : Entry.unsolved "x" ∈ Γ := by decide
  obtain ⟨_, left, right, hhole, hleft, hΓ, -⟩ := (hole_exact Γ (.unsolved "x")).2.1 hpresent
  have hholes : Γ.hole₂ (.unsolved "x") (.unsolved "x") =
      some ([], ofMembers [.rigid "a"], ofMembers [.marker "a", .unsolved "x"]) := by decide
  exact ⟨⟨habsent, ((hole_exact Γ (.rigid "b")).1 habsent).1⟩,
    ⟨hpresent, left, right, hhole, hleft, hΓ⟩,
    _, _, _, hholes, (((hole_exact Γ (.unsolved "x")).2.2 _).2 _ _ _ hholes).1, rfl⟩

end HigherRank.Context
