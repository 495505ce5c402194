import HigherRank.Context.WellFormed
import Mathlib.Tactic.Common

set_option autoImplicit false
set_option relaxedAutoImplicit false

/-!
# Well-formedness: checks and judgments

The checks of types and contexts decide the judgments, and they never fail on a well-formed
context. In a well-formed context a name is declared once, so that a slot is determined by its
entry.

## Main definitions

* `HigherRank.Context.SolvedOnce` — no existential has two solutions.

## Main results

* `HigherRank.Context.isWellFormedType_iff` — the check of types decides scope.
* `HigherRank.Context.isWellFormed_iff` — the check of contexts decides well-formedness.
* `HigherRank.Context.isWellFormed_decides` — with what follows for well-formed contexts.
* `HigherRank.Context.WellFormed.countP_le_one` — what is admitted only once is there only once.
* `HigherRank.Context.lookupSolution_of_mem`, `HigherRank.Context.lookupSolution_of_not_mem` —
  what a look-up finds.
* `HigherRank.Context.WellFormed.not_declares_left`,
  `HigherRank.Context.WellFormed.not_declares_right` — a name is declared in one slot only.
* `HigherRank.Context.WellFormed.slot_unique` — an entry stands in one slot only.
-/

namespace HigherRank.Context

/-! ## Declared names -/

/-- A context declares the rigid variables and the existentials. -/
lemma declares_iff {Γ : Context} {x : Name} :
    Γ.declares x ↔ .rigid x ∈ Γ ∨ Γ.Existential x := by
  simp only [declares, List.any_eq_true, Existential]
  constructor
  · rintro ⟨m, hm, h⟩
    cases m <;> simp only [Entry.declares, decide_eq_true_eq, Bool.false_eq_true] at h
    · exact .inl (h ▸ hm)
    · exact .inr (.inl (h ▸ hm))
    · exact .inr (.inr ⟨_, h ▸ hm⟩)
  · rintro (h | h | ⟨A, h⟩) <;> exact ⟨_, h, by simp [Entry.declares]⟩

/-- What is declared stays so with more entries. -/
lemma declares_mono {Γ Δ : Context} {x : Name} (hx : Γ.declares x) (hsub : Γ ⊆ Δ) :
    Δ.declares x := by
  obtain ⟨m, hm, hmx⟩ := List.any_eq_true.mp hx
  exact List.any_eq_true.mpr ⟨m, hsub hm, hmx⟩

/-- A name is declared by the newest entry or by another one. -/
@[simp]
lemma declares_cons (m : Entry) (Γ : Context) (x : Name) :
    declares (m :: Γ) x = (m.declares x || Γ.declares x) :=
  rfl

/-- A name is declared in either part of a context. -/
@[simp]
lemma declares_concat (Γ Δ : Context) (x : Name) :
    (Γ.concat Δ).declares x = (Δ.declares x || Γ.declares x) := by
  simp [declares, concat]

/-- The entries of two contexts in a row are those of both. -/
@[simp]
lemma mem_concat {Γ Δ : Context} {m : Entry} : m ∈ Γ.concat Δ ↔ m ∈ Δ ∨ m ∈ Γ := by
  simp [concat]

/-- With nothing to the right of it a context stays as it is. -/
@[simp]
lemma concat_nil (Γ : Context) : Γ.concat [] = Γ :=
  rfl

/-- The newest entry of two contexts in a row is that of the right one. -/
@[simp]
lemma concat_cons (Γ Δ : Context) (m : Entry) : Γ.concat (m :: Δ) = m :: Γ.concat Δ :=
  rfl

/-- Three contexts in a row may be put together from either end. -/
lemma concat_assoc (Γ Δ Θ : Context) : (Γ.concat Δ).concat Θ = Γ.concat (Δ.concat Θ) :=
  (List.append_assoc Θ Δ Γ).symm

/-- An entry may be counted among those to the right of it. -/
lemma concat_cons_left (m : Entry) (left right : Context) :
    concat (m :: left) right = left.concat (right ++ [m]) := by
  simp [concat]

/-- A slot to the right of another slot, seen from the whole context. -/
lemma slot_of_right {Γ left mid right : Context} {m n : Entry}
    (hs : Γ = concat (m :: left) (concat (n :: mid) right)) :
    Γ = concat (n :: concat (m :: left) mid) right := by
  rw [hs, ← concat_assoc]
  rfl

/-- An existential stays one behind another entry. -/
lemma Existential.cons {Γ : Context} {x : Name} (h : Γ.Existential x) (m : Entry) :
    Existential (m :: Γ) x :=
  h.mono (List.subset_cons_self m Γ)

/-- A type that is in scope stays in scope when the context grows. -/
lemma Scopes.cons {Γ : Context} {A : Ty} (h : Γ.Scopes A) (m : Entry) : Scopes (m :: Γ) A :=
  h.mono (List.subset_cons_self m Γ)

/-! ## Looking up -/

/-- No existential has two solutions. -/
def SolvedOnce (Γ : Context) : Prop :=
  ∀ x, (Γ.solutionsOf x).length ≤ 1

/-- Of types of which there is at most one a look-up finds the only one. -/
private lemma exists_onlyType (x : Name) (entry : Ty → Entry) {As : List Ty} (h : As.length ≤ 1) :
    ∃ r, onlyType x entry As = .ok r ∧ ∀ A, r = some A ↔ A ∈ As := by
  rcases As with _ | ⟨A, _ | ⟨B, As⟩⟩
  · exact ⟨none, rfl, by simp⟩
  · exact ⟨some A, rfl, by simp [eq_comm]⟩
  · simp at h

/-- A new entry may add a solution at the end. -/
private lemma solutionsOf_cons (m : Entry) (Γ : Context) (x : Name) :
    solutionsOf (m :: Γ) x = Γ.solutionsOf x ++ (m.solution? x).toList := by
  simp only [solutionsOf, members_cons, List.filterMap_append]
  cases h : m.solution? x <;> simp [h]

/-- An existential that no entry solves has no solutions. -/
private lemma solutionsOf_eq_nil {Γ : Context} {x : Name} (h : ∀ A, .solved x A ∉ Γ) :
    Γ.solutionsOf x = [] :=
  List.eq_nil_iff_forall_not_mem.mpr fun A hA => h A (mem_solutionsOf.mp hA)

/-- The look-up of a solution finds what the context holds. -/
private lemma exists_lookupSolution {Γ : Context} (h : Γ.SolvedOnce) (x : Name) :
    ∃ r, Γ.lookupSolution x = .ok r ∧ ∀ A, r = some A ↔ .solved x A ∈ Γ := by
  obtain ⟨r, hr, hA⟩ := exists_onlyType x (.solved x) (h x)
  exact ⟨r, hr, fun A => (hA A).trans mem_solutionsOf⟩

/-- A solution that stands in the context is found. -/
theorem lookupSolution_of_mem {Γ : Context} {x : Name} {A : Ty} (h : Γ.SolvedOnce)
    (hm : .solved x A ∈ Γ) : Γ.lookupSolution x = .ok (some A) := by
  obtain ⟨r, hr, hA⟩ := exists_lookupSolution h x
  rw [hr, (hA A).mpr hm]

/-- Nothing is found for an existential without a solution. -/
theorem lookupSolution_of_not_mem {Γ : Context} {x : Name} (h : ∀ A, .solved x A ∉ Γ) :
    Γ.lookupSolution x = .ok none := by
  simp [lookupSolution, solutionsOf_eq_nil h, onlyType]

/-- A rigid variable adds no second solution. -/
private lemma SolvedOnce.rigid_cons {Γ : Context} (h : Γ.SolvedOnce) (a : Name) :
    SolvedOnce (.rigid a :: Γ) := by
  intro x
  simpa [solutionsOf_cons, Entry.solution?] using h x

/-- The look-up of an existential says whether it is declared. -/
private lemma hasExistential_iff {Γ : Context} (h : Γ.SolvedOnce) (x : Name) :
    ∃ b, Γ.hasExistential x = .ok b ∧ (b = true ↔ Γ.Existential x) := by
  unfold hasExistential Existential
  by_cases hu : .unsolved x ∈ Γ
  · exact ⟨true, by simp [hu], by simp [hu]⟩
  · by_cases hs : ∃ A, .solved x A ∈ Γ
    · obtain ⟨A, hA⟩ := hs
      exact ⟨true, by simp [hu, lookupSolution_of_mem h hA, Except.map],
        by simpa [hu] using ⟨A, hA⟩⟩
    · have hnone := lookupSolution_of_not_mem (not_exists.mp hs)
      exact ⟨false, by simp [hu, hnone, Except.map], by simpa [hu] using hs⟩

/-! ## Well-formed types -/

/-- The check of a type decides whether it is in scope.

**Proof sketch.** Induction on the type. The rigid variable that a binder adds to the context is
no solution, so that look-ups below the binder do not fail either, even if a variable of that
name is declared already. -/
theorem isWellFormedType_iff {Γ : Context} (h : Γ.SolvedOnce) (A : Ty) :
    ∃ b, Γ.isWellFormedType A = .ok b ∧ (b = true ↔ Γ.Scopes A) := by
  induction A generalizing Γ with
  | unit => exact ⟨true, rfl, by simp⟩
  | var a => exact ⟨_, rfl, by simp [scopes_var]⟩
  | evar x =>
    obtain ⟨b, hb, hiff⟩ := hasExistential_iff h x
    exact ⟨b, hb, hiff.trans scopes_evar.symm⟩
  | arr A B ihA ihB =>
    obtain ⟨a, ha, hA⟩ := ihA h
    obtain ⟨b, hb, hB⟩ := ihB h
    cases a with
    | true =>
      refine ⟨b, by simp [isWellFormedType, ha, hb], ?_⟩
      rw [scopes_arr, ← hA, ← hB]
      simp
    | false =>
      refine ⟨false, by simp [isWellFormedType, ha], ?_⟩
      rw [scopes_arr, ← hA]
      simp
  | all a A ih =>
    obtain ⟨b, hb, hA⟩ := ih (h.rigid_cons a)
    exact ⟨b, hb, hA.trans scopes_all.symm⟩

/-- A type passes the check exactly if it is in scope. -/
lemma isWellFormedType_eq_true_iff {Γ : Context} (h : Γ.SolvedOnce) {A : Ty} :
    Γ.isWellFormedType A = .ok true ↔ Γ.Scopes A := by
  obtain ⟨b, hb, hA⟩ := isWellFormedType_iff h A
  rw [hb, ← hA, Except.ok.injEq]

/-! ## Well-formed contexts -/

/-- An admitted entry declares a new name. -/
lemma Admits.not_declares {Γ : Context} {m : Entry} {x : Name} (h : Γ.Admits m)
    (hx : m.declares x) : ¬ Γ.declares x := by
  cases h <;> simp only [Entry.declares, decide_eq_true_eq, Bool.false_eq_true] at hx
  all_goals exact hx ▸ ‹_›

/-- What is admitted is not there yet. -/
lemma Admits.not_mem {Γ : Context} {m : Entry} (h : Γ.Admits m) : m ∉ Γ := by
  cases h with
  | rigid _ hnot => exact fun hm => hnot (declares_iff.mpr (.inl hm))
  | assumed _ A hnot _ => exact hnot A
  | unsolved _ hnot => exact fun hm => hnot (declares_iff.mpr (.inr (.inl hm)))
  | solved _ A hnot => exact fun hm => hnot (declares_iff.mpr (.inr (.inr ⟨A, hm⟩)))
  | marker _ hnot _ => exact hnot

/-- If an entry of a kind is admitted only where there is none of this kind, then a well-formed
context has at most one of them. -/
theorem WellFormed.countP_le_one {Γ : Context} {p : Entry → Bool} (h : Γ.WellFormed)
    (hp : ∀ {Δ : Context} {m : Entry}, Δ.Admits m → p m → ∀ n ∈ Δ, ¬ p n) : Γ.countP p ≤ 1 := by
  induction h with
  | nil => simp
  | @cons Γ m _ hm ih =>
    rw [List.countP_cons]
    split
    · have hnone : Γ.countP p = 0 := List.countP_eq_zero.mpr (hp hm ‹_›)
      omega
    · exact ih

/-- No name is declared twice. -/
private lemma WellFormed.countP_declares {Γ : Context} (h : Γ.WellFormed) (x : Name) :
    Γ.countP (·.declares x) ≤ 1 := by
  refine h.countP_le_one fun {Δ m} hm hx n hn hnx => hm.not_declares hx ?_
  exact List.any_eq_true.mpr ⟨n, hn, hnx⟩

/-- In a well-formed context no existential has two solutions. -/
lemma WellFormed.solvedOnce {Γ : Context} (h : Γ.WellFormed) : Γ.SolvedOnce := by
  intro x
  rw [solutionsOf, List.length_filterMap_eq_countP, members, List.countP_reverse]
  refine Nat.le_trans (List.countP_mono_left fun m _ hm => ?_) (h.countP_declares x)
  obtain ⟨A, hA⟩ := Option.isSome_iff_exists.mp hm
  obtain rfl := Entry.solution?_eq_some.mp hA
  simp [Entry.declares]

/-- In a well-formed context no term variable is assumed to have two types. -/
private lemma WellFormed.assumedOnce {Γ : Context} (h : Γ.WellFormed) (x : Name) :
    (Γ.assumptionsOf x).length ≤ 1 := by
  rw [assumptionsOf, List.length_filterMap_eq_countP, members, List.countP_reverse]
  refine h.countP_le_one fun {Δ m} hm hmx n hn hnx => ?_
  obtain ⟨A, hA⟩ := Option.isSome_iff_exists.mp hmx
  obtain ⟨B, hB⟩ := Option.isSome_iff_exists.mp hnx
  obtain rfl := Entry.assumption?_eq_some.mp hA
  obtain rfl := Entry.assumption?_eq_some.mp hB
  cases hm with
  | assumed _ _ hnot _ => exact hnot B hn

/-- The look-up of an assumption finds what the context holds. -/
private lemma WellFormed.exists_lookupAssumption {Γ : Context} (h : Γ.WellFormed) (x : Name) :
    ∃ r, Γ.lookupAssumption x = .ok r ∧ ∀ A, r = some A ↔ .assumed x A ∈ Γ := by
  obtain ⟨r, hr, hA⟩ := exists_onlyType x (.assumed x) (h.assumedOnce x)
  exact ⟨r, hr, fun A => (hA A).trans mem_assumptionsOf⟩

/-- The check of an entry decides whether it is admitted.

**Proof sketch.** By the kind of the entry. The tests of the names are those of the rule, and the
test of a type, which gives an answer since every existential is solved at most once, decides
whether the type is in scope (`isWellFormedType_iff`). -/
private lemma admits_iff {Γ : Context} (h : Γ.WellFormed) (m : Entry) :
    ∃ b, Γ.admits m = .ok b ∧ (b = true ↔ Γ.Admits m) := by
  cases m with
  | rigid a =>
    refine ⟨_, rfl, ?_⟩
    rw [Bool.not_eq_true']
    exact ⟨fun hx => .rigid a (by simp [hx]), fun hm => by cases hm; simp_all⟩
  | unsolved x =>
    refine ⟨_, rfl, ?_⟩
    rw [Bool.not_eq_true']
    exact ⟨fun hx => .unsolved x (by simp [hx]), fun hm => by cases hm; simp_all⟩
  | marker x =>
    refine ⟨_, rfl, ?_⟩
    rw [decide_eq_true_eq]
    exact ⟨fun hx => .marker x hx.1 hx.2, fun hm => by cases hm; simp_all⟩
  | assumed x A =>
    obtain ⟨b, hb, hA⟩ := isWellFormedType_iff h.solvedOnce A
    by_cases hx : Γ.assumptionsOf x = []
    · refine ⟨b, by simp [admits, hx, hb], hA.trans ⟨fun hs => ?_, fun hm => ?_⟩⟩
      · refine .assumed x A (fun B hB => ?_) hs
        simpa [hx] using mem_assumptionsOf.mpr hB
      · cases hm
        assumption
    · refine ⟨false, by simp [admits, hx], ?_⟩
      simp only [Bool.false_eq_true, false_iff]
      rintro (_ | ⟨_, _, hnot, _⟩)
      exact hx (List.eq_nil_iff_forall_not_mem.mpr fun B hB => hnot B (mem_assumptionsOf.mp hB))
  | solved x A =>
    obtain ⟨b, hb, hA⟩ := isWellFormedType_iff h.solvedOnce A
    by_cases hx : Γ.declares x ∨ ¬ A.isMono
    · refine ⟨false, by rw [admits, if_pos hx], ?_⟩
      simp only [Bool.false_eq_true, false_iff]
      rintro (_ | _ | _ | ⟨_, _, hnot, hmono, _⟩)
      exact hx.elim hnot fun hm => hm hmono
    · refine ⟨b, by rw [admits, if_neg hx, hb], hA.trans ⟨fun hs => ?_, fun hm => ?_⟩⟩
      · rw [not_or, not_not] at hx
        exact .solved x A hx.1 hx.2 hs
      · cases hm
        assumption

/-- The check of a context decides whether it is well-formed. -/
theorem isWellFormed_iff (Γ : Context) :
    ∃ b, Γ.isWellFormed = .ok b ∧ (b = true ↔ Γ.WellFormed) := by
  induction Γ with
  | nil => exact ⟨true, rfl, by simpa using WellFormed.nil⟩
  | cons m Γ ih =>
    obtain ⟨b, hb, hΓ⟩ := ih
    cases b with
    | false =>
      refine ⟨false, by simp [isWellFormed, hb], ?_⟩
      simp only [Bool.false_eq_true, false_iff] at hΓ ⊢
      exact fun h => hΓ h.of_cons
    | true =>
      have hwf := hΓ.mp rfl
      obtain ⟨c, hc, hm⟩ := admits_iff hwf m
      refine ⟨c, by simp [isWellFormed, hb, hc], ?_⟩
      rw [wellFormed_cons, hm]
      simp [hwf]

/-- A context passes the check exactly if it is well-formed. -/
lemma isWellFormed_eq_true_iff {Γ : Context} : Γ.isWellFormed = .ok true ↔ Γ.WellFormed := by
  obtain ⟨b, hb, hΓ⟩ := isWellFormed_iff Γ
  rw [hb, ← hΓ, Except.ok.injEq]

/-! ## Slots -/

/-- Every entry of a context stands in a slot. -/
lemma exists_concat_of_mem {Γ : Context} {m : Entry} (h : m ∈ Γ) :
    ∃ left right, Γ = concat (m :: left) right := by
  obtain ⟨right, left, rfl⟩ := List.append_of_mem h
  exact ⟨left, right, rfl⟩

namespace WellFormed

variable {Γ left right : Context} {m : Entry} {x : Name}

/-- What is to the left of a slot admits the entry in it. -/
lemma admits_of_concat (h : WellFormed (concat (m :: left) right)) : left.Admits m :=
  (wellFormed_cons.mp h.of_concat).2

/-- A name that is declared in a slot is not declared to the left of it. -/
theorem not_declares_left (h : WellFormed (concat (m :: left) right)) (hm : m.declares x) :
    ¬ left.declares x :=
  h.admits_of_concat.not_declares hm

/-- A name that is declared in a slot is not declared to the right of it. -/
theorem not_declares_right (h : WellFormed (concat (m :: left) right)) (hm : m.declares x) :
    ¬ declares right x := by
  induction right with
  | nil => simp [declares]
  | cons n right ih =>
    obtain ⟨hΓ, hadm⟩ := wellFormed_cons (Γ := concat (m :: left) right).mp h
    have hn : ¬ n.declares x := fun hn => hadm.not_declares hn (by simp [hm])
    simpa [hn] using ih hΓ

/-- An entry that declares a name is the only one that does. -/
lemma eq_of_declares {n : Entry} (h : Γ.WellFormed) (hm : m ∈ Γ) (hn : n ∈ Γ)
    (hmx : m.declares x) (hnx : n.declares x) : m = n := by
  obtain ⟨left, right, rfl⟩ := exists_concat_of_mem hm
  have hleft := h.not_declares_left hmx
  have hright := h.not_declares_right hmx
  simp only [declares, List.any_eq_true, not_exists, not_and] at hleft hright
  rcases mem_concat.mp hn with hn | hn
  · exact absurd hnx (hright n hn)
  · rcases List.mem_cons.mp hn with rfl | hn
    · rfl
    · exact absurd hnx (hleft n hn)

/-- An existential that is declared without a solution has none. -/
lemma not_solved_of_unsolved (h : Γ.WellFormed) (hx : .unsolved x ∈ Γ) (A : Ty) :
    .solved x A ∉ Γ := by
  intro hA
  have := h.eq_of_declares (x := x) hx hA (by simp [Entry.declares]) (by simp [Entry.declares])
  simp at this

/-- An existential has at most one solution. -/
lemma solution_unique {A B : Ty} (h : Γ.WellFormed) (hA : .solved x A ∈ Γ)
    (hB : .solved x B ∈ Γ) : A = B := by
  have := h.eq_of_declares (x := x) hA hB (by simp [Entry.declares]) (by simp [Entry.declares])
  simpa using this

/-- A solution is a monotype that is in scope to the left of its slot. -/
lemma solved_slot {A : Ty} (h : Γ.WellFormed) (hA : .solved x A ∈ Γ) :
    ∃ left right, Γ = concat (.solved x A :: left) right ∧ A.isMono ∧ Scopes left A := by
  obtain ⟨left, right, rfl⟩ := exists_concat_of_mem hA
  refine ⟨left, right, rfl, ?_⟩
  cases h.admits_of_concat with
  | solved _ _ _ hmono hscope => exact ⟨hmono, hscope⟩

/-- An entry of a slot does not stand to the left of it. -/
lemma not_mem_left (h : Γ.WellFormed) (hs : Γ = concat (m :: left) right) : m ∉ left := by
  subst hs
  exact h.admits_of_concat.not_mem

/-- A well-formed context can be taken apart at an entry in one way only. -/
theorem slot_unique {left' right' : Context} (h : Γ.WellFormed) (hs : Γ = concat (m :: left) right)
    (hs' : Γ = concat (m :: left') right') : left = left' ∧ right = right' := by
  have hhole := hole_eq_some_iff.mpr ⟨hs', h.not_mem_left hs'⟩
  rw [hole_eq_some_iff.mpr ⟨hs, h.not_mem_left hs⟩] at hhole
  simpa using hhole

end WellFormed

/-! ## What the check says -/

/-- The check of a context never fails, and it decides the judgment. So the left part of a
well-formed context is well-formed, no name is declared twice in it, and neither a look-up nor the
check of a type fails: each finds what the context holds or declares. -/
theorem isWellFormed_decides (Γ : Context) :
    (∃ b, Γ.isWellFormed = .ok b ∧ (b = true ↔ Γ.WellFormed)) ∧
      (Γ.WellFormed →
        (∀ left right : Context, Γ = left.concat right → left.WellFormed) ∧
        (∀ x, Γ.countP (·.declares x) ≤ 1) ∧
        (∀ x, ∃ r, Γ.lookupSolution x = .ok r ∧ ∀ A, r = some A ↔ .solved x A ∈ Γ) ∧
        (∀ x, ∃ r, Γ.lookupAssumption x = .ok r ∧ ∀ A, r = some A ↔ .assumed x A ∈ Γ) ∧
        (∀ x, ∃ b, Γ.hasExistential x = .ok b ∧ (b = true ↔ Γ.Existential x)) ∧
        ∀ A, ∃ b, Γ.isWellFormedType A = .ok b ∧ (b = true ↔ Γ.Scopes A)) := by
  refine ⟨isWellFormed_iff Γ, fun h => ⟨?_, h.countP_declares, exists_lookupSolution h.solvedOnce,
    h.exists_lookupAssumption, hasExistential_iff h.solvedOnce,
    isWellFormedType_iff h.solvedOnce⟩⟩
  rintro left right rfl
  exact h.of_concat

/-- A context with an entry of each kind, in which a term variable, a marker and an existential have
the same name. -/
theorem isWellFormed_decides_every_kind :
    let Γ : Context := [.solved "x" (.arr (.var "a") (.evar "y")), .marker "x", .unsolved "y",
      .assumed "x" (.all "a" (.var "a")), .rigid "a"]
    Γ.isWellFormed = .ok true ∧ Γ.WellFormed ∧
      (∀ left right : Context, Γ = left.concat right → left.WellFormed) ∧
      (∀ x, Γ.countP (·.declares x) ≤ 1) ∧
      (∀ x, ∃ r, Γ.lookupSolution x = .ok r ∧ ∀ A, r = some A ↔ .solved x A ∈ Γ) ∧
      (∀ x, ∃ r, Γ.lookupAssumption x = .ok r ∧ ∀ A, r = some A ↔ .assumed x A ∈ Γ) ∧
      (∀ x, ∃ b, Γ.hasExistential x = .ok b ∧ (b = true ↔ Γ.Existential x)) ∧
      ∀ A, ∃ b, Γ.isWellFormedType A = .ok b ∧ (b = true ↔ Γ.Scopes A) := by
  intro Γ
  have hcheck : Γ.isWellFormed = .ok true := by decide
  have hΓ : Γ.WellFormed := isWellFormed_eq_true_iff.mp hcheck
  exact ⟨hcheck, hΓ, (isWellFormed_decides Γ).2 hΓ⟩

/-- The check refuses the second solution of an existential before it looks one up, which would be a
violation. -/
example :
    let Γ : Context := [.assumed "z" (.evar "x"), .solved "x" .unit, .solved "x" .unit]
    Γ.isWellFormed = .ok false ∧ Γ.isWellFormedType (.evar "x") =
      .error (.multipleEntries "x" [.solved "x" .unit, .solved "x" .unit]) := by
  decide

end HigherRank.Context
