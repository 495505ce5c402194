import HigherRank.Proofs.Application
import HigherRank.Proofs.Symmetry

set_option autoImplicit false
set_option relaxedAutoImplicit false

/-!
# Weakening

A context with one entry more answers the same queries, as long as the types and the other entries
do without it and its name is none that will be given out. The entry is still there at the end, and
apart from it the answers are the same. It may be of any kind and stand anywhere, also between an
existential and what it is solved to.

## Main definitions

* `HigherRank.Context.Inserts` — one context is the other one with an entry more.
* `HigherRank.Context.without`, `HigherRank.Session.without` — a context and a session without an
  entry.
* `HigherRank.Session.Spares` — the session can do without the entry.
* `HigherRank.Session.Forgets` — outcomes with and without the entry.

## Main results

* `HigherRank.Context.WellFormed.apply_without` — an entry that a type does without makes no
  difference when the context is applied to it.
* `HigherRank.forgets_judge` — the rules with and without an entry.
* `HigherRank.subtype_weakening` — queries with and without an entry.
-/

namespace HigherRank

open Context (WellFormed)

namespace Context

/-! ## Contexts without an entry -/

/-- The second context is the first one with the entry in one place more. -/
def Inserts (m : Entry) (Γ Γ' : Context) : Prop :=
  ∃ left right, Γ = concat left right ∧ Γ' = concat (m :: left) right

/-- The context without an entry. -/
def without (Γ : Context) (m : Entry) : Context :=
  Γ.filter (· ≠ m)

section Without

variable {Γ left right : Context} {m n : Entry} {x : Name} {A : Ty}

/-- The entries that are left are all the others. -/
@[simp]
lemma mem_without : n ∈ Γ.without m ↔ n ∈ Γ ∧ n ≠ m := by
  simp [without]

/-- What is left has been there before. -/
lemma without_subset (Γ : Context) (m : Entry) : Γ.without m ⊆ Γ :=
  fun _ hn => (mem_without.mp hn).1

/-- Another entry at the right end is left. -/
lemma without_cons (hn : n ≠ m) : without (n :: Γ) m = n :: Γ.without m :=
  List.filter_cons_of_pos (by simpa using hn)

/-- An entry is taken out of both parts of a context. -/
private lemma without_concat (left right : Context) (m : Entry) :
    (left.concat right).without m = (left.without m).concat (right.without m) :=
  List.filter_append right left

/-- The parts around the slot of another entry are those parts without the entry. -/
lemma without_slot (hn : n ≠ m) :
    (concat (n :: left) right).without m = concat (n :: left.without m) (right.without m) := by
  rw [without_concat, without_cons hn]

/-- Without an entry that it does not have a context is the same. -/
private lemma without_eq_self (hm : m ∉ Γ) : Γ.without m = Γ := by
  refine List.filter_eq_self.mpr fun n hn => ?_
  simp only [decide_eq_true_eq]
  rintro rfl
  exact hm hn

/-- A well-formed context has every entry once. -/
private lemma WellFormed.nodup (h : Γ.WellFormed) : Γ.Nodup := by
  induction h with
  | nil => exact List.nodup_nil
  | cons m _ hm ih => exact List.nodup_cons.mpr ⟨hm.not_mem, ih⟩

/-- A well-formed context without the entry of one of its slots. -/
private lemma WellFormed.without_self (h : WellFormed (concat (m :: left) right)) :
    (concat (m :: left) right).without m = left.concat right := by
  have hnot : m ∉ right ++ left := (List.nodup_cons.mp (List.nodup_middle.mp h.nodup)).1
  rw [List.mem_append, not_or] at hnot
  have hcons : without (m :: left) m = left.without m := List.filter_cons_of_neg (by simp)
  rw [without_concat, hcons, without_eq_self hnot.1, without_eq_self hnot.2]

/-- A context in which an entry has been inserted is the old one without it. -/
private lemma Inserts.without_eq {Γ' : Context} (h : Γ.Inserts m Γ') (hΓ' : Γ'.WellFormed) :
    Γ'.without m = Γ := by
  obtain ⟨left, right, rfl, rfl⟩ := h
  exact hΓ'.without_self

/-- An entry of a well-formed context has been inserted in the context without it. -/
private lemma WellFormed.inserts (h : Γ.WellFormed) (hm : m ∈ Γ) : (Γ.without m).Inserts m Γ := by
  obtain ⟨left, right, rfl⟩ := exists_concat_of_mem hm
  exact ⟨left, right, h.without_self, rfl⟩

/-! ## Types that do without the entry -/

/-- The names that are declared without an entry are not declared by it. -/
lemma WellFormed.ne_of_declares (h : Γ.WellFormed) (hm : m ∈ Γ) (hx : (Γ.without m).declares x)
    (hn : n.declares x) : n ≠ m := by
  rintro rfl
  obtain ⟨n', hn', hnx'⟩ := List.any_eq_true.mp hx
  obtain ⟨hmem, hne⟩ := mem_without.mp hn'
  exact hne (h.eq_of_declares hmem hm hnx' hn)

/-- Of a type in scope without an entry, whatever declares it in a part of the context does so
without the entry. -/
private lemma WellFormed.scopes_without (h : Γ.WellFormed) (hm : m ∈ Γ)
    (hA : (Γ.without m).Scopes A) (hleft : left.Scopes A) : (left.without m).Scopes A where
  rigid a ha := by
    have hdeclared := declares_iff.mpr (.inl (hA.rigid a ha))
    exact mem_without.mpr
      ⟨hleft.rigid a ha, h.ne_of_declares hm hdeclared (by simp [Entry.declares])⟩
  existential x hx := by
    have hdeclared := declares_iff.mpr (.inr (hA.existential x hx))
    have hne {n : Entry} (hn : n.declares x) : n ≠ m := h.ne_of_declares hm hdeclared hn
    rcases hleft.existential x hx with hu | ⟨B, hB⟩
    · exact .inl (mem_without.mpr ⟨hu, hne (by simp [Entry.declares])⟩)
    · exact .inr ⟨B, mem_without.mpr ⟨hB, hne (by simp [Entry.declares])⟩⟩

/-- A type in scope without an entry has its solution without the entry. -/
lemma WellFormed.hasSolution_without (h : Γ.WellFormed) (hm : m ∈ Γ)
    (hA : (Γ.without m).Scopes A) : (Γ.without m).HasSolution A ↔ Γ.HasSolution A := by
  constructor
  · rintro ⟨x, T, rfl, hT⟩
    exact ⟨x, T, rfl, without_subset Γ m hT⟩
  · rintro ⟨x, T, rfl, hT⟩
    have hdeclared := declares_iff.mpr (.inr (scopes_evar.mp hA))
    exact ⟨x, T, rfl,
      mem_without.mpr ⟨hT, h.ne_of_declares hm hdeclared (by simp [Entry.declares])⟩⟩

/-- The other existentials keep their solutions. -/
private lemma WellFormed.lookupSolution_without (h : Γ.WellFormed) (h' : (Γ.without m).WellFormed)
    (hm : m ∈ Γ) (hx : (Γ.without m).Existential x) :
    Γ.lookupSolution x = (Γ.without m).lookupSolution x := by
  have hiff := h.hasSolution_without hm (scopes_evar.mpr hx)
  by_cases hs : (Γ.without m).HasSolution (.evar x)
  · obtain ⟨_, T, ⟨⟩, hT⟩ := hs
    rw [lookupSolution_of_mem h'.solvedOnce hT,
      lookupSolution_of_mem h.solvedOnce (without_subset Γ m hT)]
  · have hnone {Δ : Context} (hΔ : ¬ Δ.HasSolution (.evar x)) : Δ.lookupSolution x = .ok none :=
      lookupSolution_of_not_mem fun T hT => hΔ ⟨x, T, rfl, hT⟩
    rw [hnone hs, hnone (mt hiff.mpr hs)]

/-- An entry that a type does without makes no difference when the context is applied to it: even
the bound names of the result are the same. -/
theorem WellFormed.apply_without (h : Γ.WellFormed) (h' : (Γ.without m).WellFormed) (hm : m ∈ Γ)
    (hA : (Γ.without m).Scopes A) : Γ.apply A = (Γ.without m).apply A := by
  obtain ⟨A', hA', -⟩ := h'.exists_apply A
  rw [hA', h.apply_eq_ok_iff]
  exact (h'.apply_eq_ok_iff.mp hA').congr h' (fun x hx => h.lookupSolution_without h' hm hx)
    hA.existential

end Without

end Context

namespace Session

/-! ## Sessions without an entry -/

/-- The session without an entry of its context. -/
def without (s : Session) (m : Entry) : Session :=
  s.withContext (s.context.without m)

/-- The context of the session is without the entry. -/
@[simp]
lemma context_without (s : Session) (m : Entry) :
    (s.without m).context = s.context.without m :=
  rfl

/-- A name that is never given out does not matter for the names that are. -/
private lemma fresh_without (s : Session) {m : Entry} {stem : Name}
    (hm : ∀ k, m.takenName? ≠ some (stem.numbered k)) :
    (s.without m).fresh stem = ((s.fresh stem).1, (s.fresh stem).2.without m) := by
  have htaken : ∀ k : Nat, stem.numbered (s.nextName + k) ∈ (s.without m).takenNames ↔
      stem.numbered (s.nextName + k) ∈ s.takenNames := by
    intro k
    simp only [takenNames, context_without, List.mem_filterMap, Context.mem_without]
    refine exists_congr fun n => and_congr_left fun hn => and_iff_left ?_
    rintro rfl
    exact hm _ hn
  have hsame := firstUnused_congr (s.candidate_injective stem) htaken
  simp only [fresh, without, withContext] at hsame ⊢
  rw [hsame]

/-- The session has the entry, but could do without it: also without it the context is well-formed,
and its name is none that will be given out. -/
structure Spares (s : Session) (m : Entry) : Prop where
  wellFormed : s.context.WellFormed
  mem : m ∈ s.context
  without : (s.context.without m).WellFormed
  existentialStem : ∀ k, m.takenName? ≠ some (s.existentialStem.numbered k)
  variableStem : ∀ k, m.takenName? ≠ some (s.variableStem.numbered k)

namespace Spares

variable {s t : Session} {m : Entry} {left right Δ : Context} {x : Name} {T A B : Ty}

/-- What can be done without in a session can be done without after it has grown. -/
private lemma of_grows (h : s.Spares m) (hgrows : s.Grows t)
    (hwithout : (s.without m).Grows (t.without m)) (hm : m ∈ t.context) : t.Spares m where
  wellFormed := hgrows.wellFormed
  mem := hm
  without := hwithout.wellFormed
  existentialStem := by
    rw [hgrows.existentialStem]
    exact h.existentialStem
  variableStem := by
    rw [hgrows.variableStem]
    exact h.variableStem

/-- A query about types in scope without the entry is one about types in scope. -/
lemma wellPosed (h : s.Spares m) (hpos : (s.without m).WellPosed A B) : s.WellPosed A B :=
  ⟨h.wellFormed, hpos.left.mono (Context.without_subset _ m),
    hpos.right.mono (Context.without_subset _ m)⟩

/-- What declares an existential that is left is another entry. -/
lemma ne_of_existential {n : Entry} (h : s.Spares m) (hx : (s.context.without m).Existential x)
    (hn : n.declares x) : n ≠ m :=
  h.wellFormed.ne_of_declares h.mem (Context.declares_iff.mpr (.inr hx)) hn

/-- An existential stands in its slot also without the entry. -/
lemma slot (h : s.Spares m) (hs : s.context = Context.concat (.unsolved x :: left) right)
    (hx : (s.context.without m).Existential x) :
    (s.without m).context = Context.concat (.unsolved x :: left.without m) (right.without m) := by
  rw [context_without, hs, Context.without_slot (h.ne_of_existential hx (by simp [Entry.declares]))]

/-! ## The changes of a session without the entry -/

/-- The new variable is not the entry that can be done without. -/
private lemma ne_rightName (h : s.Spares m) : .rigid s.rightName ≠ m := by
  obtain ⟨k, -, -, hk⟩ := s.fresh_issued s.variableStem
  rintro rfl
  exact h.variableStem k (congrArg some hk)

/-- No entry for a new existential is the one that can be done without. -/
lemma ne_of_issued {n : Entry} {next : Int} (h : s.Spares m)
    (hx : t.Issued s.existentialStem next x) (hn : n.takenName? = some x) : n ≠ m := by
  obtain ⟨k, -, -, rfl⟩ := hx
  rintro rfl
  exact h.existentialStem k hn

/-- New names are the same without the entry. -/
private lemma freshVariable_without (h : s.Spares m) :
    (s.without m).freshVariable = (s.freshVariable.1, s.freshVariable.2.without m) :=
  s.fresh_without h.variableStem

/-- The next existential has the same name without the entry. -/
lemma freshExistential_without (h : s.Spares m) :
    (s.without m).freshExistential = (s.freshExistential.1, s.freshExistential.2.without m) :=
  s.fresh_without h.existentialStem

/-- A quantifier on the right is opened with the same name without the entry. -/
private lemma rightName_without (h : s.Spares m) : (s.without m).rightName = s.rightName := by
  rw [rightName, h.freshVariable_without, rightName]

/-- A quantifier on the left is opened with the same name without the entry. -/
lemma leftName_without (h : s.Spares m) : (s.without m).leftName = s.leftName := by
  rw [leftName, h.freshExistential_without, leftName]

/-- Opening a quantifier on the right does not matter to the entry. -/
private lemma openRight_without (h : s.Spares m) :
    (s.without m).openRight = s.openRight.without m := by
  rw [Session.openRight, h.rightName_without, h.freshVariable_without]
  simp only [Session.without, push, withContext, context_openRight,
    Context.without_cons h.ne_rightName]
  rfl

/-- The entry can still be done without when a quantifier on the right is opened. -/
private lemma openRight (h : s.Spares m) : s.openRight.Spares m where
  wellFormed := wellFormed_openRight h.wellFormed
  mem := List.mem_cons_of_mem _ h.mem
  without := by
    rw [← context_without, ← h.openRight_without]
    exact wellFormed_openRight h.without
  existentialStem := h.existentialStem
  variableStem := h.variableStem

/-- Opening a quantifier on the left does not matter to the entry. -/
private lemma openLeft_without (h : s.Spares m) :
    (s.without m).openLeft = s.openLeft.without m := by
  have hissued := s.fresh_issued s.existentialStem
  have hmarker : .marker s.leftName ≠ m := h.ne_of_issued hissued rfl
  have hunsolved : .unsolved s.leftName ≠ m := h.ne_of_issued hissued rfl
  rw [Session.openLeft, h.leftName_without, h.freshExistential_without]
  simp only [Session.without, push, withContext, context_openLeft, Context.without_cons hunsolved,
    Context.without_cons hmarker]
  rfl

/-- The entry can still be done without when a quantifier on the left is opened. -/
private lemma openLeft (h : s.Spares m) : s.openLeft.Spares m where
  wellFormed := wellFormed_openLeft h.wellFormed
  mem := List.mem_cons_of_mem _ (List.mem_cons_of_mem _ h.mem)
  without := by
    rw [← context_without, ← h.openLeft_without]
    exact wellFormed_openLeft h.without
  existentialStem := h.existentialStem
  variableStem := h.variableStem

/-- The entry can still be done without when a name has been given out. -/
private lemma freshExistential (h : s.Spares m) : s.freshExistential.2.Spares m :=
  ⟨h.wellFormed, h.mem, h.without, h.existentialStem, h.variableStem⟩

/-- The new codomain has the same name without the entry. -/
private lemma codName_without (h : s.Spares m) : (s.without m).codName = s.codName := by
  rw [codName, h.freshExistential_without, h.freshExistential.freshExistential_without, codName]

/-- The new arrow is the same without the entry. -/
lemma newArrow_without (h : s.Spares m) : (s.without m).newArrow = s.newArrow := by
  rw [newArrow, newArrow, h.codName_without, domName, h.freshExistential_without, domName]

/-- Solving an existential does not matter to the entry. -/
private lemma solvedAt_without (h : s.Spares m) (hx : (s.context.without m).Existential x) :
    (s.without m).solvedAt x T (left.without m) (right.without m) =
      (s.solvedAt x T left right).without m := by
  have hne : .solved x T ≠ m := h.ne_of_existential hx (by simp [Entry.declares])
  simp only [Session.without, solvedAt, withContext, Context.without_slot hne]

/-- Articulating an existential does not matter to the entry. -/
lemma articulated_without (h : s.Spares m) (hx : (s.context.without m).Existential x) :
    (s.without m).articulated x (left.without m) (right.without m) =
      (s.articulated x left right).without m := by
  have hne : .solved x s.newArrow ≠ m := h.ne_of_existential hx (by simp [Entry.declares])
  have hdom : .unsolved s.domName ≠ m := h.ne_of_issued (s.fresh_issued s.existentialStem) rfl
  have hcod : .unsolved s.codName ≠ m :=
    h.ne_of_issued (s.freshExistential.2.fresh_issued s.existentialStem) rfl
  have hdomName : (s.without m).domName = s.domName := h.leftName_without
  simp only [Session.articulated, h.newArrow_without, h.codName_without, hdomName,
    h.freshExistential_without, h.freshExistential.freshExistential_without]
  simp only [Session.without, withContext, Context.without_slot hne, Context.without_cons hcod,
    Context.without_cons hdom]

section Slot

variable (h : s.Spares m) (hs : s.context = Context.concat (.unsolved x :: left) right)
  (hx : (s.context.without m).Existential x)

include h hs hx

/-- The entry is still there when an existential has been solved. -/
private lemma mem_of_slot (block : Context) :
    m ∈ Context.concat (.solved x T :: left.concat block) right := by
  have hmem := h.mem
  have hne : .unsolved x ≠ m := h.ne_of_existential hx (by simp [Entry.declares])
  rw [hs, Context.mem_concat, List.mem_cons] at hmem
  rcases hmem with hm | rfl | hm
  · simp [hm]
  · exact absurd rfl hne
  · simp [hm]

/-- The entry can still be done without after articulation. -/
private lemma articulated : (s.articulated x left right).Spares m := by
  refine h.of_grows (grows_articulated hs h.wellFormed) ?_ ?_
  · rw [← h.articulated_without hx]
    exact grows_articulated (h.slot hs hx) h.without
  · exact h.mem_of_slot hs hx [.unsolved s.codName, .unsolved s.domName]

end Slot

end Spares

/-! ## Outcomes with and without an entry -/

/-- Both runs end with the same failure, or the first one ends in a session with the entry and the
second one in this session without it. -/
inductive Forgets (m : Entry) : Except Failure Session → Except Failure Session → Prop where
  | ok {t : Session} : m ∈ t.context → Forgets m (.ok t) (.ok (t.without m))
  | error (e : Failure) : Forgets m (.error e) (.error e)

end Session

open Session

/-! ## Rules with and without an entry -/

section Rules

variable {n : Nat} {s : Session} {m : Entry} {A B T : Ty} {x : Name} {left right : Context}

/-- Closing a scope does not matter to an entry that was there before the scope was opened.

**Proof sketch.** The entry is still to the left of the marker: if it is an existential without a
solution, then the context on the left declares its name, and the only entry that does is this
one; otherwise the extension keeps it. Without the entry the context is cut at the marker all the
same. -/
private lemma forgets_closeScope {t : Session} {k : Entry} {Δ block : Context} (hm : s.Spares m)
    (hgrows : s.Grows (t.withContext Δ)) (ht : t.context.WellFormed)
    (hs : t.context = Context.concat (k :: Δ) block) (hne : k ≠ m) (hmem : m ∈ t.context) :
    Forgets m (t.closeScope k).outcome ((t.without m).closeScope k).outcome := by
  have hk : k ∉ Δ := ht.not_mem_left hs
  have hmΔ : m ∈ Δ := by
    by_cases hu : ∃ x, m = .unsolved x
    · -- then the left part declares its name, and no other entry does
      obtain ⟨x, rfl⟩ := hu
      have hx : Δ.declares x :=
        Context.declares_iff.mpr (.inr (hgrows.extension.existential (.inl hm.mem)))
      obtain ⟨k', hk', hkx⟩ := List.any_eq_true.mp hx
      have hsame := ht.eq_of_declares (mem_left_of_slot hs hk') hmem hkx (by simp [Entry.declares])
      exact hsame ▸ hk'
    · exact hgrows.extension.mem hm.mem (not_exists.mp hu)
  have hs' : (t.without m).context = Context.concat (k :: Δ.without m) (block.without m) := by
    rw [context_without, hs, Context.without_slot hne]
  rw [outcome_closeScope hs hk,
    outcome_closeScope hs' fun h => hk (Context.without_subset Δ m h)]
  exact .ok (t := t.withContext Δ) hmΔ

/-- An existential is solved alike with and without the entry: what decides is whether the type is
in scope where the existential is declared, and for this the entry does not count.

**Proof sketch.** By what happens to the existential (`outcome_solveTo`). The type is in scope
without the entry, so that it is in scope to the left of the slot without the entry if it is with
it. The existential that is solved, be it the first or a later one, is not the entry, and solving it
does not depend on the entry. -/
private lemma forgets_solveTo (hm : s.Spares m)
    (hs : s.context = Context.concat (.unsolved x :: left) right)
    (hx : (s.context.without m).Existential x) (hT : T.isAtom) (hne : T ≠ .evar x)
    (hsT : ¬ s.context.HasSolution T) (hscope : (s.context.without m).Scopes T) :
    Forgets m (s.solveTo x T).outcome ((s.without m).solveTo x T).outcome := by
  have hs' := hm.slot hs hx
  have hsT' : ¬ (s.without m).context.HasSolution T :=
    mt (hm.wellFormed.hasSolution_without hm.mem hscope).mp hsT
  have hbig := hscope.mono (Context.without_subset s.context m)
  rcases outcome_solveTo hm.wellFormed hs hT hne hsT hbig with
    ⟨hin, hok⟩ | ⟨y, mid, right₁, rfl, rfl, hok⟩ | ⟨a, rfl, hout, herr⟩
  · have hin' := hm.wellFormed.scopes_without hm.mem hscope hin
    rw [hok, outcome_solveTo_of_scopes hm.without hs' hT hne hsT' hin', hm.solvedAt_without hx]
    exact .ok (hm.mem_of_slot hs hx [])
  · -- an existential that is declared later is solved instead, in its own slot
    have hy := Context.scopes_evar.mp hscope
    have hslot := Context.slot_of_right hs
    have hney : x ≠ y := by simpa [eq_comm] using hne
    rw [Context.without_slot (hm.ne_of_existential hy (by simp [Entry.declares]))] at hs'
    have hleft : (Context.concat (.unsolved x :: left) mid).without m =
        Context.concat (.unsolved x :: left.without m) (Context.without mid m) :=
      Context.without_slot (hm.ne_of_existential hx (by simp [Entry.declares]))
    rw [hok, outcome_solveTo_later hm.without hs' hney, ← hleft, hm.solvedAt_without hy]
    exact .ok (hm.mem_of_slot hslot hy [])
  · have hout' : .rigid a ∉ left.without m := fun hin => hout (Context.without_subset left m hin)
    rw [herr, outcome_solveTo_of_escapes hm.without hs' hout' hscope]
    exact .error _

/-- To this depth the rules do the same with and without an entry that can be done without. -/
def ForgetsAt (m : Entry) (n : Nat) : Prop :=
  ∀ ⦃s : Session⦄ ⦃A B : Ty⦄, s.Spares m → (s.without m).WellPosed A B →
    Forgets m (judge n s A B).outcome (judge n (s.without m) A B).outcome

/-- Two arrows: the entry is still there when the domains have been compared, and it makes no
difference to what the codomains have become.

**Proof sketch.** The session that is reached for the domains still has the entry and can spare it.
Applying its context to the codomains, which are in scope without the entry, gives the same types
with and without it, so that the induction hypothesis holds for them. -/
private lemma forgets_judge_arr {A₁ A₂ B₁ B₂ : Ty} (ih : ForgetsAt m n) (hm : s.Spares m)
    (h : (s.without m).WellPosed (.arr A₁ A₂) (.arr B₁ B₂)) :
    Forgets m (judge (n + 1) s (.arr A₁ A₂) (.arr B₁ B₂)).outcome
      (judge (n + 1) (s.without m) (.arr A₁ A₂) (.arr B₁ B₂)).outcome := by
  have hdom := ih hm h.domains
  generalize hrun : (judge n s B₁ A₁).outcome = o at hdom
  generalize hrun' : (judge n (s.without m) B₁ A₁).outcome = o' at hdom
  cases hdom with
  | error e =>
    rw [outcome_judge_arr_of_error hrun, outcome_judge_arr_of_error hrun']
    exact .error e
  | @ok t hmem =>
    have hgrows := (Derivation.of_judge (hm.wellPosed h.domains) hrun).grows
    have hgrows' := (Derivation.of_judge h.domains hrun').grows
    have ht : t.Spares m := hm.of_grows hgrows hgrows' hmem
    have hpos := h.codomains.grows hgrows'
    obtain ⟨C, hC, -⟩ := hpos.wellFormed.exists_apply A₂
    obtain ⟨D, hD, -⟩ := hpos.wellFormed.exists_apply B₂
    have hCt := ht.wellFormed.apply_without ht.without ht.mem hpos.left
    have hDt := ht.wellFormed.apply_without ht.without ht.mem hpos.right
    rw [outcome_judge_arr_of_ok hrun (hCt.trans hC) (hDt.trans hD),
      outcome_judge_arr_of_ok hrun' hC hD]
    exact ih ht (hpos.apply hC hD)

/-- A quantifier on the right: the entry is outside of its scope. -/
private lemma forgets_judge_allRight {b : Name} (ih : ForgetsAt m n) (hm : s.Spares m)
    (h : (s.without m).WellPosed A (.all b B)) :
    Forgets m (judge (n + 1) s A (.all b B)).outcome
      (judge (n + 1) (s.without m) A (.all b B)).outcome := by
  have hpos := h.openRight
  have hbig := (hm.wellPosed h).openRight
  rw [outcome_judge_allRight, outcome_judge_allRight]
  rw [hm.openRight_without, hm.rightName_without] at hpos ⊢
  have hopen := ih hm.openRight hpos
  generalize hrun : (judge n s.openRight A (B.subst b (.var s.rightName))).outcome = o at hopen
  generalize hrun' : (judge n (s.openRight.without m) A (B.subst b (.var s.rightName))).outcome = o'
    at hopen
  cases hopen with
  | error e => exact .error e
  | @ok t hmem =>
    have hgrows := (Derivation.of_judge hbig hrun).grows
    obtain ⟨Δ, hΔ, -⟩ := hgrows.exists_closeRight
    have hslot : t.context = Context.concat (.rigid s.rightName :: Δ) [] := hΔ
    exact forgets_closeScope hm (hgrows.closeRight hΔ) hgrows.wellFormed hslot hm.ne_rightName hmem

/-- A quantifier on the left, likewise. -/
private lemma forgets_judge_allLeft {a : Name} (ih : ForgetsAt m n) (hm : s.Spares m)
    (h : (s.without m).WellPosed (.all a A) B) (hB : ¬ B.isAll) :
    Forgets m (judge (n + 1) s (.all a A) B).outcome
      (judge (n + 1) (s.without m) (.all a A) B).outcome := by
  have hpos := h.openLeft
  have hbig := (hm.wellPosed h).openLeft
  rw [outcome_judge_allLeft _ _ _ _ hB, outcome_judge_allLeft _ _ _ _ hB]
  rw [hm.openLeft_without, hm.leftName_without] at hpos ⊢
  have hopen := ih hm.openLeft hpos
  generalize hrun : (judge n s.openLeft (A.subst a (.evar s.leftName)) B).outcome = o at hopen
  generalize hrun' : (judge n (s.openLeft.without m) (A.subst a (.evar s.leftName)) B).outcome = o'
    at hopen
  cases hopen with
  | error e => exact .error e
  | @ok t hmem =>
    have hgrows := (Derivation.of_judge hbig hrun).grows
    obtain ⟨Δ, block, hΔ, -⟩ := hgrows.exists_closeLeft
    exact forgets_closeScope hm (hgrows.closeLeft hΔ).1 hgrows.wellFormed hΔ
      (hm.ne_of_issued (s.fresh_issued s.existentialStem) rfl) hmem

/-- Existentials with a solution are replaced first, by the same types. -/
private lemma forgets_judge_solved (ih : ForgetsAt m n) (hm : s.Spares m)
    (h : (s.without m).WellPosed A B) (hne : A ≠ B) (hA : ¬ A.isAll) (hB : ¬ B.isAll)
    (hs : s.context.HasSolution A ∨ s.context.HasSolution B) :
    Forgets m (judge (n + 1) s A B).outcome (judge (n + 1) (s.without m) A B).outcome := by
  have hwf := hm.wellFormed
  have hs' : (s.without m).context.HasSolution A ∨ (s.without m).context.HasSolution B :=
    hs.imp (hwf.hasSolution_without hm.mem h.left).mpr (hwf.hasSolution_without hm.mem h.right).mpr
  obtain ⟨A', hA', -⟩ := h.wellFormed.exists_apply A
  obtain ⟨B', hB', -⟩ := h.wellFormed.exists_apply B
  have hAs := hwf.apply_without hm.without hm.mem h.left
  have hBs := hwf.apply_without hm.without hm.mem h.right
  rw [outcome_judge_solved n hwf hne hA hB hs (hAs.trans hA') (hBs.trans hB'),
    outcome_judge_solved n h.wellFormed hne hA hB hs' hA' hB']
  exact ih hm (h.apply hA' hB')

/-- An existential against an arrow: it is articulated with the entry and without it, or it occurs
in the arrow. -/
private lemma forgets_judge_articulateLeft {B₁ B₂ : Ty} (ih : ForgetsAt m n) (hm : s.Spares m)
    (h : (s.without m).WellPosed (.evar x) (.arr B₁ B₂))
    (hs : s.context = Context.concat (.unsolved x :: left) right) :
    Forgets m (judge (n + 1) s (.evar x) (.arr B₁ B₂)).outcome
      (judge (n + 1) (s.without m) (.evar x) (.arr B₁ B₂)).outcome := by
  have hx := Context.scopes_evar.mp h.left
  have hs' := hm.slot hs hx
  by_cases hocc : x ∈ (Ty.arr B₁ B₂).existentials
  · rw [outcome_judge_articulateLeft_of_occurs n hm.wellFormed hs hocc,
      outcome_judge_articulateLeft_of_occurs n h.wellFormed hs' hocc]
    exact .error _
  · have hpos := h.articulateLeft hs'
    rw [outcome_judge_articulateLeft n hm.wellFormed hs hocc,
      outcome_judge_articulateLeft n h.wellFormed hs' hocc]
    rw [hm.articulated_without hx, hm.newArrow_without] at hpos ⊢
    exact ih (hm.articulated hs hx) hpos

/-- An arrow against an existential, likewise. -/
private lemma forgets_judge_articulateRight {A₁ A₂ : Ty} (ih : ForgetsAt m n) (hm : s.Spares m)
    (h : (s.without m).WellPosed (.arr A₁ A₂) (.evar x))
    (hs : s.context = Context.concat (.unsolved x :: left) right) :
    Forgets m (judge (n + 1) s (.arr A₁ A₂) (.evar x)).outcome
      (judge (n + 1) (s.without m) (.arr A₁ A₂) (.evar x)).outcome := by
  have hx := Context.scopes_evar.mp h.right
  have hs' := hm.slot hs hx
  by_cases hocc : x ∈ (Ty.arr A₁ A₂).existentials
  · rw [outcome_judge_articulateRight_of_occurs n hm.wellFormed hs hocc,
      outcome_judge_articulateRight_of_occurs n h.wellFormed hs' hocc]
    exact .error _
  · have hpos := h.articulateRight hs'
    rw [outcome_judge_articulateRight n hm.wellFormed hs hocc,
      outcome_judge_articulateRight n h.wellFormed hs' hocc]
    rw [hm.articulated_without hx, hm.newArrow_without] at hpos ⊢
    exact ih (hm.articulated hs hx) hpos

/-- The rules do the same with and without an entry that can be done without: they fail in the same
way, or the entry is still there at the end and the sessions differ in nothing else.

**Proof sketch.** Induction on the depth. The rule that applies with the entry applies without it,
since it is determined by the types and by slots and solutions of existentials in scope, none of
which is the entry. New names are the same, and so are the parts on the two sides of a slot, but for
the entry. -/
theorem forgets_judge (m : Entry) (n : Nat) : ForgetsAt m n := by
  induction n with
  | zero => exact fun _ _ _ _ _ => .error _
  | succ n ih =>
    intro s A B hm h
    have hwf := hm.wellFormed
    cases (hm.wellPosed h).rule with
    | arr A₁ A₂ B₁ B₂ => exact forgets_judge_arr ih hm h
    | allRight A b B => exact forgets_judge_allRight ih hm h
    | allLeft a A hB => exact forgets_judge_allLeft ih hm h hB
    | same hA =>
      rw [outcome_judge_same n s hA, outcome_judge_same n _ hA]
      exact .ok hm.mem
    | solved hne hA hB hs => exact forgets_judge_solved ih hm h hne hA hB hs
    | articulateLeft B₁ B₂ hs => exact forgets_judge_articulateLeft ih hm h hs
    | articulateRight A₁ A₂ hs => exact forgets_judge_articulateRight ih hm h hs
    | @solveLeft x left right B hs hB hne hsB =>
      have hx := Context.scopes_evar.mp h.left
      have hsB' := mt (hwf.hasSolution_without hm.mem h.right).mp hsB
      rw [outcome_judge_solveLeft n hwf hs hB hne hsB,
        outcome_judge_solveLeft n h.wellFormed (hm.slot hs hx) hB hne hsB']
      exact forgets_solveTo hm hs hx hB hne hsB h.right
    | @solveRight x left right A hs hA hne =>
      have hx := Context.scopes_evar.mp h.right
      rw [outcome_judge_solveRight n hwf hs hA hne,
        outcome_judge_solveRight n h.wellFormed (hm.slot hs hx) hA hne]
      exact forgets_solveTo hm hs hx hA (hne x) (Context.not_hasSolution hne) h.left
    | mismatch hne hA hB harr hxA hyB =>
      rw [outcome_judge_mismatch n hne hA hB harr hxA hyB,
        outcome_judge_mismatch n hne hA hB harr hxA hyB]
      exact .error _

end Rules

/-! ## Queries with and without an entry -/

section Query

variable {s : Session} {m : Entry} {A B : Ty} {Γ' : Context}

/-- The bounds on the depth with and without the entry make no difference. -/
private lemma forgets_check (hm : s.Spares m) (h : (s.without m).WellPosed A B) :
    Forgets m (check s A B).outcome (check (s.without m) A B).outcome := by
  let n := max (depthBound s.context A B) (depthBound (s.without m).context A B)
  have hjudge : judge n s A B = check s A B :=
    judge_mono (hm.wellPosed h).completes (Nat.le_max_left _ _)
  have hjudge' : judge n (s.without m) A B = check (s.without m) A B :=
    judge_mono h.completes (Nat.le_max_right _ _)
  rw [← hjudge, ← hjudge']
  exact forgets_judge m n hm h

/-- An entry that a query does without makes no difference to it, of whatever kind it is and
wherever it stands, unless its name could be given out. The query is refused with the entry and
without it, or it is answered in both cases. Then the counters are the same, and the one context is
the other one with the entry inserted.

**Proof sketch.** Leaving the entry out of the larger context gives the smaller one, and the larger
session can spare it. So a run with the entry does what the run without it does (`forgets_check`),
and in a well-formed context the one that is reached without the entry has it inserted
(`WellFormed.inserts`). -/
theorem subtype_weakening (h : s.context.isWellFormed = .ok true)
    (h' : Γ'.isWellFormed = .ok true) (hm : s.context.Inserts m Γ')
    (hname : ∀ k, m.name ≠ s.existentialStem.numbered k ∧ m.name ≠ s.variableStem.numbered k)
    (hA : s.context.isWellFormedType A = .ok true) (hB : s.context.isWellFormedType B = .ok true) :
    ((subtype s A B).outcome = .ok none ∧ (subtype (s.withContext Γ') A B).outcome = .ok none) ∨
      ∃ t t', (subtype s A B).outcome = .ok (some t) ∧
        (subtype (s.withContext Γ') A B).outcome = .ok (some t') ∧
        t'.nextName = t.nextName ∧ t.context.Inserts m t'.context := by
  have hpos := Session.WellPosed.of_checks h hA hB
  have hwf' := Context.isWellFormed_eq_true_iff.mp h'
  have hsame : (s.withContext Γ').without m = s := by
    rw [Session.without, Session.withContext, Session.withContext, hm.without_eq hwf']
  have hmem : m ∈ Γ' := by
    obtain ⟨left, right, -, rfl⟩ := hm
    simp
  have htaken : ∀ {x : Name}, m.name ≠ x → m.takenName? ≠ some x := by
    intro x hx
    cases m <;> simp_all [Entry.takenName?]
  have hspares : (s.withContext Γ').Spares m := {
    wellFormed := hwf'
    mem := hmem
    without := by
      rw [← Session.context_without, hsame]
      exact hpos.wellFormed
    existentialStem := fun k => htaken (hname k).1
    variableStem := fun k => htaken (hname k).2 }
  have hforgets := forgets_check hspares (hsame.symm ▸ hpos)
  rw [hsame] at hforgets
  generalize hrun : (check s A B).outcome = o at hforgets
  generalize hrun' : (check (s.withContext Γ') A B).outcome = o' at hforgets
  cases hforgets with
  | @ok t hmem =>
    have hwf := (Derivation.of_subtype (hspares.wellPosed (hsame.symm ▸ hpos))
      (outcome_subtype_eq_some.mpr hrun')).grows.wellFormed
    exact .inr ⟨t.without m, t, outcome_subtype_eq_some.mpr hrun, outcome_subtype_eq_some.mpr hrun',
      rfl, hwf.inserts hmem⟩
  | error e =>
    exact .inl ⟨hpos.outcome_subtype_of_error hrun,
      (hspares.wellPosed (hsame.symm ▸ hpos)).outcome_subtype_of_error hrun'⟩

/-- The entry is a solution that mentions the one existential, and it stands before the other one,
which is articulated: the new existentials come between the two. -/
theorem subtype_weakening_articulated :
    let s : Session := ⟨[.unsolved "z", .unsolved "x"], 0, "e", "t"⟩
    let m : Entry := .solved "y" (.arr (.evar "x") (.evar "x"))
    let Γ' : Context := [.unsolved "z", m, .unsolved "x"]
    let A : Ty := .all "a" (.arr (.var "a") (.var "a"))
    let t : Session := ⟨[.solved "z" (.arr (.evar "e1") (.evar "e2")), .solved "e2" (.evar "e1"),
      .unsolved "e1", .unsolved "x"], 3, "e", "t"⟩
    (subtype s A (.evar "z")).outcome = .ok (some t) ∧
      ∃ t', (subtype (s.withContext Γ') A (.evar "z")).outcome = .ok (some t') ∧
        t'.nextName = 3 ∧ t.context.Inserts m t'.context := by
  intro s m Γ' A t
  have hrun : (subtype s A (.evar "z")).outcome = .ok (some t) := by decide +kernel
  have hname : ∀ k, m.name ≠ s.existentialStem.numbered k ∧ m.name ≠ s.variableStem.numbered k := by
    refine fun k => ⟨fun h => ?_, fun h => ?_⟩ <;>
    · have hlist := congrArg String.toList h
      simp [m, s, Entry.name, Name.numbered] at hlist
  have hm : s.context.Inserts m Γ' := ⟨[.unsolved "x"], [.unsolved "z"], rfl, rfl⟩
  refine ⟨hrun, ?_⟩
  rcases subtype_weakening (s := s) (A := A) (B := .evar "z") (by decide) (by decide) hm hname
    (by decide) (by decide) with ⟨hnone, -⟩ | ⟨t₁, t', hrun₁, hrun', hnext, hins⟩
  · simp [hrun] at hnone
  · obtain rfl : t = t₁ := by simpa [hrun] using hrun₁
    exact ⟨t', hrun', hnext, hins⟩

end Query

end HigherRank
