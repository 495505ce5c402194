import HigherRank.Proofs.Renaming
import HigherRank.Proofs.Safety

set_option autoImplicit false
set_option relaxedAutoImplicit false

/-!
# Names do not matter

The rules look at names only to tell them apart. So a query does not depend on the names of bound
variables, nor on those of its context, nor on which new names are given out: two runs on queries
that differ by a renaming apply the same rules, and their sessions differ by a renaming at every
step. If nothing but the names of bound variables differs, then the sessions are the same.

## Main definitions

* `HigherRank.Session.Mirrors` — sessions that differ by a renaming.
* `HigherRank.Session.Reflects` — outcomes that differ by a renaming.
* `HigherRank.ReflectsAt` — to a given depth, outcomes differ by a renaming if queries do.

## Main results

* `HigherRank.reflects_judge` — the rules on queries that differ by a renaming.
* `HigherRank.subtype_alphaEq` — bound names do not matter.
* `HigherRank.subtype_renamed` — the names of the context and of new existentials do not matter.

## Implementation notes

Both statements follow from one comparison of two runs, whose parameter `equal` says whether the
sessions are to stay the same. If they are, then the two runs make the same new names.
-/

namespace HigherRank

open Context (WellFormed)

/-! ## Sessions that differ by a renaming -/

/-- A new name is not renamed if nothing else is. -/
lemma update_eq_id (c : Name) : Function.update id c c = (id : Name → Name) :=
  Function.update_eq_self c id

namespace Session

/-- The second of two new names is not in use beside the first one. -/
private lemma unused_codName_cons (s : Session) :
    Context.Unused (.unsolved s.domName :: s.context) s.codName := by
  intro m hm hmx
  rcases List.mem_cons.mp hm with rfl | hm
  · exact s.domName_ne_codName (Option.some.inj hmx)
  · exact s.unused_codName m hm hmx

/-- The context of the second session is that of the first one with names changed. If `equal`, then
the sessions are the same. -/
structure Mirrors (equal : Prop) (r : Name → Name) (s s' : Session) : Prop where
  context : s.context.Renames r s'.context
  same : equal → r = id ∧ s' = s

namespace Mirrors

variable {equal : Prop} {r : Name → Name} {s s' t t' : Session} {a a' x x' : Name} {T T' : Ty}
  {left right left' right' Δ Δ' block block' : Context}

/-- The scope of a quantifier on the right is opened with a new name in either session. -/
private lemma openRight (h : s.Mirrors equal r s') (hs : s.context.WellFormed) :
    s.openRight.Mirrors equal (Function.update r s.rightName s'.rightName) s'.openRight where
  context := h.context.update hs (Entry.renames_rigid (Function.update_self ..)) rfl
    s.unused_rightName s'.unused_rightName
  same hequal := by
    obtain ⟨rfl, rfl⟩ := h.same hequal
    exact ⟨update_eq_id _, rfl⟩

/-- The scope of a quantifier on the left is opened with a new name in either session. -/
private lemma openLeft (h : s.Mirrors equal r s') (hs : s.context.WellFormed) :
    s.openLeft.Mirrors equal (Function.update r s.leftName s'.leftName) s'.openLeft where
  context := by
    have hname := Function.update_self s.leftName s'.leftName r
    have hmarker := h.context.update hs (Entry.renames_marker hname) rfl s.unused_leftName
      s'.unused_leftName
    refine hmarker.cons (Entry.renames_unsolved hname) fun c hc => .inl ?_
    exact Context.taken_cons.mpr (.inl hc)
  same hequal := by
    obtain ⟨rfl, rfl⟩ := h.same hequal
    exact ⟨update_eq_id _, rfl⟩

/-- The scope of a quantifier on the right is closed in both sessions. -/
private lemma closeRight (h : t.Mirrors equal r t') (ht : t.context = .rigid a :: Δ)
    (ht' : t'.context = .rigid a' :: Δ') :
    (t.withContext Δ).Mirrors equal r (t'.withContext Δ') where
  context := by
    have hcontext := h.context
    rw [ht, ht'] at hcontext
    cases hcontext.entries with
    | cons _ hentries => exact hcontext.of_subset hentries (List.subset_cons_self _ _)
  same hequal := by
    obtain ⟨rfl, rfl⟩ := h.same hequal
    rw [ht, List.cons.injEq] at ht'
    exact ⟨rfl, by rw [ht'.2]⟩

/-- The scope of a quantifier on the left is closed in both sessions. -/
private lemma closeLeft (h : t.Mirrors equal r t') (hwf' : t'.context.WellFormed)
    (ht : t.context = Context.concat (.marker x :: Δ) block)
    (ht' : t'.context = Context.concat (.marker (r x) :: Δ') block') :
    (t.withContext Δ).Mirrors equal r (t'.withContext Δ') where
  context := by
    have hcontext := h.context
    rw [ht] at hcontext
    exact (hcontext.of_slots hwf' ht' fun n hn => by cases hn; rfl).1
  same hequal := by
    obtain ⟨rfl, rfl⟩ := h.same hequal
    obtain ⟨rfl, -⟩ := hwf'.slot_unique ht ht'
    exact ⟨rfl, rfl⟩

/-- An existential is solved in both sessions.

**Proof sketch.** The parts to the left and to the right of the slots differ by the renaming
(`Context.Renames.of_slots`), and so do the two entries that are put in between. No name has been
taken in addition, so that the names still stay apart. -/
private lemma solvedAt (h : s.Mirrors equal r s') (hwf' : s'.context.WellFormed)
    (hs : s.context = Context.concat (.unsolved x :: left) right)
    (hs' : s'.context = Context.concat (.unsolved (r x) :: left') right') (hT : T.Renames r T')
    (hmono : T.isMono) :
    (s.solvedAt x T left right).Mirrors equal r (s'.solvedAt (r x) T' left' right') where
  context := by
    have hcontext := h.context
    rw [hs] at hcontext
    obtain ⟨hleft, hright⟩ := hcontext.of_slots hwf' hs' fun n hn => by cases hn; rfl
    refine ⟨List.rel_append hright (.cons (.solved x hT) hleft.entries), fun y z hy hz => ?_⟩
    have hsub : ∀ y, (s.solvedAt x T left right).context.Taken y →
        (Context.concat (.unsolved x :: left) right).Taken y := by
      intro y hy
      simpa only [context_solvedAt, Context.taken_concat, Context.taken_cons, Entry.takenName?,
        Entry.name] using hy
    exact hcontext.injective y z (hsub y hy) (hsub z hz)
  same hequal := by
    obtain ⟨rfl, rfl⟩ := h.same hequal
    obtain ⟨rfl, rfl⟩ := hwf'.slot_unique hs hs'
    obtain rfl := Ty.eq_of_alphaEq_of_isMono (Ty.renames_id.mp hT) hmono
    exact ⟨rfl, rfl⟩

/-- An existential is articulated in both sessions.

**Proof sketch.** Let the renaming send the two new names to the two new names of the other session.
Since these are unused, it stays the same on the names that were there before, and it keeps all
names apart, which is seen most easily if both new existentials are declared at the right end. It
then relates the contexts with the new entries in the slots, part by part. -/
private lemma articulated (h : s.Mirrors equal r s') (hwf : s.context.WellFormed)
    (hwf' : s'.context.WellFormed) (hs : s.context = Context.concat (.unsolved x :: left) right)
    (hs' : s'.context = Context.concat (.unsolved (r x) :: left') right') :
    ∃ r', (s.articulated x left right).Mirrors equal r' (s'.articulated (r x) left' right') ∧
      s.context.Agree r' r ∧ s.newArrow.Renames r' s'.newArrow := by
  let r₁ := Function.update r s.domName s'.domName
  let r₂ := Function.update r₁ s.codName s'.codName
  have hdom : r₂ s.domName = s'.domName :=
    (Function.update_of_ne s.domName_ne_codName ..).trans (Function.update_self ..)
  have hcod : r₂ s.codName = s'.codName := Function.update_self ..
  have hagree : s.context.Agree r₂ r := fun y hy =>
    (Context.agree_update s.unused_codName r₁ _ y hy).trans
      (Context.agree_update s.unused_domName r _ y hy)
  have hnew : WellFormed (.unsolved s.domName :: s.context) :=
    .cons _ hwf (.unsolved _ s.unused_domName.not_declares)
  -- with both new names to the right of everything, the names stay apart
  have hboth : Context.Renames r₂ (.unsolved s.codName :: .unsolved s.domName :: s.context)
      (.unsolved s'.codName :: .unsolved s'.domName :: s'.context) := by
    have hfirst := h.context.update hwf (Entry.renames_unsolved (Function.update_self ..)) rfl
      s.unused_domName s'.unused_domName
    exact hfirst.update hnew (Entry.renames_unsolved hcod) rfl (unused_codName_cons s)
      (unused_codName_cons s')
  have hx : r₂ x = r x := hagree x (Context.Existential.taken (.inl (by simp [hs])))
  have hcontext := h.context.congr hwf hagree
  rw [hs] at hcontext
  obtain ⟨hleft, hright⟩ := hcontext.of_slots hwf' hs' fun n hn => by cases hn; rw [hx]
  have harrow : s.newArrow.Renames r₂ s'.newArrow := by
    refine Ty.renames_arr ?_ ?_
    · rw [← hdom]
      exact Ty.renames_evar r₂ s.domName
    · rw [← hcod]
      exact Ty.renames_evar r₂ s.codName
  refine ⟨r₂, ⟨⟨?_, fun y z hy hz => ?_⟩, fun hequal => ?_⟩, hagree, harrow⟩
  · exact List.rel_append hright (.cons (Entry.renames_solved hx harrow)
      (.cons (Entry.renames_unsolved hcod) (.cons (Entry.renames_unsolved hdom) hleft.entries)))
  · have hsub : ∀ y, (s.articulated x left right).context.Taken y →
        Context.Taken (.unsolved s.codName :: .unsolved s.domName :: s.context) y := by
      intro y hy
      simp only [context_articulated, hs, Context.taken_concat, Context.taken_cons,
        Entry.takenName?, Entry.name] at hy ⊢
      tauto
    exact hboth.injective y z (hsub y hy) (hsub z hz)
  · obtain ⟨rfl, rfl⟩ := h.same hequal
    obtain ⟨rfl, rfl⟩ := hwf'.slot_unique hs hs'
    have hr₁ : r₁ = id := update_eq_id _
    exact ⟨by simp only [r₂, hr₁, update_eq_id], rfl⟩

end Mirrors

/-! ## Outcomes that differ by a renaming -/

/-- Either both runs end without a session, or they end in sessions that differ by a renaming, and
names of the first session are renamed as before. -/
inductive Reflects (equal : Prop) (r : Name → Name) (s : Session) :
    Except Failure Session → Except Failure Session → Prop where
  | ok {t t' : Session} {r' : Name → Name} :
    t.Mirrors equal r' t' → s.context.Agree r' r → Reflects equal r s (.ok t) (.ok t')
  | error (e e' : Failure) : Reflects equal r s (.error e) (.error e')

section Reflects

variable {equal : Prop} {r r₁ : Name → Name} {s s₁ s' : Session} {o o' : Except Failure Session}

/-- What differs by a renaming after a session that has grown does so after the first session. -/
lemma Reflects.of_grows (h : Reflects equal r₁ s₁ o o') (hs : s.Grows s₁)
    (hr : s.context.Agree r₁ r) : Reflects equal r s o o' := by
  cases h with
  | error e e' => exact .error e e'
  | ok ht hagree => exact .ok ht fun x hx => (hagree x (hs.extension.taken hx)).trans (hr x hx)

end Reflects

end Session

/-! ## Solving an existential -/

open Session

section Solving

variable {equal : Prop} {r : Name → Name} {s s' : Session} {T T' : Ty} {x : Name}
  {left right left' right' : Context}

/-- An existential is solved alike in both sessions, or in neither: what decides is whether the type
is in scope where the existential is declared, and then which of two existentials comes first.

**Proof sketch.** By what happens to the existential (`outcome_solveTo`). The parts to the left of
the two slots differ by the renaming, so that the type is in scope in one of them exactly if the
renamed type is in the other. The same holds for whether the later one of two existentials is
solved, and for a variable that gets out of its scope. -/
private lemma reflects_solveTo (h : s.Mirrors equal r s') (hwf : s.context.WellFormed)
    (hwf' : s'.context.WellFormed) (hs : s.context = Context.concat (.unsolved x :: left) right)
    (hs' : s'.context = Context.concat (.unsolved (r x) :: left') right') (hT : T.isAtom)
    (hne : T ≠ .evar x) (hsT : ¬ s.context.HasSolution T) (hscope : s.context.Scopes T)
    (hTT' : T.Renames r T') :
    Reflects equal r s (s.solveTo x T).outcome (s'.solveTo (r x) T').outcome := by
  have hmono := Ty.isMono_of_isAtom hT
  have hT' : T'.isAtom := by rw [hTT'.form.1, hT]
  have hx : s.context.Scopes (.evar x) := Context.scopes_evar.mpr (.inl (by simp [hs]))
  have hne' : T' ≠ .evar (r x) := by
    rintro rfl
    refine hne (hTT'.eq_of_isMono h.context.injective (Ty.renames_evar r x) hmono ?_ ?_)
    · exact fun y hy => hscope.taken hy
    · exact fun y hy => hx.taken hy
  have hsT' : ¬ s'.context.HasSolution T' :=
    fun hmem => hsT ((h.context.hasSolution_iff hscope hTT').mp hmem)
  have hscope' : s'.context.Scopes T' := h.context.scopes hscope hTT'
  -- the parts to the left of the two slots differ by the same renaming
  have hcontext := h.context
  rw [hs] at hcontext
  have hleft := (hcontext.of_slots hwf' hs' fun n hn => by cases hn; rfl).1
  have hleft_iff : left'.Scopes T' ↔ left.Scopes T :=
    h.context.scopes_iff hleft (fun n hn => by simp [hs, hn]) hscope hTT'
  rcases outcome_solveTo hwf hs hT hne hsT hscope with
    ⟨hin, hok⟩ | ⟨y, mid, right₁, rfl, rfl, hok⟩ | ⟨a, rfl, hout, herr⟩
  · rw [hok, outcome_solveTo_of_scopes hwf' hs' hT' hne' hsT' (hleft_iff.mpr hin)]
    exact .ok (h.solvedAt hwf' hs hs' hTT' hmono) (Context.Agree.refl _ _)
  · obtain rfl := hTT'.evar
    have hnot : ¬ left'.Scopes (.evar (r y)) := fun hin =>
      not_scopes_left hwf hs (hleft_iff.mp hin)
    rcases outcome_solveTo hwf' hs' hT' hne' hsT' hscope' with
      ⟨hin, -⟩ | ⟨y', mid', right₁', hy, rfl, hok'⟩ | ⟨a', ha, -, -⟩
    · exact absurd hin hnot
    · obtain rfl : r y = y' := by simpa using hy
      rw [hok, hok']
      exact .ok (h.solvedAt hwf' (Context.slot_of_right hs) (Context.slot_of_right hs')
        (Ty.renames_evar r x) rfl) (Context.Agree.refl _ _)
    · contradiction
  · obtain rfl := hTT'.var
    have hout' : .rigid (r a) ∉ left' := fun hin =>
      hout (Context.scopes_var.mp (hleft_iff.mp (Context.scopes_var.mpr hin)))
    rw [herr, outcome_solveTo_of_escapes hwf' hs' hout' hscope']
    exact .error _ _

end Solving

/-! ## Rules on renamed queries -/

/-- To this depth the rules do the same to queries that differ by a renaming. -/
def ReflectsAt (equal : Prop) (n : Nat) : Prop :=
  ∀ ⦃r : Name → Name⦄ ⦃s s' : Session⦄ ⦃A B A' B' : Ty⦄, s.WellPosed A B → s'.WellPosed A' B' →
    s.Mirrors equal r s' → A.Renames r A' → B.Renames r B' →
      Reflects equal r s (judge n s A B).outcome (judge n s' A' B').outcome

section Rules

variable {equal : Prop} {r : Name → Name} {n : Nat} {s s' : Session} {A B A' B' : Ty}
  {x : Name} {left right : Context}

/-- Two arrows: the domains are compared alike, and then the codomains are, too.

**Proof sketch.** The domains give sessions that mirror each other under a renaming that agrees with
the first one. Applying both contexts to the codomains gives types that differ by it
(`Context.Renames.apply`), for which the induction hypothesis holds again. -/
private lemma reflects_judge_arr {A₁ A₂ B₁ B₂ : Ty} (ih : ReflectsAt equal n)
    (h : s.WellPosed (.arr A₁ A₂) (.arr B₁ B₂)) (h' : s'.WellPosed A' B')
    (hs : s.Mirrors equal r s') (hA : (Ty.arr A₁ A₂).Renames r A')
    (hB : (Ty.arr B₁ B₂).Renames r B') :
    Reflects equal r s (judge (n + 1) s (.arr A₁ A₂) (.arr B₁ B₂)).outcome
      (judge (n + 1) s' A' B').outcome := by
  obtain ⟨A₁', A₂', rfl, hA₁, hA₂⟩ := hA.arr
  obtain ⟨B₁', B₂', rfl, hB₁, hB₂⟩ := hB.arr
  have hdom := ih h.domains h'.domains hs hB₁ hA₁
  generalize h₁ : (judge n s B₁ A₁).outcome = o at hdom
  generalize h₁' : (judge n s' B₁' A₁').outcome = o' at hdom
  cases hdom with
  | error e e' =>
    rw [outcome_judge_arr_of_error h₁, outcome_judge_arr_of_error h₁']
    exact .error e e'
  | @ok t t' r' ht hagree =>
    have hgrows := (Derivation.of_judge h.domains h₁).grows
    have hpos := h.codomains.grows hgrows
    have hpos' := h'.codomains.grows (Derivation.of_judge h'.domains h₁').grows
    obtain ⟨C, hC, -⟩ := hpos.wellFormed.exists_apply A₂
    obtain ⟨D, hD, -⟩ := hpos.wellFormed.exists_apply B₂
    obtain ⟨C', hC', -⟩ := hpos'.wellFormed.exists_apply A₂'
    obtain ⟨D', hD', -⟩ := hpos'.wellFormed.exists_apply B₂'
    have hAt := hagree.renames h.codomains.left hA₂
    have hBt := hagree.renames h.codomains.right hB₂
    rw [outcome_judge_arr_of_ok h₁ hC hD, outcome_judge_arr_of_ok h₁' hC' hD']
    refine (ih (hpos.apply hC hD) (hpos'.apply hC' hD') ht ?_ ?_).of_grows hgrows hagree
    · exact ht.context.apply hpos.wellFormed hpos'.wellFormed hpos.left hAt hC hC'
    · exact ht.context.apply hpos.wellFormed hpos'.wellFormed hpos.right hBt hD hD'

/-- A quantifier on the right: its scope is opened with corresponding variables.

**Proof sketch.** Let the renaming send the new variable to the new variable of the other session,
so that the opened bodies differ by it. If the run in the scope is answered, then the scopes can be
closed, and the renaming still agrees with the first one on the names that were there before. -/
private lemma reflects_judge_allRight {b : Name} (ih : ReflectsAt equal n)
    (h : s.WellPosed A (.all b B)) (h' : s'.WellPosed A' B') (hs : s.Mirrors equal r s')
    (hA : A.Renames r A') (hB : (Ty.all b B).Renames r B') :
    Reflects equal r s (judge (n + 1) s A (.all b B)).outcome (judge (n + 1) s' A' B').outcome := by
  obtain ⟨b', B', rfl⟩ := hB.all
  have hname : Function.update r s.rightName s'.rightName s.rightName = s'.rightName :=
    Function.update_self ..
  have hagree := Context.agree_update s.unused_rightName r s'.rightName
  have hbody := (hagree.renames h.right hB).subst (Ty.renames_var _ s.rightName)
  rw [hname] at hbody
  have hopen := ih h.openRight h'.openRight (hs.openRight h.wellFormed)
    (hagree.renames h.left hA) hbody
  rw [outcome_judge_allRight, outcome_judge_allRight]
  generalize h₁ : (judge n s.openRight A (B.subst b (.var s.rightName))).outcome = o at hopen
  generalize h₁' : (judge n s'.openRight A' (B'.subst b' (.var s'.rightName))).outcome = o' at hopen
  cases hopen with
  | error e e' => exact .error e e'
  | ok ht hagree₁ =>
    obtain ⟨Δ, hΔ, hclose⟩ := (Derivation.of_judge h.openRight h₁).grows.exists_closeRight
    obtain ⟨Δ', hΔ', hclose'⟩ := (Derivation.of_judge h'.openRight h₁').grows.exists_closeRight
    simp only [Except.bind, hclose, hclose']
    refine .ok (ht.closeRight hΔ hΔ') fun y hy => ?_
    rw [hagree₁ y (Context.taken_cons.mpr (.inr hy)), hagree y hy]

/-- A quantifier on the left: its scope is opened with corresponding existentials.

**Proof sketch.** As for a quantifier on the right, with a new existential and its marker in place
of the new variable. The scopes are closed at corresponding markers, since the renaming of the
answer sends the one name to the other. -/
private lemma reflects_judge_allLeft {a : Name} (ih : ReflectsAt equal n)
    (h : s.WellPosed (.all a A) B) (h' : s'.WellPosed A' B') (hs : s.Mirrors equal r s')
    (hA : (Ty.all a A).Renames r A') (hB : B.Renames r B') (hBall : ¬ B.isAll) :
    Reflects equal r s (judge (n + 1) s (.all a A) B).outcome (judge (n + 1) s' A' B').outcome := by
  obtain ⟨a', A', rfl⟩ := hA.all
  have hname : Function.update r s.leftName s'.leftName s.leftName = s'.leftName :=
    Function.update_self ..
  have hagree := Context.agree_update s.unused_leftName r s'.leftName
  have hbody := (hagree.renames h.left hA).subst (Ty.renames_evar _ s.leftName)
  rw [hname] at hbody
  have hopen := ih h.openLeft h'.openLeft (hs.openLeft h.wellFormed) hbody
    (hagree.renames h.right hB)
  have hBall' : ¬ B'.isAll := by rwa [hB.form.2.2]
  rw [outcome_judge_allLeft _ _ _ _ hBall, outcome_judge_allLeft _ _ _ _ hBall']
  generalize h₁ : (judge n s.openLeft (A.subst a (.evar s.leftName)) B).outcome = o at hopen
  generalize h₁' : (judge n s'.openLeft (A'.subst a' (.evar s'.leftName)) B').outcome = o' at hopen
  cases hopen with
  | error e e' => exact .error e e'
  | @ok t t' r' ht hagree₁ =>
    have hgrows' := (Derivation.of_judge h'.openLeft h₁').grows
    obtain ⟨Δ, block, hΔ, hclose⟩ := (Derivation.of_judge h.openLeft h₁).grows.exists_closeLeft
    obtain ⟨Δ', block', hΔ', hclose'⟩ := hgrows'.exists_closeLeft
    simp only [Except.bind, hclose, hclose']
    have hname' : r' s.leftName = s'.leftName := by
      rw [hagree₁ s.leftName ⟨_, List.mem_cons_self, rfl⟩, hname]
    rw [← hname'] at hΔ'
    refine .ok (ht.closeLeft hgrows'.wellFormed hΔ hΔ') fun y hy => ?_
    rw [hagree₁ y (Context.taken_cons.mpr (.inr (Context.taken_cons.mpr (.inr hy)))), hagree y hy]

/-- Existentials with a solution are replaced first, by corresponding types.

**Proof sketch.** The same case applies in the other session, since the renaming keeps whether types
are equal (one of them is an existential, hence a monotype), quantified or solved. Applying the two
contexts gives types that differ by the renaming. -/
private lemma reflects_judge_solved (ih : ReflectsAt equal n) (h : s.WellPosed A B)
    (h' : s'.WellPosed A' B') (hs : s.Mirrors equal r s') (hA : A.Renames r A')
    (hB : B.Renames r B') (hne : A ≠ B) (hAall : ¬ A.isAll) (hBall : ¬ B.isAll)
    (hsol : s.context.HasSolution A ∨ s.context.HasSolution B) :
    Reflects equal r s (judge (n + 1) s A B).outcome (judge (n + 1) s' A' B').outcome := by
  have hwf := h.wellFormed
  have hwf' := h'.wellFormed
  have hmono : A.isMono ∨ B.isMono := by
    rcases hsol with hsol | hsol
    · obtain ⟨x, rfl⟩ := hsol.exists_evar
      exact .inl rfl
    · obtain ⟨y, rfl⟩ := hsol.exists_evar
      exact .inr rfl
  have hne' : A' ≠ B' := hs.context.ne h.left h.right hA hB hmono hne
  have hAall' : ¬ A'.isAll := by rwa [hA.form.2.2]
  have hBall' : ¬ B'.isAll := by rwa [hB.form.2.2]
  have hsol' : s'.context.HasSolution A' ∨ s'.context.HasSolution B' :=
    hsol.imp (hs.context.hasSolution_iff h.left hA).mpr (hs.context.hasSolution_iff h.right hB).mpr
  obtain ⟨C, hC, -⟩ := hwf.exists_apply A
  obtain ⟨D, hD, -⟩ := hwf.exists_apply B
  obtain ⟨C', hC', -⟩ := hwf'.exists_apply A'
  obtain ⟨D', hD', -⟩ := hwf'.exists_apply B'
  rw [outcome_judge_solved n hwf hne hAall hBall hsol hC hD,
    outcome_judge_solved n hwf' hne' hAall' hBall' hsol' hC' hD']
  refine ih (h.apply hC hD) (h'.apply hC' hD') hs ?_ ?_
  · exact hs.context.apply hwf hwf' h.left hA hC hC'
  · exact hs.context.apply hwf hwf' h.right hB hD hD'

/-- An existential against an arrow: it is articulated in both sessions, or it occurs in both
arrows.

**Proof sketch.** The slot of the existential corresponds to a slot in the other session, and the
existential occurs in the arrow in both sessions or in neither. If it does not, then the sessions
mirror each other after it has been articulated (`Session.Mirrors.articulated`), and the induction
hypothesis is for the two arrows. -/
private lemma reflects_judge_articulateLeft {B₁ B₂ : Ty} (ih : ReflectsAt equal n)
    (h : s.WellPosed (.evar x) (.arr B₁ B₂)) (h' : s'.WellPosed A' B')
    (hs : s.Mirrors equal r s') (hA : (Ty.evar x).Renames r A')
    (hB : (Ty.arr B₁ B₂).Renames r B')
    (hslot : s.context = Context.concat (.unsolved x :: left) right) :
    Reflects equal r s (judge (n + 1) s (.evar x) (.arr B₁ B₂)).outcome
      (judge (n + 1) s' A' B').outcome := by
  have hwf := h.wellFormed
  have hwf' := h'.wellFormed
  obtain rfl := hA.evar
  obtain ⟨B₁', B₂', rfl, -, -⟩ := hB.arr
  obtain ⟨left', right', hslot'⟩ := hs.context.exists_unsolved_slot hslot
  have hocc := hs.context.mem_existentials_iff h.right hB (Context.scopes_evar.mp h.left).taken
  by_cases hx : x ∈ (Ty.arr B₁ B₂).existentials
  · rw [outcome_judge_articulateLeft_of_occurs n hwf hslot hx,
      outcome_judge_articulateLeft_of_occurs n hwf' hslot' (hocc.mpr hx)]
    exact .error _ _
  · rw [outcome_judge_articulateLeft n hwf hslot hx,
      outcome_judge_articulateLeft n hwf' hslot' (mt hocc.mp hx)]
    obtain ⟨r', hs₁, hagree, harrow⟩ := hs.articulated hwf hwf' hslot hslot'
    exact (ih (h.articulateLeft hslot) (h'.articulateLeft hslot') hs₁ harrow
      (hagree.renames h.right hB)).of_grows (grows_articulated hslot hwf) hagree

/-- An arrow against an existential, likewise.

**Proof sketch.** As for an existential against an arrow, with the two sides exchanged. -/
private lemma reflects_judge_articulateRight {A₁ A₂ : Ty} (ih : ReflectsAt equal n)
    (h : s.WellPosed (.arr A₁ A₂) (.evar x)) (h' : s'.WellPosed A' B')
    (hs : s.Mirrors equal r s') (hA : (Ty.arr A₁ A₂).Renames r A')
    (hB : (Ty.evar x).Renames r B')
    (hslot : s.context = Context.concat (.unsolved x :: left) right) :
    Reflects equal r s (judge (n + 1) s (.arr A₁ A₂) (.evar x)).outcome
      (judge (n + 1) s' A' B').outcome := by
  have hwf := h.wellFormed
  have hwf' := h'.wellFormed
  obtain rfl := hB.evar
  obtain ⟨A₁', A₂', rfl, -, -⟩ := hA.arr
  obtain ⟨left', right', hslot'⟩ := hs.context.exists_unsolved_slot hslot
  have hocc := hs.context.mem_existentials_iff h.left hA (Context.scopes_evar.mp h.right).taken
  by_cases hx : x ∈ (Ty.arr A₁ A₂).existentials
  · rw [outcome_judge_articulateRight_of_occurs n hwf hslot hx,
      outcome_judge_articulateRight_of_occurs n hwf' hslot' (hocc.mpr hx)]
    exact .error _ _
  · rw [outcome_judge_articulateRight n hwf hslot hx,
      outcome_judge_articulateRight n hwf' hslot' (mt hocc.mp hx)]
    obtain ⟨r', hs₁, hagree, harrow⟩ := hs.articulated hwf hwf' hslot hslot'
    exact (ih (h.articulateRight hslot) (h'.articulateRight hslot') hs₁
      (hagree.renames h.left hA) harrow).of_grows (grows_articulated hslot hwf) hagree

/-- Between renamed types there is no rule if there is none between the types. -/
private lemma reflects_judge_mismatch (h : s.WellPosed A B) (hs : s.Mirrors equal r s')
    (hA : A.Renames r A') (hB : B.Renames r B') (hne : A ≠ B) (hAall : ¬ A.isAll)
    (hBall : ¬ B.isAll) (harr : ¬ (A.isArr ∧ B.isArr)) (hxA : ∀ x, A ≠ .evar x)
    (hyB : ∀ y, B ≠ .evar y) :
    Reflects equal r s (judge (n + 1) s A B).outcome (judge (n + 1) s' A' B').outcome := by
  -- unless both types are arrows, one of them has no parts
  have hmono : A.isMono ∨ B.isMono := by
    by_contra hmono
    rw [not_or] at hmono
    refine harr ⟨?_, ?_⟩
    · cases A <;> simp_all [Ty.isMono, Ty.isArr, Ty.isAll]
    · cases B <;> simp_all [Ty.isMono, Ty.isArr, Ty.isAll]
  have hne' : A' ≠ B' := hs.context.ne h.left h.right hA hB hmono hne
  have hAall' : ¬ A'.isAll := by rwa [hA.form.2.2]
  have hBall' : ¬ B'.isAll := by rwa [hB.form.2.2]
  have harr' : ¬ (A'.isArr ∧ B'.isArr) := by rwa [hA.form.2.1, hB.form.2.1]
  rw [outcome_judge_mismatch n hne hAall hBall harr hxA hyB,
    outcome_judge_mismatch n hne' hAall' hBall' harr' (hA.ne_evar hxA) (hB.ne_evar hyB)]
  exact .error _ _

/-- The rules do the same to queries that differ by a renaming: they refuse both, or they answer
both with sessions that differ by a renaming, too.

**Proof sketch.** Induction on the depth. The same rule applies to both queries, since it is
determined by the forms of the two types, by their solutions and by the order in which they are
declared, and none of these is changed by a renaming. -/
theorem reflects_judge (equal : Prop) (n : Nat) : ReflectsAt equal n := by
  induction n with
  | zero => exact fun _ _ _ _ _ _ _ _ _ _ _ _ => .error _ _
  | succ n ih =>
    intro r s s' A B A' B' h h' hs hA hB
    have hwf := h.wellFormed
    have hwf' := h'.wellFormed
    cases h.rule with
    | arr A₁ A₂ B₁ B₂ => exact reflects_judge_arr ih h h' hs hA hB
    | allRight A b B => exact reflects_judge_allRight ih h h' hs hA hB
    | allLeft a A hBall => exact reflects_judge_allLeft ih h h' hs hA hB hBall
    | same hatom =>
      have hatom' : A'.isAtom := by rwa [hA.form.1]
      obtain rfl : A' = B' :=
        Ty.eq_of_alphaEq_of_isMono (hA.trans hB.symm) (Ty.isMono_of_isAtom hatom')
      rw [outcome_judge_same n s hatom, outcome_judge_same n s' hatom']
      exact .ok hs (Context.Agree.refl _ _)
    | solved hne hAall hBall hsol =>
      exact reflects_judge_solved ih h h' hs hA hB hne hAall hBall hsol
    | articulateLeft B₁ B₂ hslot => exact reflects_judge_articulateLeft ih h h' hs hA hB hslot
    | articulateRight A₁ A₂ hslot => exact reflects_judge_articulateRight ih h h' hs hA hB hslot
    | @solveLeft x left right B hslot hatom hne hsB =>
      obtain rfl := hA.evar
      obtain ⟨left', right', hslot'⟩ := hs.context.exists_unsolved_slot hslot
      have hatom' : B'.isAtom := by rwa [hB.form.1]
      have hne' : .evar (r x) ≠ B' := hs.context.ne h.left h.right hA hB (.inl rfl) (Ne.symm hne)
      have hsB' := mt (hs.context.hasSolution_iff h.right hB).mp hsB
      rw [outcome_judge_solveLeft n hwf hslot hatom hne hsB,
        outcome_judge_solveLeft n hwf' hslot' hatom' hne'.symm hsB']
      exact reflects_solveTo hs hwf hwf' hslot hslot' hatom hne hsB h.right hB
    | @solveRight x left right A hslot hatom hne =>
      obtain rfl := hB.evar
      obtain ⟨left', right', hslot'⟩ := hs.context.exists_unsolved_slot hslot
      have hatom' : A'.isAtom := by rwa [hA.form.1]
      have hsA : ¬ s.context.HasSolution A := Context.not_hasSolution hne
      rw [outcome_judge_solveRight n hwf hslot hatom hne,
        outcome_judge_solveRight n hwf' hslot' hatom' (hA.ne_evar hne)]
      exact reflects_solveTo hs hwf hwf' hslot hslot' hatom (hne x) hsA h.left hA
    | mismatch hne hAall hBall harr hxA hyB =>
      exact reflects_judge_mismatch h hs hA hB hne hAall hBall harr hxA hyB

end Rules

/-! ## Queries -/

section Query

variable {r : Name → Name} {s s' : Session} {A B A' B' : Ty}

/-- The bounds on the depth of two queries that differ by a renaming make no difference. -/
private lemma reflects_check (equal : Prop) (h : s.WellPosed A B) (h' : s'.WellPosed A' B')
    (hs : s.Mirrors equal r s') (hA : A.Renames r A') (hB : B.Renames r B') :
    Reflects equal r s (check s A B).outcome (check s' A' B').outcome := by
  let n := max (depthBound s.context A B) (depthBound s'.context A' B')
  have hjudge : judge n s A B = check s A B := judge_mono h.completes (Nat.le_max_left _ _)
  have hjudge' : judge n s' A' B' = check s' A' B' := judge_mono h'.completes (Nat.le_max_right _ _)
  rw [← hjudge, ← hjudge']
  exact reflects_judge equal n h h' hs hA hB

/-- What queries answer does not depend on the names of bound variables: for types that are equal up
to bound names the answer is the same, and if it is a session, then that session is the same with
all names in its context. -/
theorem subtype_alphaEq (h : s.context.isWellFormed = .ok true)
    (hA : s.context.isWellFormedType A = .ok true) (hB : s.context.isWellFormedType B = .ok true)
    (hAA' : A.AlphaEq A') (hBB' : B.AlphaEq B') :
    ∃ answer, (subtype s A B).outcome = .ok answer ∧ (subtype s A' B').outcome = .ok answer := by
  have hpos := Session.WellPosed.of_checks h hA hB
  have hid := s.context.renames_id
  have hA' := Ty.renames_id.mpr hAA'
  have hB' := Ty.renames_id.mpr hBB'
  have hpos' : s.WellPosed A' B' :=
    ⟨hpos.wellFormed, hid.scopes hpos.left hA', hid.scopes hpos.right hB'⟩
  have hreflects := reflects_check True hpos hpos' ⟨hid, fun _ => ⟨rfl, rfl⟩⟩ hA' hB'
  generalize hrun : (check s A B).outcome = o at hreflects
  generalize hrun' : (check s A' B').outcome = o' at hreflects
  cases hreflects with
  | ok ht _ =>
    obtain ⟨rfl, rfl⟩ := ht.same trivial
    exact ⟨_, outcome_subtype_eq_some.mpr hrun, outcome_subtype_eq_some.mpr hrun'⟩
  | error e e' =>
    exact ⟨none, hpos.outcome_subtype_of_error hrun, hpos'.outcome_subtype_of_error hrun'⟩

/-- One bound variable is called like a declared variable, and one like the new existential. -/
theorem subtype_alphaEq_taken :
    let s : Session := ⟨[.unsolved "x", .rigid "t0"], 0, "e", "t"⟩
    let s' : Session := ⟨[.solved "x" (.var "t0"), .rigid "t0"], 3, "e", "t"⟩
    let A (a : Name) : Ty :=
      .all a (.arr (.arr (.var a) (.evar "x")) (.arr (.var a) (.evar "x")))
    let B (b : Name) : Ty :=
      .all b (.arr (.arr (.var b) (.var "t0")) (.arr (.var b) (.var "t0")))
    (subtype s (A "a") (B "b")).outcome = .ok (some s') ∧
      ∃ answer, (subtype s (A "a") (B "b")).outcome = .ok answer ∧
        (subtype s (A "t0") (B "e2")).outcome = .ok answer := by
  intro s s' A B
  exact ⟨by decide +kernel,
    subtype_alphaEq (by decide) (by decide) (by decide) (by decide) (by decide)⟩

/-- What queries answer does not depend on the names of a context, nor on the counter and the stems
from which new names are made: a query and the renamed one are both refused, or both are answered.
In this case the contexts that are reached differ by a renaming that does the same to all names of
the first context, and that keeps the new names apart.

**Proof sketch.** The two queries are related by a renaming from the start, so that their runs
reflect each other (`reflects_check`): both fail, or both are answered and the sessions mirror each
other under a renaming that agrees with the first one. -/
theorem subtype_renamed (h : s.context.isWellFormed = .ok true)
    (h' : s'.context.isWellFormed = .ok true) (hs : s.context.Renames r s'.context)
    (hA : s.context.isWellFormedType A = .ok true) (hB : s.context.isWellFormedType B = .ok true)
    (hAA' : A.Renames r A') (hBB' : B.Renames r B') :
    ((subtype s A B).outcome = .ok none ∧ (subtype s' A' B').outcome = .ok none) ∨
      ∃ t t' r', (subtype s A B).outcome = .ok (some t) ∧
        (subtype s' A' B').outcome = .ok (some t') ∧ s.context.Agree r' r ∧
        t.context.Renames r' t'.context := by
  have hpos := Session.WellPosed.of_checks h hA hB
  have hpos' : s'.WellPosed A' B' := ⟨Context.isWellFormed_eq_true_iff.mp h',
    hs.scopes hpos.left hAA', hs.scopes hpos.right hBB'⟩
  have hreflects := reflects_check False hpos hpos' ⟨hs, False.elim⟩ hAA' hBB'
  generalize hrun : (check s A B).outcome = o at hreflects
  generalize hrun' : (check s' A' B').outcome = o' at hreflects
  cases hreflects with
  | @ok t t' r' ht hagree =>
    exact .inr ⟨t, t', r', outcome_subtype_eq_some.mpr hrun, outcome_subtype_eq_some.mpr hrun',
      hagree, ht.context⟩
  | error e e' =>
    exact .inl ⟨hpos.outcome_subtype_of_error hrun, hpos'.outcome_subtype_of_error hrun'⟩

/-- Existentials and variables have exchanged the stems of their names, and the variable has got the
first name that would be given out.

**Proof sketch.** The only names that are taken are `x` and `a`, and they are sent to different
names; the entries correspond one by one. -/
theorem subtype_renamed_exchanged :
    let s : Session := ⟨[.unsolved "x", .rigid "a"], 0, "e", "t"⟩
    let s' : Session := ⟨[.unsolved "e1", .rigid "t0"], 0, "t", "e"⟩
    let t : Session := ⟨[.solved "x" (.arr (.evar "e1") (.evar "e2")), .solved "e2" (.evar "e1"),
      .unsolved "e1", .rigid "a"], 3, "e", "t"⟩
    let r : Name → Name := fun x => if x = "x" then "e1" else "t0"
    let A (a : Name) : Ty := .all a (.arr (.var a) (.var a))
    (subtype s (A "b") (.evar "x")).outcome = .ok (some t) ∧
      (((subtype s (A "b") (.evar "x")).outcome = .ok none ∧
          (subtype s' (A "t0") (.evar "e1")).outcome = .ok none) ∨
        ∃ t t' r', (subtype s (A "b") (.evar "x")).outcome = .ok (some t) ∧
          (subtype s' (A "t0") (.evar "e1")).outcome = .ok (some t') ∧ s.context.Agree r' r ∧
          t.context.Renames r' t'.context) := by
  intro s s' t r A
  have hs : s.context.Renames r s'.context := by
    refine ⟨.cons (.unsolved "x") (.cons (.rigid "a") .nil), fun y z hy hz hyz => ?_⟩
    have hname : ∀ y, s.context.Taken y → y = "x" ∨ y = "a" := by
      intro y hy
      simpa [s, Context.Taken, Entry.takenName?, Entry.name, eq_comm] using hy
    rcases hname y hy with rfl | rfl <;> rcases hname z hz with rfl | rfl <;> simp_all [r]
  exact ⟨by decide +kernel, subtype_renamed (by decide) (by decide) hs (by decide) (by decide)
    (by decide) (by decide)⟩

end Query

end HigherRank
