import HigherRank.Proofs.Measures
import HigherRank.Proofs.Preservation

set_option autoImplicit false
set_option relaxedAutoImplicit false

/-!
# What a run does not touch

A run has nothing to do with an existential without a solution that occurs in neither of the two
types, as long as their other existentials are replaced by what they stand for: it gets no solution,
and it does not come into the solution of another one.

## Main definitions

* `HigherRank.Context.Inert` — an existential to which nothing has happened.

## Main results

* `HigherRank.Context.Inert.of_slot` — filling in one slot leaves the other existentials alone.
* `HigherRank.Derivation.inert` — a run leaves alone the existentials that occur in neither type.
* `HigherRank.Derivation.context_eq` — a run about no existentials leaves the context alone.
* `HigherRank.subtype_frame` — what a query can solve.
-/

namespace HigherRank

open Context (Extends WellFormed)

namespace Context

/-! ## Types that do not change -/

section Unchanged

variable {new : Name → Prop} {Γ Δ left right block : Context} {x y : Name} {A T : Ty} {m : Entry}

/-- A type of which no existential has got a solution stands for the same as before. -/
private lemma Extends.resolved_eq_self (h : Extends new Γ Δ) (hΓ : Γ.WellFormed) (hΔ : Δ.WellFormed)
    (hA : ∀ y ∈ (Γ.resolved A).existentials, .unsolved y ∈ Δ) : Δ.resolved A = Γ.resolved A := by
  rw [← h.resolved hΓ hΔ]
  exact Nameless.fillExistentials_eq_self fun y hy => hΔ.solution_of_unsolved (hA y hy)

/-- What is declared on the left of an entry stands there. -/
lemma WellFormed.mem_left_of_declares (h : WellFormed (concat (m :: left) right)) {n : Entry}
    (hn : n ∈ concat (m :: left) right) (hny : n.declares y) (hy : left.declares y) : n ∈ left := by
  obtain ⟨k, hk, hky⟩ := List.any_eq_true.mp hy
  have hkmem : k ∈ concat (m :: left) right := by simp [hk]
  rwa [h.eq_of_declares hn hkmem hny hky]

/-- An existential that was in scope before the scope of a quantifier was opened keeps its place
outside of the scope. -/
private lemma WellFormed.unsolved_mem_left (h : WellFormed (concat (m :: left) right))
    (hmem : .unsolved y ∈ concat (m :: left) right) (hy : left.declares y) : .unsolved y ∈ left :=
  h.mem_left_of_declares hmem (by simp [Entry.declares]) hy

/-- An extension in which no existential has got a solution is the context itself. -/
lemma Extends.eq_of_unsolved (h : Extends new Γ Δ) (hΔ : Δ.WellFormed)
    (hu : ∀ x, .unsolved x ∈ Γ → .unsolved x ∈ Δ) : Δ = Γ := by
  induction h with
  | nil => rfl
  | @keep Γ Δ m hext ih =>
    have hslot : WellFormed (concat (m :: Δ) []) := hΔ
    refine congrArg (m :: ·) (ih hΔ.of_cons fun x hx => ?_)
    have hdecl : Δ.declares x := hext.declares_of_declares (declares_iff.mpr (.inr (.inl hx)))
    exact hslot.unsolved_mem_left (hu x (List.mem_cons_of_mem m hx)) hdecl
  | solve x A =>
    have hx := hu x List.mem_cons_self
    exact absurd List.mem_cons_self (hΔ.not_solved_of_unsolved hx A)

/-- A type in scope on the left of an entry stands for the same in the whole context. -/
lemma WellFormed.resolved_left_of_slot (h : WellFormed (concat (m :: left) right))
    (hA : left.Scopes A) : (concat (m :: left) right).resolved A = left.resolved A := by
  rw [concat_cons_left] at h ⊢
  exact h.resolved_left hA

/-- Where one slot is filled in, the existentials of the other slots are still without a
solution. -/
lemma unsolved_mem_of_slot (T : Ty) (block : Context) (hne : y ≠ x)
    (hy : .unsolved y ∈ concat (.unsolved x :: left) right) :
    .unsolved y ∈ concat (.solved x T :: left.concat block) right := by
  simp only [mem_concat, List.mem_cons, Entry.unsolved.injEq, hne, false_or] at hy
  simp only [mem_concat, List.mem_cons, reduceCtorEq, false_or]
  exact hy.imp_right .inr

/-- An existential of an instance occurs in the quantified type or in the argument. -/
private lemma WellFormed.mem_existentials_resolved_subst (h : Γ.WellFormed) {a : Name} {R : Ty}
    (hy : y ∈ (Γ.resolved (A.subst a R)).existentials) :
    y ∈ (Γ.resolved (.all a A)).existentials ∨ y ∈ (Γ.resolved R).existentials := by
  rw [h.resolved_subst] at hy
  rcases Nameless.existentials_openAt hy with hbody | harg
  · exact .inl hbody
  · exact .inr harg

end Unchanged

/-! ## Inert existentials -/

/-- The existential has got no solution, and it has come into no type in which it was not. -/
structure Inert (Γ Δ : Context) (y : Name) : Prop where
  unsolved : .unsolved y ∈ Δ
  absent : ∀ A, Γ.Scopes A → y ∉ (Γ.resolved A).existentials → y ∉ (Δ.resolved A).existentials

namespace Inert

variable {new : Name → Prop} {Γ Δ Θ left right block : Context} {x y : Name} {T : Ty}

/-- Nothing has happened to an existential without a solution. -/
private lemma refl (hy : .unsolved y ∈ Γ) : Γ.Inert Γ y :=
  ⟨hy, fun _ _ h => h⟩

/-- If nothing happens to an existential in two steps, nothing happens to it in both together. -/
private lemma trans (h : Γ.Inert Δ y) (h' : Δ.Inert Θ y) (hext : Extends new Γ Δ) : Γ.Inert Θ y :=
  ⟨h'.unsolved, fun A hA hy => h'.absent A (hext.scopes hA) (h.absent A hA hy)⟩

/-- An inert existential does not come into what another one stands for. -/
lemma apart (h : Γ.Inert Δ y) (hΓ : Γ.WellFormed) (hx : .unsolved x ∈ Γ) (hne : x ≠ y) :
    y ∉ (Δ.solution x).existentials := by
  refine h.absent (.evar x) (Context.scopes_evar.mpr (.inl hx)) ?_
  rw [resolved_evar, hΓ.solution_of_unsolved hx]
  simpa [Nameless.existentials] using hne.symm

/-- Filling in one slot leaves the existentials of the other slots alone, unless they occur in what
is filled in. -/
theorem of_slot (block : Context) (hΓ : WellFormed (concat (.unsolved x :: left) right))
    (hΔ : WellFormed (concat (.solved x T :: left.concat block) right))
    (hext : Extends new (concat (.unsolved x :: left) right)
      (concat (.solved x T :: left.concat block) right))
    (hne : y ≠ x) (hy : .unsolved y ∈ concat (.unsolved x :: left) right)
    (hT : y ∉ ((concat (.solved x T :: left.concat block) right).resolved T).existentials) :
    (concat (.unsolved x :: left) right).Inert
      (concat (.solved x T :: left.concat block) right) y := by
  refine ⟨unsolved_mem_of_slot T block hne hy, fun A hA hyA hmem => ?_⟩
  rw [← hext.resolved hΓ hΔ] at hmem
  obtain ⟨z, hz, hyz⟩ := Nameless.mem_existentials_fillExistentials.mp hmem
  by_cases hzx : z = x
  · have hsolved : .solved x T ∈ concat (.solved x T :: left.concat block) right := by simp
    rw [hzx, hΔ.solution_of_mem hsolved] at hyz
    exact hT hyz
  · have hzu := unsolved_mem_of_slot T block hzx (hΓ.existentials_resolved hA hz)
    rw [hΔ.solution_of_unsolved hzu] at hyz
    obtain rfl : y = z := by simpa [Nameless.existentials] using hyz
    exact hyA hz

end Inert

end Context

namespace Session

variable {s : Session} {left right : Context} {x y : Name} {A B T : Ty}

/-! ## Sessions in which a quantifier is opened -/

/-- Opening a quantifier on the right brings no existential into its body. -/
lemma not_mem_openRight {b : Name} (h : s.context.WellFormed)
    (hy : y ∉ (s.context.resolved (.all b B)).existentials) :
    y ∉ (s.openRight.context.resolved (B.subst b (.var s.rightName))).existentials := by
  intro hmem
  rcases (wellFormed_openRight h).mem_existentials_resolved_subst hmem with hmem | hmem
  · exact hy hmem
  · simp [Nameless.existentials] at hmem

/-- Opening a quantifier on the left brings no existential into its body but the new one. -/
lemma not_mem_openLeft {a : Name} (h : s.context.WellFormed) (hyu : .unsolved y ∈ s.context)
    (hy : y ∉ (s.context.resolved (.all a A)).existentials) :
    y ∉ (s.openLeft.context.resolved (A.subst a (.evar s.leftName))).existentials := by
  intro hmem
  have hwf := wellFormed_openLeft h
  rcases hwf.mem_existentials_resolved_subst hmem with hmem | hmem
  · exact hy hmem
  · rw [Context.resolved_evar, hwf.solution_of_unsolved (by simp)] at hmem
    obtain rfl : y = s.leftName := by simpa [Nameless.existentials] using hmem
    exact s.unused_leftName.unsolved_not_mem hyu

/-! ## Sessions in which an existential is solved -/

/-- After articulation the new codomain has no solution. -/
private lemma unsolved_codName (s : Session) (x : Name) (left right : Context) :
    .unsolved s.codName ∈ (s.articulated x left right).context := by
  simp

/-- After articulation the new domain has no solution. -/
lemma unsolved_domName (s : Session) (x : Name) (left right : Context) :
    .unsolved s.domName ∈ (s.articulated x left right).context := by
  simp

/-- The new arrow stands for itself. -/
lemma resolved_newArrow (hs : s.context = Context.concat (.unsolved x :: left) right)
    (h : s.context.WellFormed) :
    (s.articulated x left right).context.resolved s.newArrow =
      .arr (.evar s.domName) (.evar s.codName) := by
  have hwf := (grows_articulated hs h).wellFormed
  rw [newArrow, Context.resolved_arr, Context.resolved_evar, Context.resolved_evar,
    hwf.solution_of_unsolved (s.unsolved_domName x left right),
    hwf.solution_of_unsolved (s.unsolved_codName x left right)]

/-- After articulation the existential stands for the new arrow. -/
lemma solution_articulated (hs : s.context = Context.concat (.unsolved x :: left) right)
    (h : s.context.WellFormed) :
    (s.articulated x left right).context.solution x =
      .arr (.evar s.domName) (.evar s.codName) := by
  rw [(grows_articulated hs h).wellFormed.solution_of_mem (A := s.newArrow) (by simp),
    resolved_newArrow hs h]

/-- Articulation solves no other existential. -/
lemma unsolved_articulated (hs : s.context = Context.concat (.unsolved x :: left) right)
    (hne : y ≠ x) (hy : .unsolved y ∈ s.context) :
    .unsolved y ∈ (s.articulated x left right).context := by
  rw [hs] at hy
  exact Context.unsolved_mem_of_slot _ [.unsolved s.codName, .unsolved s.domName] hne hy

/-- Solving an existential solves no other one. -/
lemma unsolved_solvedAt (hs : s.context = Context.concat (.unsolved x :: left) right)
    (hne : y ≠ x) (hy : .unsolved y ∈ s.context) :
    .unsolved y ∈ (s.solvedAt x T left right).context := by
  rw [hs] at hy
  exact Context.unsolved_mem_of_slot T [] hne hy

/-- A type without the existential is not changed by articulation. -/
lemma resolved_articulated (hs : s.context = Context.concat (.unsolved x :: left) right)
    (h : s.context.WellFormed) {A : Ty} (hA : s.context.Scopes A)
    (hx : x ∉ (s.context.resolved A).existentials) :
    (s.articulated x left right).context.resolved A = s.context.resolved A := by
  have hgrows := grows_articulated hs h
  refine hgrows.extension.resolved_eq_self h hgrows.wellFormed fun y hy => ?_
  refine unsolved_articulated hs ?_ (h.existentials_resolved hA hy)
  rintro rfl
  exact hx hy

/-- A type in scope where the existential is declared is not changed by solving it. -/
lemma resolved_solvedAt (hs : s.context = Context.concat (.unsolved x :: left) right)
    (h : s.context.WellFormed) (hmono : T.isMono) {A : Ty} (hT : left.Scopes T)
    (hA : left.Scopes A) :
    (s.solvedAt x T left right).context.resolved A = s.context.resolved A := by
  have hwf := (grows_solvedAt hs h hmono hT).wellFormed
  rw [context_solvedAt] at hwf ⊢
  rw [hwf.resolved_left_of_slot hA]
  rw [hs] at h ⊢
  rw [h.resolved_left_of_slot hA]

/-- The names of the new existentials are not in use. -/
lemma ne_newNames (hy : .unsolved y ∈ s.context) : y ≠ s.domName ∧ y ≠ s.codName := by
  refine ⟨?_, ?_⟩
  · rintro rfl
    exact s.unused_domName.unsolved_not_mem hy
  · rintro rfl
    exact s.unused_codName.unsolved_not_mem hy

/-- Articulation does nothing to other existentials. -/
private lemma inert_articulated (hs : s.context = Context.concat (.unsolved x :: left) right)
    (h : s.context.WellFormed) (hne : y ≠ x) (hy : .unsolved y ∈ s.context) :
    s.context.Inert (s.articulated x left right).context y := by
  have hgrows := grows_articulated hs h
  have harrow := resolved_newArrow hs h
  obtain ⟨hdom, hcod⟩ := ne_newNames hy
  rw [hs] at h hy ⊢
  have hext := hgrows.extension
  rw [hs] at hext
  refine .of_slot [.unsolved s.codName, .unsolved s.domName] h hgrows.wellFormed hext hne hy ?_
  show y ∉ ((s.articulated x left right).context.resolved s.newArrow).existentials
  rw [harrow]
  simpa [Nameless.existentials] using ⟨hdom, hcod⟩

/-- Solving an existential does nothing to those that are not in the solution. -/
private lemma inert_solvedAt (hs : s.context = Context.concat (.unsolved x :: left) right)
    (h : s.context.WellFormed) (hmono : T.isMono) (hT : left.Scopes T) (hne : y ≠ x)
    (hy : .unsolved y ∈ s.context) (hyT : y ∉ (s.context.resolved T).existentials) :
    s.context.Inert (s.solvedAt x T left right).context y := by
  have hgrows := grows_solvedAt hs h hmono hT
  rw [← resolved_solvedAt hs h hmono hT hT] at hyT
  rw [hs] at h hy ⊢
  have hext := hgrows.extension
  rw [hs] at hext
  exact .of_slot [] h hgrows.wellFormed hext hne hy hyT

end Session

/-! ## Runs -/

namespace Derivation

open Context (Inert)

variable {s s₁ s₂ s' : Session} {A B : Ty} {y : Name}

/-- Of a pair of arrows the domains and then the codomains are compared. -/
private lemma inert_arr {A₁ A₂ B₁ B₂ A₂' B₂' : Ty} (hgrows : s.Grows s₁) (hA₂ : s.context.Scopes A₂)
    (hB₂ : s.context.Scopes B₂) (hA : s₁.context.apply A₂ = .ok A₂')
    (hB : s₁.context.apply B₂ = .ok B₂')
    (ih₁ : y ∉ (s.context.resolved B₁).existentials → y ∉ (s.context.resolved A₁).existentials →
      s.context.Inert s₁.context y)
    (ih₂ : .unsolved y ∈ s₁.context → y ∉ (s₁.context.resolved A₂').existentials →
      y ∉ (s₁.context.resolved B₂').existentials → s₁.context.Inert s₂.context y)
    (hyA : y ∉ (s.context.resolved (.arr A₁ A₂)).existentials)
    (hyB : y ∉ (s.context.resolved (.arr B₁ B₂)).existentials) :
    s.context.Inert s₂.context y := by
  simp only [Context.resolved_arr, Nameless.existentials, List.mem_append, not_or] at hyA hyB
  have h₁ := ih₁ hyB.1 hyA.1
  have hA₂' := h₁.absent A₂ hA₂ hyA.2
  have hB₂' := h₁.absent B₂ hB₂ hyB.2
  rw [← hgrows.wellFormed.resolved_apply hA] at hA₂'
  rw [← hgrows.wellFormed.resolved_apply hB] at hB₂'
  exact h₁.trans (ih₂ h₁.unsolved hA₂' hB₂') hgrows.extension

/-- A run leaves alone the existentials that occur in neither of the two types.

**Proof sketch.** Induction on the derivation. The existentials that are new during the run have
other names, and an existential that has been solved to an arrow occurs in one of the types. -/
theorem inert (h : Derivation s A B s') (hy : .unsolved y ∈ s.context)
    (hA : y ∉ (s.context.resolved A).existentials)
    (hB : y ∉ (s.context.resolved B).existentials) : s.context.Inert s'.context y := by
  induction h with
  | same => exact .refl hy
  | arr h hd₁ hA₂ hB₂ hd₂ ih₁ ih₂ =>
    exact inert_arr hd₁.grows h.codomains.left h.codomains.right hA₂ hB₂ (ih₁ hy) ih₂ hA hB
  | @allRight s s₁ A B b Δ h hd hΔ ih =>
    have hinert := ih (by simp [hy]) hA (Session.not_mem_openRight h.wellFormed hB)
    rw [hΔ] at hinert
    refine ⟨by simpa using hinert.unsolved, fun C hC hyC => ?_⟩
    exact hinert.absent C (hC.cons _) hyC
  | @allLeft s s₁ A B a Δ block h _ hd hΔ ih =>
    have hinert := ih (by simp [hy]) (Session.not_mem_openLeft h.wellFormed hy hA) hB
    have hclosed := (hd.grows.closeLeft hΔ).1
    have hwf₁ := hd.grows.wellFormed
    have hdecl : Δ.declares y :=
      hclosed.extension.declares_of_declares (Context.declares_iff.mpr (.inr (.inl hy)))
    rw [hΔ] at hinert hwf₁
    refine ⟨hwf₁.unsolved_mem_left hinert.unsolved hdecl, fun C hC hyC => ?_⟩
    have hout := hinert.absent C ((hC.cons _).cons _) hyC
    rwa [hwf₁.resolved_left_of_slot (hclosed.extension.scopes hC)] at hout
  | solved h _ hA' hB' hd ih =>
    rw [← h.wellFormed.resolved_apply hA'] at hA
    rw [← h.wellFormed.resolved_apply hB'] at hB
    exact ih hy hA hB
  | @articulateLeft s s₁ s₂ x left right B₁ B₂ C' B₂' h hs _ hd₁ hA' hB' hd₂ ih₁ ih₂ =>
    have hx := h.wellFormed.solution_of_unsolved (x := x) (by simp [hs])
    have hne : y ≠ x := by simpa [hx, Nameless.existentials] using hA
    have hstart := Session.inert_articulated hs h.wellFormed hne hy
    have hgrows := Session.grows_articulated hs h.wellFormed
    have harrow : y ∉ ((s.articulated x left right).context.resolved s.newArrow).existentials := by
      rw [Session.resolved_newArrow hs h.wellFormed]
      simpa [Nameless.existentials] using Session.ne_newNames hy
    have hpos := h.articulateLeft hs
    refine hstart.trans (inert_arr hd₁.grows hpos.codomains.left hpos.codomains.right hA' hB'
      (ih₁ hstart.unsolved) ih₂ harrow ?_) hgrows.extension
    exact hstart.absent _ h.right hB
  | @articulateRight s s₁ s₂ x left right A₁ A₂ A₂' C' h hs _ hd₁ hA' hB' hd₂ ih₁ ih₂ =>
    have hx := h.wellFormed.solution_of_unsolved (x := x) (by simp [hs])
    have hne : y ≠ x := by simpa [hx, Nameless.existentials] using hB
    have hstart := Session.inert_articulated hs h.wellFormed hne hy
    have hgrows := Session.grows_articulated hs h.wellFormed
    have harrow : y ∉ ((s.articulated x left right).context.resolved s.newArrow).existentials := by
      rw [Session.resolved_newArrow hs h.wellFormed]
      simpa [Nameless.existentials] using Session.ne_newNames hy
    have hpos := h.articulateRight hs
    refine hstart.trans (inert_arr hd₁.grows hpos.codomains.left hpos.codomains.right hA' hB'
      (ih₁ hstart.unsolved) ih₂ ?_ harrow) hgrows.extension
    exact hstart.absent _ h.left hA
  | @solve s x T A B left right h hs hT hscope hAB =>
    have hx := h.wellFormed.solution_of_unsolved (x := x) (by simp [hs])
    have hmono := Ty.isMono_of_isAtom hT
    rcases hAB with ⟨rfl, rfl⟩ | ⟨rfl, rfl⟩
    · have hne : y ≠ x := by simpa [hx, Nameless.existentials] using hA
      exact Session.inert_solvedAt hs h.wellFormed hmono hscope hne hy hB
    · have hne : y ≠ x := by simpa [hx, Nameless.existentials] using hB
      exact Session.inert_solvedAt hs h.wellFormed hmono hscope hne hy hA

/-- If no existential without a solution occurs in either of the two types, then the context stays
as it is. -/
theorem context_eq (h : Derivation s A B s') (hA : (s.context.resolved A).existentials = [])
    (hB : (s.context.resolved B).existentials = []) : s'.context = s.context := by
  refine h.grows.extension.eq_of_unsolved h.grows.wellFormed fun x hx => ?_
  exact (h.inert hx (by simp [hA]) (by simp [hB])).unsolved

/-- A query about types without existentials leaves the context as it is. -/
lemma context_eq_of_no_existentials (h : Derivation s A B s') (hA : A.existentials = [])
    (hB : B.existentials = []) : s'.context = s.context :=
  h.context_eq (s.context.existentials_resolved_eq_nil hA)
    (s.context.existentials_resolved_eq_nil hB)

end Derivation

/-! ## Queries -/

section Query

variable {s s' : Session} {A B : Ty}

/-- An answer to a query solves no existentials but those that the query mentions when the context
has been applied to it. If there are none, then the context stays as it is.

**Proof sketch.** An existential that occurs in neither applied type is inert in the derivation,
hence still unsolved at the end (`Derivation.inert`). The second clause is the first one for an
existential that is solved and thus not unsolved. If there are no existentials in the query at all,
then no rule changes the context (`Derivation.context_eq`). -/
theorem subtype_frame (h : s.context.isWellFormed = .ok true)
    (hA : s.context.isWellFormedType A = .ok true) (hB : s.context.isWellFormedType B = .ok true)
    (hrun : (subtype s A B).outcome = .ok (some s')) :
    ∃ A' B', s.context.apply A = .ok A' ∧ s.context.apply B = .ok B' ∧
      (∀ x, .unsolved x ∈ s.context → x ∉ A'.existentials → x ∉ B'.existentials →
        .unsolved x ∈ s'.context) ∧
      (∀ x T, .unsolved x ∈ s.context → .solved x T ∈ s'.context →
        x ∈ A'.existentials ∨ x ∈ B'.existentials) ∧
      (A'.existentials = [] → B'.existentials = [] → s'.context = s.context) := by
  have hpos := Session.WellPosed.of_checks h hA hB
  have hd := Derivation.of_subtype hpos hrun
  obtain ⟨A', hA', -⟩ := hpos.wellFormed.exists_apply A
  obtain ⟨B', hB', -⟩ := hpos.wellFormed.exists_apply B
  have hexA := hpos.wellFormed.existentials_apply hA'
  have hexB := hpos.wellFormed.existentials_apply hB'
  have hkept : ∀ x, .unsolved x ∈ s.context → x ∉ A'.existentials → x ∉ B'.existentials →
      .unsolved x ∈ s'.context :=
    fun x hx hxA hxB => (hd.inert hx (hexA ▸ hxA) (hexB ▸ hxB)).unsolved
  refine ⟨A', B', hA', hB', hkept, fun x T hx hT => ?_, fun hnoA hnoB => ?_⟩
  · by_contra hmentions
    rw [not_or] at hmentions
    exact hd.grows.wellFormed.not_solved_of_unsolved (hkept x hx hmentions.1 hmentions.2) T hT
  · exact hd.context_eq (hexA ▸ hnoA) (hexB ▸ hnoB)

/-- The query is about `^y` and, since this is what `^w` stands for, about `^x`. The existential
between them is left alone. -/
theorem subtype_frame_between :
    let s : Session :=
      ⟨[.unsolved "y", .unsolved "z", .solved "w" (.evar "x"), .unsolved "x"], 0, "e", "t"⟩
    let s' : Session :=
      ⟨[.solved "y" (.evar "x"), .unsolved "z", .solved "w" (.evar "x"), .unsolved "x"], 1, "e",
        "t"⟩
    let A : Ty := .all "a" (.arr (.var "a") (.evar "w"))
    let B : Ty := .arr .unit (.evar "y")
    (subtype s A B).outcome = .ok (some s') ∧
      ∃ A' B', s.context.apply A = .ok A' ∧ s.context.apply B = .ok B' ∧
        (∀ x, .unsolved x ∈ s.context → x ∉ A'.existentials → x ∉ B'.existentials →
          .unsolved x ∈ s'.context) ∧
        (∀ x T, .unsolved x ∈ s.context → .solved x T ∈ s'.context →
          x ∈ A'.existentials ∨ x ∈ B'.existentials) ∧
        (A'.existentials = [] → B'.existentials = [] → s'.context = s.context) := by
  intro s s' A B
  have hrun : (subtype s A B).outcome = .ok (some s') := by decide +kernel
  exact ⟨hrun, subtype_frame (by decide) (by decide) (by decide) hrun⟩

end Query

end HigherRank
