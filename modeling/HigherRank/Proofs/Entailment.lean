import HigherRank.Proofs.QueryOrder
import HigherRank.Proofs.Transitivity

set_option autoImplicit false
set_option relaxedAutoImplicit false

/-!
# Queries that decide nothing

A session entails a query if it is answered without a change of the context. That is so exactly if
the query holds whatever monotypes are put for the existentials without a solution. So what holds of
declarative subtyping holds of entailed queries: they are a preorder, which relates types that are
equal up to bound names once the context has been applied to them, and a query that has been
answered is entailed from then on.

## Main definitions

* `HigherRank.Session.Entails` — the queries that are answered without a change of the context.

## Main results

* `HigherRank.Session.Answered.context_eq` — queries that hold under all valuations decide nothing.
* `HigherRank.Session.entails_iff` — entailed queries are those that hold under all valuations.
* `HigherRank.Session.Answered.entails` — queries that have been answered are entailed.
* `HigherRank.Derivation.eq_or_solved` — a query about monotypes that solves nothing changes
  nothing.
* `HigherRank.subtype_refl`, `HigherRank.subtype_trans`, `HigherRank.subtype_again` — reflexivity up
  to bound names and solutions, transitivity, and asking again.
* `HigherRank.subtype_instance` — a quantified type is a subtype of its monomorphic instances.
-/

namespace HigherRank

namespace Session

variable {s t : Session} {A B : Ty} {queries : List (Ty × Ty)}

/-! ## Entailed queries -/

/-- The query is answered, and the context stays as it is. -/
def Entails (s : Session) (A B : Ty) : Prop :=
  ∃ s', (subtype s A B).outcome = .ok (some s') ∧ s'.context = s.context

/-- Queries that hold under all valuations that fit leave the context as it is. -/
theorem Answered.context_eq (h : s.Answered queries t) (hs : s.Poses queries)
    (hsolves : ∀ θ : Valuation, θ.Fits s.context → ∀ query ∈ queries, θ.Solves s.context query) :
    t.context = s.context := by
  have hgrows := h.grows hs
  have hequivalent : s.context.Equivalent s.context t.context := {
    left := (Answered.nil s).develops ⟨hs.1, by simp⟩
    right := h.develops hs
    forth := fun θ hθ => by
      obtain ⟨u, τ, hu, hτ, hagrees⟩ := Session.exists_answered hs hθ (hsolves θ hθ)
      obtain rfl := hu.unique h
      exact ⟨τ, hτ, hagrees⟩
    back := fun τ hτ => ⟨τ, hτ.of_extends hgrows.extension hgrows.wellFormed, .refl τ _⟩ }
  exact hequivalent.eq_of_self

/-- One query is answered if its judgment holds. -/
private lemma answered_singleton :
    s.Answered [(A, B)] t ↔ (subtype s A B).outcome = .ok (some t) := by
  constructor
  · rintro (_ | ⟨hrun, _ | _⟩)
    exact hrun
  · exact fun hrun => .cons hrun (.nil t)

/-- A query about types in scope is entailed exactly if it holds under all valuations that fit. -/
theorem entails_iff (h : s.WellPosed A B) :
    s.Entails A B ↔ ∀ θ : Valuation, θ.Fits s.context → θ.Solves s.context (A, B) := by
  constructor
  · rintro ⟨s', hrun, hsame⟩ θ hfits
    rw [← hsame] at hfits
    exact (Derivation.of_subtype h hrun).solves hfits
  · intro hsolves
    have hs : s.Poses [(A, B)] := ⟨h.wellFormed, by simp [h]⟩
    have hall : ∀ θ : Valuation, θ.Fits s.context →
        ∀ query ∈ [(A, B)], θ.Solves s.context query := by
      simpa using hsolves
    obtain ⟨θ, hfits, -⟩ := h.wellFormed.exists_fits fun _ => True
    obtain ⟨t, -, hanswered, -⟩ := Session.exists_answered hs hfits (hall θ hfits)
    exact ⟨t, answered_singleton.mp hanswered, hanswered.context_eq hs hall⟩

/-- Queries that have been answered are entailed by the session that they have led to. -/
theorem Answered.entails (h : s.Answered queries t) (hs : s.Poses queries)
    (hquery : (A, B) ∈ queries) : t.Entails A B := by
  have hgrows := h.grows hs
  refine (entails_iff ((hs.2 _ hquery).grows hgrows)).mpr fun θ hfits => ?_
  rw [Valuation.Solves, hgrows.extension.rigidPart_eq]
  exact h.solves hs hfits _ hquery

end Session

/-! ## Queries about monotypes -/

namespace Derivation

variable {s s' : Session} {A B : Ty}

/-- A query about monotypes that solves no existential gives the session back as it is.

**Proof sketch.** Induction on the derivation. Without quantifiers nothing is opened, and a new name
is only used where an existential is solved. -/
theorem eq_or_solved (h : Derivation s A B s') (hA : A.isMono) (hB : B.isMono) :
    s' = s ∨ ∃ x T, .unsolved x ∈ s.context ∧ .solved x T ∈ s'.context := by
  induction h with
  | same => exact .inl rfl
  | @arr s s₁ s₂ A₁ A₂ B₁ B₂ A₂' B₂' _ hd₁ hA₂ hB₂ hd₂ ih₁ ih₂ =>
    simp only [Ty.isMono, Bool.and_eq_true] at hA hB
    have hwf := hd₁.grows.wellFormed
    rcases ih₁ hB.1 hA.1 with rfl | ⟨x, T, hx, hT⟩
    · exact ih₂ (by rw [hwf.isMono_apply hA₂, hA.2]) (by rw [hwf.isMono_apply hB₂, hB.2])
    · exact .inr ⟨x, T, hx, hd₂.grows.extension.solved_mem hT⟩
  | allRight => simp [Ty.isMono] at hB
  | allLeft => simp [Ty.isMono] at hA
  | solved h _ hA' hB' _ ih =>
    exact ih (by rw [h.wellFormed.isMono_apply hA', hA]) (by rw [h.wellFormed.isMono_apply hB', hB])
  | @articulateLeft s s₁ s₂ x left right B₁ B₂ C' B₂' _ hs _ hd₁ _ _ hd₂ =>
    exact .inr ⟨x, s.newArrow, by simp [hs], (hd₁.grows.trans hd₂.grows).newArrow_mem⟩
  | @articulateRight s s₁ s₂ x left right A₁ A₂ A₂' C' _ hs _ hd₁ _ _ hd₂ =>
    exact .inr ⟨x, s.newArrow, by simp [hs], (hd₁.grows.trans hd₂.grows).newArrow_mem⟩
  | @solve s x T A B left right _ hs => exact .inr ⟨x, T, by simp [hs], by simp⟩

end Derivation

/-! ## Queries that are entailed -/

section Query

variable {s s₁ : Session} {A B C : Ty}

/-- Transitivity of entailed queries. Without existentials all queries that are answered are
entailed. -/
theorem subtype_trans (h : s.context.isWellFormed = .ok true)
    (hA : s.context.isWellFormedType A = .ok true) (hB : s.context.isWellFormedType B = .ok true)
    (hC : s.context.isWellFormedType C = .ok true) :
    (s.Entails A B → s.Entails B C → s.Entails A C) ∧
      (A.existentials = [] → B.existentials = [] → C.existentials = [] → ∀ s₁ s₂,
        (subtype s A B).outcome = .ok (some s₁) → (subtype s B C).outcome = .ok (some s₂) →
          s₁.context = s.context ∧ s₂.context = s.context) := by
  have hAB := Session.WellPosed.of_checks h hA hB
  have hBC := Session.WellPosed.of_checks h hB hC
  refine ⟨fun hentails₁ hentails₂ => ?_, fun hnoA hnoB hnoC s₁ s₂ hrun₁ hrun₂ => ⟨?_, ?_⟩⟩
  · rw [Session.entails_iff hAB] at hentails₁
    rw [Session.entails_iff hBC] at hentails₂
    rw [Session.entails_iff (Session.WellPosed.of_checks h hA hC)]
    exact fun θ hfits => (hentails₁ θ hfits).trans (hentails₂ θ hfits)
  · exact (Derivation.of_subtype hAB hrun₁).context_eq_of_no_existentials hnoA hnoB
  · exact (Derivation.of_subtype hBC hrun₂).context_eq_of_no_existentials hnoB hnoC

/-- The second type is the first one for an arrow, and the third type is the second one for `^x`.
The first run has to find the arrow, and the existentials that it needs for this are dropped. -/
theorem subtype_trans_endomaps :
    let s : Session := ⟨[.unsolved "x"], 0, "e", "t"⟩
    let endo : Ty → Ty := fun A => .arr A A
    let A : Ty := .all "a" (endo (.var "a"))
    let B : Ty := .all "b" (endo (endo (.var "b")))
    let C : Ty := endo (endo (.evar "x"))
    s.Entails A B ∧ s.Entails B C ∧ s.Entails A C := by
  intro s endo A B C
  have hAB : s.Entails A B := ⟨⟨[.unsolved "x"], 4, "e", "t"⟩, by decide +kernel, rfl⟩
  have hBC : s.Entails B C := ⟨⟨[.unsolved "x"], 1, "e", "t"⟩, by decide +kernel, rfl⟩
  have htrans := subtype_trans (s := s) (A := A) (B := B) (C := C) (by decide) (by decide)
    (by decide) (by decide)
  exact ⟨hAB, hBC, htrans.1 hAB hBC⟩

/-- Types that are equal up to bound names, once the context has been applied to them, are subtypes
of each other without a change of the context, and for monotypes without a change of the session.

**Proof sketch.** Types that are equal once resolved are the same under every valuation that fits,
and declarative subtyping is reflexive, so that the query is entailed (`Session.entails_iff`): it is
answered without a change of the context. A run for monotypes that changed the session would have
solved an existential (`Derivation.eq_or_solved`). -/
theorem subtype_refl (h : s.context.isWellFormed = .ok true)
    (hA : s.context.isWellFormedType A = .ok true) (hB : s.context.isWellFormedType B = .ok true) :
    ∃ A' B', s.context.apply A = .ok A' ∧ s.context.apply B = .ok B' ∧
      (A'.AlphaEq B' → ∃ s', (subtype s A B).outcome = .ok (some s') ∧ s'.context = s.context ∧
        (A.isMono → B.isMono → s' = s)) := by
  have hpos := Session.WellPosed.of_checks h hA hB
  obtain ⟨A', hA', hAres⟩ := hpos.wellFormed.exists_apply A
  obtain ⟨B', hB', hBres⟩ := hpos.wellFormed.exists_apply B
  refine ⟨A', B', hA', hB', fun hAB => ?_⟩
  have hentails : s.Entails A B := by
    refine (Session.entails_iff hpos).mpr fun θ hfits => ?_
    have htype : θ.type A = θ.type B := by
      rw [← hfits.fill_resolved A, ← hfits.fill_resolved B, ← hAres, ← hBres, hAB]
    rw [Valuation.Solves, htype]
    exact .refl _ (θ.closedAt_type B)
  obtain ⟨s', hrun, hsame⟩ := hentails
  refine ⟨s', hrun, hsame, fun hmonoA hmonoB => ?_⟩
  have hd := Derivation.of_subtype hpos hrun
  rcases hd.eq_or_solved hmonoA hmonoB with heq | ⟨x, T, hx, hT⟩
  · exact heq
  · rw [hsame] at hT
    exact absurd hT (hpos.wellFormed.not_solved_of_unsolved hx T)

/-- The solution of `^x` would be captured by the binder of the first type, so that applying the
context renames it. -/
theorem subtype_refl_renamed :
    let s : Session := ⟨[.solved "x" (.var "a"), .rigid "a"], 0, "e", "t"⟩
    let A : Ty := .all "a" (.arr (.evar "x") (.var "a"))
    let B : Ty := .all "c" (.arr (.var "a") (.var "c"))
    s.context.apply A = .ok (.all "a'" (.arr (.var "a") (.var "a'"))) ∧ s.Entails A B := by
  intro s A B
  have hA : s.context.apply A = .ok (.all "a'" (.arr (.var "a") (.var "a'"))) := by decide +kernel
  have hB : s.context.apply B = .ok B := by decide +kernel
  obtain ⟨A', B', hA', hB', hrefl⟩ :=
    subtype_refl (s := s) (A := A) (B := B) (by decide) (by decide) (by decide)
  obtain rfl := Except.ok.inj (hA.symm.trans hA')
  obtain rfl := Except.ok.inj (hB.symm.trans hB')
  obtain ⟨s', hrun, hsame, -⟩ := hrefl (by decide)
  exact ⟨hA, s', hrun, hsame⟩

/-- A quantified type is a subtype of each of its instances at monotypes in scope, and the context
stays as it is: the existential with which the quantifier is opened is dropped again, and no other
one is solved. -/
theorem subtype_instance {a : Name} {T : Ty} (h : s.context.isWellFormed = .ok true)
    (hA : s.context.isWellFormedType (.all a A) = .ok true)
    (hT : s.context.isWellFormedType T = .ok true) (hmono : T.isMono) :
    s.Entails (.all a A) ((Ty.all a A).instantiate T) := by
  obtain ⟨hwf, hscopeA, hscopeT⟩ := Session.WellPosed.of_checks h hA hT
  have hinstance : s.context.Scopes (A.subst a T) := hscopeA.subst (List.Subset.refl _) hscopeT
  refine (Session.entails_iff ⟨hwf, hscopeA, hinstance⟩).mpr fun θ hfits => ?_
  change Declarative s.context.rigidPart (θ.type (.all a A)) (θ.type (A.subst a T))
  rw [θ.type_all]
  refine .allLeft_of_covers (θ.monotype_type hmono) (hfits.covers_type hwf hscopeT) ?_
  rw [← θ.type_subst]
  exact .refl _ (θ.closedAt_type _)

/-- The bound variable stands on both sides of arrows and below another quantifier, whose binder has
to give way to a variable of the monotype. -/
theorem subtype_instance_nested :
    let s : Session := ⟨[.solved "y" (.arr (.evar "x") (.var "c")), .unsolved "x", .rigid "c"], 0,
      "e", "t"⟩
    let A : Ty := .arr (.all "c" (.arr (.var "c") (.var "b"))) (.var "b")
    let T : Ty := .arr (.evar "y") (.arr (.var "c") (.evar "x"))
    let B : Ty := .arr (.all "c'" (.arr (.var "c'") T)) T
    s.context.isWellFormed = .ok true ∧ s.context.isWellFormedType (.all "b" A) = .ok true ∧
      s.context.isWellFormedType T = .ok true ∧ T.isMono ∧ (Ty.all "b" A).instantiate T = B ∧
      s.Entails (.all "b" A) B := by
  intro s A T B
  have h : s.context.isWellFormed = .ok true := by decide
  have hA : s.context.isWellFormedType (.all "b" A) = .ok true := by decide
  have hT : s.context.isWellFormedType T = .ok true := by decide
  have hB : (Ty.all "b" A).instantiate T = B := by decide +kernel
  exact ⟨h, hA, hT, rfl, hB, hB ▸ subtype_instance h hA hT rfl⟩

/-- A query that has been answered is answered again, and then the context stays as it is. -/
theorem subtype_again (h : s.context.isWellFormed = .ok true)
    (hA : s.context.isWellFormedType A = .ok true) (hB : s.context.isWellFormedType B = .ok true)
    (hrun : (subtype s A B).outcome = .ok (some s₁)) : s₁.Entails A B := by
  have hpos := Session.WellPosed.of_checks h hA hB
  have hs : s.Poses [(A, B)] := ⟨hpos.wellFormed, by simp [hpos]⟩
  exact (Session.answered_singleton.mpr hrun).entails hs (by simp)

/-- The first run articulates `^z` and makes its two parts the same. The second run finds both parts
as they are. -/
theorem subtype_again_articulated :
    let s : Session := ⟨[.unsolved "z", .unsolved "x"], 0, "e", "t"⟩
    let s₁ : Session := ⟨[.solved "z" (.arr (.evar "e1") (.evar "e2")), .solved "e2" (.evar "e1"),
      .unsolved "e1", .unsolved "x"], 3, "e", "t"⟩
    let A : Ty := .all "a" (.arr (.var "a") (.var "a"))
    (subtype s A (.evar "z")).outcome = .ok (some s₁) ∧ s₁.Entails A (.evar "z") := by
  intro s s₁ A
  have hrun : (subtype s A (.evar "z")).outcome = .ok (some s₁) := by decide +kernel
  exact ⟨hrun, subtype_again (by decide) (by decide) (by decide) hrun⟩

end Query

end HigherRank
