import HigherRank.Proofs.Completeness
import HigherRank.Proofs.Equivalence

set_option autoImplicit false
set_option relaxedAutoImplicit false

/-!
# The order of queries

Queries that are asked one after the other are all answered exactly if some valuation solves them
all, and the valuations that fit the last session are those that do. The order of the queries does
not occur in this, nor how often a query is asked. So the queries can be asked in any other order,
and in the end every existential stands for the same, up to the names of new existentials.

## Main definitions

* `HigherRank.Session.Answered` — queries that are answered one after the other.
* `HigherRank.Valuation.Solves` — a query holds under a valuation.

## Main results

* `HigherRank.Session.Answered.solves` — valuations that fit the last session solve all queries.
* `HigherRank.Session.exists_answered` — queries that have a common solution are answered.
* `HigherRank.Session.Answered.equivalent` — sequences of the same queries lead to equivalent
  contexts.
* `HigherRank.subtype_comm` — two queries can be asked in either order.
-/

namespace HigherRank

open Context (Extends WellFormed Develops Equivalent)

/-! ## Valuations of earlier contexts -/

namespace Valuation

variable {new : Name → Prop} {θ : Valuation} {Γ Δ : Context}

/-- What fits an extension fits the context itself.

**Proof sketch.** Induction on the extension. What an existential has been solved to is in scope
where it was declared, so that its variables were declared before. -/
lemma Fits.of_extends (h : θ.Fits Δ) (hext : Extends new Γ Δ) (hΔ : Δ.WellFormed) : θ.Fits Γ := by
  induction hext with
  | nil => exact .nil
  | @keep Γ Δ m hext ih =>
    cases h with
    | cons h hm =>
      refine .cons (ih h hΔ.of_cons) ?_
      cases m with
      | unsolved x => exact fun a ha => hext.mem_of_mem (hm a ha) (by simp [Entry.IsExistential])
      | _ => exact hm
  | @solve Γ Δ x A block hblock hext ih =>
    obtain ⟨hwf, hadm⟩ := Context.wellFormed_cons.mp hΔ
    cases h with
    | cons h hx =>
      refine .cons (ih h.of_concat hwf.of_concat) fun a ha => ?_
      have hvalue : θ.value x = θ.type A := hx
      rw [hvalue] at ha
      cases hadm with
      | solved _ _ _ _ hscope =>
        rcases Context.mem_concat.mp (h.rigid_of_mem_frees hwf hscope ha) with hmem | hmem
        · exact (hblock _ hmem).elim
        · exact hext.mem_of_mem hmem (by simp [Entry.IsExistential])

/-- All that a type in scope is under a valuation that fits is in scope of the rigid variables. -/
lemma Fits.covers_type {θ : Valuation} {Γ : Context} {A : Ty} (h : θ.Fits Γ) (hΓ : Γ.WellFormed)
    (hA : Γ.Scopes A) : Γ.rigidPart.Covers (θ.type A) where
  free _ ha := Context.rigid_mem_rigidPart.mpr (h.rigid_of_mem_frees hΓ hA ha)
  existential x hx := by
    obtain ⟨y, -, hy⟩ := Nameless.mem_existentials_fillExistentials.mp hx
    simp [θ.ground] at hy

/-- Under the valuation the one type of the query is a declarative subtype of the other. -/
def Solves (θ : Valuation) (Γ : Context) (query : Ty × Ty) : Prop :=
  Declarative Γ.rigidPart (θ.type query.1) (θ.type query.2)

end Valuation

/-- What fits the session in which a query has been answered solves the query. -/
lemma Derivation.solves {s s' : Session} {A B : Ty} {θ : Valuation} (h : Derivation s A B s')
    (hfits : θ.Fits s'.context) : θ.Solves s.context (A, B) := by
  have hgrows := h.grows
  have hrigid : ∀ a, .rigid a ∈ s'.context → s.context.rigidPart.Covers (.free a) := by
    intro a ha
    rw [← hgrows.extension.rigidPart_eq]
    exact Context.covers_free (Context.rigid_mem_rigidPart.mpr ha)
  have hfill := h.sound.fill Nameless.monotype_free θ.monotype hrigid fun x hx => by
    rw [← hgrows.extension.rigidPart_eq]
    exact hfits.covers_type hgrows.wellFormed (Context.scopes_evar.mpr hx)
  have htype : ∀ C, (s'.context.resolved C).fill .free θ.value = θ.type C := hfits.fill_resolved
  rwa [htype, htype] at hfill

namespace Session

/-! ## Sequences of queries -/

/-- The queries are answered one after the other, and the last answer is the second session. -/
inductive Answered : Session → List (Ty × Ty) → Session → Prop where
  | nil (s : Session) : Answered s [] s
  | cons {s t u : Session} {A B : Ty} {queries : List (Ty × Ty)} :
    (subtype s A B).outcome = .ok (some t) → Answered t queries u →
      Answered s ((A, B) :: queries) u

/-- All queries are about types in scope of a well-formed context. -/
def Poses (s : Session) (queries : List (Ty × Ty)) : Prop :=
  s.context.WellFormed ∧ ∀ query ∈ queries, s.WellPosed query.1 query.2

section Answered

variable {s t t' u : Session} {A B : Ty} {queries queries' : List (Ty × Ty)} {θ : Valuation}

/-- Two queries are answered if the second one is answered by what the first one has left. -/
private lemma answered_pair {A₁ B₁ A₂ B₂ : Ty} :
    s.Answered [(A₁, B₁), (A₂, B₂)] u ↔
      ∃ t, (subtype s A₁ B₁).outcome = .ok (some t) ∧ (subtype t A₂ B₂).outcome = .ok (some u) := by
  constructor
  · intro h
    cases h with
    | cons h₁ h =>
      cases h with
      | cons h₂ h =>
        cases h
        exact ⟨_, h₁, h₂⟩
  · rintro ⟨t, h₁, h₂⟩
    exact .cons h₁ (.cons h₂ (.nil u))

/-- The later queries are still about types in scope when the session has grown. -/
lemma Poses.tail {query : Ty × Ty} (h : s.Poses (query :: queries)) (hgrows : s.Grows t) :
    t.Poses queries :=
  ⟨hgrows.wellFormed, fun q hq => (h.2 q (List.mem_cons_of_mem _ hq)).grows hgrows⟩

/-- A session grows with every query of a sequence. -/
lemma Answered.grows (h : s.Answered queries t) (hs : s.Poses queries) : s.Grows t := by
  induction h with
  | nil => exact .refl hs.1
  | cons hrun _ ih =>
    have hgrows := (Derivation.of_subtype (hs.2 _ List.mem_cons_self) hrun).grows
    exact hgrows.trans (ih (hs.tail hgrows))

/-- New existentials are parts of what others have become, however many queries there were. -/
private lemma Answered.rooted (h : s.Answered queries t) (hs : s.Poses queries) :
    s.context.Rooted t.context := by
  induction h with
  | nil => exact .refl _
  | cons hrun hrest ih =>
    have hd := Derivation.of_subtype (hs.2 _ List.mem_cons_self) hrun
    have hrest' := hs.tail hd.grows
    exact hd.grows.rooted_trans (hrest.grows hrest') hd.rooted (ih hrest')

/-- The context develops, however many queries there were. -/
lemma Answered.develops (h : s.Answered queries t) (hs : s.Poses queries) :
    s.context.Develops t.context :=
  ⟨(h.grows hs).wellFormed, (h.grows hs).extension.weaken fun _ _ => trivial, h.rooted hs⟩

/-- What fits the last session solves all queries.

**Proof sketch.** Induction on the sequence. It fits the session that the first query has left as
well, and solves the first query for this reason. -/
theorem Answered.solves (h : s.Answered queries t) (hs : s.Poses queries)
    (hfits : θ.Fits t.context) : ∀ query ∈ queries, θ.Solves s.context query := by
  induction h with
  | nil => simp
  | @cons s t u A B queries hrun hrest ih =>
    have hd := Derivation.of_subtype (hs.2 _ List.mem_cons_self) hrun
    have hrest' := hs.tail hd.grows
    have hgrows := hrest.grows hrest'
    intro query hquery
    rcases List.mem_cons.mp hquery with rfl | hquery
    · exact hd.solves (hfits.of_extends hgrows.extension hgrows.wellFormed)
    · have hsolves := ih hrest' hfits query hquery
      rwa [Valuation.Solves, hd.grows.extension.rigidPart_eq] at hsolves

/-- Queries that are solved by one valuation are answered one after the other, and the last session
is fitted by a valuation that has not changed for the existentials of the first one.

**Proof sketch.** Induction on the sequence. The answer to the first query excludes nothing, so that
what solves the other queries is still possible. -/
theorem exists_answered (hs : s.Poses queries) (hfits : θ.Fits s.context)
    (hsolves : ∀ query ∈ queries, θ.Solves s.context query) :
    ∃ (t : Session) (θ' : Valuation), s.Answered queries t ∧ θ'.Fits t.context ∧
      θ'.Agrees θ s.context := by
  induction queries generalizing s θ with
  | nil => exact ⟨s, θ, .nil s, hfits, .refl θ _⟩
  | cons query queries ih =>
    obtain ⟨A, B⟩ := query
    have hpos := hs.2 _ List.mem_cons_self
    obtain hexhausted | ⟨t, θ₁, hrun, hfits₁, hagrees₁⟩ :=
      answers_judge (n := depthBound s.context A B) hpos hfits (hsolves _ List.mem_cons_self)
    · exact absurd hexhausted hpos.completes
    have hanswer := outcome_subtype_eq_some.mpr hrun
    have hgrows := (Derivation.of_subtype hpos hanswer).grows
    have hsolves₁ : ∀ query ∈ queries, θ₁.Solves t.context query := by
      intro query hquery
      have hquery' := hs.2 query (List.mem_cons_of_mem _ hquery)
      have hsolves₀ := hsolves query (List.mem_cons_of_mem _ hquery)
      rwa [Valuation.Solves, hgrows.extension.rigidPart_eq, hagrees₁.type hquery'.left,
        hagrees₁.type hquery'.right]
    obtain ⟨u, θ₂, hrest, hfits₂, hagrees₂⟩ := ih (hs.tail hgrows) hfits₁ hsolves₁
    refine ⟨u, θ₂, .cons hanswer hrest, hfits₂, fun x hx => ?_⟩
    rw [hagrees₂ x (hgrows.extension.existential hx), hagrees₁ x hx]

/-! ## Other sequences of the same queries -/

/-- What fits the last session of one sequence can be changed to fit the last session of another
sequence of the same queries, which are all answered. -/
private lemma Answered.exists_fits (h : s.Answered queries t) (hs : s.Poses queries)
    (hs' : s.Poses queries') (hsub : queries' ⊆ queries) (hfits : θ.Fits t.context) :
    ∃ (t' : Session) (θ' : Valuation), s.Answered queries' t' ∧ θ'.Fits t'.context ∧
      θ'.Agrees θ s.context := by
  have hgrows := h.grows hs
  exact exists_answered hs' (hfits.of_extends hgrows.extension hgrows.wellFormed)
    fun query hquery => h.solves hs hfits query (hsub hquery)

/-- The last session is determined by the first one and the queries. -/
lemma Answered.unique (h : s.Answered queries t) (h' : s.Answered queries t') : t = t' := by
  induction h with
  | nil =>
    cases h'
    rfl
  | cons hrun _ ih =>
    cases h' with
    | cons hrun' hrest' =>
      obtain rfl : _ = _ := Option.some.inj (Except.ok.inj (hrun.symm.trans hrun'))
      exact ih hrest'

/-- Queries that are answered in one order are answered in any other order. -/
private lemma Answered.exists_answered (h : s.Answered queries t) (hs : s.Poses queries)
    (hs' : s.Poses queries') (hsub : queries' ⊆ queries) : ∃ t', s.Answered queries' t' := by
  obtain ⟨θ, hfits, -⟩ := (h.grows hs).wellFormed.exists_fits fun _ => True
  obtain ⟨t', -, h', -⟩ := h.exists_fits hs hs' hsub hfits
  exact ⟨t', h'⟩

/-- Sequences of the same queries lead to contexts that are fitted by the same valuations. -/
theorem Answered.equivalent (h : s.Answered queries t) (h' : s.Answered queries' t')
    (hs : s.Poses queries) (hs' : s.Poses queries')
    (hmem : ∀ query, query ∈ queries ↔ query ∈ queries') :
    s.context.Equivalent t.context t'.context where
  left := h.develops hs
  right := h'.develops hs'
  forth θ hθ := by
    obtain ⟨u, τ, hu, hτ, hagrees⟩ := h.exists_fits hs hs' (fun q hq => (hmem q).mpr hq) hθ
    obtain rfl := hu.unique h'
    exact ⟨τ, hτ, hagrees⟩
  back τ hτ := by
    obtain ⟨u, θ, hu, hθ, hagrees⟩ := h'.exists_fits hs' hs (fun q hq => (hmem q).mp hq) hτ
    obtain rfl := hu.unique h
    exact ⟨θ, hθ, hagrees⟩

/-- After sequences of the same queries every existential of the first context stands for the same,
up to a renaming of new existentials. -/
private lemma Answered.exists_renaming (h : s.Answered queries t) (h' : s.Answered queries' t')
    (hs : s.Poses queries) (hs' : s.Poses queries')
    (hmem : ∀ query, query ∈ queries ↔ query ∈ queries') :
    ∃ ρ : Equiv.Perm Name, (∀ x, s.context.declares x → ρ x = x) ∧
      ∀ x, s.context.Existential x → ∃ T T', t.context.apply (.evar x) = .ok T ∧
        t'.context.apply (.evar x) = .ok T' ∧ T.Renames ρ T' := by
  obtain ⟨ρ, hdeclares, hsolution⟩ := (h.equivalent h' hs hs' hmem).exists_renaming
  refine ⟨ρ, hdeclares, fun x hx => ?_⟩
  obtain ⟨T, hT, hTres⟩ := (h.grows hs).wellFormed.exists_apply (.evar x)
  obtain ⟨T', hT', hTres'⟩ := (h'.grows hs').wellFormed.exists_apply (.evar x)
  refine ⟨T, T', hT, hT', ?_⟩
  rw [Ty.Renames, hTres, hTres']
  exact (hsolution x hx).symm

end Answered

end Session

/-! ## Two queries -/

section Pair

variable {s : Session} {A₁ B₁ A₂ B₂ : Ty}

/-- Two queries about types in scope can be asked in either order: both are answered in the one
order exactly if both are in the other, and then applying the last context gives the same for every
existential of the first context, up to one renaming of existentials that are not declared there.

**Proof sketch.** Two queries one after the other are a sequence of queries
(`Session.answered_pair`). A sequence is answered in any order if it is in one
(`Answered.exists_answered`), and the answers are the same up to a renaming
(`Answered.exists_renaming`). -/
theorem subtype_comm (h : s.context.isWellFormed = .ok true)
    (hA₁ : s.context.isWellFormedType A₁ = .ok true)
    (hB₁ : s.context.isWellFormedType B₁ = .ok true)
    (hA₂ : s.context.isWellFormedType A₂ = .ok true)
    (hB₂ : s.context.isWellFormedType B₂ = .ok true) :
    ((∃ t u, (subtype s A₁ B₁).outcome = .ok (some t) ∧
        (subtype t A₂ B₂).outcome = .ok (some u)) ↔
      ∃ t u, (subtype s A₂ B₂).outcome = .ok (some t) ∧
        (subtype t A₁ B₁).outcome = .ok (some u)) ∧
      ∀ t u t' u', (subtype s A₁ B₁).outcome = .ok (some t) →
        (subtype t A₂ B₂).outcome = .ok (some u) → (subtype s A₂ B₂).outcome = .ok (some t') →
        (subtype t' A₁ B₁).outcome = .ok (some u') →
        ∃ ρ : Equiv.Perm Name, (∀ x, s.context.declares x → ρ x = x) ∧
          ∀ x, s.context.Existential x → ∃ T T', u.context.apply (.evar x) = .ok T ∧
            u'.context.apply (.evar x) = .ok T' ∧ T.Renames ρ T' := by
  have hpos₁ := Session.WellPosed.of_checks h hA₁ hB₁
  have hpos₂ := Session.WellPosed.of_checks h hA₂ hB₂
  have hs : s.Poses [(A₁, B₁), (A₂, B₂)] := ⟨hpos₁.wellFormed, by simp [hpos₁, hpos₂]⟩
  have hs' : s.Poses [(A₂, B₂), (A₁, B₁)] := ⟨hpos₁.wellFormed, by simp [hpos₁, hpos₂]⟩
  refine ⟨⟨?_, ?_⟩, fun t u t' u' h₁ h₂ h₂' h₁' => ?_⟩
  · rintro ⟨t, u, h₁, h₂⟩
    obtain ⟨u', h'⟩ := (Session.answered_pair.mpr ⟨t, h₁, h₂⟩).exists_answered hs hs' (by simp)
    obtain ⟨t', h₂', h₁'⟩ := Session.answered_pair.mp h'
    exact ⟨t', u', h₂', h₁'⟩
  · rintro ⟨t, u, h₂, h₁⟩
    obtain ⟨u', h'⟩ := (Session.answered_pair.mpr ⟨t, h₂, h₁⟩).exists_answered hs' hs (by simp)
    obtain ⟨t', h₁', h₂'⟩ := Session.answered_pair.mp h'
    exact ⟨t', u', h₁', h₂'⟩
  · have hanswered := Session.answered_pair.mpr ⟨t, h₁, h₂⟩
    have hanswered' := Session.answered_pair.mpr ⟨t', h₂', h₁'⟩
    exact hanswered.exists_renaming hanswered' hs hs' fun query => by simp [or_comm]

/-- One query makes `^z` an arrow, and the other one makes `^x` and `^z` the same. In the one order
`^z` is articulated first, and in the other order `^z` is solved to `^x` before that is
articulated. -/
theorem subtype_comm_articulated :
    let s : Session := ⟨[.unsolved "z", .unsolved "x"], 0, "e", "t"⟩
    let u : Session := ⟨[.solved "z" (.arr (.evar "e1") (.evar "e2")), .solved "e2" (.evar "e1"),
      .solved "e1" (.evar "e3"), .solved "x" (.arr (.evar "e3") (.evar "e4")),
      .solved "e4" (.evar "e3"), .unsolved "e3"], 5, "e", "t"⟩
    let u' : Session := ⟨[.solved "z" (.evar "x"), .solved "x" (.arr (.evar "e1") (.evar "e2")),
      .solved "e2" (.evar "e1"), .unsolved "e1"], 3, "e", "t"⟩
    let A : Ty := .all "a" (.arr (.var "a") (.var "a"))
    (∃ t t', (subtype s A (.evar "z")).outcome = .ok (some t) ∧
      (subtype t (.evar "x") (.evar "z")).outcome = .ok (some u) ∧
      (subtype s (.evar "x") (.evar "z")).outcome = .ok (some t') ∧
      (subtype t' A (.evar "z")).outcome = .ok (some u')) ∧
      ∃ ρ : Equiv.Perm Name, (∀ x, s.context.declares x → ρ x = x) ∧
        ∀ x, s.context.Existential x → ∃ T T', u.context.apply (.evar x) = .ok T ∧
          u'.context.apply (.evar x) = .ok T' ∧ T.Renames ρ T' := by
  intro s u u' A
  let t : Session := ⟨[.solved "z" (.arr (.evar "e1") (.evar "e2")), .solved "e2" (.evar "e1"),
    .unsolved "e1", .unsolved "x"], 3, "e", "t"⟩
  let t' : Session := ⟨[.solved "z" (.evar "x"), .unsolved "x"], 0, "e", "t"⟩
  have h₁ : (subtype s A (.evar "z")).outcome = .ok (some t) := by decide +kernel
  have h₂ : (subtype t (.evar "x") (.evar "z")).outcome = .ok (some u) := by decide +kernel
  have h₂' : (subtype s (.evar "x") (.evar "z")).outcome = .ok (some t') := by decide +kernel
  have h₁' : (subtype t' A (.evar "z")).outcome = .ok (some u') := by decide +kernel
  refine ⟨⟨t, t', h₁, h₂, h₂', h₁'⟩, ?_⟩
  exact (subtype_comm (by decide) (by decide) (by decide) (by decide) (by decide)).2
    t u t' u' h₁ h₂ h₂' h₁'

end Pair

end HigherRank
