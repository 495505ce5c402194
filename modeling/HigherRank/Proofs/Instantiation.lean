import HigherRank.Proofs.Inertness
import HigherRank.Proofs.Soundness

set_option autoImplicit false
set_option relaxedAutoImplicit false

/-!
# Runs that solve one existential

When an existential without a solution is compared with a type in which it does not occur, a run
that succeeds solves this existential, in the end to a type that is no higher, and the other
existentials are renamed at most. If the existential does occur in the type, below an arrow, then no
run succeeds.

## Main definitions

* `HigherRank.Context.Instantiates` — what has happened when an existential has been solved.

## Main results

* `HigherRank.Derivation.instantiates` — what a run does that solves an existential.
* `HigherRank.Derivation.core_eq_of_occurs` — no run solves an existential to a type that contains
  it below an arrow.
-/

namespace HigherRank

open Context (Extends WellFormed)

namespace Context

/-- The existential has been solved to a type no higher than what `T` stood for, the quantifiers of
`T` have led to one new existential each at most, and the other existentials are solved to
existentials. -/
structure Instantiates (Γ Δ : Context) (x : Name) (T : Ty) : Prop where
  pending : Δ.pending + 1 ≤ Γ.pending + T.nameless.quantifiers
  renamed : ∀ y, .unsolved y ∈ Γ → y ≠ x → ∃ z, Δ.solution y = .evar z
  height : (Δ.solution x).height ≤ (Γ.resolved T).height

namespace Instantiates

variable {new : Name → Prop} {Γ Δ : Context} {x : Name} {A T : Ty}

/-- It does not matter whether the context was applied to the type before. -/
private lemma of_apply {T' : Ty} (h : Γ.Instantiates Δ x T') (hΓ : Γ.WellFormed)
    (hT : Γ.apply T = .ok T') : Γ.Instantiates Δ x T := by
  refine ⟨?_, h.renamed, ?_⟩
  · rw [← hΓ.quantifiers_apply hT]
    exact h.pending
  · rw [← hΓ.resolved_apply hT]
    exact h.height

/-- What has been renamed is renamed again when another existential is solved, to which it has not
been renamed. -/
private lemma renamed_again {new' : Name → Prop} {Θ : Context} {y z : Name} {R : Ty}
    (h : Γ.Instantiates Δ x T)
    (h' : Δ.Instantiates Θ z R) (hΔ : Δ.WellFormed) (hΘ : Θ.WellFormed) (hext : Extends new Γ Δ)
    (hext' : Extends new' Δ Θ) (hy : .unsolved y ∈ Γ) (hne : y ≠ x)
    (hz : z ∉ (Δ.solution y).existentials) : ∃ w, Θ.solution y = .evar w := by
  obtain ⟨v, hv⟩ := h.renamed y hy hne
  have hvmem : v ∈ (Δ.solution y).existentials := by simp [hv, Nameless.existentials]
  have hvu := hΔ.unsolved_of_mem_solution (hext.existential (.inl hy)) hvmem
  have hvz : v ≠ z := by
    rintro rfl
    exact hz hvmem
  obtain ⟨w, hw⟩ := h'.renamed v hvu hvz
  have hlater := hext'.resolved hΔ hΘ (.evar y)
  rw [resolved_evar, resolved_evar, hv] at hlater
  exact ⟨w, hlater.symm.trans hw⟩

/-- A type without the existential is as high as before. -/
lemma height_resolved_eq (h : Γ.Instantiates Δ x T) (hΓ : Γ.WellFormed) (hΔ : Δ.WellFormed)
    (hext : Extends new Γ Δ) (hA : Γ.Scopes A) (hx : x ∉ (Γ.resolved A).existentials) :
    (Δ.resolved A).height = (Γ.resolved A).height := by
  have hzero : ∀ y ∈ (Γ.resolved A).existentials, (Δ.solution y).height ≤ 0 := by
    intro y hy
    have hne : y ≠ x := by
      rintro rfl
      exact hx hy
    obtain ⟨z, hz⟩ := h.renamed y (hΓ.existentials_resolved hA hy) hne
    simp [hz, Nameless.height]
  rw [← hext.resolved hΓ hΔ]
  exact Nat.le_antisymm (Nameless.height_fillExistentials_le hzero)
    (Nameless.height_le_fillExistentials _ _)

/-- Any type is higher by at most the height of the solution. -/
lemma height_resolved_le (h : Γ.Instantiates Δ x T) (hΓ : Γ.WellFormed) (hΔ : Δ.WellFormed)
    (hext : Extends new Γ Δ) (hA : Γ.Scopes A) :
    (Δ.resolved A).height ≤ (Γ.resolved A).height + (Γ.resolved T).height := by
  have hbound : ∀ y ∈ (Γ.resolved A).existentials,
      (Δ.solution y).height ≤ (Γ.resolved T).height := by
    intro y hy
    by_cases hyx : y = x
    · rw [hyx]
      exact h.height
    · obtain ⟨z, hz⟩ := h.renamed y (hΓ.existentials_resolved hA hy) hyx
      simp [hz, Nameless.height]
  rw [← hext.resolved hΓ hΔ]
  exact Nameless.height_fillExistentials_le hbound

end Instantiates

end Context

open Context (Instantiates Inert)

namespace Session

variable {s s₁ s₂ : Session} {left right : Context} {x : Name}

/-- Articulation leaves one existential more without a solution. -/
private lemma pending_articulated (hs : s.context = Context.concat (.unsolved x :: left) right) :
    (s.articulated x left right).context.pending = s.context.pending + 1 := by
  simp only [hs, context_articulated, Context.pending_concat, Context.pending_solved,
    Context.pending_unsolved]
  omega

/-- Solving an existential leaves one fewer without a solution. -/
private lemma pending_solvedAt (hs : s.context = Context.concat (.unsolved x :: left) right)
    (T : Ty) : (s.solvedAt x T left right).context.pending + 1 = s.context.pending := by
  simp only [hs, context_solvedAt, Context.pending_concat, Context.pending_solved,
    Context.pending_unsolved]
  omega

/-- A type in scope has no existential of a new name. -/
lemma newNames_not_mem (h : s.context.WellFormed) {A : Ty} (hA : s.context.Scopes A) :
    s.domName ∉ (s.context.resolved A).existentials ∧
      s.codName ∉ (s.context.resolved A).existentials :=
  ⟨fun hmem => s.unused_domName.unsolved_not_mem (h.existentials_resolved hA hmem),
    fun hmem => s.unused_codName.unsolved_not_mem (h.existentials_resolved hA hmem)⟩

/-- If the new existentials have been compared with the parts of an arrow one after the other, then
the existential that was solved to the new arrow has been compared with the arrow.

**Proof sketch.** The codomain stays apart while the domain is compared, so that the second
comparison renames what the first one has left in the solution of the domain. -/
private lemma instantiates_articulated {T₁ T₂ T₂' : Ty}
    (hs : s.context = Context.concat (.unsolved x :: left) right) (h : s.context.WellFormed)
    (hT : s.context.Scopes (.arr T₁ T₂))
    (hx : x ∉ (s.context.resolved (.arr T₁ T₂)).existentials)
    (hgrows₁ : (s.articulated x left right).Grows s₁) (hgrows₂ : s₁.Grows s₂)
    (hinert : s.codName ∉ ((s.articulated x left right).context.resolved T₁).existentials →
      (s.articulated x left right).context.Inert s₁.context s.codName)
    (h₁ : s.domName ∉ ((s.articulated x left right).context.resolved T₁).existentials →
      (s.articulated x left right).context.Instantiates s₁.context s.domName T₁)
    (hT₂' : s₁.context.apply T₂ = .ok T₂')
    (h₂ : .unsolved s.codName ∈ s₁.context →
      s.codName ∉ (s₁.context.resolved T₂').existentials →
      s₁.context.Instantiates s₂.context s.codName T₂') :
    s.context.Instantiates s₂.context x (.arr T₁ T₂) := by
  have hgrows := grows_articulated hs h
  obtain ⟨hT₁, hT₂⟩ := Context.scopes_arr.mp hT
  simp only [Context.resolved_arr, Nameless.existentials, List.mem_append, not_or] at hx
  have hres₁ := resolved_articulated hs h hT₁ hx.1
  have hres₂ := resolved_articulated hs h hT₂ hx.2
  obtain ⟨hdom₁, hcod₁⟩ := newNames_not_mem h hT₁
  obtain ⟨hdom₂, hcod₂⟩ := newNames_not_mem h hT₂
  rw [← hres₁] at hdom₁ hcod₁
  rw [← hres₂] at hdom₂ hcod₂
  have hinert := hinert hcod₁
  have h₁ := h₁ hdom₁
  have happly := hgrows₁.wellFormed.resolved_apply hT₂'
  have hT₂art := hgrows.extension.scopes hT₂
  have hcod := hinert.absent T₂ hT₂art hcod₂
  rw [← happly] at hcod
  have h₂ := h₂ hinert.unsolved hcod
  refine ⟨?_, fun y hy hyx => ?_, ?_⟩
  · have hq₁ := h₁.pending
    have hq₂ := h₂.pending
    rw [pending_articulated hs] at hq₁
    rw [hgrows₁.wellFormed.quantifiers_apply hT₂'] at hq₂
    have hq : (Ty.arr T₁ T₂).nameless.quantifiers =
        T₁.nameless.quantifiers + T₂.nameless.quantifiers := rfl
    omega
  · have hyart := unsolved_articulated hs hyx hy
    have hnew := ne_newNames hy
    exact h₁.renamed_again h₂ hgrows₁.wellFormed hgrows₂.wellFormed hgrows₁.extension
      hgrows₂.extension hyart hnew.1 (hinert.apart hgrows.wellFormed hyart hnew.2)
  · have hsolved := (hgrows₁.trans hgrows₂).newArrow_mem
    have hdomart := s.unsolved_domName x left right
    have hdomscope := hgrows₁.extension.scopes (Context.scopes_evar.mpr (.inl hdomart))
    have hheight₁ : (s₂.context.solution s.domName).height ≤ (s.context.resolved T₁).height := by
      have heq := h₂.height_resolved_eq hgrows₁.wellFormed hgrows₂.wellFormed hgrows₂.extension
        hdomscope (hinert.apart hgrows.wellFormed hdomart s.domName_ne_codName)
      have hle := h₁.height
      rw [hres₁] at hle
      rw [Context.resolved_evar, Context.resolved_evar] at heq
      rwa [heq]
    have hheight₂ : (s₂.context.solution s.codName).height ≤ (s.context.resolved T₂).height := by
      have heq := h₁.height_resolved_eq hgrows.wellFormed hgrows₁.wellFormed hgrows₁.extension
        hT₂art hdom₂
      have hle := h₂.height
      rwa [happly, heq, hres₂] at hle
    rw [hgrows₂.wellFormed.solution_of_mem hsolved]
    simp only [newArrow, Context.resolved_arr, Context.resolved_evar, Nameless.height]
    omega

/-- The codomain of the new arrow is not the domain. -/
lemma codName_not_mem (hs : s.context = Context.concat (.unsolved x :: left) right)
    (h : s.context.WellFormed) :
    s.codName ∉ ((s.articulated x left right).context.resolved (.evar s.domName)).existentials := by
  rw [Context.resolved_evar,
    (grows_articulated hs h).wellFormed.solution_of_unsolved (s.unsolved_domName x left right)]
  simpa [Nameless.existentials] using s.domName_ne_codName.symm

/-- Solving an existential to a type without parts is what comparing them has to do. -/
private lemma instantiates_solvedAt {R : Ty}
    (hs : s.context = Context.concat (.unsolved x :: left) right) (h : s.context.WellFormed)
    (hR : R.isAtom) (hscope : left.Scopes R) :
    s.context.Instantiates (s.solvedAt x R left right).context x R := by
  have hmono := Ty.isMono_of_isAtom hR
  have hwf := (grows_solvedAt hs h hmono hscope).wellFormed
  have hpending := pending_solvedAt hs R
  refine ⟨by omega, fun y hy hne => ?_, ?_⟩
  · exact ⟨y, hwf.solution_of_unsolved (unsolved_solvedAt hs hne hy)⟩
  · refine Nat.le_of_eq ?_
    rw [hwf.solution_of_mem (A := R) (by simp), resolved_solvedAt hs h hmono hscope hscope]

/-- Two existentials may also be made equal by solving the other one. -/
private lemma instantiates_solvedAt_evar {z : Name}
    (hs : s.context = Context.concat (.unsolved z :: left) right) (h : s.context.WellFormed)
    (hscope : left.Scopes (.evar x)) (hx : .unsolved x ∈ s.context) (hne : x ≠ z) :
    s.context.Instantiates (s.solvedAt z (.evar x) left right).context x (.evar z) := by
  have hwf := (grows_solvedAt hs h rfl hscope).wellFormed
  have hpending := pending_solvedAt hs (.evar x)
  have hsol : ∀ y, y ≠ z → .unsolved y ∈ s.context →
      (s.solvedAt z (.evar x) left right).context.solution y = .evar y :=
    fun y hyz hy => hwf.solution_of_unsolved (unsolved_solvedAt hs hyz hy)
  refine ⟨by omega, fun y hy _ => ?_, ?_⟩
  · by_cases hyz : y = z
    · rw [hyz, hwf.solution_of_mem (A := .evar x) (by simp), Context.resolved_evar, hsol x hne hx]
      exact ⟨x, rfl⟩
    · exact ⟨y, hsol y hyz hy⟩
  · rw [hsol x hne hx]
    exact Nat.zero_le _

/-! ## Heights of instances -/

/-- The body of a quantified type on the right is lower than the type. -/
lemma height_openRight (h : s.context.WellFormed) (b : Name) (B : Ty) :
    (s.openRight.context.resolved (B.subst b (.var s.rightName))).height + 1 =
      (s.context.resolved (.all b B)).height :=
  (wellFormed_openRight h).height_resolved_subst b B (R := .var s.rightName) ⟨rfl, rfl⟩

/-- The body of a quantified type on the left is lower than the type. -/
lemma height_openLeft (h : s.context.WellFormed) (a : Name) (A : Ty) :
    (s.openLeft.context.resolved (A.subst a (.evar s.leftName))).height + 1 =
      (s.context.resolved (.all a A)).height := by
  have hwf := wellFormed_openLeft h
  have hleaf : (s.openLeft.context.resolved (.evar s.leftName)).IsLeaf := by
    rw [Context.resolved_evar, hwf.solution_of_unsolved (by simp)]
    exact ⟨rfl, rfl⟩
  exact hwf.height_resolved_subst a A hleaf

end Session

/-! ## Runs -/

namespace Derivation

variable {s s₁ s' : Session} {A B T : Ty} {x : Name} {Δ block : Context}

/-- An existential without a solution is left as it is when the context is applied. -/
lemma apply_evar_eq {Γ : Context} {A' : Ty} (h : Γ.WellFormed) (hx : .unsolved x ∈ Γ)
    (hA : Γ.apply (.evar x) = .ok A') : A' = .evar x := by
  have hnameless := h.nameless_apply hA
  rw [Context.resolved_evar, h.solution_of_unsolved hx] at hnameless
  cases A' <;> simp_all [Ty.nameless, Ty.namelessUnder, List.idxOf?]

/-- The scope of a quantifier on the right may be closed. -/
private lemma instantiates_allRight {b : Name} (h : s.WellPosed A (.all b B))
    (hΔ : s₁.context = .rigid s.rightName :: Δ)
    (hinst : s.openRight.context.Instantiates s₁.context x (B.subst b (.var s.rightName))) :
    s.context.Instantiates Δ x (.all b B) := by
  obtain ⟨hpending, hrenamed, hle⟩ := hinst
  rw [hΔ] at hpending hrenamed hle
  refine ⟨?_, fun y hy hne => hrenamed y (by simp [hy]) hne, ?_⟩
  · have hquant := Ty.quantifiers_subst b B (R := .var s.rightName) rfl
    simp only [Session.context_openRight, Context.pending_rigid] at hpending
    omega
  · have hheight := Session.height_openRight h.wellFormed b B
    have hsame : Context.solution (.rigid s.rightName :: Δ) x = Δ.solution x := rfl
    rw [hsame] at hle
    omega

/-- The scope of a quantifier on the left may be closed.

**Proof sketch.** Existentials that were there before the scope was opened are resolved to the left
of the marker, so that closing the scope does not change their solutions. The existential of the
scope adds one to what is pending, and the quantifier that has been opened makes up for it. -/
private lemma instantiates_allLeft {a : Name} (h : s.WellPosed (.all a A) B)
    (hgrows : s.openLeft.Grows s₁)
    (hΔ : s₁.context = Context.concat (.marker s.leftName :: Δ) block)
    (hx : .unsolved x ∈ s.context)
    (hinst : s.openLeft.context.Instantiates s₁.context x (A.subst a (.evar s.leftName))) :
    s.context.Instantiates Δ x (.all a A) := by
  have hclosed := (hgrows.closeLeft hΔ).1
  have hwf₁ := hgrows.wellFormed
  have hsame : ∀ y, .unsolved y ∈ s.context → s₁.context.solution y = Δ.solution y := by
    intro y hy
    rw [hΔ] at hwf₁ ⊢
    exact hwf₁.resolved_left_of_slot
      (hclosed.extension.scopes (Context.scopes_evar.mpr (.inl hy)))
  obtain ⟨hpending, hrenamed, hle⟩ := hinst
  refine ⟨?_, fun y hy hne => ?_, ?_⟩
  · have hquant := Ty.quantifiers_subst a A (R := .evar s.leftName) rfl
    rw [hΔ] at hpending
    simp only [Session.context_openLeft, Context.pending_concat, Context.pending_marker,
      Context.pending_unsolved] at hpending
    omega
  · rw [← hsame y hy]
    exact hrenamed y (by simp [hy]) hne
  · have hheight := Session.height_openLeft h.wellFormed a A
    rw [hsame x hx] at hle
    omega

/-- What a run does that compares an existential without a solution with a type in which it does not
occur.

**Proof sketch.** Induction on the derivation, with the existential on either side. An arrow is
compared part by part, with the two existentials to which the first one has been articulated. -/
theorem instantiates (h : Derivation s A B s') (hAB : Session.Faces x T A B)
    (hxu : .unsolved x ∈ s.context) (hx : x ∉ (s.context.resolved T).existentials) :
    s.context.Instantiates s'.context x T := by
  induction h generalizing x T with
  | @same s A h _ =>
    have hsol := h.wellFormed.solution_of_unsolved hxu
    rcases hAB with ⟨rfl, rfl⟩ | ⟨rfl, hB⟩
    · simp [hsol, Nameless.existentials] at hx
    · simp [hB, hsol, Nameless.existentials] at hx
  | arr => exact absurd hAB Session.not_faces_arr
  | @allRight s s₁ A B b Δ h hd hΔ ih =>
    obtain ⟨rfl, rfl⟩ := hAB.of_allRight
    have hbody := Session.not_mem_openRight h.wellFormed hx
    exact instantiates_allRight h hΔ (ih (.inl ⟨rfl, rfl⟩) (by simp [hxu]) hbody)
  | @allLeft s s₁ A B a Δ block h _ hd hΔ ih =>
    obtain ⟨rfl, rfl⟩ := hAB.of_allLeft
    have hbody := Session.not_mem_openLeft h.wellFormed hxu hx
    exact instantiates_allLeft h hd.grows hΔ hxu (ih (.inr ⟨rfl, rfl⟩) (by simp [hxu]) hbody)
  | @solved s s' A B A' B' h _ hA hB _ ih =>
    have hwf := h.wellFormed
    rcases hAB with ⟨rfl, rfl⟩ | ⟨rfl, rfl⟩
    · obtain rfl := apply_evar_eq hwf hxu hA
      exact (ih (.inl ⟨rfl, rfl⟩) hxu (by rwa [hwf.resolved_apply hB])).of_apply hwf hB
    · obtain rfl := apply_evar_eq hwf hxu hB
      exact (ih (.inr ⟨rfl, rfl⟩) hxu (by rwa [hwf.resolved_apply hA])).of_apply hwf hA
  | @articulateLeft s s₁ s₂ z left right B₁ B₂ C' B₂' h hs _ hd₁ hA hB hd₂ ih₁ ih₂ =>
    obtain ⟨rfl, rfl⟩ := hAB.of_arrRight
    refine Session.instantiates_articulated hs h.wellFormed h.right hx hd₁.grows hd₂.grows
      (fun hcod => ?_) (ih₁ (.inr ⟨rfl, rfl⟩) (by simp)) hB (fun hcod => ?_)
    · exact hd₁.inert (by simp) hcod (Session.codName_not_mem hs h.wellFormed)
    · exact ih₂ (.inl ⟨apply_evar_eq hd₁.grows.wellFormed hcod hA, rfl⟩) hcod
  | @articulateRight s s₁ s₂ z left right A₁ A₂ A₂' C' h hs _ hd₁ hA hB hd₂ ih₁ ih₂ =>
    obtain ⟨rfl, rfl⟩ := hAB.of_arrLeft
    refine Session.instantiates_articulated hs h.wellFormed h.left hx hd₁.grows hd₂.grows
      (fun hcod => ?_) (ih₁ (.inl ⟨rfl, rfl⟩) (by simp)) hA (fun hcod => ?_)
    · exact hd₁.inert (by simp) (Session.codName_not_mem hs h.wellFormed) hcod
    · exact ih₂ (.inr ⟨rfl, apply_evar_eq hd₁.grows.wellFormed hcod hB⟩) hcod
  | @solve s z R A B left right h hs hR hscope hzR =>
    rcases hAB.unique hzR with ⟨rfl, rfl⟩ | ⟨rfl, rfl⟩
    · exact Session.instantiates_solvedAt hs h.wellFormed hR hscope
    · have hne : x ≠ z := by
        rintro rfl
        rw [Context.resolved_evar, h.wellFormed.solution_of_unsolved hxu] at hx
        simp [Nameless.existentials] at hx
      exact Session.instantiates_solvedAt_evar hs h.wellFormed hscope hxu hne

/-- If a run solves an existential that occurs in the other type, then it occurs there below
quantifiers only.

**Proof sketch.** Otherwise the existential stands for a monotype with fewer arrows than the other
type, of which it is a proper part, and these are no declarative subtypes in either direction. -/
theorem core_eq_of_occurs (h : Derivation s A B s') (hAB : Session.Faces x T A B)
    (hx : x ∈ (s.context.resolved T).existentials) : (s.context.resolved T).core = .evar x := by
  by_contra hcore
  have hgrows := h.grows
  have hlater := hgrows.extension.resolved h.wellPosed.wellFormed hgrows.wellFormed T
  have hlt : (s'.context.solution x).arrows < (s'.context.resolved T).arrows := by
    rw [← hlater]
    exact Nameless.arrows_lt_fillExistentials hx hcore
  have hmono := hgrows.wellFormed.isMono_solution x
  have hsound := h.sound
  rcases hAB with ⟨rfl, rfl⟩ | ⟨rfl, rfl⟩
  · have hle := hsound.arrows_le_of_isMono_left hmono
    rw [Context.resolved_evar] at hle
    omega
  · have hle := hsound.arrows_le_of_isMono_right hmono
    rw [Context.resolved_evar] at hle
    omega

end Derivation

end HigherRank
