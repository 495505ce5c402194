import HigherRank.Proofs.Rules
import HigherRank.Proofs.Slots

set_option autoImplicit false
set_option relaxedAutoImplicit false

/-!
# Growth of sessions

A session grows into another if the context of the other is well-formed and extends its own by
existentials whose names were given out in between. Solving an existential and articulating it are
growth, and a session that has grown inside the scope of a quantifier has grown when the scope is
closed.

## Main definitions

* `HigherRank.Session.Grows` — growth.

## Main results

* `HigherRank.Session.Grows.trans` — growth is transitive.
* `HigherRank.Session.wellFormed_openRight`, `HigherRank.Session.wellFormed_openLeft` — a scope is
  opened with new names.
* `HigherRank.Session.grows_articulated`, `HigherRank.Session.grows_solvedAt` — solving is growth.
* `HigherRank.Session.Grows.closeRight`, `HigherRank.Session.Grows.closeLeft` — closing a scope.
-/

namespace HigherRank.Session

open Context (Extends WellFormed)

/-- The context of the second session is well-formed, and it extends that of the first one by
existentials whose names the first session had not given out yet. -/
structure Grows (s s' : Session) : Prop where
  wellFormed : s'.context.WellFormed
  extension : Extends (s.Issued s.existentialStem s'.nextName) s.context s'.context
  nextName : s.nextName ≤ s'.nextName
  existentialStem : s'.existentialStem = s.existentialStem
  variableStem : s'.variableStem = s.variableStem

/-- A session with a well-formed context may stay as it is. -/
lemma Grows.refl {s : Session} (h : s.context.WellFormed) : s.Grows s :=
  ⟨h, .refl _, Int.le_refl _, rfl, rfl⟩

/-- A session may grow twice. -/
theorem Grows.trans {s s₁ s₂ : Session} (h₁ : s.Grows s₁) (h₂ : s₁.Grows s₂) : s.Grows s₂ where
  wellFormed := h₂.wellFormed
  extension := by
    refine (h₁.extension.weaken fun x hx => ?_).trans (h₂.extension.weaken fun x hx => ?_)
    · exact hx.mono (Int.le_refl _) h₂.nextName
    · rw [h₁.existentialStem] at hx
      exact hx.mono h₁.nextName (Int.le_refl _)
  nextName := Int.le_trans h₁.nextName h₂.nextName
  existentialStem := h₂.existentialStem.trans h₁.existentialStem
  variableStem := h₂.variableStem.trans h₁.variableStem

/-! ## New names -/

section Fresh

variable {s : Session}

/-- The variable with which a quantifier on the right is opened is new. -/
lemma unused_rightName (s : Session) : s.context.Unused s.rightName :=
  s.fresh_unused s.variableStem

/-- The existential with which a quantifier on the left is opened is new. -/
lemma unused_leftName (s : Session) : s.context.Unused s.leftName :=
  s.fresh_unused s.existentialStem

/-- The existential of the new domain is new. -/
lemma unused_domName (s : Session) : s.context.Unused s.domName :=
  s.fresh_unused s.existentialStem

/-- The existential of the new codomain is new. -/
lemma unused_codName (s : Session) : s.context.Unused s.codName :=
  s.freshExistential.2.fresh_unused s.existentialStem

/-- The names of the domain and the codomain differ, since the counter has moved on. -/
lemma domName_ne_codName (s : Session) : s.domName ≠ s.codName := by
  intro h
  obtain ⟨k, -, hk, hdom⟩ : s.Issued s.existentialStem s.freshExistential.2.nextName s.domName :=
    s.fresh_issued s.existentialStem
  obtain ⟨k', hk', -, hcod⟩ := s.freshExistential.2.fresh_issued s.existentialStem
  have hcod' : s.codName = s.existentialStem.numbered k' := hcod
  rw [hdom, hcod'] at h
  have := Name.numbered_injective _ h
  omega

/-- Opening a quantifier on the right leaves the context well-formed. -/
theorem wellFormed_openRight (h : s.context.WellFormed) : s.openRight.context.WellFormed :=
  .cons _ h (.rigid _ s.unused_rightName.not_declares)

/-- Opening a quantifier on the left leaves the context well-formed. -/
theorem wellFormed_openLeft (h : s.context.WellFormed) : s.openLeft.context.WellFormed := by
  have hname := s.unused_leftName
  have hmarker : WellFormed (.marker s.leftName :: s.context) :=
    .cons _ h (.marker _ hname.marker_not_mem hname.not_declares)
  have hnot : ¬ Context.declares (.marker s.leftName :: s.context) s.leftName := by
    simpa [Entry.declares] using hname.not_declares
  exact .cons _ hmarker (.unsolved _ hnot)

/-- Opening a quantifier on the right moves the counter on. -/
lemma nextName_le_openRight (s : Session) : s.nextName ≤ s.openRight.nextName :=
  s.nextName_le_fresh s.variableStem

/-- Opening a quantifier on the left moves the counter on. -/
lemma nextName_le_openLeft (s : Session) : s.nextName ≤ s.openLeft.nextName :=
  s.nextName_le_fresh s.existentialStem

end Fresh

/-! ## Solving -/

section Solving

variable {s : Session} {left right : Context} {x : Name} {T : Ty}

/-- What is to the right of a slot is in the context. -/
lemma mem_right_of_slot {m n : Entry} (hs : s.context = Context.concat (m :: left) right)
    (hn : n ∈ right) : n ∈ s.context := by
  simp [hs, hn]

/-- What is to the left of a slot is in the context. -/
lemma mem_left_of_slot {m n : Entry} (hs : s.context = Context.concat (m :: left) right)
    (hn : n ∈ left) : n ∈ s.context := by
  simp [hs, hn]

/-- Articulation is growth. -/
theorem grows_articulated (hs : s.context = Context.concat (.unsolved x :: left) right)
    (h : s.context.WellFormed) : s.Grows (s.articulated x left right) := by
  have hnext : s.nextName ≤ s.freshExistential.2.nextName := s.nextName_le_fresh _
  have hnext' : s.freshExistential.2.nextName ≤ (s.articulated x left right).nextName :=
    s.freshExistential.2.nextName_le_fresh _
  have hdom : s.Issued s.existentialStem (s.articulated x left right).nextName s.domName :=
    (s.fresh_issued s.existentialStem).mono (Int.le_refl _) hnext'
  have hcod : s.Issued s.existentialStem (s.articulated x left right).nextName s.codName :=
    (s.freshExistential.2.fresh_issued s.existentialStem).mono hnext (Int.le_refl _)
  refine ⟨?_, ?_, Int.le_trans hnext hnext', rfl, rfl⟩
  · exact (hs ▸ h).articulated s.domName_ne_codName (hs ▸ s.unused_domName) (hs ▸ s.unused_codName)
  · rw [hs]
    exact Extends.articulated _ hdom hcod

/-- An existential that has been articulated keeps the new arrow as its solution. -/
lemma Grows.newArrow_mem {t : Session} (h : (s.articulated x left right).Grows t) :
    .solved x s.newArrow ∈ t.context :=
  h.extension.solved_mem (by simp)

/-- Solving an existential to a monotype that is in scope where it is declared is growth. -/
theorem grows_solvedAt (hs : s.context = Context.concat (.unsolved x :: left) right)
    (h : s.context.WellFormed) (hmono : T.isMono) (hT : left.Scopes T) :
    s.Grows (s.solvedAt x T left right) := by
  refine ⟨?_, ?_, Int.le_refl _, rfl, rfl⟩
  · exact (Context.wellFormed_solved_iff (hs ▸ h)).mpr ⟨hmono, hT⟩
  · rw [hs]
    exact (Extends.solve x T [] (by simp) (.refl left)).concat_right right

end Solving

/-! ## Closing a scope -/

section Closing

variable {s s₁ : Session} {Δ block : Context}

/-- What has grown in the scope of a quantifier on the right ends with its variable, so that the
scope can be closed. -/
lemma Grows.exists_closeRight (h : s.openRight.Grows s₁) :
    ∃ Δ, s₁.context = .rigid s.rightName :: Δ ∧
      (s₁.closeScope (.rigid s.rightName)).outcome = .ok (s₁.withContext Δ) := by
  obtain ⟨Δ, hΔ, -⟩ := h.extension.of_cons (by simp)
  have hslot : s₁.context = Context.concat (.rigid s.rightName :: Δ) [] := hΔ
  exact ⟨Δ, hΔ, outcome_closeScope hslot (h.wellFormed.not_mem_left hslot)⟩

/-- Closing the scope of a quantifier on the right leaves a session that has grown. -/
theorem Grows.closeRight (h : s.openRight.Grows s₁)
    (hΔ : s₁.context = .rigid s.rightName :: Δ) : s.Grows (s₁.withContext Δ) := by
  obtain ⟨Δ', hΔ', hext⟩ := h.extension.of_cons (by simp)
  obtain rfl : Δ = Δ' := by simpa [hΔ] using hΔ'
  have hwf := h.wellFormed
  rw [hΔ] at hwf
  exact ⟨hwf.of_cons, hext.weaken fun x hx => hx.mono s.nextName_le_openRight (Int.le_refl _),
    Int.le_trans s.nextName_le_openRight h.nextName, h.existentialStem, h.variableStem⟩

/-- What has grown in the scope of a quantifier on the left ends with its marker and
existentials, so that the scope can be closed. -/
lemma Grows.exists_closeLeft (h : s.openLeft.Grows s₁) :
    ∃ Δ block, s₁.context = Context.concat (.marker s.leftName :: Δ) block ∧
      (s₁.closeScope (.marker s.leftName)).outcome = .ok (s₁.withContext Δ) := by
  obtain ⟨Δ, block, hΔ, -⟩ := h.extension.of_openLeft
  exact ⟨Δ, block, hΔ, outcome_closeScope hΔ (h.wellFormed.not_mem_left hΔ)⟩

/-- Closing the scope of a quantifier on the left leaves a session that has grown, and only
existentials are lost. -/
theorem Grows.closeLeft (h : s.openLeft.Grows s₁)
    (hΔ : s₁.context = Context.concat (.marker s.leftName :: Δ) block) :
    s.Grows (s₁.withContext Δ) ∧ ∀ m ∈ block, m.IsExistential fun _ => True := by
  obtain ⟨Δ', block', hΔ', hblock, hext⟩ := h.extension.of_openLeft
  have hwf := h.wellFormed
  -- the marker occurs once, so that both ways to take the context apart agree
  obtain ⟨rfl, rfl⟩ := hwf.slot_unique hΔ' hΔ
  rw [hΔ] at hwf
  refine ⟨⟨hwf.of_concat.of_cons, ?_, ?_, h.existentialStem, h.variableStem⟩, fun m hm => ?_⟩
  · exact hext.weaken fun x hx => hx.mono s.nextName_le_openLeft (Int.le_refl _)
  · exact Int.le_trans s.nextName_le_openLeft h.nextName
  · have := hblock m hm
    cases m <;> simp_all [Entry.IsExistential]

end Closing

end HigherRank.Session
