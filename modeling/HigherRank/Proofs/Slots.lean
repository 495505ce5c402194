import HigherRank.Proofs.Extension
import HigherRank.Proofs.Holes

set_option autoImplicit false
set_option relaxedAutoImplicit false

/-!
# Filling in a slot

An existential is solved in the place where it was declared, and existentials of new names may be
put right before it. Whether the context stays well-formed is decided at the slot alone. What stands
to the right of it is admitted again, since its types mention nothing that is gone, and its names
are neither new nor declared once more.

## Main results

* `HigherRank.Context.WellFormed.concat_of_extends` — a left part may be extended in place.
* `HigherRank.Context.WellFormed.slot` — a slot may be filled in by what is well-formed there.
* `HigherRank.Context.wellFormed_solved_iff` — when an existential may be solved to a type.
* `HigherRank.Context.WellFormed.articulated` — an existential may be solved to an arrow between two
  new ones.
* `HigherRank.Context.isWellFormed_in_place` — what the check says after both.
-/

namespace HigherRank.Context

variable {Γ left right : Context} {x d c : Name} {A : Ty}

/-! ## Well-formedness -/

/-- A left part of a well-formed context may be extended in place, if the new names are not in use
to the right of it.

**Proof sketch.** Induction on the right part. An entry there is admitted again: what its type
mentions is still declared, and its own name is neither one that the left part declared nor a new
one. -/
theorem WellFormed.concat_of_extends (new : Name → Prop) {left' : Context}
    (h : WellFormed (left.concat right)) (hleft' : left'.WellFormed)
    (hext : Extends new left left') (hnew : ∀ x, new x → Unused right x) :
    WellFormed (left'.concat right) := by
  induction right with
  | nil => exact hleft'
  | cons m right ih =>
    obtain ⟨hΓ, hm⟩ := wellFormed_cons (Γ := left.concat right).mp h
    have hright : ∀ x, new x → Unused right x :=
      fun x hx n hn => hnew x hx n (List.mem_cons_of_mem m hn)
    have hm' : ∀ x, new x → m.takenName? ≠ some x := fun x hx => hnew x hx m List.mem_cons_self
    have hext' : Extends new (left.concat right) (left'.concat right) := hext.concat_right right
    have hnot : ∀ x, m.takenName? = some x → ¬ (left.concat right).declares x →
        ¬ (left'.concat right).declares x := by
      intro x hx hd hd'
      exact (hext'.declares hd').elim hd fun hx' => hm' x hx' hx
    refine .cons m (ih hΓ hright) ?_
    cases hm with
    | rigid a hd => exact .rigid a (hnot a rfl hd)
    | unsolved x hd => exact .unsolved x (hnot x rfl hd)
    | solved x A hd hmono hA => exact .solved x A (hnot x rfl hd) hmono (hext'.scopes hA)
    | marker x hx hd =>
      refine .marker x (fun hmem => hx ?_) (hnot x rfl hd)
      exact hext'.mem_of_mem hmem (by simp [Entry.IsExistential])
    | assumed x A hx hA =>
      refine .assumed x A (fun B hB => hx B ?_) (hext'.scopes hA)
      exact hext'.mem_of_mem hB (by simp [Entry.IsExistential])

/-- A slot may be filled in by a solution behind existentials of new names, if that is well-formed
to the right of what precedes the slot. -/
theorem WellFormed.slot (new : Name → Prop) {block : Context}
    (h : WellFormed (concat (.unsolved x :: left) right))
    (hblock : ∀ m ∈ block, m.IsExistential new) (hnew : ∀ y, new y → Unused right y)
    (hsolved : WellFormed (.solved x A :: left.concat block)) :
    WellFormed (concat (.solved x A :: left.concat block) right) :=
  h.concat_of_extends new hsolved (.solve x A block hblock (.refl left)) hnew

/-- An existential may be solved exactly to the monotypes that are in scope where it is declared. -/
theorem wellFormed_solved_iff (h : WellFormed (concat (.unsolved x :: left) right)) :
    WellFormed (concat (.solved x A :: left) right) ↔ A.isMono ∧ left.Scopes A := by
  constructor
  · intro hsolved
    cases hsolved.admits_of_concat with
    | solved _ _ _ hmono hA => exact ⟨hmono, hA⟩
  · rintro ⟨hmono, hA⟩
    have hx : ¬ left.declares x := h.not_declares_left (by simp [Entry.declares])
    exact h.slot (fun _ => False) (fun m hm => absurd hm List.not_mem_nil) (fun _ => False.elim)
      (.cons _ h.of_concat.of_cons (.solved x A hx hmono hA))

/-- Two existentials of new names are existentials of new names. -/
private lemma isExistential_of_mem_pair {new : Name → Prop} (hd : new d) (hc : new c) :
    ∀ m ∈ [Entry.unsolved c, .unsolved d], m.IsExistential new := by
  simpa [Entry.IsExistential] using ⟨hc, hd⟩

/-- Articulation fills in a slot. -/
lemma Extends.articulated (new : Name → Prop) (hd : new d) (hc : new c) :
    Extends new (concat (.unsolved x :: left) right)
      (concat (.solved x (.arr (.evar d) (.evar c)) :: .unsolved c :: .unsolved d :: left) right) :=
  .slot x _ (isExistential_of_mem_pair hd hc)

/-- An existential may be solved to the arrow between two new existentials that are declared right
before it.

**Proof sketch.** The new entries may stand in place of the slot, if they are admitted there one
after another, and if nothing to the right has their names (`WellFormed.slot`). The names are
unused, so that both hold; the arrow is in scope since its parts have been declared right before. -/
theorem WellFormed.articulated (h : WellFormed (concat (.unsolved x :: left) right))
    (hdc : d ≠ c) (hd : Unused (concat (.unsolved x :: left) right) d)
    (hc : Unused (concat (.unsolved x :: left) right) c) :
    WellFormed
      (concat (.solved x (.arr (.evar d) (.evar c)) :: .unsolved c :: .unsolved d :: left)
        right) := by
  have hleft : left ⊆ concat (.unsolved x :: left) right := fun m hm => by simp [hm]
  have hright : right ⊆ concat (.unsolved x :: left) right := fun m hm => by simp [hm]
  have hdx : d ≠ x := by
    rintro rfl
    exact hd.unsolved_not_mem (by simp)
  have hcx : c ≠ x := by
    rintro rfl
    exact hc.unsolved_not_mem (by simp)
  have hdleft : ¬ left.declares d := (hd.mono hleft).not_declares
  have hcleft : ¬ left.declares c := (hc.mono hleft).not_declares
  have hxleft : ¬ left.declares x := h.not_declares_left (by simp [Entry.declares])
  refine h.slot (fun y => y = d ∨ y = c) (isExistential_of_mem_pair (.inl rfl) (.inr rfl)) ?_ ?_
  · rintro y (rfl | rfl)
    · exact hd.mono hright
    · exact hc.mono hright
  · -- the arrow is in scope behind its two parts, whose names differ from each other and from `x`
    have hdom : WellFormed (.unsolved d :: left) := .cons _ h.of_concat.of_cons (.unsolved d hdleft)
    have hcod : WellFormed (.unsolved c :: .unsolved d :: left) :=
      .cons _ hdom (.unsolved c (by simpa [Entry.declares, hdc] using hcleft))
    refine .cons _ hcod (.solved x _ ?_ rfl ?_)
    · simpa [Entry.declares, hdx, hcx] using hxleft
    · exact scopes_arr.mpr ⟨scopes_evar.mpr (.inl (by simp)), scopes_evar.mpr (.inl (by simp))⟩

/-! ## What the check says -/

/-- Solving an existential in place leaves a well-formed context exactly if the type is a monotype
that is well-formed to the left of the slot. Two existentials of new names may always be declared in
the slot, with the arrow between them as the solution, and no type gets out of scope. The names may
be those of term variables.

**Proof sketch.** The slot is the first occurrence of the existential, so that solving and replacing
put the new entries there. Whether the result is well-formed is `wellFormed_solved_iff` for a
solution, and `WellFormed.articulated` for an articulation, which is an extension of the context and
so loses no type. -/
theorem isWellFormed_in_place (h : Γ.isWellFormed = .ok true)
    (hs : Γ = concat (.unsolved x :: left) right) :
    Γ.excise (.unsolved x) = .ok (left, right) ∧
      (∀ A, ∃ Δ, Γ.solve x A = .ok Δ ∧
        (Δ.isWellFormed = .ok true ↔ A.isMono ∧ left.isWellFormedType A = .ok true)) ∧
      ∀ d c, d ≠ c → Γ.Unused d → Γ.Unused c →
        ∃ Δ, Γ.replace (.unsolved x)
            [.unsolved d, .unsolved c, .solved x (.arr (.evar d) (.evar c))] = .ok Δ ∧
          Δ.isWellFormed = .ok true ∧
          ∀ A, Γ.isWellFormedType A = .ok true → Δ.isWellFormedType A = .ok true := by
  subst hs
  have hΓ := isWellFormed_eq_true_iff.mp h
  have hleft : left.SolvedOnce := hΓ.of_concat.of_cons.solvedOnce
  have hx : .unsolved x ∉ left := hΓ.not_mem_left rfl
  refine ⟨excise_of_slot rfl hx, fun A => ⟨_, solve_of_slot rfl hx A, ?_⟩, fun d c hdc hd hc => ?_⟩
  · rw [isWellFormed_eq_true_iff, isWellFormedType_eq_true_iff hleft]
    exact wellFormed_solved_iff hΓ
  · have hΔ := hΓ.articulated hdc hd hc
    refine ⟨_, replace_of_slot rfl hx _, isWellFormed_eq_true_iff.mpr hΔ, fun A hA => ?_⟩
    rw [isWellFormedType_eq_true_iff hΓ.solvedOnce] at hA
    exact (isWellFormedType_eq_true_iff hΔ.solvedOnce).mpr
      ((Extends.articulated (fun _ => True) trivial trivial).scopes hA)

/-- To the right of the slot stand entries of all other kinds, whose types mention the existential.
It may be solved to a variable that is declared before it and not to one that is declared later. One
of the new names is that of a term variable.

**Proof sketch.** All three contexts come from the theorem, and only the two tests of the variables
to the left of the slot are computed. -/
theorem isWellFormed_in_place_every_kind :
    let left : Context := [.rigid "a"]
    let right : Context := ofMembers [.marker "m", .assumed "d" (.all "b" (.evar "x")),
      .solved "y" (.arr (.evar "x") (.var "a")), .rigid "b", .unsolved "z"]
    let Γ : Context := concat (.unsolved "x" :: left) right
    Γ.isWellFormed = .ok true ∧
      (∃ Δ, Γ.solve "x" (.var "a") = .ok Δ ∧ Δ.isWellFormed = .ok true) ∧
      (∃ Δ, Γ.solve "x" (.var "b") = .ok Δ ∧ Δ.isWellFormed ≠ .ok true) ∧
      ∃ Δ, Γ.replace (.unsolved "x")
          [.unsolved "d", .unsolved "c", .solved "x" (.arr (.evar "d") (.evar "c"))] = .ok Δ ∧
        Δ.isWellFormed = .ok true ∧
        ∀ A, Γ.isWellFormedType A = .ok true → Δ.isWellFormedType A = .ok true := by
  intro left right Γ
  have hΓ : Γ.isWellFormed = .ok true := by decide
  obtain ⟨-, hsolve, harrow⟩ := isWellFormed_in_place hΓ rfl
  obtain ⟨Δ, hΔ, hbefore⟩ := hsolve (.var "a")
  obtain ⟨Θ, hΘ, hlater⟩ := hsolve (.var "b")
  refine ⟨hΓ, ⟨Δ, hΔ, hbefore.mpr (by decide)⟩, ⟨Θ, hΘ, fun hwf => ?_⟩,
    harrow "d" "c" (by decide) (by decide) (by decide)⟩
  exact absurd (hlater.mp hwf).2 (by decide)

end HigherRank.Context
