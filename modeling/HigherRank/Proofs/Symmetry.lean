import HigherRank.Proofs.NameIndependence

set_option autoImplicit false
set_option relaxedAutoImplicit false

/-!
# Monotypes are compared symmetrically

Between monotypes a query asks whether the two can be made equal, and then it does not matter on
which side they stand. Not only the answer is the same: the same existentials are solved, in the
same slots and to the same types, and the same new names are used.

## Main results

* `HigherRank.outcome_solveTo_comm` — of two existentials the one declared later is solved.
* `HigherRank.judge_comm` — the rules on monotypes.
* `HigherRank.subtype_symm` — queries about monotypes are symmetric.
-/

namespace HigherRank

open Context (WellFormed)

/-! ## Two existentials -/

section Solving

variable {s : Session} {left mid right : Context} {x y : Name}

/-- An existential that is to be solved to one declared later is not solved: the other one is. -/
lemma outcome_solveTo_later (h : s.context.WellFormed)
    (hs : s.context =
      Context.concat (.unsolved x :: left) (Context.concat (.unsolved y :: mid) right))
    (hne : x ≠ y) :
    (s.solveTo x (.evar y)).outcome =
      .ok (s.solvedAt y (.evar x) (Context.concat (.unsolved x :: left) mid) right) := by
  have hslot := Context.slot_of_right hs
  have hscope : s.context.Scopes (.evar y) := Context.scopes_evar.mpr (.inl (by simp [hs]))
  have hney : Ty.evar y ≠ .evar x := by simpa using hne.symm
  rcases outcome_solveTo h hs rfl hney (not_hasSolution_of_slot h hslot) hscope with
    ⟨hin, -⟩ | ⟨z, mid', right', hz, hright, hok⟩ | ⟨a, ha, -⟩
  · exact absurd hin (not_scopes_left h hs)
  · obtain rfl : y = z := by simpa using hz
    have hs' : s.context =
        Context.concat (.unsolved x :: left) (Context.concat (.unsolved y :: mid') right') := by
      rw [hs, hright]
    obtain ⟨hleft, hrest⟩ := h.slot_unique hslot (Context.slot_of_right hs')
    rw [hok, hleft, hrest]
  · contradiction

/-- An existential is solved to one declared earlier. -/
private lemma outcome_solveTo_earlier (h : s.context.WellFormed)
    (hs : s.context =
      Context.concat (.unsolved x :: left) (Context.concat (.unsolved y :: mid) right))
    (hne : x ≠ y) :
    (s.solveTo y (.evar x)).outcome =
      .ok (s.solvedAt y (.evar x) (Context.concat (.unsolved x :: left) mid) right) := by
  have hnex : Ty.evar x ≠ .evar y := by simpa using hne
  exact outcome_solveTo_of_scopes h (Context.slot_of_right hs) rfl hnex
    (not_hasSolution_of_slot h hs) (Context.scopes_evar.mpr (.inl (by simp)))

/-- Of two existentials without a solution the one declared later is solved to the other one,
whichever of them is to be solved. -/
theorem outcome_solveTo_comm (h : s.context.WellFormed) (hx : .unsolved x ∈ s.context)
    (hy : .unsolved y ∈ s.context) (hne : x ≠ y) :
    (s.solveTo x (.evar y)).outcome = (s.solveTo y (.evar x)).outcome := by
  obtain ⟨left, right, hs⟩ := Context.exists_concat_of_mem hx
  rw [hs, Context.mem_concat, List.mem_cons] at hy
  rcases hy with hy | hy | hy
  · obtain ⟨mid, right', rfl⟩ := Context.exists_concat_of_mem hy
    rw [outcome_solveTo_later h hs hne, outcome_solveTo_earlier h hs hne]
  · exact absurd (by simpa using hy.symm) hne
  · obtain ⟨left', mid, rfl⟩ := Context.exists_concat_of_mem hy
    have hs' : s.context =
        Context.concat (.unsolved y :: left') (Context.concat (.unsolved x :: mid) right) := by
      rw [hs, ← Context.concat_cons, Context.concat_assoc]
    rw [outcome_solveTo_later h hs' hne.symm, outcome_solveTo_earlier h hs' hne.symm]

end Solving

/-! ## The rules on monotypes -/

section Rules

variable {n : Nat} {s s' : Session} {A B : Ty}

/-- To solve an existential to a type without parts, it may stand on either side. -/
private lemma outcome_judge_solve_comm {x : Name} {T : Ty} {left right : Context}
    (h : s.context.WellFormed) (hs : s.context = Context.concat (.unsolved x :: left) right)
    (hT : T.isAtom) (hne : T ≠ .evar x) (hsT : ¬ s.context.HasSolution T)
    (hscope : s.context.Scopes T) :
    (judge (n + 1) s (.evar x) T).outcome = (judge (n + 1) s T (.evar x)).outcome := by
  rw [outcome_judge_solveLeft n h hs hT hne hsT]
  by_cases hy : ∃ y, T = .evar y
  · obtain ⟨y, rfl⟩ := hy
    obtain ⟨left', right', hs'⟩ :=
      Session.WellPosed.exists_slot (Context.scopes_evar.mp hscope) hsT
    have hnex : Ty.evar x ≠ .evar y := hne.symm
    rw [outcome_judge_solveLeft n h hs' rfl hnex (not_hasSolution_of_slot h hs)]
    exact outcome_solveTo_comm h (by simp [hs]) (by simp [hs']) (by simpa using hnex)
  · rw [outcome_judge_solveRight n h hs hT (not_exists.mp hy)]

/-- If a run on two monotypes succeeds, then so does the run with the two exchanged, and it ends in
the same session.

**Proof sketch.** Induction on the depth. Every rule has a rule for the other side as its
counterpart, and the counterpart compares the same types with their sides exchanged, in the same
session. -/
theorem judge_comm (h : s.WellPosed A B) (hA : A.isMono) (hB : B.isMono)
    (hrun : (judge n s A B).outcome = .ok s') : (judge n s B A).outcome = .ok s' := by
  induction n generalizing s A B s' with
  | zero => simp [judge_zero] at hrun
  | succ n ih =>
    have hwf := h.wellFormed
    have hflip : s.WellPosed B A := ⟨hwf, h.right, h.left⟩
    cases h.rule with
    | arr A₁ A₂ B₁ B₂ =>
      simp only [Ty.isMono, Bool.and_eq_true] at hA hB
      cases h₁ : (judge n s B₁ A₁).outcome with
      | error e => simp [outcome_judge_arr_of_error h₁] at hrun
      | ok s₁ =>
        have hgrows := (Derivation.of_judge h.domains h₁).grows
        have hwf₁ := hgrows.wellFormed
        obtain ⟨A₂', hA₂, -⟩ := hwf₁.exists_apply A₂
        obtain ⟨B₂', hB₂, -⟩ := hwf₁.exists_apply B₂
        have hcod := (h.codomains.grows hgrows).apply hA₂ hB₂
        rw [outcome_judge_arr_of_ok h₁ hA₂ hB₂] at hrun
        rw [outcome_judge_arr_of_ok (ih h.domains hB.1 hA.1 h₁) hB₂ hA₂]
        exact ih hcod (by rw [hwf₁.isMono_apply hA₂, hA.2]) (by rw [hwf₁.isMono_apply hB₂, hB.2])
          hrun
    | allRight => simp [Ty.isMono] at hB
    | allLeft => simp [Ty.isMono] at hA
    | same hatom => exact hrun
    | solved hne hnotA hnotB hs =>
      obtain ⟨A', hA', -⟩ := hwf.exists_apply A
      obtain ⟨B', hB', -⟩ := hwf.exists_apply B
      rw [outcome_judge_solved n hwf hne hnotA hnotB hs hA' hB'] at hrun
      rw [outcome_judge_solved n hwf hne.symm hnotB hnotA hs.symm hB' hA']
      exact ih (h.apply hA' hB') (by rw [hwf.isMono_apply hA', hA])
        (by rw [hwf.isMono_apply hB', hB]) hrun
    | @articulateLeft x left right B₁ B₂ hs =>
      by_cases hx : x ∈ (Ty.arr B₁ B₂).existentials
      · simp [outcome_judge_articulateLeft_of_occurs n hwf hs hx] at hrun
      · rw [outcome_judge_articulateLeft n hwf hs hx] at hrun
        rw [outcome_judge_articulateRight n hwf hs hx]
        exact ih (h.articulateLeft hs) rfl hB hrun
    | @articulateRight x left right A₁ A₂ hs =>
      by_cases hx : x ∈ (Ty.arr A₁ A₂).existentials
      · simp [outcome_judge_articulateRight_of_occurs n hwf hs hx] at hrun
      · rw [outcome_judge_articulateRight n hwf hs hx] at hrun
        rw [outcome_judge_articulateLeft n hwf hs hx]
        exact ih (h.articulateRight hs) hA rfl hrun
    | solveLeft hs hatom hne hsB =>
      rwa [outcome_judge_solve_comm hwf hs hatom hne hsB h.right] at hrun
    | solveRight hs hatom hne =>
      rwa [← outcome_judge_solve_comm hwf hs hatom (hne _) (Context.not_hasSolution hne) h.left]
        at hrun
    | mismatch hne hnotA hnotB harr hxA hyB =>
      simp [outcome_judge_mismatch n hne hnotA hnotB harr hxA hyB] at hrun

end Rules

/-! ## Queries -/

section Query

variable {s s' : Session} {A B : Ty}

/-- The bound on the depth does not depend on the order of the two types. -/
private lemma depthBound_comm (Γ : Context) (A B : Ty) : depthBound Γ A B = depthBound Γ B A := by
  simp only [depthBound, Nat.add_right_comm]

/-- A query about monotypes that is answered with a session is answered with the same session if the
two types are exchanged. -/
private lemma outcome_subtype_comm (h : s.WellPosed A B) (hA : A.isMono) (hB : B.isMono)
    (hrun : (subtype s A B).outcome = .ok (some s')) :
    (subtype s B A).outcome = .ok (some s') := by
  rw [outcome_subtype_eq_some, check] at hrun ⊢
  rw [← depthBound_comm]
  exact judge_comm h hA hB hrun

/-- On monotypes subtyping is symmetric: the two queries are both refused, or they are both
answered, with the same session. -/
theorem subtype_symm (h : s.context.isWellFormed = .ok true)
    (hA : s.context.isWellFormedType A = .ok true) (hB : s.context.isWellFormedType B = .ok true)
    (hmonoA : A.isMono) (hmonoB : B.isMono) :
    ((subtype s A B).outcome = .ok none ∧ (subtype s B A).outcome = .ok none) ∨
      ∃ s', (subtype s A B).outcome = .ok (some s') ∧ (subtype s B A).outcome = .ok (some s') := by
  have hAB := Session.WellPosed.of_checks h hA hB
  have hBA := Session.WellPosed.of_checks h hB hA
  rcases hAB.outcome_subtype with hnone | ⟨s', hsome⟩
  · rcases hBA.outcome_subtype with hnone' | ⟨s', hsome'⟩
    · exact .inl ⟨hnone, hnone'⟩
    · have hsome := outcome_subtype_comm hBA hmonoB hmonoA hsome'
      exact .inr ⟨s', hsome, hsome'⟩
  · exact .inr ⟨s', hsome, outcome_subtype_comm hAB hmonoA hmonoB hsome⟩

/-- In one run `^y` is on the left and in the other `^x`, but it is `^y` that is solved in both,
since it is declared later. Then `^z` is articulated, from either side. -/
theorem subtype_symm_later :
    let s : Session := ⟨[.unsolved "z", .unsolved "y", .unsolved "x"], 0, "e", "t"⟩
    let s' : Session := ⟨[.solved "z" (.arr (.evar "e0") (.evar "e1")), .solved "e1" (.evar "x"),
      .solved "e0" .unit, .solved "y" (.evar "x"), .unsolved "x"], 2, "e", "t"⟩
    let A : Ty := .arr (.evar "x") (.evar "z")
    let B : Ty := .arr (.evar "y") (.arr .unit (.evar "x"))
    A.isMono ∧ B.isMono ∧ (subtype s A B).outcome = .ok (some s') ∧
      (subtype s B A).outcome = .ok (some s') := by
  intro s s' A B
  have hrun : (subtype s A B).outcome = .ok (some s') := by decide +kernel
  refine ⟨rfl, rfl, hrun, ?_⟩
  rcases subtype_symm (s := s) (A := A) (B := B) (by decide) (by decide) (by decide) rfl rfl with
    ⟨hnone, -⟩ | ⟨t, hsome, hsome'⟩
  · simp [hrun] at hnone
  · obtain rfl : s' = t := by simpa [hrun] using hsome
    exact hsome'

end Query

end HigherRank
