import HigherRank.Proofs.Application
import HigherRank.Proofs.Completion
import HigherRank.Proofs.Progress
import Mathlib.Tactic.Linarith

set_option autoImplicit false
set_option relaxedAutoImplicit false

/-!
# Termination

The bound on the depth of the rules is never reached for types in scope of a well-formed context.
While one existential is solved, the depth is linear in the height of the types. Otherwise a step
that opens a quantifier or solves an existential makes up for the height that this may add.

## Main definitions

* `HigherRank.depthOf` — a depth that suffices for types of a given height.

## Main results

* `HigherRank.completes_of_faces` — a query that solves a given existential completes.
* `HigherRank.completes_judge` — every query completes.
* `HigherRank.check_terminates` — the bound on the depth does not show.

## Implementation notes

An existential that occurs in the other type only after solutions have been filled in escapes the
occurs check, and may be articulated before the run fails. What limits these articulations is the
height of the type as it is given, since only then do they go into it.
-/

namespace HigherRank

/-! ## Queries that solve a given existential -/

section Faces

variable {s : Session} {A B T : Ty} {x : Name}

/-- A query completes if the existential occurs in the type as it is given.

**Proof sketch.** Only quantifiers are opened before the existential is compared with itself or with
an arrow in which it occurs. -/
private lemma completes_of_occurs {n : Nat} (h : s.WellPosed A B) (hAB : Session.Faces x T A B)
    (hx : .unsolved x ∈ s.context) (hocc : x ∈ T.existentials) (hn : 2 * T.height + 2 ≤ n) :
    (judge n s A B).Completes := by
  induction n using Nat.strongRecOn generalizing s A B T x with
  | ind n ih =>
    obtain ⟨m, rfl⟩ : ∃ m, n = m + 2 := ⟨n - 2, by omega⟩
    refine completes_judge_faces h hAB hx ?_ ?_ fun t y T' A' B' hnot _ _ _ => absurd hocc hnot
    · intro t y T' A' B' hred hpos hfaces
      have hheight := hred.height
      exact ih m (by omega) hpos hfaces hred.unsolved (hred.occurs hocc) (by omega)
    · rintro T' A' B' ⟨y, R, rfl, hR⟩ - - -
      obtain rfl : x = y := by simpa [Ty.existentials] using hocc
      exact absurd hR (h.wellFormed.not_solved_of_unsolved hx R)

/-- A query completes if the existential does not occur in the type, with all solutions filled in.

**Proof sketch.** Induction on the height of the type with all solutions filled in. -/
private lemma completes_of_not_mem {n : Nat} (h : s.WellPosed A B) (hAB : Session.Faces x T A B)
    (hx : .unsolved x ∈ s.context) (hnot : x ∉ (s.context.resolved T).existentials)
    (hn : 3 * (s.context.resolved T).height + 2 ≤ n)
    (hsolved : s.context.HasSolution T → 3 * (s.context.resolved T).height + 3 ≤ n) :
    (judge n s A B).Completes := by
  induction n using Nat.strongRecOn generalizing s A B T x with
  | ind n ih =>
    obtain ⟨m, rfl⟩ : ∃ m, n = m + 2 := ⟨n - 2, by omega⟩
    have hwf := h.wellFormed
    refine completes_judge_faces h hAB hx ?_ ?_ ?_
    · intro t y T' A' B' hred hpos hfaces
      obtain ⟨habs, hlt⟩ := hred.absent hnot
      exact ih m (by omega) hpos hfaces hred.unsolved habs (by omega) fun _ => by omega
    · intro T' A' B' hT hT' hpos hfaces
      have hscope : s.context.Scopes T := by
        rcases hAB with ⟨-, rfl⟩ | ⟨rfl, -⟩
        · exact h.right
        · exact h.left
      have hle := hsolved hT
      have happly := hwf.resolved_apply hT'
      rw [← happly] at hnot hle
      have hunsolved := Session.not_hasSolution_apply hwf hscope hT'
      exact ih (m + 1) (by omega) hpos hfaces hx hnot (by omega) fun hT => absurd hT hunsolved
    · intro t y T' A' B' _ hcont hpos hfaces
      obtain ⟨habs, hlt⟩ := hcont.absent hnot
      exact ih m (by omega) hpos hfaces hcont.unsolved habs (by omega) fun _ => by omega

/-- A query that solves a given existential completes.

**Proof sketch.** If the existential does occur, then filling in the solutions shows it, and what is
left of the arrow after its domain shows it, too. Until then every articulation goes one step into
the type as it is given. -/
theorem completes_of_faces {n : Nat} (h : s.WellPosed A B) (hAB : Session.Faces x T A B)
    (hx : .unsolved x ∈ s.context)
    (hn : 2 * T.height + 4 * (s.context.resolved T).height + 4 ≤ n) :
    (judge n s A B).Completes := by
  induction n using Nat.strongRecOn generalizing s A B T x with
  | ind n ih =>
    by_cases hmem : x ∈ (s.context.resolved T).existentials
    · obtain ⟨m, rfl⟩ : ∃ m, n = m + 2 := ⟨n - 2, by omega⟩
      refine completes_judge_faces h hAB hx ?_ ?_ ?_
      · intro t y T' A' B' hred hpos hfaces
        have hheight := hred.height
        have hresolved := hred.resolved
        exact ih m (by omega) hpos hfaces hred.unsolved (by omega)
      · intro T' A' B' _ hT' hpos hfaces
        have hnameless := h.wellFormed.nameless_apply hT'
        rw [← hnameless] at hmem hn
        rw [Ty.existentials_nameless] at hmem
        rw [Ty.height_nameless] at hn
        exact completes_of_occurs hpos hfaces hx hmem (by omega)
      · intro t y T' A' B' _ hcont hpos hfaces
        obtain ⟨hocc, hle⟩ := hcont.occurs hmem
        exact completes_of_occurs hpos hfaces hcont.unsolved hocc (by omega)
    · exact completes_of_not_mem h hAB hx hmem (by omega) fun _ => by omega

end Faces

/-! ## The depth of a query -/

/-- A depth that suffices for types of height `h`, where `p` counts the existentials without a
solution once and the quantifiers twice. -/
def depthOf (h p : Nat) : Nat :=
  (6 * h + 6) * 3 ^ p

/-- Higher types and more existentials take no less depth. -/
lemma depthOf_mono {h h' p p' : Nat} (hh : h' ≤ h) (hp : p' ≤ p) : depthOf h' p' ≤ depthOf h p :=
  Nat.mul_le_mul (by omega) (Nat.pow_le_pow_right (by omega) hp)

/-- Lower types leave two steps. -/
private lemma depthOf_lower {h h' p p' : Nat} (hh : h' + 1 ≤ h) (hp : p' ≤ p) :
    depthOf h' p' + 2 ≤ depthOf h p := by
  have hpos : 1 ≤ 3 ^ p' := Nat.one_le_pow _ _ (by omega)
  calc depthOf h' p' + 2
      ≤ (6 * h' + 6) * 3 ^ p' + 6 * 3 ^ p' := by unfold depthOf; omega
    _ = depthOf (h' + 1) p' := by unfold depthOf; ring
    _ ≤ depthOf h p := depthOf_mono hh hp

/-- Every existential that has been solved leaves two steps, even if the types are twice as high.

**Proof sketch.** The height enters the depth as a factor, what is pending as a power of 3. So `j`
existentials less make up for heights that are `2 ^ j` times as large, and since `2 ^ j + 1 ≤ 3 ^ j`
two steps are left. -/
lemma depthOf_solved {h h' p p' j : Nat} (hh : h' ≤ h * 2 ^ j) (hj : 1 ≤ j) (hp : p' + j ≤ p) :
    depthOf h' p' + 2 ≤ depthOf h p := by
  have hpos : 1 ≤ 3 ^ p' := Nat.one_le_pow _ _ (by omega)
  have hgap : ∀ j, 1 ≤ j → 2 ^ j + 1 ≤ 3 ^ j := by
    intro j hj
    induction j, hj using Nat.le_induction with
    | base => norm_num
    | succ j _ ih => rw [Nat.pow_succ, Nat.pow_succ]; omega
  have hfactor : 6 * h' + 6 + 2 ≤ (6 * h + 6) * 3 ^ j := by
    have hmul : (6 * h + 6) * (2 ^ j + 1) ≤ (6 * h + 6) * 3 ^ j := Nat.mul_le_mul_left _ (hgap j hj)
    have hpow : 2 ≤ 2 ^ j := Nat.le_self_pow (by omega) 2
    have hexpand : (6 * h + 6) * (2 ^ j + 1) = 6 * (h * 2 ^ j) + 6 * 2 ^ j + 6 * h + 6 := by ring
    omega
  calc depthOf h' p' + 2
      ≤ (6 * h' + 6 + 2) * 3 ^ p' := by
        have hexpand : (6 * h' + 6 + 2) * 3 ^ p' = depthOf h' p' + 2 * 3 ^ p' := by
          unfold depthOf
          ring
        omega
    _ ≤ (6 * h + 6) * 3 ^ j * 3 ^ p' := Nat.mul_le_mul_right _ hfactor
    _ = depthOf h (p' + j) := by unfold depthOf; ring
    _ ≤ depthOf h p := depthOf_mono (Nat.le_refl h) hp

/-! ## Every query completes -/

namespace Session

/-- A depth that suffices for a query. -/
def depth (s : Session) (A B : Ty) : Nat :=
  depthOf (s.heightOf A B) (s.context.pending + 2 * quantifiersOf A B)

variable {s s₁ : Session} {A B A' B' A₁ A₂ B₁ B₂ : Ty}

/-- Applying the context does not change the depth that suffices. -/
private lemma depth_apply (h : s.context.WellFormed) (hA : s.context.apply A = .ok A')
    (hB : s.context.apply B = .ok B') : s.depth A' B' = s.depth A B := by
  rw [depth, heightOf_apply h hA hB, quantifiersOf_apply h hA hB, depth]

/-- Comparing the domains takes less depth than comparing the arrows. -/
private lemma depth_domains (s : Session) (A₁ A₂ B₁ B₂ : Ty) :
    s.depth B₁ A₁ + 2 ≤ s.depth (.arr A₁ A₂) (.arr B₁ B₂) := by
  refine depthOf_lower (s.heightOf_domains A₁ A₂ B₁ B₂) ?_
  rw [quantifiersOf_arr]
  omega

/-- After the domains the codomains are left. If the domains had no quantifier and no existential
was solved, then nothing has changed; otherwise there are fewer quantifiers and existentials left
than the heights have been doubled.

**Proof sketch.** If the domains had no quantifier and the context has not changed, then the
codomains are just lower than the arrows. Otherwise let `k` be by how much less is pending than
before, with the quantifiers of the domains counted in. The heights have been multiplied by at most
`2 ^ k`, and one of `k` and the number of these quantifiers is not zero, so that `depthOf_solved`
leaves two steps. -/
private lemma depth_codomains (h : s.WellPosed (.arr A₁ A₂) (.arr B₁ B₂))
    (hd : Derivation s B₁ A₁ s₁) (hA : s₁.context.apply A₂ = .ok A')
    (hB : s₁.context.apply B₂ = .ok B') :
    s₁.depth A' B' + 2 ≤ s.depth (.arr A₁ A₂) (.arr B₁ B₂) := by
  rw [depth_apply hd.grows.wellFormed hA hB]
  have hdom := s.heightOf_domains A₁ A₂ B₁ B₂
  have hcod := s.heightOf_codomains A₁ A₂ B₁ B₂
  have hadv := hd.advances.mono (h := s.heightOf (.arr A₁ A₂) (.arr B₁ B₂)) (by omega)
  have hpending := hadv.pending
  by_cases hsame : quantifiersOf B₁ A₁ = 0 ∧ s₁.context = s.context
  · obtain ⟨hq, hcontext⟩ := hsame
    have hheight : s₁.heightOf A₂ B₂ = s.heightOf A₂ B₂ := by
      rw [heightOf, hcontext, heightOf]
    refine depthOf_lower (by omega) ?_
    rw [hcontext, quantifiersOf_arr]
    omega
  · obtain ⟨k, hk⟩ : ∃ k, s.context.pending + quantifiersOf B₁ A₁ = s₁.context.pending + k :=
      ⟨_, (Nat.add_sub_cancel' hpending).symm⟩
    have hprogress : 1 ≤ k + quantifiersOf B₁ A₁ := by
      by_cases hq : quantifiersOf B₁ A₁ = 0
      · have hlt := (hadv.solves hq).resolve_left fun hcontext => hsame ⟨hq, hcontext⟩
        omega
      · omega
    have hmul := heightOf_mul_le hadv h.codomains (by omega)
    rw [hk, Nat.pow_add, Nat.mul_comm (2 ^ s₁.context.pending), ← Nat.mul_assoc] at hmul
    have hheight : s₁.heightOf A₂ B₂ ≤ s.heightOf (.arr A₁ A₂) (.arr B₁ B₂) * 2 ^ k :=
      Nat.le_of_mul_le_mul_right hmul (Nat.two_pow_pos _)
    refine depthOf_solved (hheight.trans ?_) hprogress ?_
    · exact Nat.mul_le_mul_left _ (Nat.pow_le_pow_right (by omega) (by omega))
    · rw [quantifiersOf_arr]
      omega

/-- Opening a quantifier on the right leaves less depth to go. -/
private lemma depth_openRight (h : s.context.WellFormed) (A : Ty) (b : Name) (B : Ty) :
    s.openRight.depth A (B.subst b (.var s.rightName)) + 2 ≤ s.depth A (.all b B) := by
  have hheight := heightOf_openRight h A b B
  have hq := quantifiersOf_allRight A b s.rightName B
  refine depthOf_solved (j := 1) (by omega) (Nat.le_refl 1) ?_
  simp only [context_openRight, Context.pending_rigid]
  omega

/-- Opening a quantifier on the left leaves less depth to go. -/
private lemma depth_openLeft (h : s.context.WellFormed) (a : Name) (A B : Ty) :
    s.openLeft.depth (A.subst a (.evar s.leftName)) B + 2 ≤ s.depth (.all a A) B := by
  have hheight := heightOf_openLeft h a A B
  have hq := quantifiersOf_allLeft a s.leftName A B
  refine depthOf_solved (j := 1) (by omega) (Nat.le_refl 1) ?_
  simp only [context_openLeft, Context.pending_unsolved, Context.pending_marker]
  omega

/-- A query that solves a given existential needs no more depth than any other. -/
private lemma depth_faces {x : Name} {T : Ty} (hAB : Faces x T A B) :
    2 * T.height + 4 * (s.context.resolved T).height + 4 ≤ s.depth A B := by
  have hT : (s.context.resolved T).height ≤ s.heightOf A B := by
    rcases hAB with ⟨-, rfl⟩ | ⟨rfl, -⟩
    · exact Nat.le_max_right _ _
    · exact Nat.le_max_left _ _
  have hle := Context.height_le_resolved s.context T
  have hdepth : depthOf (s.heightOf A B) 0 ≤ s.depth A B :=
    depthOf_mono (Nat.le_refl _) (Nat.zero_le _)
  have hzero : depthOf (s.heightOf A B) 0 = 6 * s.heightOf A B + 6 := by
    rw [depthOf, Nat.pow_zero, Nat.mul_one]
  omega

end Session

/-- Every query about types in scope completes within its depth, or within one step more if one of
the types is an existential with a solution.

**Proof sketch.** Induction on the bound. The rule that applies leaves queries of less depth, apart
from the one that fills in the solutions, and this one does not apply twice in a row. -/
theorem completes_judge {n : Nat} {s : Session} {A B : Ty} (h : s.WellPosed A B)
    (hn : s.depth A B ≤ n)
    (hsolved : s.context.HasSolution A ∨ s.context.HasSolution B → s.depth A B + 1 ≤ n) :
    (judge n s A B).Completes := by
  induction n generalizing s A B with
  | zero =>
    have hpos : 0 < s.depth A B := Nat.mul_pos (by omega) (Nat.pow_pos (by omega))
    omega
  | succ n ih =>
    have hwf := h.wellFormed
    cases h.rule with
    | arr A₁ A₂ B₁ B₂ =>
      have hdom := s.depth_domains A₁ A₂ B₁ B₂
      refine completes_judge_arr h (ih h.domains (by omega) fun _ => by omega) ?_
      intro s₁ A₂' B₂' hd hA hB hpos
      have hcod := Session.depth_codomains h hd hA hB
      exact ih hpos (by omega) fun _ => by omega
    | allRight A b B =>
      have hdepth := Session.depth_openRight hwf A b B
      exact completes_judge_allRight (ih h.openRight (by omega) fun _ => by omega)
    | @allLeft a A B hB =>
      have hdepth := Session.depth_openLeft hwf a A B
      exact completes_judge_allLeft hB (ih h.openLeft (by omega) fun _ => by omega)
    | same hA => exact Traced.completes_of_ok (outcome_judge_same n s hA)
    | solved hne hA hB hsol =>
      have hle := hsolved hsol
      obtain ⟨A', hA', -⟩ := hwf.exists_apply A
      obtain ⟨B', hB', -⟩ := hwf.exists_apply B
      rw [Traced.completes_congr (outcome_judge_solved n hwf hne hA hB hsol hA' hB')]
      have hdepth := Session.depth_apply hwf hA' hB'
      have hnot : ¬ (s.context.HasSolution A' ∨ s.context.HasSolution B') :=
        not_or.mpr ⟨Session.not_hasSolution_apply hwf h.left hA',
          Session.not_hasSolution_apply hwf h.right hB'⟩
      exact ih (h.apply hA' hB') (by omega) fun hsol => absurd hsol hnot
    | @articulateLeft x left right B₁ B₂ hs =>
      have hAB : Session.Faces x (.arr B₁ B₂) (.evar x) (.arr B₁ B₂) := .inl ⟨rfl, rfl⟩
      exact completes_of_faces h hAB (by simp [hs]) (Nat.le_trans (Session.depth_faces hAB) hn)
    | @articulateRight x left right A₁ A₂ hs =>
      have hAB : Session.Faces x (.arr A₁ A₂) (.arr A₁ A₂) (.evar x) := .inr ⟨rfl, rfl⟩
      exact completes_of_faces h hAB (by simp [hs]) (Nat.le_trans (Session.depth_faces hAB) hn)
    | solveLeft hs hB hne hsB => exact completes_judge_solveLeft h hs hB hne hsB
    | solveRight hs hA hne => exact completes_judge_solveRight h hs hA hne
    | mismatch hne hA hB harr hxA hyB =>
      exact Traced.completes_of_judgment (outcome_judge_mismatch n hne hA hB harr hxA hyB)

/-! ## The bound of a query -/

section Bound

variable {Γ : Context} {s : Session} {A B : Ty}

/-- The solutions of a context add no more depth than it weighs. -/
private lemma Context.solutionDepth_le_weight (Γ : Context) : Γ.solutionDepth ≤ Γ.weight := by
  induction Γ with
  | nil => exact Nat.le_refl _
  | cons m Γ ih =>
    rw [Context.weight]
    cases m with
    | solved x T =>
      have hT := T.height_lt_size
      simp only [Context.solutionDepth, Entry.type?, Option.map_some, Option.getD_some]
      omega
    | rigid | assumed | unsolved | marker =>
      simp only [Context.solutionDepth]
      omega

/-- A context weighs at least as much as it has existentials without a solution. -/
private lemma Context.pending_le_weight (Γ : Context) : Γ.pending ≤ Γ.weight := by
  induction Γ with
  | nil => exact Nat.le_refl _
  | cons m Γ ih =>
    rw [Context.weight]
    cases m with
    | unsolved x =>
      rw [Context.pending_unsolved]
      omega
    | _ =>
      simp only [Context.pending, Context.unsolved, Context.members_cons, List.filterMap_append,
        List.filterMap_cons, List.filterMap_nil, List.append_nil] at ih ⊢
      omega

/-- The bound of a query grows faster than its depth.

**Proof sketch.** Both factors of the depth are at most `2 ^ (4 * N)`, and the first one is less. -/
private lemma depthOf_lt_two_pow {N : Nat} (hN : 1 ≤ N) :
    depthOf (N - 1) (2 * N) < 2 ^ (8 * N) := by
  have hself : N < 2 ^ N := Nat.lt_two_pow_self
  have hpow : 3 ^ (2 * N) ≤ 2 ^ (4 * N) := by
    calc 3 ^ (2 * N) ≤ 4 ^ (2 * N) := Nat.pow_le_pow_left (by omega) _
      _ = 2 ^ (4 * N) := by
        rw [show 4 = 2 ^ 2 from rfl, ← Nat.pow_mul]
        congr 1
        ring
  have hfactor : 6 * N < 2 ^ (4 * N) := by
    calc 6 * N < 2 ^ 3 * 2 ^ N := by omega
      _ ≤ 2 ^ (3 * N) * 2 ^ N :=
        Nat.mul_le_mul_right _ (Nat.pow_le_pow_right (by omega) (by omega))
      _ = 2 ^ (4 * N) := by
        rw [← Nat.pow_add]
        congr 1
        ring
  calc depthOf (N - 1) (2 * N)
      ≤ (6 * N) * 2 ^ (4 * N) := Nat.mul_le_mul (by omega) hpow
    _ < 2 ^ (4 * N) * 2 ^ (4 * N) := Nat.mul_lt_mul_of_pos_right hfactor (Nat.two_pow_pos _)
    _ = 2 ^ (8 * N) := by
      rw [← Nat.pow_add]
      congr 1
      ring

/-- The bound of a query is larger than its depth.

**Proof sketch.** The heights of the resolved types are bounded by those of the types and of the
solutions, and what is pending by the number of entries and quantifiers. All of this is less than
`N`, the weight of the context and the sizes of the types, and the depth grows with both of its
arguments. -/
private lemma depth_lt_depthBound (s : Session) (A B : Ty) :
    s.depth A B < depthBound s.context A B := by
  have hA := s.context.height_resolved_le A
  have hB := s.context.height_resolved_le B
  have hsizeA := A.height_lt_size
  have hsizeB := B.height_lt_size
  have hsolutions := s.context.solutionDepth_le_weight
  have hpending := s.context.pending_le_weight
  have hqA : A.nameless.quantifiers < A.size := A.quantifiers_namelessUnder_lt []
  have hqB : B.nameless.quantifiers < B.size := B.quantifiers_namelessUnder_lt []
  let N := s.context.weight + A.size + B.size + 1
  have hheight : s.heightOf A B ≤ N - 1 := by
    unfold Session.heightOf
    omega
  have hload : s.context.pending + 2 * quantifiersOf A B ≤ 2 * N := by
    unfold quantifiersOf
    omega
  calc s.depth A B
      ≤ depthOf (N - 1) (2 * N) := depthOf_mono hheight hload
    _ < 2 ^ (8 * N) := depthOf_lt_two_pow (Nat.le_add_left 1 _)

/-- A query about types in scope completes. -/
lemma Session.WellPosed.completes (h : s.WellPosed A B) : (check s A B).Completes := by
  have hlt := depth_lt_depthBound s A B
  exact completes_judge h (by omega) fun _ => by omega

end Bound

/-- The rules end for any two types in scope of a well-formed context: the bound on their depth is
not reached, and no larger bound makes a difference. The same is true of the application of
well-formed contexts, from which the rules take the types that they go on with. -/
theorem check_terminates {s : Session} {A B : Ty} (h : s.context.isWellFormed = .ok true)
    (hA : s.context.isWellFormedType A = .ok true) (hB : s.context.isWellFormedType B = .ok true) :
    (check s A B).outcome ≠ .error .exhausted ∧
      (∀ n, depthBound s.context A B ≤ n → judge n s A B = check s A B) ∧
      ∀ (Γ : Context) (C : Ty) (n : Nat), Γ.isWellFormed = .ok true →
        C.height + Γ.solutionDepth < n → Γ.applyWithin n C = Γ.apply C := by
  have hcompletes := (Session.WellPosed.of_checks h hA hB).completes
  refine ⟨hcompletes, fun n hn => judge_mono hcompletes hn, fun Γ C n hΓ hn => ?_⟩
  exact (Context.isWellFormed_eq_true_iff.mp hΓ).applyWithin_eq_apply hn

/-- An existential is compared with an arrow in which it occurs once its solution is filled in. -/
theorem check_terminates_hidden :
    let s : Session := ⟨[.solved "y" (.arr (.evar "x") .unit), .unsolved "x"], 0, "e", "t"⟩
    let A : Ty := .evar "x"
    let B : Ty := .arr (.evar "y") .unit
    s.context.isWellFormed = .ok true ∧ (check s A B).outcome ≠ .error .exhausted ∧
      (∀ n, depthBound s.context A B ≤ n → judge n s A B = check s A B) ∧
      ∀ (Γ : Context) (C : Ty) (n : Nat), Γ.isWellFormed = .ok true →
        C.height + Γ.solutionDepth < n → Γ.applyWithin n C = Γ.apply C := by
  intro s A B
  exact ⟨by decide, check_terminates (by decide) (by decide) (by decide)⟩

end HigherRank
