import HigherRank.Proofs.Instantiation

set_option autoImplicit false
set_option relaxedAutoImplicit false

/-!
# Runs that do not reach their bound

A run completes if it does not end because of the bound on its depth. What a rule does completes if
its parts do, and a run that completes does the same for any larger bound.

## Main definitions

* `HigherRank.Traced.Completes` — runs that do not reach their bound.
* `HigherRank.Session.Reduces`, `HigherRank.Session.Continues` — what is left to compare with an
  existential.

## Main results

* `HigherRank.completes_judge_arr`, `HigherRank.completes_judge_allRight`, … — the rules complete if
  their parts do.
* `HigherRank.completes_judge_faces` — the same for a query that solves a given existential.
* `HigherRank.judge_mono` — a larger bound makes no difference to a run that completes.
-/

namespace HigherRank

open Context (Extends WellFormed)

/-! ## Completion of runs -/

namespace Traced

variable {α β : Type}

/-- The run does not end because of the bound on its depth. -/
def Completes (r : Traced α) : Prop :=
  r.outcome ≠ .error .exhausted

/-- A run that ends with a result is not cut off. -/
lemma completes_of_ok {r : Traced α} {a : α} (h : r.outcome = .ok a) : r.Completes := by
  simp [Completes, h]

/-- A run that ends with a failed judgment is not cut off. -/
lemma completes_of_judgment {r : Traced α} {e : SubtypingError}
    (h : r.outcome = .error (.judgment e)) : r.Completes := by
  simp [Completes, h]

/-- Asking the context takes no depth. -/
private lemma completes_ask (r : Except Violation α) : (ask r).Completes := by
  cases r <;> simp [Completes, ask, Except.mapError]

/-- Whether a run is cut off is a matter of its outcome. -/
lemma completes_congr {r r' : Traced α} (h : r.outcome = r'.outcome) :
    r.Completes ↔ r'.Completes := by
  rw [Completes, Completes, h]

/-- If a run completes, then so does its first part. -/
private lemma Completes.of_bind {r : Traced α} {k : α → Traced β} (h : (r >>= k).Completes) :
    r.Completes := by
  intro hr
  rw [Completes, bind_of_error hr] at h
  exact h rfl

/-- If the first part of a run is the same whenever it completes, and its second part is, too, then
the whole run is the same whenever it completes. -/
private lemma bind_mono {r r' : Traced α} {k k' : α → Traced β} (hr : r.Completes → r' = r)
    (hk : ∀ a, (k a).Completes → k' a = k a) (h : (r >>= k).Completes) :
    (r' >>= k') = (r >>= k) := by
  rw [hr h.of_bind]
  obtain ⟨events, outcome⟩ := r
  cases outcome with
  | error e => rfl
  | ok a =>
    have hka : (k a).Completes := h
    simp only [bind_ok, hk a hka]

/-- The same for a choice between two runs. -/
private lemma ite_mono {p : Prop} [Decidable p] {r r' t t' : Traced α} (hr : r.Completes → r' = r)
    (ht : t.Completes → t' = t) (h : (if p then r else t).Completes) :
    (if p then r' else t') = if p then r else t := by
  split at h
  · rename_i hp
    rw [if_pos hp, if_pos hp, hr h]
  · rename_i hp
    rw [if_neg hp, if_neg hp, ht h]

end Traced

/-! ## Larger bounds -/

/-- A bound that is larger by one makes no difference to a run that completes.

**Proof sketch.** Induction on the bound. Each rule puts its parts together without looking at the
bound, so that they may be exchanged one after the other. -/
private lemma judge_succ {n : Nat} {s : Session} {A B : Ty} (h : (judge n s A B).Completes) :
    judge (n + 1) s A B = judge n s A B := by
  induction n generalizing s A B with
  | zero => exact absurd rfl h
  | succ n ih =>
    have happly : ∀ (t : Session) (C D : Ty),
        (t.applied C >>= fun C' => t.applied D >>= fun D' => judge n t C' D').Completes →
        (t.applied C >>= fun C' => t.applied D >>= fun D' => judge (n + 1) t C' D') =
          (t.applied C >>= fun C' => t.applied D >>= fun D' => judge n t C' D') :=
      fun _ _ _ h => Traced.bind_mono (fun _ => rfl)
        (fun _ h => Traced.bind_mono (fun _ => rfl) (fun _ => ih) h) h
    cases A <;> cases B <;> refine Traced.bind_mono (fun _ => rfl) (fun _ h => ?_) h
    -- two arrows, a quantifier, types without a rule for their form, and articulation
    all_goals first
      | exact Traced.bind_mono ih (fun _ => happly _ _ _) h
      | exact Traced.bind_mono ih (fun _ _ => rfl) h
      | exact Traced.ite_mono (fun _ => rfl) (fun h => Traced.bind_mono (fun _ => rfl)
          (fun _ h => Traced.ite_mono (happly _ _ _) (fun _ => rfl) h) h) h
      | exact Traced.ite_mono (fun _ => rfl) (fun h => Traced.bind_mono (fun _ => rfl)
          (fun _ h => Traced.ite_mono (happly _ _ _)
            (fun h => Traced.bind_mono (fun _ => rfl) (fun _ => ih) h) h) h) h

/-- A larger bound makes no difference to a run that completes. -/
theorem judge_mono {m n : Nat} {s : Session} {A B : Ty} (h : (judge n s A B).Completes)
    (hnm : n ≤ m) : judge m s A B = judge n s A B := by
  induction hnm with
  | refl => rfl
  | step _ ih => rw [← ih, judge_succ (ih ▸ h)]

/-! ## The rules -/

section Rules

variable {n : Nat} {s : Session} {A B A₁ A₂ B₁ B₂ : Ty} {x : Name}

/-- The comparison of two arrows completes if that of the domains does, and that of the codomains
after it. -/
theorem completes_judge_arr (h : s.WellPosed (.arr A₁ A₂) (.arr B₁ B₂))
    (hdom : (judge n s B₁ A₁).Completes)
    (hcod : ∀ s₁ A₂' B₂', Derivation s B₁ A₁ s₁ → s₁.context.apply A₂ = .ok A₂' →
      s₁.context.apply B₂ = .ok B₂' → s₁.WellPosed A₂' B₂' → (judge n s₁ A₂' B₂').Completes) :
    (judge (n + 1) s (.arr A₁ A₂) (.arr B₁ B₂)).Completes := by
  cases h₁ : (judge n s B₁ A₁).outcome with
  | error e =>
    rw [Traced.Completes, outcome_judge_arr_of_error h₁, ← h₁]
    exact hdom
  | ok s₁ =>
    have hd := Derivation.of_judge h.domains h₁
    obtain ⟨A₂', hA, -⟩ := hd.grows.wellFormed.exists_apply A₂
    obtain ⟨B₂', hB, -⟩ := hd.grows.wellFormed.exists_apply B₂
    rw [Traced.Completes, outcome_judge_arr_of_ok h₁ hA hB]
    exact hcod s₁ A₂' B₂' hd hA hB ((h.codomains.grows hd.grows).apply hA hB)

/-- Closing a scope never reaches the bound. -/
private lemma completes_close {r : Traced Session} {m : Entry} (hr : r.Completes) :
    (r.outcome.bind fun s' => (s'.closeScope m).outcome) ≠ .error .exhausted := by
  unfold Traced.Completes at hr
  cases h : r.outcome with
  | error e => simpa [Except.bind, h] using hr
  | ok s' => exact Traced.completes_ask _

/-- A quantifier on the right: the run is cut off only if that of its body is. -/
theorem completes_judge_allRight {b : Name}
    (h : (judge n s.openRight A (B.subst b (.var s.rightName))).Completes) :
    (judge (n + 1) s A (.all b B)).Completes := by
  rw [Traced.Completes, outcome_judge_allRight]
  exact completes_close h

/-- A quantifier on the left: the run is cut off only if that of its body is. -/
lemma completes_judge_allLeft {a : Name} (hB : ¬ B.isAll)
    (h : (judge n s.openLeft (A.subst a (.evar s.leftName)) B).Completes) :
    (judge (n + 1) s (.all a A) B).Completes := by
  rw [Traced.Completes, outcome_judge_allLeft _ _ _ _ hB]
  exact completes_close h

/-- Solving an existential takes no depth. -/
private lemma completes_solveTo {T : Ty} {left right : Context} (h : s.context.WellFormed)
    (hs : s.context = Context.concat (.unsolved x :: left) right) (hT : T.isAtom)
    (hne : T ≠ .evar x) (hsT : ¬ s.context.HasSolution T) (hscope : s.context.Scopes T) :
    (s.solveTo x T).Completes := by
  rcases outcome_solveTo h hs hT hne hsT hscope with
    ⟨-, hok⟩ | ⟨y, mid, right', -, -, hok⟩ | ⟨a, -, -, herr⟩
  · exact Traced.completes_of_ok hok
  · exact Traced.completes_of_ok hok
  · exact Traced.completes_of_judgment herr

/-- An existential on the left that is solved at once. -/
lemma completes_judge_solveLeft {left right : Context} (h : s.WellPosed (.evar x) B)
    (hs : s.context = Context.concat (.unsolved x :: left) right) (hB : B.isAtom)
    (hne : B ≠ .evar x) (hsB : ¬ s.context.HasSolution B) :
    (judge (n + 1) s (.evar x) B).Completes := by
  rw [Traced.completes_congr (outcome_judge_solveLeft n h.wellFormed hs hB hne hsB)]
  exact completes_solveTo h.wellFormed hs hB hne hsB h.right

/-- An existential on the right that is solved at once. -/
lemma completes_judge_solveRight {left right : Context} (h : s.WellPosed A (.evar x))
    (hs : s.context = Context.concat (.unsolved x :: left) right) (hA : A.isAtom)
    (hne : ∀ y, A ≠ .evar y) : (judge (n + 1) s A (.evar x)).Completes := by
  rw [Traced.completes_congr (outcome_judge_solveRight n h.wellFormed hs hA hne)]
  exact completes_solveTo h.wellFormed hs hA (hne x) (Context.not_hasSolution hne) h.left

end Rules

/-! ## Queries that solve a given existential -/

namespace Session

/-- What is left to compare with an existential when a quantifier has been opened, or when it has
been articulated: a part `T'` of the type `T`. -/
structure Reduces (s t : Session) (x y : Name) (T T' : Ty) : Prop where
  unsolved : .unsolved y ∈ t.context
  height : T'.height < T.height
  resolved : (t.context.resolved T').height ≤ (s.context.resolved T).height
  occurs : x ∈ T.existentials → y ∈ T'.existentials
  absent : x ∉ (s.context.resolved T).existentials →
    y ∉ (t.context.resolved T').existentials ∧
      (t.context.resolved T').height < (s.context.resolved T).height

/-- What is left to compare of an arrow `T` when its domain has been compared: the codomain `T'`
with all solutions filled in. -/
structure Continues (s t : Session) (x y : Name) (T T' : Ty) : Prop where
  unsolved : .unsolved y ∈ t.context
  occurs : x ∈ (s.context.resolved T).existentials →
    y ∈ T'.existentials ∧ T'.height ≤ 2 * (s.context.resolved T).height
  absent : x ∉ (s.context.resolved T).existentials →
    y ∉ (t.context.resolved T').existentials ∧
      (t.context.resolved T').height < (s.context.resolved T).height

variable {s t : Session} {x : Name} {T T₁ T₂ T' : Ty} {left right : Context}

/-- Opening a quantifier on the right leaves its body to compare with the existential. -/
private lemma reduces_openRight (h : s.context.WellFormed) (hx : .unsolved x ∈ s.context) (b : Name)
    (B : Ty) : s.Reduces s.openRight x x (.all b B) (B.subst b (.var s.rightName)) := by
  have hheight := height_openRight h b B
  refine ⟨by simp [hx], ?_, by omega, fun hocc => ?_, fun habs => ?_⟩
  · rw [Ty.height_subst b (R := .var s.rightName) rfl]
    simp only [Ty.height]
    omega
  · rwa [Ty.existentials_subst_var]
  · exact ⟨not_mem_openRight h habs, by omega⟩

/-- Opening a quantifier on the left leaves its body to compare with the existential. -/
private lemma reduces_openLeft (h : s.context.WellFormed) (hx : .unsolved x ∈ s.context) (a : Name)
    (A : Ty) : s.Reduces s.openLeft x x (.all a A) (A.subst a (.evar s.leftName)) := by
  have hheight := height_openLeft h a A
  refine ⟨by simp [hx], ?_, by omega, fun hocc => ?_, fun habs => ?_⟩
  · rw [Ty.height_subst a (R := .evar s.leftName) rfl]
    simp only [Ty.height]
    omega
  · rw [← Ty.existentials_nameless, Ty.nameless_subst_eq_opened]
    refine Nameless.mem_existentials_openAt _ _ ?_
    rwa [Ty.existentials_namelessUnder]
  · exact ⟨not_mem_openLeft h hx habs, by omega⟩

/-- Articulation makes a type higher by at most the new arrow. -/
private lemma height_articulated_le (hs : s.context = Context.concat (.unsolved x :: left) right)
    (h : s.context.WellFormed) (hT : s.context.Scopes T) :
    ((s.articulated x left right).context.resolved T).height ≤
      (s.context.resolved T).height + 1 := by
  have hgrows := grows_articulated hs h
  rw [← hgrows.extension.resolved h hgrows.wellFormed]
  refine Nameless.height_fillExistentials_le fun y hy => ?_
  by_cases hyx : y = x
  · rw [hyx, solution_articulated hs h]
    exact Nat.le_refl _
  · have hyu := unsolved_articulated hs hyx (h.existentials_resolved hT hy)
    rw [hgrows.wellFormed.solution_of_unsolved hyu]
    exact Nat.zero_le _

/-- Articulation leaves the domain to compare with the new domain. -/
private lemma reduces_articulated (hs : s.context = Context.concat (.unsolved x :: left) right)
    (h : s.context.WellFormed) (hT : s.context.Scopes (.arr T₁ T₂))
    (hx : x ∉ (Ty.arr T₁ T₂).existentials) :
    s.Reduces (s.articulated x left right) x s.domName (.arr T₁ T₂) T₁ := by
  obtain ⟨hT₁, -⟩ := Context.scopes_arr.mp hT
  have hle := height_articulated_le hs h hT₁
  have harr : (s.context.resolved T₁).height < (s.context.resolved (.arr T₁ T₂)).height := by
    simp only [Context.resolved_arr, Nameless.height]
    omega
  refine ⟨by simp, ?_, by omega, fun hocc => absurd hocc hx, fun habs => ?_⟩
  · simp only [Ty.height]
    omega
  · simp only [Context.resolved_arr, Nameless.existentials, List.mem_append, not_or] at habs
    rw [resolved_articulated hs h hT₁ habs.1]
    exact ⟨(newNames_not_mem h hT₁).1, harr⟩

/-- If the domain of the new arrow has been compared with a type, then the existential does not
occur in that type, with all solutions filled in.

**Proof sketch.** Otherwise the domain of the new arrow would occur in the resolved type, as a part
of what has been filled in for the existential. Since it has been solved, it would have to be all
that is left of that type below its quantifiers (`Derivation.core_eq_of_occurs`). But this is an
existential only if one has been filled in there, and what has been filled in is the new arrow or an
existential that was there before. -/
private lemma not_mem_of_domain {A B : Ty}
    (hs : s.context = Context.concat (.unsolved x :: left) right) (h : s.context.WellFormed)
    (hT : s.context.Scopes T) (hd : Derivation (s.articulated x left right) A B t)
    (hAB : Faces s.domName T A B) : x ∉ (s.context.resolved T).existentials := by
  intro hx
  have hgrows := grows_articulated hs h
  have hlater := hgrows.extension.resolved h hgrows.wellFormed T
  have hdom : s.domName ∈ ((s.articulated x left right).context.resolved T).existentials := by
    rw [← hlater]
    refine Nameless.mem_existentials_fillExistentials.mpr ⟨x, hx, ?_⟩
    rw [solution_articulated hs h]
    simp [Nameless.existentials]
  have hcore := hd.core_eq_of_occurs hAB hdom
  rw [← hlater] at hcore
  refine Nameless.core_fillExistentials_ne hgrows.wellFormed.isMono_solution (fun y hy => ?_) hcore
  have hyu := h.existentials_resolved hT hy
  by_cases hyx : y = x
  · rw [hyx, solution_articulated hs h]
    simp
  · rw [hgrows.wellFormed.solution_of_unsolved (unsolved_articulated hs hyx hyu)]
    simpa using (ne_newNames hyu).1

/-- No existential with a solution is left when a context is applied. -/
lemma not_hasSolution_apply {Γ : Context} (h : Γ.WellFormed) (hT : Γ.Scopes T)
    (hT' : Γ.apply T = .ok T') : ¬ Γ.HasSolution T' := by
  rintro ⟨y, R, rfl, hR⟩
  have hnameless := h.nameless_apply hT'
  have hy : .unsolved y ∈ Γ := by
    refine h.existentials_resolved hT ?_
    rw [← hnameless]
    simp [Ty.existentials]
  exact h.not_solved_of_unsolved hy R hR

/-- After the domain of the new arrow the codomain is left to compare.

**Proof sketch.** The codomain of the new arrow occurs in neither type that has been compared, so
that it is still unsolved (`Derivation.inert`). The domain of `T` does not mention the existential
(`not_mem_of_domain`). If the codomain does, then the new solution puts the codomain of the new
arrow there, and the height has grown by the new arrow and by the height of the domain at most. If
it does not, then the comparison of the domains has only renamed existentials in the codomain, which
is lower than `T`. -/
private lemma continues_articulated {A B : Ty}
    (hs : s.context = Context.concat (.unsolved x :: left) right) (h : s.context.WellFormed)
    (hT : s.context.Scopes (.arr T₁ T₂)) (hd : Derivation (s.articulated x left right) A B t)
    (hAB : Faces s.domName T₁ A B) (hT' : t.context.apply T₂ = .ok T') :
    s.Continues t x s.codName (.arr T₁ T₂) T' := by
  obtain ⟨hT₁, hT₂⟩ := Context.scopes_arr.mp hT
  have hgrows := grows_articulated hs h
  have hgrows' := hgrows.trans hd.grows
  have hx₁ := not_mem_of_domain hs h hT₁ hd hAB
  have hres₁ := resolved_articulated hs h hT₁ hx₁
  obtain ⟨hdom₁, hcod₁⟩ := newNames_not_mem h hT₁
  rw [← hres₁] at hdom₁ hcod₁
  have hinert : (s.articulated x left right).context.Inert t.context s.codName := by
    have hcod := codName_not_mem hs h
    rcases hAB with ⟨rfl, rfl⟩ | ⟨rfl, rfl⟩
    · exact hd.inert (by simp) hcod hcod₁
    · exact hd.inert (by simp) hcod₁ hcod
  have hinst := hd.instantiates hAB (by simp) hdom₁
  have happly := hd.grows.wellFormed.resolved_apply hT'
  have hnameless := hd.grows.wellFormed.nameless_apply hT'
  have hT₂art := hgrows.extension.scopes hT₂
  have hlt₁ : (s.context.resolved T₁).height < (s.context.resolved (.arr T₁ T₂)).height := by
    simp only [Context.resolved_arr, Nameless.height]
    omega
  have hlt₂ : (s.context.resolved T₂).height < (s.context.resolved (.arr T₁ T₂)).height := by
    simp only [Context.resolved_arr, Nameless.height]
    omega
  refine ⟨hinert.unsolved, fun hocc => ⟨?_, ?_⟩, fun habs => ?_⟩
  · have hx₂ : x ∈ (s.context.resolved T₂).existentials := by
      simp only [Context.resolved_arr, Nameless.existentials, List.mem_append] at hocc
      exact hocc.resolve_left hx₁
    have hsolved := hd.grows.newArrow_mem
    rw [← Ty.existentials_nameless, hnameless,
      ← hgrows'.extension.resolved h hgrows'.wellFormed]
    refine Nameless.mem_existentials_fillExistentials.mpr ⟨x, hx₂, ?_⟩
    rw [hgrows'.wellFormed.solution_of_mem hsolved, newArrow, Context.resolved_arr,
      Context.resolved_evar, Context.resolved_evar,
      hgrows'.wellFormed.solution_of_unsolved hinert.unsolved]
    simp [Nameless.existentials]
  · have hle := hinst.height_resolved_le hgrows.wellFormed hd.grows.wellFormed hd.grows.extension
      hT₂art
    have hart := height_articulated_le hs h hT₂
    rw [← Ty.height_nameless, hnameless]
    rw [hres₁] at hle
    omega
  · simp only [Context.resolved_arr, Nameless.existentials, List.mem_append, not_or] at habs
    have hres₂ := resolved_articulated hs h hT₂ habs.2
    obtain ⟨hdom₂, hcod₂⟩ := newNames_not_mem h hT₂
    rw [← hres₂] at hdom₂ hcod₂ hlt₂
    have heq := hinst.height_resolved_eq hgrows.wellFormed hd.grows.wellFormed hd.grows.extension
      hT₂art hdom₂
    rw [happly]
    exact ⟨hinert.absent T₂ hT₂art hcod₂, by omega⟩

end Session

/-- A query that solves an existential completes if all that is left to compare does: a part of the
type, the type with the context applied, or the codomain of an arrow.

**Proof sketch.** By the rule that applies. In the rules of articulation the domain and the codomain
of the new arrow are compared with those of the type, one step below the query. -/
theorem completes_judge_faces {n : Nat} {s : Session} {A B T : Ty} {x : Name}
    (h : s.WellPosed A B) (hAB : Session.Faces x T A B) (hx : .unsolved x ∈ s.context)
    (hpart : ∀ t y T' A' B', s.Reduces t x y T T' → t.WellPosed A' B' →
      Session.Faces y T' A' B' → (judge n t A' B').Completes)
    (happly : ∀ T' A' B', s.context.HasSolution T → s.context.apply T = .ok T' →
      s.WellPosed A' B' → Session.Faces x T' A' B' → (judge (n + 1) s A' B').Completes)
    (hcod : ∀ t y T' A' B', x ∉ T.existentials → s.Continues t x y T T' → t.WellPosed A' B' →
      Session.Faces y T' A' B' → (judge n t A' B').Completes) :
    (judge (n + 2) s A B).Completes := by
  have hpart' : ∀ t y T' A' B', s.Reduces t x y T T' → t.WellPosed A' B' →
      Session.Faces y T' A' B' → (judge (n + 1) t A' B').Completes := by
    intro t y T' A' B' hred hpos hfaces
    have hn := hpart t y T' A' B' hred hpos hfaces
    rwa [judge_succ hn]
  have hwf := h.wellFormed
  cases h.rule with
  | arr => exact absurd hAB Session.not_faces_arr
  | allRight A b B =>
    obtain ⟨rfl, rfl⟩ := hAB.of_allRight
    exact completes_judge_allRight
      (hpart' _ _ _ _ _ (Session.reduces_openRight hwf hx b B) h.openRight (.inl ⟨rfl, rfl⟩))
  | allLeft a A hB =>
    obtain ⟨rfl, rfl⟩ := hAB.of_allLeft
    exact completes_judge_allLeft hB
      (hpart' _ _ _ _ _ (Session.reduces_openLeft hwf hx a A) h.openLeft (.inr ⟨rfl, rfl⟩))
  | same hA => exact Traced.completes_of_ok (outcome_judge_same _ _ hA)
  | solved hne hA hB hsol =>
    obtain ⟨A', hA', -⟩ := hwf.exists_apply A
    obtain ⟨B', hB', -⟩ := hwf.exists_apply B
    rw [Traced.completes_congr (outcome_judge_solved _ hwf hne hA hB hsol hA' hB')]
    have hnot := hwf.not_hasSolution hx
    rcases hAB with ⟨rfl, rfl⟩ | ⟨rfl, rfl⟩
    · obtain rfl := Derivation.apply_evar_eq hwf hx hA'
      exact happly B' _ _ (hsol.resolve_left hnot) hB' (h.apply hA' hB') (.inl ⟨rfl, rfl⟩)
    · obtain rfl := Derivation.apply_evar_eq hwf hx hB'
      exact happly A' _ _ (hsol.resolve_right hnot) hA' (h.apply hA' hB') (.inr ⟨rfl, rfl⟩)
  | @articulateLeft z left right B₁ B₂ hs =>
    obtain ⟨rfl, rfl⟩ := hAB.of_arrRight
    by_cases hocc : z ∈ (Ty.arr B₁ B₂).existentials
    · exact Traced.completes_of_judgment
        (outcome_judge_articulateLeft_of_occurs _ hwf hs hocc)
    · rw [Traced.completes_congr (outcome_judge_articulateLeft _ hwf hs hocc)]
      have hpos := h.articulateLeft hs
      refine completes_judge_arr hpos (hpart _ _ _ _ _
        (Session.reduces_articulated hs hwf h.right hocc) hpos.domains (.inr ⟨rfl, rfl⟩)) ?_
      intro t C' B₂' hd hC' hB₂' hpos'
      have hcont := Session.continues_articulated hs hwf h.right hd (.inr ⟨rfl, rfl⟩) hB₂'
      exact hcod t _ B₂' _ _ hocc hcont hpos'
        (.inl ⟨Derivation.apply_evar_eq hd.grows.wellFormed hcont.unsolved hC', rfl⟩)
  | @articulateRight z left right A₁ A₂ hs =>
    obtain ⟨rfl, rfl⟩ := hAB.of_arrLeft
    by_cases hocc : z ∈ (Ty.arr A₁ A₂).existentials
    · exact Traced.completes_of_judgment
        (outcome_judge_articulateRight_of_occurs _ hwf hs hocc)
    · rw [Traced.completes_congr (outcome_judge_articulateRight _ hwf hs hocc)]
      have hpos := h.articulateRight hs
      refine completes_judge_arr hpos (hpart _ _ _ _ _
        (Session.reduces_articulated hs hwf h.left hocc) hpos.domains (.inl ⟨rfl, rfl⟩)) ?_
      intro t A₂' C' hd hA₂' hC' hpos'
      have hcont := Session.continues_articulated hs hwf h.left hd (.inl ⟨rfl, rfl⟩) hA₂'
      exact hcod t _ A₂' _ _ hocc hcont hpos'
        (.inr ⟨rfl, Derivation.apply_evar_eq hd.grows.wellFormed hcont.unsolved hC'⟩)
  | solveLeft hs hB hne hsB => exact completes_judge_solveLeft h hs hB hne hsB
  | solveRight hs hA hne => exact completes_judge_solveRight h hs hA hne
  | mismatch hne hA hB harr hxA hyB =>
    exact Traced.completes_of_judgment (outcome_judge_mismatch _ hne hA hB harr hxA hyB)

end HigherRank
