import HigherRank.Proofs.Inertness

set_option autoImplicit false
set_option relaxedAutoImplicit false

/-!
# The order of declarations

The names of a context stand in an order, which is kept when existentials are solved, and what an
existential is solved to was declared before it. A new existential that still has no solution has
its place in this order, too: it is part of an arrow to which an existential of the first context
has been solved, and it stands right before that one.

## Main definitions

* `HigherRank.Context.Precedes` — one name is declared to the left of the other.
* `HigherRank.Context.PartOf` — a new existential is part of what an existential has become.
* `HigherRank.Context.Rooted` — all new existentials are parts of others.

## Main results

* `HigherRank.Context.Precedes.asymm`, `HigherRank.Context.precedes_or` — the order is strict and
  total.
* `HigherRank.Context.Extends.precedes` — extension keeps the order.
* `HigherRank.Context.WellFormed.precedes_of_mem_solution` — solutions are made of what is declared
  before.
* `HigherRank.Derivation.rooted` — the new existentials of a run are parts of others.
-/

namespace HigherRank

open Context (Extends WellFormed)

namespace Context

/-! ## The order -/

/-- The name `x` is declared to the left of the name `y`. -/
def Precedes : Context → Name → Name → Prop
  | [], _, _ => False
  | m :: Γ, x, y => (declares Γ x ∧ m.declares y) ∨ Precedes Γ x y

section Precedes

variable {new : Name → Prop} {Γ Δ left right : Context} {m : Entry} {x y : Name}

/-- A name precedes what the newest entry declares if it is declared to the left of that, and it
precedes what it preceded there. -/
lemma precedes_cons : Precedes (m :: Γ) x y ↔ (Γ.declares x ∧ m.declares y) ∨ Γ.Precedes x y :=
  Iff.rfl

/-- What precedes another name is declared. -/
private lemma Precedes.declares_left (h : Γ.Precedes x y) : Γ.declares x := by
  induction Γ with
  | nil => exact h.elim
  | cons m Γ ih =>
    have hx : declares Γ x := (precedes_cons.mp h).elim (fun hxy => hxy.1) ih
    simp [hx]

/-- The order is not changed by what is put to the right of a context. -/
lemma Precedes.concat (h : Γ.Precedes x y) (Δ : Context) : (Γ.concat Δ).Precedes x y := by
  induction Δ with
  | nil => exact h
  | cons m Δ ih => exact precedes_cons.mpr (.inr ih)

/-- What precedes a slot is declared to the left of it. -/
private lemma WellFormed.declares_of_precedes (h : WellFormed (Context.concat (m :: left) right))
    (hm : m.declares y) (hxy : (Context.concat (m :: left) right).Precedes x y) :
    left.declares x := by
  induction right with
  | nil =>
    rcases precedes_cons.mp hxy with ⟨hx, -⟩ | hxy
    · exact hx
    · exact hxy.declares_left
  | cons n right ih =>
    obtain ⟨hwf, hn⟩ := wellFormed_cons (Γ := Context.concat (m :: left) right).mp h
    rcases precedes_cons.mp hxy with ⟨-, hny⟩ | hxy
    · exact absurd (by simp [hm]) (hn.not_declares hny)
    · exact ih hwf hxy

/-- What precedes a name in a context does so in any part on the left that declares the name. -/
private lemma WellFormed.precedes_left (h : WellFormed (left.concat right)) (hy : left.declares y)
    (hxy : (left.concat right).Precedes x y) : left.Precedes x y := by
  induction right with
  | nil => exact hxy
  | cons n right ih =>
    obtain ⟨hwf, hn⟩ := wellFormed_cons (Γ := left.concat right).mp h
    rcases precedes_cons.mp hxy with ⟨-, hny⟩ | hxy
    · exact absurd (by simp [hy]) (hn.not_declares hny)
    · exact ih hwf hxy

/-- No two names precede each other. -/
theorem Precedes.asymm (hxy : Γ.Precedes x y) (h : Γ.WellFormed) : ¬ Γ.Precedes y x := by
  intro hyx
  induction h with
  | nil => exact hxy
  | @cons Γ m _ hm ih =>
    rcases precedes_cons.mp hxy with ⟨-, hy⟩ | hxy'
    · have hyΓ : Γ.declares y :=
        (precedes_cons.mp hyx).elim (fun h => h.1) fun h => h.declares_left
      exact hm.not_declares hy hyΓ
    · rcases precedes_cons.mp hyx with ⟨-, hx⟩ | hyx'
      · exact hm.not_declares hx hxy'.declares_left
      · exact ih hxy' hyx'

/-- Of two declared names one precedes the other. -/
theorem precedes_or (hx : Γ.declares x) (hy : Γ.declares y) (hne : x ≠ y) :
    Γ.Precedes x y ∨ Γ.Precedes y x := by
  induction Γ with
  | nil => simp [declares] at hx
  | cons m Γ ih =>
    simp only [declares_cons, Bool.or_eq_true] at hx hy
    rcases hx with hx | hx <;> rcases hy with hy | hy
    · refine absurd ?_ hne
      cases m <;> simp_all [Entry.declares]
    · exact .inr (precedes_cons.mpr (.inl ⟨hy, hx⟩))
    · exact .inl (precedes_cons.mpr (.inl ⟨hx, hy⟩))
    · exact (ih hx hy).imp (fun h => precedes_cons.mpr (.inr h))
        fun h => precedes_cons.mpr (.inr h)

/-- Extension keeps the order. -/
theorem Extends.precedes (h : Extends new Γ Δ) (hxy : Γ.Precedes x y) : Δ.Precedes x y := by
  induction h with
  | nil => exact hxy
  | keep m hext ih =>
    exact (precedes_cons.mp hxy).imp (fun hm => ⟨hext.declares_of_declares hm.1, hm.2⟩) ih
  | @solve Γ Δ z A block _ hext ih =>
    rcases precedes_cons.mp hxy with ⟨hx, hy⟩ | hxy
    · refine precedes_cons.mpr (.inl ⟨?_, hy⟩)
      simp [hext.declares_of_declares hx]
    · exact precedes_cons.mpr (.inr ((ih hxy).concat block))

/-- A new name precedes one that was declared before. -/
private lemma Extends.exists_precedes (h : Extends new Γ Δ) (hy : Δ.declares y)
    (hnew : ¬ Γ.declares y) : ∃ x, Γ.declares x ∧ Δ.Precedes y x := by
  induction h with
  | nil => simp [Context.declares] at hy
  | keep m _ ih =>
    rw [declares_cons, Bool.or_eq_true] at hy hnew
    rw [not_or] at hnew
    obtain ⟨x, hx, hyx⟩ := ih (hy.resolve_left hnew.1) hnew.2
    exact ⟨x, by simp [hx], precedes_cons.mpr (.inr hyx)⟩
  | @solve Γ Δ z A block _ _ ih =>
    have hyz : ¬ (Entry.solved z A).declares y := by
      intro hyz
      obtain rfl : z = y := by simpa [Entry.declares] using hyz
      exact hnew (by simp [Entry.declares])
    refine ⟨z, by simp [Entry.declares], precedes_cons.mpr (.inl ⟨?_, by simp [Entry.declares]⟩)⟩
    simpa [hyz] using hy

/-- The existentials of which a solution is made precede the existential that it belongs to. -/
theorem WellFormed.precedes_of_mem_solution (h : Γ.WellFormed)
    (hy : y ∈ (Γ.solution x).existentials) (hne : y ≠ x) : Γ.Precedes y x := by
  induction h with
  | nil =>
    obtain rfl : y = x := by simpa [solution, Nameless.existentials] using hy
    exact absurd rfl hne
  | @cons Γ m hΓ hm ih =>
    by_cases hs : ∃ A, m = .solved x A
    · obtain ⟨A, rfl⟩ := hs
      cases hm with
      | solved _ _ _ _ hscope =>
        have hy' : y ∈ (Γ.resolved A).existentials := by
          simpa [solution, resolved] using hy
        have hyΓ := hΓ.existentials_resolved hscope hy'
        exact precedes_cons.mpr
          (.inl ⟨declares_iff.mpr (.inr (.inl hyΓ)), by simp [Entry.declares]⟩)
    · rw [solution_cons_of_ne (not_exists.mp hs)] at hy
      exact precedes_cons.mpr (.inr (ih hy))

end Precedes

/-! ## Parts of what existentials have become -/

/-- The existential `y`, which is new in the second context, is part of the arrow that the
existential `x` of the first context has become, and what preceded that one precedes it. -/
structure PartOf (Γ Δ : Context) (y x : Name) : Prop where
  unsolved : .unsolved x ∈ Γ
  mem : y ∈ (Δ.solution x).existentials
  ne_evar : ∀ z, Δ.solution x ≠ .evar z
  precedes : ∀ z, Γ.Precedes z x → Δ.Precedes z y

/-- All new existentials without a solution are parts of what others have become. -/
def Rooted (Γ Δ : Context) : Prop :=
  ∀ y, .unsolved y ∈ Δ → ¬ Γ.declares y → ∃ x, Γ.PartOf Δ y x

section Rooted

variable {new : Name → Prop} {Γ Δ Θ left right : Context} {x y z : Name}

/-- Without new existentials there is nothing to trace back. -/
lemma Rooted.refl (Γ : Context) : Γ.Rooted Γ := fun _ hy hnew =>
  absurd (declares_iff.mpr (.inr (.inl hy))) hnew

/-- An existential without a solution had none before, if it was declared. -/
lemma Extends.unsolved_of_declares (h : Extends new Γ Δ) (hΔ : Δ.WellFormed)
    (hy : .unsolved y ∈ Δ) (hΓ : Γ.declares y) : .unsolved y ∈ Γ := by
  rcases declares_iff.mp hΓ with hrigid | hunsolved | ⟨A, hsolved⟩
  · have hsame := hΔ.eq_of_declares (x := y) hy (h.rigid_mem hrigid) (by simp [Entry.declares])
      (by simp [Entry.declares])
    simp at hsame
  · exact hunsolved
  · exact absurd (h.solved_mem hsolved) (hΔ.not_solved_of_unsolved hy A)

/-- What an existential stands for later has the existentials that are put for those of what it
stood for before. -/
private lemma Extends.mem_solution (h : Extends new Γ Δ) (hΓ : Γ.WellFormed) (hΔ : Δ.WellFormed)
    (hy : y ∈ (Γ.solution x).existentials) (hz : z ∈ (Δ.solution y).existentials) :
    z ∈ (Δ.solution x).existentials := by
  have hx := h.resolved hΓ hΔ (.evar x)
  simp only [resolved_evar] at hx
  rw [← hx]
  exact Nameless.mem_existentials_fillExistentials.mpr ⟨y, hy, hz⟩

/-- What is more than an existential stays so. -/
private lemma Extends.solution_ne_evar (h : Extends new Γ Δ) (hΓ : Γ.WellFormed) (hΔ : Δ.WellFormed)
    (hx : ∀ z, Γ.solution x ≠ .evar z) (z : Name) : Δ.solution x ≠ .evar z := by
  have hfill := h.resolved hΓ hΔ (.evar x)
  simp only [resolved_evar] at hfill
  rw [← hfill]
  cases hA : Γ.solution x with
  | evar y => exact absurd hA (hx y)
  | _ => simp [Nameless.fillExistentials, Nameless.fill]

/-- Parts stay parts while they have no solution. -/
private lemma PartOf.extend (h : Γ.PartOf Δ y x) (hext : Extends new Δ Θ) (hΔ : Δ.WellFormed)
    (hΘ : Θ.WellFormed) (hy : .unsolved y ∈ Θ) : Γ.PartOf Θ y x where
  unsolved := h.unsolved
  mem := by
    refine hext.mem_solution hΔ hΘ h.mem ?_
    rw [hΘ.solution_of_unsolved hy]
    exact List.mem_singleton_self y
  ne_evar := hext.solution_ne_evar hΔ hΘ h.ne_evar
  precedes z hz := hext.precedes (h.precedes z hz)

/-- A part of a part is a part. -/
private lemma PartOf.trans (h : Γ.PartOf Δ y x) (h' : Δ.PartOf Θ z y) (hext : Extends new Δ Θ)
    (hΔ : Δ.WellFormed) (hΘ : Θ.WellFormed) : Γ.PartOf Θ z x where
  unsolved := h.unsolved
  mem := hext.mem_solution hΔ hΘ h.mem h'.mem
  ne_evar := hext.solution_ne_evar hΔ hΘ h.ne_evar
  precedes w hw := h'.precedes w (h.precedes w hw)

/-- One run after another: what is new in the end is new after the first run, or part of what is
new then, or part of what was there before. -/
private lemma Rooted.trans {new' : Name → Prop} (h : Γ.Rooted Δ) (h' : Δ.Rooted Θ)
    (hext : Extends new Γ Δ) (hext' : Extends new' Δ Θ) (hΔ : Δ.WellFormed) (hΘ : Θ.WellFormed) :
    Γ.Rooted Θ := by
  intro y hy hnew
  by_cases hdecl : Δ.declares y
  · obtain ⟨x, hx⟩ := h y (hext'.unsolved_of_declares hΘ hy hdecl) hnew
    exact ⟨x, hx.extend hext' hΔ hΘ hy⟩
  · obtain ⟨z, hz⟩ := h' y hy hdecl
    by_cases hzΓ : Γ.declares z
    · refine ⟨z, hext.unsolved_of_declares hΔ hz.unsolved hzΓ, hz.mem, hz.ne_evar, fun w hw => ?_⟩
      exact hz.precedes w (hext.precedes hw)
    · obtain ⟨x, hx⟩ := h z hz.unsolved hzΓ
      exact ⟨x, hx.trans hz hext' hΔ hΘ⟩

end Rooted

end Context

/-! ## Runs -/

namespace Session

open Context (Rooted)

variable {s s₁ : Session} {left right Δ block : Context} {x : Name} {T : Ty}

/-- The two new existentials of an articulation are parts of the existential that is solved.

**Proof sketch.** An unsolved existential that was not declared before is the codomain or the domain
of the new arrow, which is the solution of the existential. What was declared before the existential
was stands to the left of the slot, and the two new entries come right after that. -/
private lemma rooted_articulated (hs : s.context = Context.concat (.unsolved x :: left) right)
    (h : s.context.WellFormed) : s.context.Rooted (s.articulated x left right).context := by
  have hsolution := solution_articulated hs h
  intro y hy hnew
  have hcases : y = s.codName ∨ y = s.domName := by
    have hleft : .unsolved y ∉ left := fun hmem =>
      hnew (Context.declares_iff.mpr (.inr (.inl (mem_left_of_slot hs hmem))))
    have hright : .unsolved y ∉ right := fun hmem =>
      hnew (Context.declares_iff.mpr (.inr (.inl (mem_right_of_slot hs hmem))))
    simpa [hleft, hright] using hy
  refine ⟨x, by simp [hs], ?_, fun z => by rw [hsolution]; simp, fun z hz => ?_⟩
  · rw [hsolution]
    rcases hcases with rfl | rfl <;> simp [Nameless.existentials]
  · rw [hs] at h hz
    have hz' : left.declares z := h.declares_of_precedes (by simp [Entry.declares]) hz
    rw [context_articulated]
    refine Context.Precedes.concat (Context.precedes_cons.mpr (.inr ?_)) right
    rcases hcases with rfl | rfl
    · exact Context.precedes_cons.mpr (.inl ⟨by simp [hz'], by simp [Entry.declares]⟩)
    · exact Context.Precedes.concat
        (Context.precedes_cons.mpr (.inl ⟨hz', by simp [Entry.declares]⟩)) [.unsolved s.codName]

/-- Solving an existential declares nothing new. -/
private lemma rooted_solvedAt (hs : s.context = Context.concat (.unsolved x :: left) right) :
    s.context.Rooted (s.solvedAt x T left right).context := by
  intro y hy hnew
  refine absurd (Context.declares_iff.mpr (.inr (.inl ?_))) hnew
  simp only [context_solvedAt, hs, Context.mem_concat, List.mem_cons, reduceCtorEq, false_or]
    at hy ⊢
  exact hy.imp_right .inr

/-- Closing the scope of a quantifier on the right. -/
private lemma rooted_closeRight (hrooted : s.openRight.context.Rooted s₁.context)
    (hgrows : s.openRight.Grows s₁) (hΔ : s₁.context = .rigid s.rightName :: Δ) :
    s.context.Rooted Δ := by
  have hwf := hgrows.wellFormed
  rw [hΔ] at hwf hrooted
  obtain ⟨hwfΔ, hadm⟩ := Context.wellFormed_cons.mp hwf
  intro y hy hnew
  have hyΔ : Context.declares Δ y := Context.declares_iff.mpr (.inr (.inl hy))
  have hname : ¬ (Entry.rigid s.rightName).declares y := fun hname => hadm.not_declares hname hyΔ
  obtain ⟨x, hx⟩ := hrooted y (List.mem_cons_of_mem _ hy) (by simpa [hname] using hnew)
  refine ⟨x, by simpa using hx.unsolved, hx.mem, hx.ne_evar, fun z hz => ?_⟩
  have hzy := hx.precedes z (Context.precedes_cons.mpr (.inr hz))
  exact (Context.precedes_cons.mp hzy).resolve_left fun hm => hname hm.2

/-- Closing the scope of a quantifier on the left. What is left is no part of the existential of the
scope, since it stands before something that was declared before the scope was opened.

**Proof sketch.** What is left of the scope stands to the left of the marker, where existentials are
resolved and preceded as in the whole context. In the scope the new existential is a part of some
existential; if this one is not that of the scope, then it was there before. If it were that of the
scope, then the new existential would come after everything that was declared before the scope was
opened; but it comes before something of that (`Extends.exists_precedes`). -/
private lemma rooted_closeLeft (hrooted : s.openLeft.context.Rooted s₁.context)
    (hgrows : s.openLeft.Grows s₁)
    (hΔ : s₁.context = Context.concat (.marker s.leftName :: Δ) block) : s.context.Rooted Δ := by
  have hclosed := (hgrows.closeLeft hΔ).1
  have hext : Extends _ s.context Δ := hclosed.extension
  have hwf := hgrows.wellFormed
  rw [hΔ] at hwf hrooted
  have hprecedes : ∀ {z y : Name}, Context.declares Δ y →
      (Context.concat (.marker s.leftName :: Δ) block).Precedes z y → Context.Precedes Δ z y := by
    intro z y hy hzy
    rw [Context.concat_cons_left] at hwf hzy
    exact hwf.precedes_left hy hzy
  intro y hy hnew
  have hyΔ : Context.declares Δ y := Context.declares_iff.mpr (.inr (.inl hy))
  have hyname : s.leftName ≠ y := by
    rintro rfl
    cases hwf.admits_of_concat with
    | marker _ _ hnot => exact hnot hyΔ
  obtain ⟨x, hx⟩ := hrooted y (by simp [hy]) (by simpa [Entry.declares, hyname] using hnew)
  have hopen : ∀ z, s.context.declares z → s.openLeft.context.Precedes z s.leftName := by
    intro z hz
    have hmarker : Context.declares (.marker s.leftName :: s.context) z := by simp [hz]
    exact Context.precedes_cons.mpr (.inl ⟨hmarker, by simp [Entry.declares]⟩)
  have hxname : x ≠ s.leftName := by
    rintro rfl
    obtain ⟨z, hz, hyz⟩ := hext.exists_precedes hyΔ hnew
    exact hyz.asymm hclosed.wellFormed (hprecedes hyΔ (hx.precedes z (hopen z hz)))
  have hxu : .unsolved x ∈ s.context := by simpa [hxname] using hx.unsolved
  have hsolution : (Context.concat (.marker s.leftName :: Δ) block).solution x =
      Context.solution Δ x :=
    hwf.resolved_left_of_slot (Context.scopes_evar.mpr (hext.existential (.inl hxu)))
  refine ⟨x, hxu, hsolution ▸ hx.mem, fun z => hsolution ▸ hx.ne_evar z, fun z hz => ?_⟩
  exact hprecedes hyΔ (hx.precedes z (hz.concat [_, _]))

/-- One run after another leaves only new existentials that are parts of others. -/
lemma Grows.rooted_trans {s₂ : Session} (h : s.Grows s₁) (h' : s₁.Grows s₂)
    (hr : s.context.Rooted s₁.context) (hr' : s₁.context.Rooted s₂.context) :
    s.context.Rooted s₂.context :=
  hr.trans hr' h.extension h'.extension h.wellFormed h'.wellFormed

end Session

/-- The new existentials of a run that have no solution are parts of what others have become.

**Proof sketch.** Induction on the derivation. Only articulation makes new existentials that are
left in the end, since those of a scope are lost when it is closed. -/
theorem Derivation.rooted {s s' : Session} {A B : Ty} (h : Derivation s A B s') :
    s.context.Rooted s'.context := by
  induction h with
  | same => exact .refl _
  | arr _ hd₁ _ _ hd₂ ih₁ ih₂ => exact hd₁.grows.rooted_trans hd₂.grows ih₁ ih₂
  | allRight _ hd hΔ ih => exact Session.rooted_closeRight ih hd.grows hΔ
  | allLeft _ _ hd hΔ ih => exact Session.rooted_closeLeft ih hd.grows hΔ
  | solved _ _ _ _ _ ih => exact ih
  | articulateLeft h hs _ hd₁ _ _ hd₂ ih₁ ih₂ =>
    have hrest := hd₁.grows.rooted_trans hd₂.grows ih₁ ih₂
    exact (Session.grows_articulated hs h.wellFormed).rooted_trans (hd₁.grows.trans hd₂.grows)
      (Session.rooted_articulated hs h.wellFormed) hrest
  | articulateRight h hs _ hd₁ _ _ hd₂ ih₁ ih₂ =>
    have hrest := hd₁.grows.rooted_trans hd₂.grows ih₁ ih₂
    exact (Session.grows_articulated hs h.wellFormed).rooted_trans (hd₁.grows.trans hd₂.grows)
      (Session.rooted_articulated hs h.wellFormed) hrest
  | solve _ hs => exact Session.rooted_solvedAt hs

end HigherRank
