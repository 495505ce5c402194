import HigherRank.Proofs.FreshNames
import HigherRank.Proofs.Holes
import HigherRank.Proofs.Application
import HigherRank.Subtyping.Judgment

set_option autoImplicit false
set_option relaxedAutoImplicit false

/-!
# The rules one by one

To every query about types in scope one of the rules applies, and a run is what that rule makes of
the runs of its parts: what it records comes after the query itself, and its outcome is made of
theirs. Everything else about the judgment is derived from these equations, so that the judgment
itself is not unfolded anywhere else.

## Main definitions

* `HigherRank.Session.WellPosed` — the queries about types in scope of a well-formed context.
* `HigherRank.Session.openRight`, `HigherRank.Session.openLeft`,
  `HigherRank.Session.articulated`, `HigherRank.Session.solvedAt` — the sessions with which the
  rules go on.
* `HigherRank.Rule` — which rule applies.

## Main results

* `HigherRank.Session.WellPosed.rule` — a rule applies to every query.
* `HigherRank.judge_arr_of_ok`, `HigherRank.judge_allRight`, … — the run of each rule, and
  `HigherRank.outcome_judge_arr_of_ok`, `HigherRank.outcome_judge_allRight`, … — its outcome.
* `HigherRank.solveTo_eq` — when an existential is solved, and to what.
* `HigherRank.outcome_solveTo_of_scopes`, `HigherRank.outcome_solveTo_of_escapes` — the cases in
  which the scope decides.
-/

namespace HigherRank

/-! ## Kinds of types -/

namespace Ty

/-- Whether the type has no parts. -/
def isAtom : Ty → Bool
  | .unit | .var _ | .evar _ => true
  | .arr _ _ | .all _ _ => false

/-- Whether the type is an arrow. -/
def isArr : Ty → Bool
  | .arr _ _ => true
  | _ => false

/-- Whether the type is quantified. -/
def isAll : Ty → Bool
  | .all _ _ => true
  | _ => false

/-- A type without parts is a monotype. -/
lemma isMono_of_isAtom {A : Ty} (h : A.isAtom) : A.isMono := by
  cases A <;> simp_all [isAtom, isMono]

end Ty

/-- The type is an existential with a solution. -/
def Context.HasSolution (Γ : Context) (A : Ty) : Prop :=
  ∃ x T, A = .evar x ∧ .solved x T ∈ Γ

/-- Only an existential has a solution. -/
lemma Context.HasSolution.exists_evar {Γ : Context} {A : Ty} (h : Γ.HasSolution A) :
    ∃ x, A = .evar x := by
  obtain ⟨x, _, hx, _⟩ := h
  exact ⟨x, hx⟩

/-- A type no name makes an existential has no solution. -/
lemma Context.not_hasSolution {Γ : Context} {A : Ty} (hne : ∀ x, A ≠ .evar x) :
    ¬ Γ.HasSolution A := by
  intro h
  obtain ⟨x, hx⟩ := h.exists_evar
  exact hne x hx

/-- In a well-formed context an existential without a solution has none. -/
lemma Context.WellFormed.not_hasSolution {Γ : Context} {x : Name} (h : Γ.WellFormed)
    (hx : .unsolved x ∈ Γ) : ¬ Γ.HasSolution (.evar x) := by
  rintro ⟨y, T, hy, hT⟩
  obtain rfl : x = y := by simpa using hy
  exact h.not_solved_of_unsolved hx T hT

namespace Session

/-! ## Queries in scope -/

/-- The context is well-formed and both types are in scope. -/
structure WellPosed (s : Session) (A B : Ty) : Prop where
  wellFormed : s.context.WellFormed
  left : s.context.Scopes A
  right : s.context.Scopes B

/-- The two types are an existential and another type, in one order or the other. -/
def Faces (x : Name) (T A B : Ty) : Prop :=
  (A = .evar x ∧ B = T) ∨ (A = T ∧ B = .evar x)

/-- There is only one way to take two types as an existential and another type, unless both are
existentials. -/
lemma Faces.unique {x z : Name} {T R A B : Ty} (h : Faces x T A B) (h' : Faces z R A B) :
    (x = z ∧ T = R) ∨ (T = .evar z ∧ R = .evar x) := by
  rcases h with ⟨rfl, rfl⟩ | ⟨rfl, rfl⟩ <;> rcases h' with ⟨hA, hB⟩ | ⟨hA, hB⟩
  · exact .inl ⟨by simpa using hA, hB⟩
  · exact .inr ⟨hB, hA.symm⟩
  · exact .inr ⟨hA, hB.symm⟩
  · exact .inl ⟨by simpa using hB, hA⟩

section Faces

variable {x z : Name} {T A B A₁ A₂ B₁ B₂ : Ty}

/-- If an existential faces a quantifier on the right, it is on the left. -/
lemma Faces.of_allRight {b : Name} (h : Faces x T A (.all b B)) : A = .evar x ∧ T = .all b B := by
  rcases h with ⟨hA, hB⟩ | ⟨-, hB⟩
  · exact ⟨hA, hB.symm⟩
  · contradiction

/-- If an existential faces a quantifier on the left, it is on the right. -/
lemma Faces.of_allLeft {a : Name} (h : Faces x T (.all a A) B) : B = .evar x ∧ T = .all a A := by
  rcases h with ⟨hA, -⟩ | ⟨hA, hB⟩
  · contradiction
  · exact ⟨hB, hA.symm⟩

/-- If an existential on the left faces an arrow, these are the two types. -/
lemma Faces.of_arrRight (h : Faces x T (.evar z) (.arr B₁ B₂)) : z = x ∧ T = .arr B₁ B₂ := by
  rcases h with ⟨hA, hB⟩ | ⟨-, hB⟩
  · exact ⟨by simpa using hA, hB.symm⟩
  · contradiction

/-- If an existential on the right faces an arrow, these are the two types. -/
lemma Faces.of_arrLeft (h : Faces x T (.arr A₁ A₂) (.evar z)) : z = x ∧ T = .arr A₁ A₂ := by
  rcases h with ⟨hA, -⟩ | ⟨hA, hB⟩
  · contradiction
  · exact ⟨by simpa using hB, hA.symm⟩

/-- Of two arrows neither is an existential. -/
lemma not_faces_arr : ¬ Faces x T (.arr A₁ A₂) (.arr B₁ B₂) := by
  rintro (⟨hA, -⟩ | ⟨-, hB⟩) <;> contradiction

end Faces

section Changes

variable (s : Session)

/-- The session with another context has that context. -/
@[simp]
lemma context_withContext (Γ : Context) : (s.withContext Γ).context = Γ :=
  rfl

/-- The name of the rigid variable with which a quantifier on the right is opened. -/
def rightName : Name :=
  s.freshVariable.1

/-- The session in which a quantifier on the right has been opened. -/
def openRight : Session :=
  s.freshVariable.2.push (.rigid s.rightName)

/-- The name of the existential with which a quantifier on the left is opened. -/
def leftName : Name :=
  s.freshExistential.1

/-- The session in which a quantifier on the left has been opened. -/
def openLeft : Session :=
  (s.freshExistential.2.push (.marker s.leftName)).push (.unsolved s.leftName)

/-- The name of the domain of the arrow to which an existential is solved. -/
def domName : Name :=
  s.freshExistential.1

/-- The name of the codomain of the arrow to which an existential is solved. -/
def codName : Name :=
  s.freshExistential.2.freshExistential.1

/-- The arrow to which an existential is solved. -/
def newArrow : Ty :=
  .arr (.evar s.domName) (.evar s.codName)

/-- The session in which the existential between the two parts of the context has been solved to
an arrow. -/
def articulated (x : Name) (left right : Context) : Session :=
  s.freshExistential.2.freshExistential.2.withContext
    (Context.concat (.solved x s.newArrow :: .unsolved s.codName :: .unsolved s.domName :: left)
      right)

/-- The session in which the existential between the two parts of the context has been solved. -/
def solvedAt (x : Name) (T : Ty) (left right : Context) : Session :=
  s.withContext (Context.concat (.solved x T :: left) right)

/-- Opening a quantifier on the right declares a rigid variable. -/
@[simp]
lemma context_openRight : s.openRight.context = .rigid s.rightName :: s.context :=
  rfl

/-- Opening a quantifier on the left marks a scope and declares an existential in it. -/
@[simp]
lemma context_openLeft :
    s.openLeft.context = .unsolved s.leftName :: .marker s.leftName :: s.context :=
  rfl

/-- Articulation declares the parts of the new arrow before the existential that it solves. -/
@[simp]
lemma context_articulated (x : Name) (left right : Context) :
    (s.articulated x left right).context =
      Context.concat (.solved x s.newArrow :: .unsolved s.codName :: .unsolved s.domName :: left)
        right :=
  rfl

/-- Solving an existential puts its solution in its place. -/
@[simp]
lemma context_solvedAt (x : Name) (T : Ty) (left right : Context) :
    (s.solvedAt x T left right).context = Context.concat (.solved x T :: left) right :=
  rfl

end Changes

/-! ## Holes of a well-formed context -/

section Slots

variable {s : Session} {left right : Context} {m : Entry}

/-- Closing a scope gives what is to the left of the entry that began it. -/
lemma outcome_closeScope (hs : s.context = Context.concat (m :: left) right) (hm : m ∉ left) :
    (s.closeScope m).outcome = .ok (s.withContext left) := by
  rw [closeScope, Context.truncate_of_slot hs hm]
  rfl

/-- The look-up finds the solution that an existential has. -/
private lemma isSolved_of_hasSolution {A : Ty} (h : s.context.WellFormed)
    (hA : s.context.HasSolution A) : s.isSolved A = .ok true := by
  obtain ⟨x, T, rfl, hT⟩ := hA
  simp [isSolved, Context.lookupSolution_of_mem h.solvedOnce hT, Except.map]

/-- The look-up finds nothing if there is no solution. -/
private lemma isSolved_of_not_hasSolution {A : Ty} (hA : ¬ s.context.HasSolution A) :
    s.isSolved A = .ok false := by
  cases A with
  | evar x =>
    have hx : ∀ T, .solved x T ∉ s.context := fun T hT => hA ⟨x, T, rfl, hT⟩
    simp [isSolved, Context.lookupSolution_of_not_mem hx, Except.map]
  | _ => rfl

/-- One of two types is found to be solved if one of them has a solution. -/
private lemma eitherSolved_of_hasSolution {A B : Ty} (h : s.context.WellFormed)
    (hAB : s.context.HasSolution A ∨ s.context.HasSolution B) :
    s.eitherSolved A B = .ok true := by
  by_cases hA : s.context.HasSolution A
  · simp [eitherSolved, isSolved_of_hasSolution h hA]
  · have hB := hAB.resolve_left hA
    simp [eitherSolved, isSolved_of_not_hasSolution hA, isSolved_of_hasSolution h hB]

/-- None of two types is found to be solved if neither has a solution. -/
lemma eitherSolved_of_not_hasSolution {A B : Ty} (hA : ¬ s.context.HasSolution A)
    (hB : ¬ s.context.HasSolution B) : s.eitherSolved A B = .ok false := by
  simp [eitherSolved, isSolved_of_not_hasSolution hA, isSolved_of_not_hasSolution hB]

end Slots

end Session

/-! ## Which rule applies -/

/-- The rule that applies to a query. -/
inductive Rule (s : Session) : Ty → Ty → Prop where
  | arr (A₁ A₂ B₁ B₂ : Ty) : Rule s (.arr A₁ A₂) (.arr B₁ B₂)
  | allRight (A : Ty) (b : Name) (B : Ty) : Rule s A (.all b B)
  | allLeft (a : Name) (A : Ty) {B : Ty} : ¬ B.isAll → Rule s (.all a A) B
  | same {A : Ty} : A.isAtom → Rule s A A
  | solved {A B : Ty} :
    A ≠ B → ¬ A.isAll → ¬ B.isAll → s.context.HasSolution A ∨ s.context.HasSolution B → Rule s A B
  | articulateLeft {x : Name} {left right : Context} (B₁ B₂ : Ty) :
    s.context = Context.concat (.unsolved x :: left) right → Rule s (.evar x) (.arr B₁ B₂)
  | articulateRight {y : Name} {left right : Context} (A₁ A₂ : Ty) :
    s.context = Context.concat (.unsolved y :: left) right → Rule s (.arr A₁ A₂) (.evar y)
  | solveLeft {x : Name} {left right : Context} {B : Ty} :
    s.context = Context.concat (.unsolved x :: left) right →
      B.isAtom → B ≠ .evar x → ¬ s.context.HasSolution B → Rule s (.evar x) B
  | solveRight {y : Name} {left right : Context} {A : Ty} :
    s.context = Context.concat (.unsolved y :: left) right →
      A.isAtom → (∀ x, A ≠ .evar x) → Rule s A (.evar y)
  | mismatch {A B : Ty} :
    A ≠ B → ¬ A.isAll → ¬ B.isAll → ¬ (A.isArr ∧ B.isArr) → (∀ x, A ≠ .evar x) →
      (∀ y, B ≠ .evar y) → Rule s A B

namespace Session.WellPosed

variable {s : Session} {A B : Ty}

/-- An existential in scope that has no solution stands in its slot. -/
lemma exists_slot {Γ : Context} {x : Name} (hx : Γ.Existential x)
    (hs : ¬ Γ.HasSolution (.evar x)) :
    ∃ left right, Γ = Context.concat (.unsolved x :: left) right :=
  Context.exists_concat_of_mem (hx.resolve_right fun ⟨T, hT⟩ => hs ⟨x, T, rfl, hT⟩)

/-- A rule applies to every query about types in scope.

**Proof sketch.** By the tests of the judgment, in its order: a quantifier on the right, a
quantifier on the left, two arrows, the same type twice, a solved existential. What is left are
existentials without a solution, which have a slot since they are in scope, and types between which
there is nothing. -/
theorem rule (h : s.WellPosed A B) : Rule s A B := by
  by_cases hB : B.isAll
  · cases B with
    | all b B => exact .allRight A b B
    | _ => simp [Ty.isAll] at hB
  by_cases hA : A.isAll
  · cases A with
    | all a A => exact .allLeft a A hB
    | _ => simp [Ty.isAll] at hA
  by_cases harr : A.isArr ∧ B.isArr
  · cases A <;> cases B <;> simp [Ty.isArr] at harr
    exact .arr _ _ _ _
  by_cases heq : A = B
  · subst heq
    refine .same ?_
    cases A <;> simp_all [Ty.isAtom, Ty.isArr, Ty.isAll]
  by_cases hs : s.context.HasSolution A ∨ s.context.HasSolution B
  · exact .solved heq hA hB hs
  rw [not_or] at hs
  -- what is left is decided by which of the types are existentials, and those have no solution
  by_cases hxA : ∃ x, A = .evar x
  · obtain ⟨x, rfl⟩ := hxA
    obtain ⟨left, right, hslot⟩ := exists_slot (Context.scopes_evar.mp h.left) hs.1
    cases B with
    | arr B₁ B₂ => exact .articulateLeft B₁ B₂ hslot
    | all => simp [Ty.isAll] at hB
    | unit | var | evar => exact .solveLeft hslot rfl (Ne.symm heq) hs.2
  by_cases hyB : ∃ y, B = .evar y
  · obtain ⟨y, rfl⟩ := hyB
    obtain ⟨left, right, hslot⟩ := exists_slot (Context.scopes_evar.mp h.right) hs.2
    cases A with
    | arr A₁ A₂ => exact .articulateRight A₁ A₂ hslot
    | all => simp [Ty.isAll] at hA
    | evar x => exact absurd ⟨x, rfl⟩ hxA
    | unit | var => exact .solveRight hslot rfl (by simp)
  exact .mismatch heq hA hB harr (not_exists.mp hxA) (not_exists.mp hyB)

end Session.WellPosed

/-! ## What the rules do -/

section Runs

variable {n : Nat} {s : Session} {A B : Ty}

attribute [local simp] judge

/-- Without any depth left the run is cut off. -/
lemma judge_zero (s : Session) (A B : Ty) : judge 0 s A B = ⟨[], .error .exhausted⟩ :=
  rfl

/-- Two arrows: if the domains are related the other way round, the codomains are compared with
all solutions filled in. -/
theorem judge_arr_of_ok {s₁ : Session} {A₁ A₂ B₁ B₂ A₂' B₂' : Ty}
    (h : (judge n s B₁ A₁).outcome = .ok s₁) (hA : s₁.context.apply A₂ = .ok A₂')
    (hB : s₁.context.apply B₂ = .ok B₂') :
    judge (n + 1) s (.arr A₁ A₂) (.arr B₁ B₂) =
      ⟨.query (.arr A₁ A₂) (.arr B₁ B₂) s.context ::
          ((judge n s B₁ A₁).events ++ (judge n s₁ A₂' B₂').events),
        (judge n s₁ A₂' B₂').outcome⟩ := by
  rw [judge, Traced.bind_record, Traced.bind_of_ok h]
  simp [Session.applied, hA, hB]

/-- Two arrows end as their codomains do, if their domains are related. -/
theorem outcome_judge_arr_of_ok {s₁ : Session} {A₁ A₂ B₁ B₂ A₂' B₂' : Ty}
    (h : (judge n s B₁ A₁).outcome = .ok s₁) (hA : s₁.context.apply A₂ = .ok A₂')
    (hB : s₁.context.apply B₂ = .ok B₂') :
    (judge (n + 1) s (.arr A₁ A₂) (.arr B₁ B₂)).outcome = (judge n s₁ A₂' B₂').outcome := by
  rw [judge_arr_of_ok h hA hB]

/-- Two arrows fail where their domains do, and the codomains are not compared. -/
lemma judge_arr_of_error {e : Failure} {A₁ A₂ B₁ B₂ : Ty}
    (h : (judge n s B₁ A₁).outcome = .error e) :
    judge (n + 1) s (.arr A₁ A₂) (.arr B₁ B₂) =
      ⟨.query (.arr A₁ A₂) (.arr B₁ B₂) s.context :: (judge n s B₁ A₁).events, .error e⟩ := by
  rw [judge, Traced.bind_record, Traced.bind_of_error h]

/-- Two arrows end in the failure of their domains. -/
lemma outcome_judge_arr_of_error {e : Failure} {A₁ A₂ B₁ B₂ : Ty}
    (h : (judge n s B₁ A₁).outcome = .error e) :
    (judge (n + 1) s (.arr A₁ A₂) (.arr B₁ B₂)).outcome = .error e := by
  rw [judge_arr_of_error h]

/-- A run in a scope, which is closed at the end without a record. -/
private lemma bind_closeScope (r : Traced Session) (m : Entry) :
    (r >>= fun s' => s'.closeScope m) =
      ⟨r.events, r.outcome.bind fun s' => (s'.closeScope m).outcome⟩ := by
  obtain ⟨events, outcome⟩ := r
  cases outcome with
  | ok s' => simp [Session.closeScope, Traced.ask, Except.bind]
  | error e => rfl

/-- A quantifier on the right: its scope is opened, and closed at the end. -/
theorem judge_allRight (n : Nat) (s : Session) (A : Ty) (b : Name) (B : Ty) :
    judge (n + 1) s A (.all b B) =
      ⟨.query A (.all b B) s.context ::
          (judge n s.openRight A (B.subst b (.var s.rightName))).events,
        (judge n s.openRight A (B.subst b (.var s.rightName))).outcome.bind fun s' =>
          (s'.closeScope (.rigid s.rightName)).outcome⟩ := by
  have h : judge (n + 1) s A (.all b B) = (do
      .record (.query A (.all b B) s.context)
      let s' ← judge n s.openRight A (B.subst b (.var s.rightName))
      s'.closeScope (.rigid s.rightName)) := by
    cases A <;> rfl
  rw [h, Traced.bind_record, bind_closeScope]

/-- A quantifier on the right ends as its body does, with the scope closed behind it. -/
theorem outcome_judge_allRight (n : Nat) (s : Session) (A : Ty) (b : Name) (B : Ty) :
    (judge (n + 1) s A (.all b B)).outcome =
      (judge n s.openRight A (B.subst b (.var s.rightName))).outcome.bind fun s' =>
        (s'.closeScope (.rigid s.rightName)).outcome := by
  rw [judge_allRight]

/-- A quantifier on the left: its scope is opened, and closed at the end. -/
lemma judge_allLeft (n : Nat) (s : Session) (a : Name) (A : Ty) (hB : ¬ B.isAll) :
    judge (n + 1) s (.all a A) B =
      ⟨.query (.all a A) B s.context ::
          (judge n s.openLeft (A.subst a (.evar s.leftName)) B).events,
        (judge n s.openLeft (A.subst a (.evar s.leftName)) B).outcome.bind fun s' =>
          (s'.closeScope (.marker s.leftName)).outcome⟩ := by
  have h : judge (n + 1) s (.all a A) B = (do
      .record (.query (.all a A) B s.context)
      let s' ← judge n s.openLeft (A.subst a (.evar s.leftName)) B
      s'.closeScope (.marker s.leftName)) := by
    cases B with
    | all => simp [Ty.isAll] at hB
    | _ => rfl
  rw [h, Traced.bind_record, bind_closeScope]

/-- A quantifier on the left ends as its body does, with the scope closed behind it. -/
lemma outcome_judge_allLeft (n : Nat) (s : Session) (a : Name) (A : Ty) (hB : ¬ B.isAll) :
    (judge (n + 1) s (.all a A) B).outcome =
      (judge n s.openLeft (A.subst a (.evar s.leftName)) B).outcome.bind fun s' =>
        (s'.closeScope (.marker s.leftName)).outcome := by
  rw [judge_allLeft _ _ _ _ hB]

/-- A type without parts is below itself. -/
lemma judge_same (n : Nat) (s : Session) (hA : A.isAtom) :
    judge (n + 1) s A A = ⟨[.query A A s.context], .ok s⟩ := by
  cases A <;> simp_all [Ty.isAtom]

/-- A type without parts is below itself, and the session stays as it is. -/
lemma outcome_judge_same (n : Nat) (s : Session) (hA : A.isAtom) :
    (judge (n + 1) s A A).outcome = .ok s := by
  rw [judge_same n s hA]

/-- Existentials with a solution are replaced first. -/
lemma judge_solved {A' B' : Ty} (n : Nat) (h : s.context.WellFormed) (hne : A ≠ B)
    (hA : ¬ A.isAll) (hB : ¬ B.isAll)
    (hs : s.context.HasSolution A ∨ s.context.HasSolution B)
    (hA' : s.context.apply A = .ok A') (hB' : s.context.apply B = .ok B') :
    judge (n + 1) s A B =
      ⟨.query A B s.context :: (judge n s A' B').events, (judge n s A' B').outcome⟩ := by
  have hsolved := s.eitherSolved_of_hasSolution h hs
  have hcases : (∃ x, A = .evar x) ∨ ∃ y, B = .evar y :=
    hs.imp Context.HasSolution.exists_evar Context.HasSolution.exists_evar
  rcases hcases with ⟨x, rfl⟩ | ⟨y, rfl⟩
  · cases B with
    | all => simp [Ty.isAll] at hB
    | _ => simp [hne, hsolved, Session.applied, hA', hB']
  · cases A with
    | all => simp [Ty.isAll] at hA
    | _ => simp [hne, hsolved, Session.applied, hA', hB']

/-- A query with a solved existential ends as the query with all solutions filled in. -/
lemma outcome_judge_solved {A' B' : Ty} (n : Nat) (h : s.context.WellFormed) (hne : A ≠ B)
    (hA : ¬ A.isAll) (hB : ¬ B.isAll)
    (hs : s.context.HasSolution A ∨ s.context.HasSolution B)
    (hA' : s.context.apply A = .ok A') (hB' : s.context.apply B = .ok B') :
    (judge (n + 1) s A B).outcome = (judge n s A' B').outcome := by
  rw [judge_solved n h hne hA hB hs hA' hB']

/-- Two types between which there is no rule. -/
lemma judge_mismatch (n : Nat) (hne : A ≠ B) (hA : ¬ A.isAll) (hB : ¬ B.isAll)
    (harr : ¬ (A.isArr ∧ B.isArr)) (hxA : ∀ x, A ≠ .evar x) (hyB : ∀ y, B ≠ .evar y) :
    judge (n + 1) s A B = ⟨[.query A B s.context], .error (.judgment (.mismatch A B))⟩ := by
  cases A <;> cases B <;>
    simp_all [Ty.isAll, Ty.isArr, Session.eitherSolved, Session.isSolved, Traced.fail]

/-- Two types between which there is no rule end in a mismatch. -/
lemma outcome_judge_mismatch (n : Nat) (hne : A ≠ B) (hA : ¬ A.isAll) (hB : ¬ B.isAll)
    (harr : ¬ (A.isArr ∧ B.isArr)) (hxA : ∀ x, A ≠ .evar x) (hyB : ∀ y, B ≠ .evar y) :
    (judge (n + 1) s A B).outcome = .error (.judgment (.mismatch A B)) := by
  rw [judge_mismatch n hne hA hB harr hxA hyB]

/-! ## Articulation -/

section Slot

variable {left right : Context} {x : Name}

/-- An existential that stands in a slot without a solution has none. -/
lemma not_hasSolution_of_slot (h : s.context.WellFormed)
    (hs : s.context = Context.concat (.unsolved x :: left) right) :
    ¬ s.context.HasSolution (.evar x) :=
  h.not_hasSolution (by simp [hs])

/-- An existential that does not occur in an arrow is solved to an arrow. -/
private lemma articulate_eq {T : Ty} (h : s.context.WellFormed)
    (hs : s.context = Context.concat (.unsolved x :: left) right) (hx : x ∉ T.existentials) :
    s.articulate x T =
      ⟨[.articulated x s.newArrow], .ok (s.newArrow, s.articulated x left right)⟩ := by
  have hnot : ¬ T.occurs x := by simpa [Ty.occurs_iff] using hx
  have hreplace := Context.replace_of_slot hs (h.not_mem_left hs)
  simp only [Session.articulate, if_neg hnot, hreplace]
  rfl

/-- An existential that occurs in the arrow is not articulated. -/
private lemma articulate_of_occurs {T : Ty} (hx : x ∈ T.existentials) :
    s.articulate x T = .fail (.judgment (.occurs x T)) := by
  have : T.occurs x := by simpa [Ty.occurs_iff] using hx
  simp [Session.articulate, this]

/-- An arrow has no solution. -/
lemma not_hasSolution_arr (Γ : Context) (B₁ B₂ : Ty) : ¬ Γ.HasSolution (.arr B₁ B₂) := by
  rintro ⟨y, T, hy, -⟩
  simp at hy

/-- Neither an existential without a solution, on the left, nor an arrow is found to be solved. -/
private lemma eitherSolved_evar_arr (h : s.context.WellFormed)
    (hs : s.context = Context.concat (.unsolved x :: left) right) (B₁ B₂ : Ty) :
    s.eitherSolved (.evar x) (.arr B₁ B₂) = .ok false :=
  s.eitherSolved_of_not_hasSolution (not_hasSolution_of_slot h hs) (not_hasSolution_arr _ B₁ B₂)

/-- Neither an arrow nor an existential without a solution, on the right, is found to be solved. -/
private lemma eitherSolved_arr_evar (h : s.context.WellFormed)
    (hs : s.context = Context.concat (.unsolved x :: left) right) (A₁ A₂ : Ty) :
    s.eitherSolved (.arr A₁ A₂) (.evar x) = .ok false :=
  s.eitherSolved_of_not_hasSolution (not_hasSolution_arr _ A₁ A₂) (not_hasSolution_of_slot h hs)

variable {T₁ T₂ : Ty}

/-- An existential against an arrow is the new arrow against the arrow. -/
lemma judge_articulateLeft (n : Nat) (h : s.context.WellFormed)
    (hs : s.context = Context.concat (.unsolved x :: left) right)
    (hx : x ∉ (Ty.arr T₁ T₂).existentials) :
    judge (n + 1) s (.evar x) (.arr T₁ T₂) =
      ⟨.query (.evar x) (.arr T₁ T₂) s.context :: .articulated x s.newArrow ::
          (judge n (s.articulated x left right) s.newArrow (.arr T₁ T₂)).events,
        (judge n (s.articulated x left right) s.newArrow (.arr T₁ T₂)).outcome⟩ := by
  simp [eitherSolved_evar_arr h hs, articulate_eq h hs hx]

/-- An existential on the left of an arrow ends as the new arrow in its place. -/
lemma outcome_judge_articulateLeft (n : Nat) (h : s.context.WellFormed)
    (hs : s.context = Context.concat (.unsolved x :: left) right)
    (hx : x ∉ (Ty.arr T₁ T₂).existentials) :
    (judge (n + 1) s (.evar x) (.arr T₁ T₂)).outcome =
      (judge n (s.articulated x left right) s.newArrow (.arr T₁ T₂)).outcome := by
  rw [judge_articulateLeft n h hs hx]

/-- An existential on the left of an arrow in which it occurs is refused at once. -/
lemma judge_articulateLeft_of_occurs (n : Nat) (h : s.context.WellFormed)
    (hs : s.context = Context.concat (.unsolved x :: left) right)
    (hx : x ∈ (Ty.arr T₁ T₂).existentials) :
    judge (n + 1) s (.evar x) (.arr T₁ T₂) =
      ⟨[.query (.evar x) (.arr T₁ T₂) s.context],
        .error (.judgment (.occurs x (.arr T₁ T₂)))⟩ := by
  simp [eitherSolved_evar_arr h hs, articulate_of_occurs hx, Traced.fail]

/-- An existential on the left of an arrow in which it occurs ends in that failure. -/
lemma outcome_judge_articulateLeft_of_occurs (n : Nat) (h : s.context.WellFormed)
    (hs : s.context = Context.concat (.unsolved x :: left) right)
    (hx : x ∈ (Ty.arr T₁ T₂).existentials) :
    (judge (n + 1) s (.evar x) (.arr T₁ T₂)).outcome =
      .error (.judgment (.occurs x (.arr T₁ T₂))) := by
  rw [judge_articulateLeft_of_occurs n h hs hx]

/-- An arrow against an existential is the arrow against the new arrow. -/
lemma judge_articulateRight (n : Nat) (h : s.context.WellFormed)
    (hs : s.context = Context.concat (.unsolved x :: left) right)
    (hx : x ∉ (Ty.arr T₁ T₂).existentials) :
    judge (n + 1) s (.arr T₁ T₂) (.evar x) =
      ⟨.query (.arr T₁ T₂) (.evar x) s.context :: .articulated x s.newArrow ::
          (judge n (s.articulated x left right) (.arr T₁ T₂) s.newArrow).events,
        (judge n (s.articulated x left right) (.arr T₁ T₂) s.newArrow).outcome⟩ := by
  simp [eitherSolved_arr_evar h hs, articulate_eq h hs hx]

/-- An existential on the right of an arrow ends as the new arrow in its place. -/
lemma outcome_judge_articulateRight (n : Nat) (h : s.context.WellFormed)
    (hs : s.context = Context.concat (.unsolved x :: left) right)
    (hx : x ∉ (Ty.arr T₁ T₂).existentials) :
    (judge (n + 1) s (.arr T₁ T₂) (.evar x)).outcome =
      (judge n (s.articulated x left right) (.arr T₁ T₂) s.newArrow).outcome := by
  rw [judge_articulateRight n h hs hx]

/-- An existential on the right of an arrow in which it occurs is refused at once. -/
lemma judge_articulateRight_of_occurs (n : Nat) (h : s.context.WellFormed)
    (hs : s.context = Context.concat (.unsolved x :: left) right)
    (hx : x ∈ (Ty.arr T₁ T₂).existentials) :
    judge (n + 1) s (.arr T₁ T₂) (.evar x) =
      ⟨[.query (.arr T₁ T₂) (.evar x) s.context],
        .error (.judgment (.occurs x (.arr T₁ T₂)))⟩ := by
  simp [eitherSolved_arr_evar h hs, articulate_of_occurs hx, Traced.fail]

/-- An existential on the right of an arrow in which it occurs ends in that failure. -/
lemma outcome_judge_articulateRight_of_occurs (n : Nat) (h : s.context.WellFormed)
    (hs : s.context = Context.concat (.unsolved x :: left) right)
    (hx : x ∈ (Ty.arr T₁ T₂).existentials) :
    (judge (n + 1) s (.arr T₁ T₂) (.evar x)).outcome =
      .error (.judgment (.occurs x (.arr T₁ T₂))) := by
  rw [judge_articulateRight_of_occurs n h hs hx]

/-! ## Solving -/

/-- An existential on the left of a type without parts is solved to it. -/
lemma judge_solveLeft (n : Nat) (h : s.context.WellFormed)
    (hs : s.context = Context.concat (.unsolved x :: left) right) (hB : B.isAtom)
    (hne : B ≠ .evar x) (hsB : ¬ s.context.HasSolution B) :
    judge (n + 1) s (.evar x) B =
      ⟨.query (.evar x) B s.context :: (s.solveTo x B).events, (s.solveTo x B).outcome⟩ := by
  have hsolved := s.eitherSolved_of_not_hasSolution (not_hasSolution_of_slot h hs) hsB
  cases B with
  | arr | all => simp [Ty.isAtom] at hB
  | _ => simp [Ne.symm hne, hsolved]

/-- An existential on the left of a type without parts ends as it is solved. -/
lemma outcome_judge_solveLeft (n : Nat) (h : s.context.WellFormed)
    (hs : s.context = Context.concat (.unsolved x :: left) right) (hB : B.isAtom)
    (hne : B ≠ .evar x) (hsB : ¬ s.context.HasSolution B) :
    (judge (n + 1) s (.evar x) B).outcome = (s.solveTo x B).outcome := by
  rw [judge_solveLeft n h hs hB hne hsB]

/-- An existential on the right of a type without parts is solved to it. -/
lemma judge_solveRight (n : Nat) (h : s.context.WellFormed)
    (hs : s.context = Context.concat (.unsolved x :: left) right) (hA : A.isAtom)
    (hne : ∀ y, A ≠ .evar y) :
    judge (n + 1) s A (.evar x) =
      ⟨.query A (.evar x) s.context :: (s.solveTo x A).events, (s.solveTo x A).outcome⟩ := by
  have hsA : ¬ s.context.HasSolution A := Context.not_hasSolution hne
  have hsolved := s.eitherSolved_of_not_hasSolution hsA (not_hasSolution_of_slot h hs)
  cases A with
  | arr | all => simp [Ty.isAtom] at hA
  | evar y => exact absurd rfl (hne y)
  | _ => simp [hsolved]

/-- An existential on the right of a type without parts ends as it is solved. -/
lemma outcome_judge_solveRight (n : Nat) (h : s.context.WellFormed)
    (hs : s.context = Context.concat (.unsolved x :: left) right) (hA : A.isAtom)
    (hne : ∀ y, A ≠ .evar y) :
    (judge (n + 1) s A (.evar x)).outcome = (s.solveTo x A).outcome := by
  rw [judge_solveRight n h hs hA hne]

variable {T : Ty}

/-- What happens to an existential that is to be solved to a type without parts: it is solved if
the type is in scope where it is declared, it is the solution of an existential that is declared
later, or the type is a variable that is declared later.

**Proof sketch.** A type without parts passes the tests for occurrence and for monotypes, and the
context is cut at the slot. What is left is the test whether the type is in scope to the left of it.
If it is not, then the type is a variable that is declared later, or an existential that is, since
the two are different and the existential has no solution; in this case the other one is solved in
its own slot. -/
theorem solveTo_eq (h : s.context.WellFormed)
    (hs : s.context = Context.concat (.unsolved x :: left) right) (hT : T.isAtom)
    (hne : T ≠ .evar x) (hsT : ¬ s.context.HasSolution T) (hscope : s.context.Scopes T) :
    (left.Scopes T ∧ s.solveTo x T = ⟨[.solved x T], .ok (s.solvedAt x T left right)⟩) ∨
    (∃ y mid right', T = .evar y ∧ right = Context.concat (.unsolved y :: mid) right' ∧
      s.solveTo x T = ⟨[.solved y (.evar x)],
        .ok (s.solvedAt y (.evar x) (Context.concat (.unsolved x :: left) mid) right')⟩) ∨
    (∃ a, T = .var a ∧ .rigid a ∉ left ∧
      s.solveTo x T = .fail (.judgment (.escapes x T))) := by
  have hocc : ¬ T.occurs x := by
    rw [Ty.occurs_iff]
    cases T <;> simp_all [Ty.isAtom, Ty.existentials, eq_comm]
  have hmono : T.isMono := Ty.isMono_of_isAtom hT
  have hex : s.context.excise (.unsolved x) = .ok (left, right) :=
    Context.excise_of_slot hs (h.not_mem_left hs)
  have hleft : left.WellFormed := by
    rw [hs] at h
    exact h.of_concat.of_cons
  by_cases hsc : left.Scopes T
  · have hwf := (Context.isWellFormedType_eq_true_iff hleft.solvedOnce).mpr hsc
    exact .inl ⟨hsc, by simp [Session.solveTo, hocc, hmono, hex, hwf, Session.solvedAt]⟩
  have hwf : left.isWellFormedType T = .ok false := by
    obtain ⟨b, hb, hiff⟩ := Context.isWellFormedType_iff hleft.solvedOnce T
    cases b with
    | false => exact hb
    | true => exact absurd (hiff.mp rfl) hsc
  cases T with
  | arr | all => simp [Ty.isAtom] at hT
  | unit => exact absurd (Context.scopes_unit left) hsc
  | var a =>
    refine .inr (.inr ⟨a, rfl, fun ha => hsc (Context.scopes_var.mpr ha), ?_⟩)
    simp [Session.solveTo, hocc, hmono, hex, hwf, Traced.fail]
  | evar y =>
    have hy : .unsolved y ∈ right := by
      have hy : .unsolved y ∈ s.context := by
        rcases Context.scopes_evar.mp hscope with hy | ⟨R, hR⟩
        · exact hy
        · exact absurd ⟨y, R, rfl, hR⟩ hsT
      have hyx : y ≠ x := by simpa using hne
      have hyleft : .unsolved y ∉ left := fun hy => hsc (Context.scopes_evar.mpr (.inl hy))
      simpa [hs, hyx, hyleft] using hy
    obtain ⟨mid, right', rfl⟩ := Context.exists_concat_of_mem hy
    refine .inr (.inl ⟨y, mid, right', rfl, rfl, ?_⟩)
    have hs' : s.context =
        Context.concat (.unsolved y :: Context.concat (.unsolved x :: left) mid) right' :=
      Context.slot_of_right hs
    have hsolve := Context.solve_of_slot hs' (h.not_mem_left hs') (.evar x)
    simp [Session.solveTo, hocc, hmono, hex, hwf, hsolve, Session.solvedAt]

/-- How solving an existential ends. It is solved if the type is in scope where it is declared; an
existential that is declared later is solved to it instead; and a variable that is declared later
would get out of its scope. -/
lemma outcome_solveTo (h : s.context.WellFormed)
    (hs : s.context = Context.concat (.unsolved x :: left) right) (hT : T.isAtom)
    (hne : T ≠ .evar x) (hsT : ¬ s.context.HasSolution T) (hscope : s.context.Scopes T) :
    (left.Scopes T ∧ (s.solveTo x T).outcome = .ok (s.solvedAt x T left right)) ∨
    (∃ y mid right', T = .evar y ∧ right = Context.concat (.unsolved y :: mid) right' ∧
      (s.solveTo x T).outcome =
        .ok (s.solvedAt y (.evar x) (Context.concat (.unsolved x :: left) mid) right')) ∨
    (∃ a, T = .var a ∧ .rigid a ∉ left ∧
      (s.solveTo x T).outcome = .error (.judgment (.escapes x T))) := by
  rcases solveTo_eq h hs hT hne hsT hscope with
    ⟨hleft, hrun⟩ | ⟨y, mid, right', hy, hright, hrun⟩ | ⟨a, ha, hleft, hrun⟩
  · exact .inl ⟨hleft, by rw [hrun]⟩
  · exact .inr (.inl ⟨y, mid, right', hy, hright, by rw [hrun]⟩)
  · exact .inr (.inr ⟨a, ha, hleft, by rw [hrun, Traced.outcome_fail]⟩)

/-- An existential that is declared to the right of a slot is not in scope on the left of it. -/
lemma not_scopes_left {Γ mid : Context} {y : Name} (h : Γ.WellFormed)
    (hs : Γ = Context.concat (.unsolved x :: left) (Context.concat (.unsolved y :: mid) right)) :
    ¬ left.Scopes (.evar y) := by
  intro hy
  have hwf := h
  rw [Context.slot_of_right hs] at hwf
  refine hwf.not_declares_left (x := y) (by simp [Entry.declares]) (Context.declares_iff.mpr ?_)
  rcases Context.scopes_evar.mp hy with hy | ⟨R, hR⟩
  · exact .inr (.inl (by simp [hy]))
  · exact .inr (.inr ⟨R, by simp [hR]⟩)

/-- A type that is in scope where the existential is declared becomes its solution. -/
theorem outcome_solveTo_of_scopes (h : s.context.WellFormed)
    (hs : s.context = Context.concat (.unsolved x :: left) right) (hT : T.isAtom)
    (hne : T ≠ .evar x) (hsT : ¬ s.context.HasSolution T) (hin : left.Scopes T) :
    (s.solveTo x T).outcome = .ok (s.solvedAt x T left right) := by
  have hscope : s.context.Scopes T := hin.mono fun m hm => by simp [hs, hm]
  rcases outcome_solveTo h hs hT hne hsT hscope with
    ⟨-, hok⟩ | ⟨y, mid, right', rfl, rfl, -⟩ | ⟨a, rfl, hout, -⟩
  · exact hok
  · exact absurd hin (not_scopes_left h hs)
  · exact absurd (Context.scopes_var.mp hin) hout

/-- A variable that is declared later would escape its scope. -/
theorem outcome_solveTo_of_escapes {a : Name} (h : s.context.WellFormed)
    (hs : s.context = Context.concat (.unsolved x :: left) right) (hout : .rigid a ∉ left)
    (hscope : s.context.Scopes (.var a)) :
    (s.solveTo x (.var a)).outcome = .error (.judgment (.escapes x (.var a))) := by
  have hsT : ¬ s.context.HasSolution (.var a) := Context.not_hasSolution (by simp)
  rcases outcome_solveTo h hs rfl (by simp) hsT hscope with
    ⟨hin, -⟩ | ⟨y, _, _, hy, -⟩ | ⟨b, -, -, herr⟩
  · exact absurd (Context.scopes_var.mp hin) hout
  · contradiction
  · exact herr

end Slot

end Runs

end HigherRank
