import HigherRank.Context.Apply
import HigherRank.Session
import HigherRank.Subtyping.Traced

set_option autoImplicit false
set_option relaxedAutoImplicit false

/-!
# The subtyping judgment

A query asks whether one type is a subtype of another under the context of a session. The answer
is a session whose context has solutions for some existentials. Of two arrows the domains are
compared the other way round and then the codomains. A quantifier on the right is opened with a
new rigid variable, one on the left with a new existential, and the scope is closed afterwards.
An existential is compared with an arrow by solving it to an arrow between two new existentials
first, and with anything else by solving it.

## Main definitions

* `HigherRank.Session.articulate` — an existential as an arrow between new existentials.
* `HigherRank.Session.solveTo` — an existential as a given type.
* `HigherRank.judge` — the rules, with a bound on their depth.
* `HigherRank.check` — a query whose failure is an error.
* `HigherRank.subtype` — a query whose failure is an answer.

## Implementation notes

The depth of the rules is bounded by a power of two of the size of the query. Every solution at
most doubles the height of the types that are still to be compared, and there are no more
solutions than existentials in the context and constructors in the two types.
-/

namespace HigherRank

namespace Session

/-! ## Solving an existential -/

/-- Solves an existential to an arrow between two new existentials, which stand before it in the
context, so that it may be compared with the arrow `A`. The existential must not occur in `A`,
but `A` may have quantifiers, since it is compared part by part. -/
def articulate (s : Session) (x : Name) (A : Ty) : Traced (Ty × Session) :=
  if A.occurs x then .fail (.judgment (.occurs x A))
  else do
    let dom := s.freshExistential
    let cod := dom.2.freshExistential
    let arrow := Ty.arr (.evar dom.1) (.evar cod.1)
    let Γ ← .ask (s.context.replace (.unsolved x)
      [.unsolved dom.1, .unsolved cod.1, .solved x arrow])
    .record (.articulated x arrow)
    pure (arrow, cod.2.withContext Γ)

/-- Solves an existential to a type that is no arrow. The type has to be a monotype that is
well-formed where the existential is declared. If it is an existential itself and declared
later, that one is solved instead. -/
def solveTo (s : Session) (x : Name) (A : Ty) : Traced Session :=
  if A.occurs x then .fail (.judgment (.occurs x A))
  else if !A.isMono then .fail (.judgment (.polymorphic x A))
  else do
    let (left, right) ← .ask (s.context.excise (.unsolved x))
    if ← .ask (left.isWellFormedType A) then
      .record (.solved x A)
      pure (s.withContext (Context.concat (.solved x A :: left) right))
    else
      match A with
      | .evar y =>
        if .unsolved y ∈ right then
          let Γ ← .ask (s.context.solve y (.evar x))
          .record (.solved y (.evar x))
          pure (s.withContext Γ)
        else .fail (.judgment (.escapes x A))
      | _ => .fail (.judgment (.escapes x A))

/-! ## Applying and closing the context -/

/-- Whether the type is an existential with a solution. -/
def isSolved (s : Session) : Ty → Except Violation Bool
  | .evar x => (s.context.lookupSolution x).map Option.isSome
  | _ => .ok false

/-- Whether one of two types is an existential with a solution. The second is only looked at if
the first is not. -/
def eitherSolved (s : Session) (A B : Ty) : Except Violation Bool :=
  match s.isSolved A with
  | .ok false => s.isSolved B
  | answer => answer

/-- The type with the solutions of the context filled in. -/
def applied (s : Session) (A : Ty) : Traced Ty :=
  .ask (s.context.apply A)

/-- The session without the entry that began a scope and all that came after it. -/
def closeScope (s : Session) (m : Entry) : Traced Session :=
  .ask ((s.context.truncate m).map s.withContext)

end Session

/-! ## The rules -/

/-- The subtyping rules, to at most the given depth. -/
def judge : Nat → Session → Ty → Ty → Traced Session
  | 0, _, _, _ => .fail .exhausted
  | n + 1, s, A, B => do
    .record (.query A B s.context)
    match A, B with
    | .arr A₁ A₂, .arr B₁ B₂ =>
      let s' ← judge n s B₁ A₁
      -- the domains may have solved existentials of the codomains
      let A₂' ← s'.applied A₂
      let B₂' ← s'.applied B₂
      judge n s' A₂' B₂'
    | A, .all b B =>
      let (c, s') := s.freshVariable
      let s'' ← judge n (s'.push (.rigid c)) A (B.subst b (.var c))
      s''.closeScope (.rigid c)
    | .all a A, B =>
      let (x, s') := s.freshExistential
      let s'' ← judge n ((s'.push (.marker x)).push (.unsolved x)) (A.subst a (.evar x)) B
      s''.closeScope (.marker x)
    | A, B =>
      if A = B then pure s
      else if ← .ask (s.eitherSolved A B) then
        let A' ← s.applied A
        let B' ← s.applied B
        judge n s A' B'
      else
        match A, B with
        | .evar x, .arr B₁ B₂ =>
          let (arrow, s') ← s.articulate x (.arr B₁ B₂)
          judge n s' arrow (.arr B₁ B₂)
        | .arr A₁ A₂, .evar y =>
          let (arrow, s') ← s.articulate y (.arr A₁ A₂)
          judge n s' (.arr A₁ A₂) arrow
        | .evar x, B => s.solveTo x B
        | A, .evar y => s.solveTo y A
        | A, B => .fail (.judgment (.mismatch A B))

/-! ## Queries -/

/-- The number of entries of a context and of constructors in their types. -/
def Context.weight : Context → Nat
  | [] => 0
  | m :: Γ => (m.type?.map Ty.size).getD 0 + 1 + weight Γ

/-- A depth that the rules do not exceed. -/
def depthBound (Γ : Context) (A B : Ty) : Nat :=
  Nat.pow 2 (8 * (Γ.weight + A.size + B.size + 1))

/-- Compares two types under the context of a session. If the judgment does not hold, the
failure says why. -/
def check (s : Session) (A B : Ty) : Traced Session :=
  judge (depthBound s.context A B) s A B

/-- Decides whether one type is a subtype of another under the context of a session. There is
no session in the result if the judgment does not hold. -/
def subtype (s : Session) (A B : Ty) : Traced (Option Session) :=
  let run := check s A B
  match run.outcome with
  | .ok s' => ⟨run.events, .ok (some s')⟩
  | .error (.judgment e) => ⟨run.events ++ [.failed A B e], .ok none⟩
  | .error e => ⟨run.events, .error e⟩

end HigherRank
