import HigherRank.Proofs.FreshNames
import HigherRank.Proofs.Readability
import HigherRank.Value

set_option autoImplicit false
set_option relaxedAutoImplicit false

/-!
# Literal forms are unique

Two values have the same literal form exactly if they are equal, whatever their kinds and whatever
characters their names hold. The literal form of a value ends by itself, since all that a
constructor holds is quoted or is a literal form again.

## Main definitions

* `HigherRank.Value.Kind` — the kinds of values.
* `HigherRank.Value.Kind.heads` — the letters with which literal forms of a kind begin.

## Main results

* `HigherRank.Ty.selfDelimiting_literal`, `HigherRank.Term.selfDelimiting_literal`, … — literal
  forms of each kind end by themselves.
* `HigherRank.Value.kind_eq_of_literal_eq` — literal forms of different kinds differ.
* `HigherRank.Value.literal_eq_iff` — literal forms separate values.
-/

namespace HigherRank

open Text (SelfDelimiting quote_append_inj readable_bracketed)

/-! ## Types, terms and entries -/

/-- The literal form of a type tells where it ends.

**Proof sketch.** Induction on the type. The constructor name in front tells which constructor the
other type has; then names are quoted, and a quoted name tells where it ends (`quote_append_inj`),
and the parts of the type do so by induction. -/
theorem Ty.selfDelimiting_literal : SelfDelimiting Ty.literal := by
  intro A
  induction A with
  | unit =>
    intro B r s h
    cases B <;> simp [literal] at h
    case unit => exact ⟨rfl, h⟩
  | var a | evar a =>
    intro B r s h
    cases B <;> simp [literal] at h
    next b =>
      obtain ⟨rfl, hrest⟩ := quote_append_inj h
      exact ⟨rfl, by simpa using hrest⟩
  | arr A A' ihA ihA' =>
    intro B r s h
    cases B <;> simp [literal] at h
    case arr B B' =>
      obtain ⟨rfl, h'⟩ := ihA h
      obtain ⟨rfl, hrest⟩ := ihA' (by simpa using h')
      exact ⟨rfl, by simpa using hrest⟩
  | all a A ih =>
    intro B r s h
    cases B <;> simp [literal] at h
    case all b B =>
      obtain ⟨rfl, h'⟩ := quote_append_inj h
      obtain ⟨rfl, hrest⟩ := ih (by simpa using h')
      exact ⟨rfl, by simpa using hrest⟩

/-- The literal form of a term tells where it ends.

**Proof sketch.** Induction on the term, as for types; the annotation is a type, which tells where
it ends by `Ty.selfDelimiting_literal`. -/
theorem Term.selfDelimiting_literal : SelfDelimiting Term.literal := by
  intro e
  induction e with
  | unit =>
    intro f r s h
    cases f <;> simp [literal] at h
    case unit => exact ⟨rfl, h⟩
  | var x =>
    intro f r s h
    cases f <;> simp [literal] at h
    case var y =>
      obtain ⟨rfl, hrest⟩ := quote_append_inj h
      exact ⟨rfl, by simpa using hrest⟩
  | ann e A ih =>
    intro f r s h
    cases f <;> simp [literal] at h
    case ann f B =>
      obtain ⟨rfl, h'⟩ := ih h
      obtain ⟨rfl, hrest⟩ := Ty.selfDelimiting_literal (a := A) (b := B) (by simpa using h')
      exact ⟨rfl, by simpa using hrest⟩
  | lam x e ih =>
    intro f r s h
    cases f <;> simp [literal] at h
    case lam y f =>
      obtain ⟨rfl, h'⟩ := quote_append_inj h
      obtain ⟨rfl, hrest⟩ := ih (by simpa using h')
      exact ⟨rfl, by simpa using hrest⟩
  | app e e' ih ih' =>
    intro f r s h
    cases f <;> simp [literal] at h
    case app f f' =>
      obtain ⟨rfl, h'⟩ := ih h
      obtain ⟨rfl, hrest⟩ := ih' (by simpa using h')
      exact ⟨rfl, by simpa using hrest⟩

/-- The literal form of an entry tells where it ends. -/
private lemma Entry.selfDelimiting_literal : SelfDelimiting Entry.literal := by
  intro m n r s h
  cases m <;> cases n <;> simp [literal] at h
  case rigid.rigid | unsolved.unsolved | marker.marker =>
    obtain ⟨rfl, hrest⟩ := quote_append_inj h
    exact ⟨rfl, by simpa using hrest⟩
  case assumed.assumed | solved.solved =>
    obtain ⟨rfl, h'⟩ := quote_append_inj h
    obtain ⟨rfl, hrest⟩ := Ty.selfDelimiting_literal (by simpa using h')
    exact ⟨rfl, by simpa using hrest⟩

/-! ## Contexts and sessions -/

/-- The literal form of a context is the list of those of its entries, in a call. -/
private lemma Context.toList_literal (Γ : Context) :
    Γ.literal.toList = "Context.from_iterable(".toList ++
      ((Text.bracketed (Γ.members.map Entry.literal)).toList ++ ")".toList) := by
  unfold literal
  rw [String.toList_append, String.toList_append, List.append_assoc]

/-- The literal form of a context tells where it ends. -/
private lemma Context.selfDelimiting_literal : SelfDelimiting Context.literal := by
  intro Γ Δ r s h
  have hlist : SelfDelimiting fun ms : List Entry => Text.bracketed (ms.map Entry.literal) := by
    refine .of_readable (readable_bracketed (Entry.selfDelimiting_literal.readable (fun _ => True)
      fun _ => True) (fun _ => trivial) (fun _ => trivial) ?_) (fun _ _ _ => trivial)
    intro m _ r s
    cases m <;> simp [Entry.literal]
  simp only [toList_literal, List.append_assoc, List.append_cancel_left_eq] at h
  obtain ⟨hmembers, hrest⟩ := hlist h
  exact ⟨members_inj.mp hmembers, List.append_cancel_left hrest⟩

/-- The literal form of a session tells how far it has come. -/
private lemma Session.literal_eq_iff_agrees {s t : Session} :
    s.literal = t.literal ↔ s.agrees t = true := by
  simp only [agrees, decide_eq_true_eq]
  constructor
  · intro h
    replace h := congrArg String.toList h
    simp only [literal, String.toList_append, List.append_assoc, List.append_cancel_left_eq] at h
    obtain ⟨hcontext, hnumber⟩ := Context.selfDelimiting_literal h
    replace hnumber := List.append_cancel_right (List.append_cancel_left hnumber)
    rw [Int.toString_eq_repr, Int.toString_eq_repr] at hnumber
    exact ⟨hcontext, Name.intRepr_injective (String.toList_inj.mp hnumber)⟩
  · rintro ⟨hcontext, hnumber⟩
    rw [literal, literal, hcontext, hnumber]

/-! ## Values of all kinds -/

namespace Value

/-- The kinds of values. -/
inductive Kind where
  | type
  | entry
  | context
  | term
  | session
  | string
  deriving DecidableEq

/-- The kind of a value. -/
def kind : Value → Kind
  | .type _ => .type
  | .entry _ => .entry
  | .context _ => .context
  | .term _ => .term
  | .session _ => .session
  | .string _ => .string

/-- The letters with which a literal form of the kind begins. That of a string begins with a
delimiter. -/
def Kind.heads : Kind → List String
  | .type => ["Unit", "Var", "EVar", "Arr", "All"]
  | .entry => ["VarMember", "Assumption", "EVarMember", "Solved", "Marker"]
  | .context => ["Context"]
  | .term => ["UnitExpr", "VarExpr", "Ann", "Lam", "App"]
  | .session => ["CheckState"]
  | .string => [""]

/-- No two kinds have a head in common. -/
private lemma Kind.eq_of_mem_heads {k l : Kind} {head : String} (hk : head ∈ k.heads)
    (hl : head ∈ l.heads) : k = l := by
  have hdisjoint : ∀ head ∈ k.heads, head ∈ l.heads → k = l := by
    cases k <;> cases l <;> decide
  exact hdisjoint head hk hl

/-- The letters with which a text begins. -/
def headOf (s : String) : String :=
  String.ofList (s.toList.takeWhile Char.isAlpha)

/-- A literal form begins with the letters of its kind. -/
private lemma headOf_literal (v : Value) : headOf v.literal ∈ v.kind.heads := by
  cases v with
  | type A => cases A <;> simp [literal, Ty.literal, headOf, kind, Kind.heads]
  | entry m => cases m <;> simp [literal, Entry.literal, headOf, kind, Kind.heads]
  | context Γ => simp [literal, Context.toList_literal, headOf, kind, Kind.heads]
  | term e => cases e <;> simp [literal, Term.literal, headOf, kind, Kind.heads]
  | session s => simp [literal, Session.literal, headOf, kind, Kind.heads]
  | string s =>
    have hdelim : (Text.delimiter s.toList).isAlpha = false := by
      rcases Text.isDelimiter_delimiter s.toList with h | h <;> rw [h] <;> decide
    simp [literal, Text.quoteChars, hdelim, headOf, kind, Kind.heads]

/-- Literal forms of values of different kinds differ. -/
theorem kind_eq_of_literal_eq {v w : Value} (h : v.literal = w.literal) : v.kind = w.kind :=
  Kind.eq_of_mem_heads v.headOf_literal (h ▸ w.headOf_literal)

/-- Two values have the same literal form exactly if they are of the same kind and equal. -/
theorem literal_eq_iff (v w : Value) : v.literal = w.literal ↔ v.same w = true := by
  constructor
  · intro h
    have hkind := kind_eq_of_literal_eq h
    cases v <;> cases w <;> simp only [kind, reduceCtorEq] at hkind
    case type.type A B => simpa [same] using Ty.selfDelimiting_literal.injective h
    case entry.entry m n => simpa [same] using Entry.selfDelimiting_literal.injective h
    case context.context Γ Δ => simpa [same] using Context.selfDelimiting_literal.injective h
    case term.term e f => simpa [same] using Term.selfDelimiting_literal.injective h
    case session.session s t => exact Session.literal_eq_iff_agrees.mp h
    case string.string s t => simpa [same] using Text.quote_injective h
  · intro h
    cases v <;> cases w <;> simp only [same, decide_eq_true_eq, Bool.false_eq_true] at h
    case session.session s t => exact Session.literal_eq_iff_agrees.mpr h
    all_goals rw [h]

end Value

end HigherRank
