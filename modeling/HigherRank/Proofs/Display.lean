import HigherRank.Context.Basic
import HigherRank.Proofs.Readability
import HigherRank.Term

set_option autoImplicit false
set_option relaxedAutoImplicit false

/-!
# Display forms are unambiguous

The display form leaves brackets out. As long as names are plain, two types, two terms or two
contexts with the same display form are equal all the same.

## Main definitions

* `HigherRank.Name.Plain` — the names that cannot be mistaken for anything else.
* `HigherRank.Ty.names`, `HigherRank.Term.names`, `HigherRank.Entry.names` — the names in a value.
* `HigherRank.Ty.lead`, `HigherRank.Ty.rest` — the operand with which a display form begins, and
  what comes behind it.

## Main results

* `HigherRank.Ty.readsIn` — a type can be read back from its display form in a slot.
* `HigherRank.Term.readable_text`, `HigherRank.Entry.readable_text` — so can terms and entries.
* `HigherRank.text_eq_iff` — values with plain names have the same display form only if they are
  equal.

## Implementation notes

A display form does not end by itself: `a` goes on as `ab`, and as `a -> b`. What may follow depends
on the slot, so that the statement about types is one about all slots.
-/

namespace HigherRank

open Text (ReadsBack Readable append_inj_of_stops readable_bracketed)

/-! ## Plain names -/

namespace Name

/-- The letters, digits, underscores and primes of which plain names consist. -/
def isPlainChar (c : Char) : Bool :=
  c.isAlphanum || c = '_' || c = '\x27'

/-- A name of letters, digits, underscores and primes that is not that of the unit type. -/
def Plain (x : Name) : Prop :=
  x ≠ "" ∧ x.toList.all isPlainChar ∧ x ≠ "1"

instance (x : Name) : Decidable x.Plain :=
  inferInstanceAs (Decidable (_ ∧ _ ∧ _))

/-- No plain name goes on with what comes behind. -/
def Ends (r : List Char) : Prop :=
  ∀ c ∈ r.head?, ¬ isPlainChar c

variable {x y : Name} {r s : List Char}

/-- A name ends before every character that is none of a plain name. -/
lemma ends_cons {c : Char} : Ends (c :: r) ↔ isPlainChar c = false := by
  simp [Ends]

/-- A plain name begins with a character of plain names. -/
lemma Plain.append_ne {c : Char} (hx : x.Plain) (hc : isPlainChar c = false) :
    x.toList ++ r ≠ c :: s := by
  obtain ⟨hne, hchars, -⟩ := hx
  intro h
  cases hcs : x.toList with
  | nil => exact hne (String.toList_eq_nil_iff.mp hcs)
  | cons d cs =>
    rw [hcs, List.cons_append, List.cons.injEq] at h
    have hd := List.all_eq_true.mp hchars d (by simp [hcs])
    rw [h.1, hc] at hd
    exact absurd hd (by decide)

/-- Where two texts begin with names, the names are the same if they cannot go on. -/
lemma append_inj (hx : x.toList.all isPlainChar) (hy : y.toList.all isPlainChar)
    (hr : Ends r) (hs : Ends s) (h : x.toList ++ r = y.toList ++ s) : x = y ∧ r = s :=
  (append_inj_of_stops (List.all_eq_true.mp hx) (List.all_eq_true.mp hy) hr hs h).imp_left
    String.toList_inj.mp

end Name

/-! ## Types -/

namespace Ty

/-- The names in a type, those of bound variables included. -/
def names : Ty → List Name
  | .unit => []
  | .var a => [a]
  | .evar x => [x]
  | .arr A B => A.names ++ B.names
  | .all a A => a :: A.names

/-- All names in the type are plain. -/
def Plain (A : Ty) : Prop :=
  ∀ x ∈ A.names, x.Plain

instance (A : Ty) : Decidable A.Plain :=
  inferInstanceAs (Decidable (∀ x ∈ A.names, x.Plain))

/-- A rigid variable is plain if its name is. -/
@[simp]
lemma plain_var {a : Name} : (var a).Plain ↔ a.Plain := by
  simp [Plain, names]

/-- An existential is plain if its name is. -/
@[simp]
lemma plain_evar {x : Name} : (evar x).Plain ↔ x.Plain := by
  simp [Plain, names]

/-- An arrow is plain if both parts are. -/
@[simp]
lemma plain_arr {A B : Ty} : (arr A B).Plain ↔ A.Plain ∧ B.Plain := by
  simp [Plain, names, or_imp, forall_and]

/-- A quantified type is plain if its binder and its body are. -/
@[simp]
lemma plain_all {a : Name} {A : Ty} : (all a A).Plain ↔ a.Plain ∧ A.Plain := by
  simp [Plain, names]

/-- What may come behind a type in a slot: nothing with which its last name could go on, and no
arrow where the type may be one without brackets. -/
def Slot.Ends : Slot → List Char → Prop
  | .domain, r => Name.Ends r
  | _, r => Name.Ends r ∧ r.head? ≠ some ' '

/-- The type can be read back from its display form in a slot. -/
def ReadsIn (A : Ty) (slot : Slot) : Prop :=
  ReadsBack (fun A : Ty => A.textIn slot) Plain slot.Ends A

variable {A B : Ty} {slot : Slot} {r s : List Char}

/-- What may come behind a type in any slot ends a name. -/
lemma Slot.Ends.name (h : slot.Ends r) : Name.Ends r := by
  cases slot
  case domain => exact h
  case whole | codomain => exact h.1

/-- No space may come behind a type that is not a domain, so that no arrow may. -/
lemma Slot.Ends.ne_space {t : List Char} (h : slot.Ends r) (hslot : slot ≠ .domain) :
    r ≠ ' ' :: t := by
  rintro rfl
  cases slot
  case domain => exact hslot rfl
  case whole | codomain => exact h.2 rfl

/-- What may come behind a type that stands by itself may come behind it in any slot. -/
private lemma Slot.Ends.of_ne_domain (h : slot.Ends r) (hslot : slot ≠ .domain) (slot' : Slot) :
    slot'.Ends r := by
  have hspace : r.head? ≠ some ' ' := by
    cases slot
    case domain => exact absurd rfl hslot
    case whole | codomain => exact h.2
  cases slot'
  case domain => exact h.name
  case whole | codomain => exact ⟨h.name, hspace⟩

/-! ### Operands

To the left of an arrow every type stands by itself: it is a name, or it is in brackets. -/

/-- To the left of an arrow a type begins with no bracket, or it is in brackets. -/
private lemma textIn_domain_cases (hA : A.Plain) :
    (∀ r s, (A.textIn .domain).toList ++ r ≠ '(' :: s) ∨
      A.textIn .domain = Text.enclose (A.textIn .whole) := by
  cases A with
  | unit | evar x => exact .inl fun r s => by simp [textIn]
  | var a => exact .inl fun r s => (plain_var.mp hA).append_ne (by decide)
  | arr A B | all a A => exact .inr rfl

/-- The unit type can be read back as a domain. -/
private lemma readsIn_domain_unit : unit.ReadsIn .domain := by
  intro B r s hB hr hs h
  cases B <;> simp [textIn, Slot.arrowText, Slot.quantifierText, Text.enclose] at h
  case unit => exact ⟨rfl, h⟩
  case var b =>
    -- the one name of plain characters that is not plain
    obtain ⟨-, hchars, hne⟩ := plain_var.mp hB
    exact absurd (Name.append_inj (x := "1") (by decide) hchars hr hs h).1.symm hne

/-- A rigid variable can be read back as a domain. -/
private lemma readsIn_domain_var {a : Name} (ha : a.Plain) : (var a).ReadsIn .domain := by
  intro B r s hB hr hs h
  cases B <;> simp [textIn, Slot.arrowText, Slot.quantifierText, Text.enclose] at h
  case unit =>
    exact absurd (Name.append_inj (y := "1") ha.2.1 (by decide) hr hs h).1 ha.2.2
  case var b =>
    obtain ⟨rfl, hrest⟩ := Name.append_inj ha.2.1 (plain_var.mp hB).2.1 hr hs h
    exact ⟨rfl, hrest⟩
  case evar | arr | all => exact absurd h (ha.append_ne (by decide))

/-- An existential can be read back as a domain: no other type begins with its sign. -/
private lemma readsIn_domain_evar {x : Name} (hx : x.Plain) : (evar x).ReadsIn .domain := by
  intro B r s hB hr hs h
  cases B <;> simp [textIn, Slot.arrowText, Slot.quantifierText, Text.enclose] at h
  case var b => exact absurd h.symm ((plain_var.mp hB).append_ne (by decide))
  case evar y =>
    obtain ⟨rfl, hrest⟩ := Name.append_inj hx.2.1 (plain_evar.mp hB).2.1 hr hs h
    exact ⟨rfl, hrest⟩

/-- A type in brackets can be read back if it can be read back without them. -/
private lemma readsIn_domain_of_whole (h : A.ReadsIn .whole)
    (hA : A.textIn .domain = Text.enclose (A.textIn .whole)) : A.ReadsIn .domain := by
  have hends : ∀ r, Slot.whole.Ends (')' :: r) :=
    fun r => ⟨Name.ends_cons.mpr (by decide), by simp⟩
  intro B r s hB hr hs heq
  rcases textIn_domain_cases hB with hB' | hB'
  · simp [hA, Text.enclose] at heq
    exact absurd heq.symm (hB' _ _)
  · simp [hA, hB', Text.enclose] at heq
    obtain ⟨rfl, hrest⟩ := h hB (hends r) (hends s) heq
    exact ⟨rfl, by simpa using hrest⟩

/-! ### Display forms that begin with an operand -/

/-- The operand with which the display form of a type begins. A quantified type that is not in
brackets begins with a word. -/
def lead : Ty → Slot → Ty
  | .arr A _, .whole | .arr A _, .codomain => A
  | .all _ _, .whole => .var "forall"
  | A, _ => A

/-- What comes behind the operand with which the display form of a type begins. -/
def rest : Ty → Slot → List Char
  | .arr _ B, .whole | .arr _ B, .codomain => " -> ".toList ++ (B.textIn .codomain).toList
  | .all a A, .whole => ' ' :: (a.toList ++ (". ".toList ++ (A.textIn .whole).toList))
  | _, _ => []

/-- A display form is its first operand, as a domain, and what comes behind that. -/
private lemma toList_textIn (A : Ty) (slot : Slot) :
    (A.textIn slot).toList = ((A.lead slot).textIn .domain).toList ++ A.rest slot := by
  cases A <;> cases slot <;> simp [textIn, lead, rest, Slot.arrowText, Slot.quantifierText]

/-- An arrow without brackets begins with its domain. -/
private lemma lead_arr (A B : Ty) (hslot : slot ≠ .domain) : (arr A B).lead slot = A := by
  cases slot <;> simp_all [lead]

/-- Behind the domain of an arrow without brackets comes the sign and the codomain. -/
private lemma rest_arr (A B : Ty) (hslot : slot ≠ .domain) :
    (arr A B).rest slot = " -> ".toList ++ (B.textIn .codomain).toList := by
  cases slot <;> simp_all [rest]

/-- The first operand of a plain type is plain. -/
private lemma plain_lead (hA : A.Plain) (slot : Slot) : (A.lead slot).Plain := by
  have hword : Name.Plain "forall" := by decide
  cases A <;> cases slot <;> simp_all [lead]

/-- Behind the operand there is nothing more, and it is the whole type, or there is a space. -/
lemma rest_cases (A : Ty) (slot : Slot) :
    A.rest slot = [] ∧ A.lead slot = A ∨ ∃ t, A.rest slot = ' ' :: t := by
  cases A <;> cases slot <;> simp [lead, rest]

/-- What comes behind the first operand ends its last name. -/
private lemma ends_rest (h : slot.Ends r) (A : Ty) : Name.Ends (A.rest slot ++ r) := by
  rcases A.rest_cases slot with ⟨hrest, -⟩ | ⟨t, hrest⟩ <;> rw [hrest]
  · exact h.name
  · exact Name.ends_cons.mpr (by decide)

/-- A type can be read back if the operand with which it begins can, and what comes behind that
operand then tells the type. -/
lemma readsIn_of_lead (hlead : (A.lead slot).ReadsIn .domain)
    (hrest : ∀ (B : Ty) (r s : List Char), B.Plain → slot.Ends r → slot.Ends s →
      A.lead slot = B.lead slot → A.rest slot ++ r = B.rest slot ++ s → A = B ∧ r = s) :
    A.ReadsIn slot := by
  intro B r s hB hr hs h
  simp only [toList_textIn _ slot, List.append_assoc] at h
  obtain ⟨hleads, hrests⟩ := hlead (plain_lead hB slot) (ends_rest hr A) (ends_rest hs B) h
  exact hrest B r s hB hr hs hleads hrests

/-- A type that is nothing but an operand can be read back where an operand can. -/
private lemma readsIn_of_domain (h : A.ReadsIn .domain) (hnil : A.rest slot = [])
    (hslot : slot ≠ .domain) : A.ReadsIn slot := by
  have hA : A.lead slot = A := by
    rcases A.rest_cases slot with ⟨-, hA⟩ | ⟨t, ht⟩
    · exact hA
    · simp [hnil] at ht
  refine readsIn_of_lead (hA.symm ▸ h) fun B r s hB hr hs hleads hrests => ?_
  rw [hnil, List.nil_append] at hrests
  rcases B.rest_cases slot with ⟨hB', hleadB⟩ | ⟨t, ht⟩
  · rw [hA, hleadB] at hleads
    exact ⟨hleads, by simpa [hB'] using hrests⟩
  · rw [ht] at hrests
    exact absurd hrests (hr.ne_space hslot)

/-- Variables and the unit type are operands in every slot. -/
private lemma readsIn_of_rest_eq_nil (h : A.ReadsIn .domain) (hnil : ∀ slot, A.rest slot = [])
    (slot : Slot) : A.ReadsIn slot := by
  cases slot
  case domain => exact h
  case whole | codomain => exact readsIn_of_domain h (hnil _) (by decide)

/-- An arrow without brackets can be read back, if its parts can.

**Proof sketch.** The text leads with the domain, so that it is enough to read what follows the
lead. By the other type: if nothing follows its lead, then a space would be where the text ends; if
it is an arrow, then the codomains are read; if it is quantified, then the name of its binder would
begin like the arrow. -/
private lemma readsIn_arr {A' : Ty} (h : A.ReadsIn .domain) (h' : A'.ReadsIn .codomain)
    (hslot : slot ≠ .domain) : (arr A A').ReadsIn slot := by
  refine readsIn_of_lead (by rwa [lead_arr A A' hslot]) fun B r s hB hr hs hleads hrests => ?_
  rw [lead_arr A A' hslot] at hleads
  rw [rest_arr A A' hslot, List.append_assoc] at hrests
  rcases B.rest_cases slot with ⟨hnil, -⟩ | ⟨t, ht⟩
  · rw [hnil] at hrests
    exact absurd hrests.symm (hs.ne_space hslot)
  · cases B with
    | unit | var b | evar y => cases slot <;> simp [rest] at ht
    | arr B B' =>
      rw [lead_arr B B' hslot] at hleads
      rw [rest_arr B B' hslot, List.append_assoc] at hrests
      obtain ⟨rfl, hend⟩ := h' (plain_arr.mp hB).2 (hr.of_ne_domain hslot _)
        (hs.of_ne_domain hslot _) (List.append_cancel_left hrests)
      exact ⟨by rw [hleads], hend⟩
    | all b B =>
      -- a name would begin like the arrow
      cases slot
      case domain | codomain => simp [rest] at ht
      case whole =>
        simp only [rest, List.append_assoc, List.cons_append] at hrests
        exact absurd (List.cons.inj hrests).2.symm ((plain_all.mp hB).1.append_ne (by decide))

/-- A quantified type without brackets can be read back, if its body can. -/
private lemma readsIn_all {a : Name} (ha : a.Plain) (h : A.ReadsIn .whole) :
    (all a A).ReadsIn .whole := by
  have hword : (var "forall").ReadsIn .domain := readsIn_domain_var (by decide)
  have hdot : ∀ t : List Char, Name.Ends (". ".toList ++ t) :=
    fun t => Name.ends_cons.mpr (by decide)
  refine readsIn_of_lead hword fun B r s hB hr hs hleads hrests => ?_
  cases B with
  | unit | var b | evar y => exact absurd hrests.symm (hs.ne_space (by decide))
  | arr B B' =>
    simp only [rest, List.append_assoc, List.cons_append] at hrests
    exact absurd (List.cons.inj hrests).2 (ha.append_ne (by decide))
  | all b B =>
    obtain ⟨hb, hbodyB⟩ := plain_all.mp hB
    simp only [rest, List.append_assoc, List.cons_append, List.cons.injEq, true_and] at hrests
    obtain ⟨rfl, hbody⟩ := Name.append_inj ha.2.1 hb.2.1 (hdot _) (hdot _) hrests
    obtain ⟨rfl, hend⟩ := h hbodyB hr hs (List.append_cancel_left hbody)
    exact ⟨rfl, hend⟩

/-- Every plain type can be read back from its display form in every slot.

**Proof sketch.** Induction on the type. Units, variables and existentials are written without
brackets everywhere. An arrow has brackets in a domain only, and a quantified type everywhere but as
a whole; within the brackets it is read as a whole. -/
theorem readsIn (hA : A.Plain) (slot : Slot) : A.ReadsIn slot := by
  induction A generalizing slot with
  | unit => exact readsIn_of_rest_eq_nil readsIn_domain_unit (fun _ => rfl) slot
  | var a => exact readsIn_of_rest_eq_nil (readsIn_domain_var (plain_var.mp hA)) (fun _ => rfl) slot
  | evar x =>
    exact readsIn_of_rest_eq_nil (readsIn_domain_evar (plain_evar.mp hA)) (fun _ => rfl) slot
  | arr A A' ih ih' =>
    obtain ⟨hA, hA'⟩ := plain_arr.mp hA
    cases slot
    case domain =>
      have hwhole : (arr A A').ReadsIn .whole :=
        readsIn_arr (ih hA .domain) (ih' hA' .codomain) (by decide)
      exact readsIn_domain_of_whole hwhole rfl
    case whole | codomain => exact readsIn_arr (ih hA .domain) (ih' hA' .codomain) (by decide)
  | all a A ih =>
    obtain ⟨ha, hA⟩ := plain_all.mp hA
    have hwhole := readsIn_all ha (ih hA .whole)
    have hdomain := readsIn_domain_of_whole hwhole rfl
    cases slot
    case domain => exact hdomain
    case whole => exact hwhole
    case codomain => exact readsIn_of_domain hdomain rfl (by decide)

/-- A type that stands by itself can be read back. -/
lemma readable_text : Readable Ty.text Plain Slot.whole.Ends :=
  fun _ hA => readsIn hA .whole

end Ty

/-! ## Terms -/

namespace Term

/-- The names in a term: those of its variables and those in its types. -/
def names : Term → List Name
  | .unit => []
  | .var x => [x]
  | .ann e A => e.names ++ A.names
  | .lam x e => x :: e.names
  | .app f e => f.names ++ e.names

/-- All names in the term are plain. -/
def Plain (e : Term) : Prop :=
  ∀ x ∈ e.names, x.Plain

instance (e : Term) : Decidable e.Plain :=
  inferInstanceAs (Decidable (∀ x ∈ e.names, x.Plain))

/-- A variable is plain if its name is. -/
@[simp]
lemma plain_var {x : Name} : (var x).Plain ↔ x.Plain := by
  simp [Plain, names]

/-- An annotated term is plain if the term and its type are. -/
@[simp]
lemma plain_ann {e : Term} {A : Ty} : (ann e A).Plain ↔ e.Plain ∧ A.Plain := by
  simp [Plain, names, or_imp, forall_and, Ty.Plain]

/-- An abstraction is plain if its variable and its body are. -/
@[simp]
lemma plain_lam {x : Name} {e : Term} : (lam x e).Plain ↔ x.Plain ∧ e.Plain := by
  simp [Plain, names]

/-- An application is plain if both parts are. -/
@[simp]
lemma plain_app {f e : Term} : (app f e).Plain ↔ f.Plain ∧ e.Plain := by
  simp [Plain, names, or_imp, forall_and]

variable {e : Term} {r s : List Char}

/-- A term begins with a bracket or with a character of plain names. -/
lemma Plain.append_ne {c : Char} (he : e.Plain) (hc : Name.isPlainChar c = false)
    (hne : c ≠ '(') : e.text.toList ++ r ≠ c :: s := by
  cases e with
  | var x => exact (plain_var.mp he).append_ne hc
  | unit | ann | lam | app =>
    simp [text]
    exact fun h => absurd h.symm hne

/-- The term can be read back from its display form. -/
def ReadsBack (e : Term) : Prop :=
  Text.ReadsBack text Plain Name.Ends e

/-- A name ends before a space. -/
private lemma ends_space (r : List Char) : Name.Ends (' ' :: r) :=
  Name.ends_cons.mpr (by decide)

/-- A name ends before a closing bracket. -/
lemma ends_close (r : List Char) : Name.Ends (')' :: r) :=
  Name.ends_cons.mpr (by decide)

/-- The unit term can be read back: no plain name begins as it does. -/
private lemma readsBack_unit : unit.ReadsBack := by
  intro f r s hf hr hs h
  cases f <;> simp [text] at h
  case unit => exact ⟨rfl, h⟩
  case var x => exact absurd h.symm ((plain_var.mp hf).append_ne (by decide))
  case ann f A => exact absurd h.symm ((plain_ann.mp hf).1.append_ne (by decide) (by decide))
  case app f e => exact absurd h.symm ((plain_app.mp hf).1.append_ne (by decide) (by decide))

/-- A variable can be read back. -/
private lemma readsBack_var {x : Name} (hx : x.Plain) : (var x).ReadsBack := by
  intro f r s hf hr hs h
  cases f <;> simp [text] at h
  case var y =>
    obtain ⟨rfl, hend⟩ := Name.append_inj hx.2.1 (plain_var.mp hf).2.1 hr hs h
    exact ⟨rfl, hend⟩
  case unit | ann | lam | app => exact absurd h (hx.append_ne (by decide))

/-- An annotated term can be read back, if the term can. -/
private lemma readsBack_ann {A : Ty} (he : e.Plain) (hA : A.Plain) (ih : e.ReadsBack) :
    (ann e A).ReadsBack := by
  intro f r s hf hr hs h
  cases f <;> simp [text] at h
  case unit | lam => exact absurd h (he.append_ne (by decide) (by decide))
  case var x => exact absurd h.symm ((plain_var.mp hf).append_ne (by decide))
  case ann f B =>
    obtain ⟨rfl, htype⟩ := ih (plain_ann.mp hf).1 (ends_space _) (ends_space _) h
    have hclose : ∀ t : List Char, Ty.Slot.whole.Ends (')' :: t) :=
      fun t => ⟨ends_close t, by simp⟩
    obtain ⟨rfl, hend⟩ := Ty.readable_text A hA (plain_ann.mp hf).2 (hclose r) (hclose s)
      (by simpa using htype)
    exact ⟨rfl, (List.cons.inj hend).2⟩
  case app f g =>
    -- behind the space an annotation goes on with a colon, and no argument begins so
    obtain ⟨rfl, htype⟩ := ih (plain_app.mp hf).1 (ends_space _) (ends_space _) h
    have hcolon := (List.cons.inj htype).2
    exact absurd hcolon.symm ((plain_app.mp hf).2.append_ne (by decide) (by decide))

/-- An abstraction can be read back, if its body can. -/
private lemma readsBack_lam {x : Name} (hx : x.Plain) (ih : e.ReadsBack) : (lam x e).ReadsBack := by
  intro f r s hf hr hs h
  cases f <;> simp [text] at h
  case var y => exact absurd h.symm ((plain_var.mp hf).append_ne (by decide))
  case ann f B => exact absurd h.symm ((plain_ann.mp hf).1.append_ne (by decide) (by decide))
  case lam y f =>
    obtain ⟨hy, hbody⟩ := plain_lam.mp hf
    have hdot : ∀ t : List Char, Name.Ends ('.' :: t) := fun t => Name.ends_cons.mpr (by decide)
    obtain ⟨rfl, htext⟩ := Name.append_inj hx.2.1 hy.2.1 (hdot _) (hdot _) h
    obtain ⟨rfl, hend⟩ := ih hbody (ends_close _) (ends_close _) (by simpa using htext)
    exact ⟨rfl, (List.cons.inj hend).2⟩
  case app f g => exact absurd h.symm ((plain_app.mp hf).1.append_ne (by decide) (by decide))

/-- An application can be read back, if both parts can. -/
private lemma readsBack_app {g : Term} (he : e.Plain) (hg : g.Plain) (ih : e.ReadsBack)
    (ihg : g.ReadsBack) : (app e g).ReadsBack := by
  intro f r s hf hr hs h
  cases f <;> simp [text] at h
  case unit | lam => exact absurd h (he.append_ne (by decide) (by decide))
  case var x => exact absurd h.symm ((plain_var.mp hf).append_ne (by decide))
  case ann f B =>
    obtain ⟨rfl, harg⟩ := ih (plain_ann.mp hf).1 (ends_space _) (ends_space _) h
    exact absurd (List.cons.inj harg).2 (hg.append_ne (by decide) (by decide))
  case app f g' =>
    obtain ⟨rfl, harg⟩ := ih (plain_app.mp hf).1 (ends_space _) (ends_space _) h
    have hlast := (List.cons.inj harg).2
    obtain ⟨rfl, hend⟩ := ihg (plain_app.mp hf).2 (ends_close _) (ends_close _) hlast
    exact ⟨rfl, (List.cons.inj hend).2⟩

/-- Every plain term can be read back from its display form. -/
theorem readable_text : Readable Term.text Plain Name.Ends := by
  intro e he
  induction e with
  | unit => exact readsBack_unit
  | var x => exact readsBack_var (plain_var.mp he)
  | ann e A ih =>
    obtain ⟨he, hA⟩ := plain_ann.mp he
    exact readsBack_ann he hA (ih he)
  | lam x e ih =>
    obtain ⟨hx, he⟩ := plain_lam.mp he
    exact readsBack_lam hx (ih he)
  | app f e ihf ihe =>
    obtain ⟨hf, he⟩ := plain_app.mp he
    exact readsBack_app hf he (ihf hf) (ihe he)

end Term

/-! ## Entries -/

namespace Entry

/-- The names in an entry: the one that it is about and those in its type. -/
def names : Entry → List Name
  | .rigid a => [a]
  | .assumed x A | .solved x A => x :: A.names
  | .unsolved x | .marker x => [x]

/-- All names in the entry are plain. -/
def Plain (m : Entry) : Prop :=
  ∀ x ∈ m.names, x.Plain

instance (m : Entry) : Decidable m.Plain :=
  inferInstanceAs (Decidable (∀ x ∈ m.names, x.Plain))

/-- The signs before the name of an entry. -/
def sign : Entry → List Char
  | .rigid _ | .assumed _ _ => []
  | .unsolved _ | .solved _ _ => ['^']
  | .marker _ => ['>', '^']

/-- What comes behind the name of an entry. -/
def typeText : Entry → List Char
  | .rigid _ | .unsolved _ | .marker _ => []
  | .assumed _ A => " : ".toList ++ A.text.toList
  | .solved _ A => " = ".toList ++ A.text.toList

/-- The display form of an entry is its signs, its name and what it says of it. -/
private lemma toList_text (m : Entry) :
    m.text.toList = m.sign ++ (m.name.toList ++ m.typeText) := by
  cases m <;> simp [text, sign, name, typeText]

variable {m n : Entry} {r s : List Char}

/-- The name of a plain entry is plain. -/
lemma Plain.name (hm : m.Plain) : m.name.Plain :=
  hm m.name (by cases m <;> simp [names, Entry.name])

/-- The type that a plain entry assumes is plain. -/
private lemma plain_assumed {x : Name} {A : Ty} (h : (assumed x A).Plain) : A.Plain :=
  fun y hy => h y (List.mem_cons_of_mem x hy)

/-- The solution that a plain entry gives is plain. -/
private lemma plain_solved {x : Name} {A : Ty} (h : (solved x A).Plain) : A.Plain :=
  fun y hy => h y (List.mem_cons_of_mem x hy)

/-- No entry begins like the end of a list. -/
private lemma Plain.append_ne (hm : m.Plain) (r s : List Char) : m.text.toList ++ r ≠ ']' :: s := by
  rw [toList_text, List.append_assoc, List.append_assoc]
  cases m with
  | rigid a | assumed x A => exact hm.name.append_ne (by decide)
  | unsolved x | solved x A | marker x => simp [sign]

/-- The signs end where the name begins. -/
private lemma sign_append_inj (hm : m.Plain) (hn : n.Plain)
    (h : m.sign ++ (m.name.toList ++ r) = n.sign ++ (n.name.toList ++ s)) :
    m.sign = n.sign ∧ m.name.toList ++ r = n.name.toList ++ s := by
  have hsign : ∀ k : Entry, ∀ c ∈ k.sign, !Name.isPlainChar c := by
    intro k
    cases k <;> simp [sign] <;> decide
  have hname : ∀ (k : Entry) (t : List Char), k.Plain →
      ∀ c ∈ (k.name.toList ++ t).head?, ¬ (!Name.isPlainChar c) := by
    intro k t hk c hc hplain
    obtain ⟨u, hu⟩ := List.head?_eq_some_iff.mp hc
    exact absurd hu (hk.name.append_ne (by simpa using hplain))
  exact append_inj_of_stops (p := fun c => !Name.isPlainChar c) (hsign m) (hsign n) (hname m r hm)
    (hname n s hn) h

/-- Every plain entry can be read back from its display form.

**Proof sketch.** The sign in front tells existentials and markers apart from the rest, and the name
ends where a type or the next entry begins. What follows the name tells whether there is a type, and
the type can be read back. -/
theorem readable_text : Readable Entry.text Plain Ty.Slot.whole.Ends := by
  intro m hm n r s hn hr hs h
  simp only [toList_text, List.append_assoc] at h
  obtain ⟨hsign, hrest⟩ := sign_append_inj hm hn h
  have hends : ∀ (k : Entry) (t : List Char),
      Ty.Slot.whole.Ends t → Name.Ends (k.typeText ++ t) := by
    intro k t ht
    cases k with
    | rigid | unsolved | marker => exact ht.name
    | assumed | solved => exact Name.ends_cons.mpr (by decide)
  obtain ⟨hname, htype⟩ :=
    Name.append_inj hm.name.2.1 hn.name.2.1 (hends m r hr) (hends n s hs) hrest
  cases m <;> cases n <;> simp [sign] at hsign <;> simp [Entry.name] at hname <;> subst hname
  case rigid.rigid | unsolved.unsolved | marker.marker => exact ⟨rfl, htype⟩
  case rigid.assumed | unsolved.solved => exact absurd htype (hr.ne_space (by decide))
  case assumed.rigid | solved.unsolved => exact absurd htype.symm (hs.ne_space (by decide))
  case assumed.assumed x A B =>
    simp only [typeText, List.append_assoc, List.append_cancel_left_eq] at htype
    obtain ⟨rfl, hend⟩ := Ty.readable_text A (plain_assumed hm) (plain_assumed hn) hr hs htype
    exact ⟨rfl, hend⟩
  case solved.solved x A B =>
    simp only [typeText, List.append_assoc, List.append_cancel_left_eq] at htype
    obtain ⟨rfl, hend⟩ := Ty.readable_text A (plain_solved hm) (plain_solved hn) hr hs htype
    exact ⟨rfl, hend⟩

end Entry

/-! ## Contexts -/

/-- All names in the context are plain. -/
def Context.Plain (Γ : Context) : Prop :=
  ∀ m ∈ Γ, m.Plain

instance (Γ : Context) : Decidable Γ.Plain :=
  inferInstanceAs (Decidable (∀ m ∈ Γ, m.Plain))

/-- Contexts with plain names and the same display form are equal. -/
private lemma Context.text_injective {Γ Δ : Context} (hΓ : Γ.Plain) (hΔ : Δ.Plain)
    (h : Γ.text = Δ.text) : Γ = Δ := by
  have hread := readable_bracketed Entry.readable_text
    (fun r => ⟨Name.ends_cons.mpr (by decide), by simp⟩)
    (fun r => ⟨Name.ends_cons.mpr (by decide), by simp⟩) fun m hm => hm.append_ne
  refine members_inj.mp (hread.injective trivial (fun m hm => ?_) (fun m hm => ?_) h)
  · exact hΓ m (mem_members.mp hm)
  · exact hΔ m (mem_members.mp hm)

/-! ## Display forms -/

/-- Two types, two terms or two contexts in which all names are plain have the same display form
only if they are equal. -/
theorem text_eq_iff :
    (∀ A B : Ty, A.Plain → B.Plain → (A.text = B.text ↔ A = B)) ∧
      (∀ e f : Term, e.Plain → f.Plain → (e.text = f.text ↔ e = f)) ∧
      ∀ Γ Δ : Context, Γ.Plain → Δ.Plain → (Γ.text = Δ.text ↔ Γ = Δ) := by
  refine ⟨fun A B hA hB => ⟨fun h => ?_, congrArg Ty.text⟩,
    fun e f he hf => ⟨fun h => ?_, congrArg Term.text⟩,
    fun Γ Δ hΓ hΔ => ⟨fun h => ?_, congrArg Context.text⟩⟩
  · exact Ty.readable_text.injective ⟨by simp [Name.Ends], by simp⟩ hA hB h
  · exact Term.readable_text.injective (by simp [Name.Ends]) he hf h
  · exact Context.text_injective hΓ hΔ h

/-- Brackets keep apart which arrow is the outer one, what an annotation is about, and how far a
quantifier reaches, also where a name reads like a keyword.

**Proof sketch.** The types, terms and contexts are different, hence so are their texts by
`text_eq_iff`. -/
theorem text_eq_iff_brackets :
    let left : Ty := .arr (.arr (.var "a") (.var "b")) (.var "forall")
    let right : Ty := .arr (.var "a") (.arr (.var "b") (.var "forall"))
    let inside : Term := .lam "x" (.ann (.var "x") left)
    let outside : Term := .ann (.lam "x" (.var "x")) left
    let short : Context := Context.ofMembers [.solved "x" (.arr (.all "a" (.var "a")) .unit)]
    let long : Context := Context.ofMembers [.solved "x" (.all "a" (.arr (.var "a") .unit))]
    (left.Plain ∧ right.Plain ∧ left.text ≠ right.text) ∧
      (inside.Plain ∧ outside.Plain ∧ inside.text ≠ outside.text) ∧
      short.Plain ∧ long.Plain ∧ short.text ≠ long.text := by
  intro left right inside outside short long
  have hleft : left.Plain := by decide
  have hright : right.Plain := by decide
  have hinside : inside.Plain := by decide
  have houtside : outside.Plain := by decide
  have hshort : short.Plain := by decide
  have hlong : long.Plain := by decide
  refine ⟨⟨hleft, hright, fun h => ?_⟩, ⟨hinside, houtside, fun h => ?_⟩, hshort, hlong,
    fun h => ?_⟩
  · exact absurd ((text_eq_iff.1 left right hleft hright).mp h) (by decide)
  · exact absurd ((text_eq_iff.2.1 inside outside hinside houtside).mp h) (by decide)
  · exact absurd ((text_eq_iff.2.2 short long hshort hlong).mp h) (by decide)

/-- A variable of the name `1` would read like the unit type. -/
example : (Ty.var "1").text = Ty.unit.text :=
  rfl

end HigherRank
