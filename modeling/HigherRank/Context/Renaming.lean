import HigherRank.Context.Basic
import HigherRank.Ty.Nameless
import Mathlib.Data.List.Forall2

set_option autoImplicit false
set_option relaxedAutoImplicit false

/-!
# Renaming

Types and contexts that differ in nothing but the names of type variables. Free names are changed by
a function, bound names may be any, and term variables keep their names. Names that a context tells
apart have to stay apart.

## Main definitions

* `HigherRank.Ty.Renames` — types that differ by a renaming.
* `HigherRank.Entry.Renames` — entries that differ by a renaming.
* `HigherRank.Context.Taken` — the names of the type variables and markers of a context.
* `HigherRank.Context.Renames` — contexts that differ by a renaming.

## Main results

* `HigherRank.Ty.renames_id` — types that differ by no renaming are equal up to bound names.
* `HigherRank.Context.renames_id` — a context differs from itself by no renaming.
-/

namespace HigherRank

/-- The second type is the first one with all free names changed, up to bound names. -/
def Ty.Renames (r : Name → Name) (A A' : Ty) : Prop :=
  A'.nameless = A.nameless.rename r

instance (r : Name → Name) (A A' : Ty) : Decidable (A.Renames r A') :=
  inferInstanceAs (Decidable (A'.nameless = A.nameless.rename r))

/-- The second entry is the first one with the names of type variables changed. -/
inductive Entry.Renames (r : Name → Name) : Entry → Entry → Prop where
  | rigid (a : Name) : Renames r (.rigid a) (.rigid (r a))
  | assumed (x : Name) {A A' : Ty} : A.Renames r A' → Renames r (.assumed x A) (.assumed x A')
  | unsolved (x : Name) : Renames r (.unsolved x) (.unsolved (r x))
  | solved (x : Name) {A A' : Ty} : A.Renames r A' → Renames r (.solved x A) (.solved (r x) A')
  | marker (x : Name) : Renames r (.marker x) (.marker (r x))

namespace Context

/-- The name of a type variable or of a marker of the context. -/
def Taken (Γ : Context) (x : Name) : Prop :=
  ∃ m ∈ Γ, m.takenName? = some x

/-- The second context is the first one with the names of type variables and markers changed, and
different names have not become the same. -/
structure Renames (r : Name → Name) (Γ Γ' : Context) : Prop where
  entries : List.Forall₂ (Entry.Renames r) Γ Γ'
  injective : ∀ x y, Γ.Taken x → Γ.Taken y → r x = r y → x = y

/-- The two functions change the names of the context in the same way. -/
def Agree (Γ : Context) (r' r : Name → Name) : Prop :=
  ∀ x, Γ.Taken x → r' x = r x

end Context

/-! ## Nothing is renamed -/

/-- Renaming no name changes nothing. -/
@[simp]
theorem Nameless.rename_id (A : Nameless) : A.rename id = A :=
  A.fill_id

/-- Types that differ by no renaming are equal up to bound names. -/
theorem Ty.renames_id {A A' : Ty} : A.Renames id A' ↔ A.AlphaEq A' := by
  rw [Ty.Renames, Nameless.rename_id, Ty.AlphaEq, eq_comm]

/-- An entry is itself with no name changed. -/
theorem Entry.renames_id (m : Entry) : m.Renames id m := by
  cases m with
  | rigid a => exact .rigid a
  | assumed x A => exact .assumed x (Ty.renames_id.mpr rfl)
  | unsolved x => exact .unsolved x
  | solved x A => exact .solved x (Ty.renames_id.mpr rfl)
  | marker x => exact .marker x

/-- A context differs from itself by no renaming. -/
theorem Context.renames_id (Γ : Context) : Γ.Renames id Γ where
  entries := List.forall₂_same.mpr fun m _ => m.renames_id
  injective _ _ _ _ h := h

end HigherRank
