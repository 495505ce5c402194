import HigherRank.Ty.Basic

set_option autoImplicit false
set_option relaxedAutoImplicit false

/-!
# Substitution

Substitution of a type for a free rigid variable. A binder that would capture a free variable of
the replacement is renamed first, to its own name with as few primes as keep it apart from every
free variable of its body and of the replacement.

## Main definitions

* `HigherRank.Ty.subst` — substitution for a rigid variable.
* `HigherRank.Ty.instantiate` — the body of a quantified type at a type.

## Main results

* `HigherRank.Ty.height_substWithin_var` — renaming a variable keeps the height.
* `HigherRank.Ty.substWithin_eq_subst` — the bound on the recursion does not show.
* `HigherRank.Ty.subst_arr`, `HigherRank.Ty.subst_all` — the equations of substitution.

## Implementation notes

Under a renamed binder the function runs on its own result, so that the recursion is not on the
type. It is on a bound of the height instead, which `Ty.subst` takes from the type.
-/

namespace HigherRank.Ty

/-! ## The definition -/

/-- Substitution in a type of at most the given height. -/
def substWithin : Nat → Name → Ty → Ty → Ty
  | _, _, _, .unit => .unit
  | _, a, R, .var b => if b = a then R else .var b
  | _, _, _, .evar x => .evar x
  | 0, _, _, A => A
  | n + 1, a, R, .arr A B => .arr (substWithin n a R A) (substWithin n a R B)
  | n + 1, a, R, .all b A =>
    if b = a ∨ a ∉ (all b A).rigids then .all b A
    else if b ∉ R.rigids then .all b (substWithin n a R A)
    else
      let b' := b.unused (A.rigids ++ R.rigids)
      .all b' (substWithin n a R (substWithin n b (.var b') A))

/-- The type with `R` for the free rigid variable `a`, without capture. -/
def subst (A : Ty) (a : Name) (R : Ty) : Ty :=
  substWithin A.height a R A

/-- The body of a quantified type with `R` for the bound variable. Other types stay as they
are. -/
def instantiate (A R : Ty) : Ty :=
  match A with
  | .all a body => body.subst a R
  | A => A

/-! ## The bound does not show -/

/-- Renaming a variable keeps the height. -/
theorem height_substWithin_var (n : Nat) (a b : Name) (A : Ty) :
    (substWithin n a (.var b) A).height = A.height := by
  induction n generalizing a b A with
  | zero =>
    cases A with
    | unit | evar | arr | all => rfl
    | var => simp only [substWithin]; split <;> rfl
  | succ n ih =>
    cases A with
    | unit | evar => simp [substWithin]
    | var => simp only [substWithin]; split <;> rfl
    | arr A B => simp [substWithin, height, ih]
    | all c A =>
      simp only [substWithin]
      split
      · rfl
      · split <;> simp [height, ih]

/-- Any bound that the height does not exceed gives the same result.

**Proof sketch.** More generally any two bounds that the height does not exceed give the same
result, by induction on the first one. A renamed body has the height of the body
(`height_substWithin_var`), so that the induction hypothesis is there for it, too. -/
theorem substWithin_eq_subst {n : Nat} {A : Ty} (a : Name) (R : Ty) (h : A.height ≤ n) :
    substWithin n a R A = A.subst a R := by
  suffices H : ∀ n m a R A, height A ≤ n → height A ≤ m →
      substWithin n a R A = substWithin m a R A from H n A.height a R A h (Nat.le_refl _)
  clear h a R A n
  intro n
  induction n with
  | zero =>
    intro m a R A hn _
    cases A with
    | unit | var | evar => simp [substWithin]
    | arr | all => simp [height] at hn
  | succ n ih =>
    intro m a R A hn hm
    cases A with
    | unit | var | evar => simp [substWithin]
    | arr A B =>
      obtain ⟨m, rfl⟩ : ∃ k, m = k + 1 := ⟨m - 1, by simp only [height] at hm; omega⟩
      simp only [height] at hn hm
      simp only [substWithin]
      rw [ih m a R A (by omega) (by omega), ih m a R B (by omega) (by omega)]
    | all b A =>
      obtain ⟨m, rfl⟩ : ∃ k, m = k + 1 := ⟨m - 1, by simp only [height] at hm; omega⟩
      simp only [height] at hn hm
      have hA : ∀ b', substWithin n b (.var b') A = substWithin m b (.var b') A :=
        fun b' => ih m b (.var b') A (by omega) (by omega)
      simp only [substWithin, hA]
      rw [ih m a R A (by omega) (by omega), ih m a R _
        (by rw [height_substWithin_var]; omega) (by rw [height_substWithin_var]; omega)]

/-! ## Equations -/

/-- The unit type has no variable to replace. -/
@[simp]
theorem subst_unit (a : Name) (R : Ty) : unit.subst a R = unit := by
  simp [subst, substWithin]

/-- A variable is replaced if it is the one. -/
@[simp]
theorem subst_var (a b : Name) (R : Ty) : (var b).subst a R = if b = a then R else var b := by
  simp [subst, substWithin]

/-- An existential is no rigid variable to replace. -/
@[simp]
theorem subst_evar (a x : Name) (R : Ty) : (evar x).subst a R = evar x := by
  simp [subst, substWithin]

/-- Both parts of an arrow are substituted in. -/
@[simp]
theorem subst_arr (a : Name) (R A B : Ty) :
    (arr A B).subst a R = arr (A.subst a R) (B.subst a R) := by
  rw [← substWithin_eq_subst a R (Nat.le_refl _)]
  simp only [height, substWithin]
  rw [substWithin_eq_subst a R (Nat.le_max_left ..), substWithin_eq_subst a R (Nat.le_max_right ..)]

/-- Substitution under a binder: it stops where the variable is bound or not free, and renames
the binder where the replacement mentions it. -/
theorem subst_all (a b : Name) (R A : Ty) :
    (all b A).subst a R =
      if b = a ∨ a ∉ A.rigids then all b A
      else if b ∉ R.rigids then all b (A.subst a R)
      else
        let b' := b.unused (A.rigids ++ R.rigids)
        all b' ((A.subst b (.var b')).subst a R) := by
  have hsub : ∀ a R, substWithin A.height a R A = A.subst a R :=
    fun a R => substWithin_eq_subst a R (Nat.le_refl _)
  have hren : ∀ c, substWithin A.height a R (A.subst b (.var c)) = (A.subst b (.var c)).subst a R :=
    fun c => substWithin_eq_subst a R (Nat.le_of_eq (by rw [← hsub, height_substWithin_var]))
  by_cases hb : b = a
  · simp [subst, height, substWithin, hb]
  · have hmem : a ∈ (all b A).rigids ↔ a ∈ A.rigids := by
      rw [mem_rigids_all]
      exact and_iff_left (Ne.symm hb)
    change substWithin (A.height + 1) a R (all b A) = _
    simp only [substWithin, hmem, hsub, hren]

end HigherRank.Ty
