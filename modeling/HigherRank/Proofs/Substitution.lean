import HigherRank.Proofs.FreshNames
import HigherRank.Proofs.Nameless
import HigherRank.Ty.Subst

set_option autoImplicit false
set_option relaxedAutoImplicit false

/-!
# Substitution never captures

On nameless types substitution needs no renaming. Substitution on types with names, which renames
binders on the way, is that substitution: the nameless form of its result is the nameless form of
the type with the nameless form of the replacement filled in.

## Main definitions

* `HigherRank.Ty.resolve` — the nameless form of a variable below given binders.

## Main results

* `HigherRank.Ty.namelessUnder_subst_var` — renaming a variable.
* `HigherRank.Ty.nameless_subst` — substitution for a free variable.
* `HigherRank.Ty.nameless_subst_eq_opened` — the body of a quantified type at a type.
* `HigherRank.Ty.eq_of_alphaEq_of_isMono` — monotypes have no bound names to differ in.
* `HigherRank.Ty.subst_avoids_capture` — what substitution and instantiation do to a type.
-/

namespace HigherRank.Ty

/-! ## Variables below binders -/

/-- The nameless form of a variable below binders of the given names. -/
def resolve (binders : List Name) (a : Name) : Nameless :=
  (var a).namelessUnder binders

/-- A rigid variable is resolved among the binders around it. -/
private lemma namelessUnder_var (binders : List Name) (a : Name) :
    (var a).namelessUnder binders = resolve binders a :=
  rfl

/-- Without a binder a variable is free. -/
@[simp]
lemma resolve_nil (a : Name) : resolve [] a = .free a :=
  rfl

/-- The innermost binder of its name binds a variable. -/
@[simp]
lemma resolve_cons_self (a : Name) (binders : List Name) :
    resolve (a :: binders) a = .bound 0 := by
  simp [resolve, namelessUnder, List.idxOf?_cons]

/-- A variable that no binder binds is free. -/
lemma resolve_of_not_mem {a : Name} {binders : List Name} (h : a ∉ binders) :
    resolve binders a = .free a := by
  simp only [resolve, namelessUnder, List.idxOf?_eq_none_iff.mpr h]

/-- Below a binder more of another name, two variables that resolve alike still do. -/
lemma resolve_cons_congr {a b c d : Name} {binders binders' : List Name} (hac : a ≠ c)
    (hbd : b ≠ d) (h : resolve binders a = resolve binders' b) :
    resolve (c :: binders) a = resolve (d :: binders') b := by
  have hca : (c == a) = false := by simpa using Ne.symm hac
  have hdb : (d == b) = false := by simpa using Ne.symm hbd
  simp only [resolve, namelessUnder] at h ⊢
  simp only [List.idxOf?_cons, hca, hdb]
  cases h₁ : binders.idxOf? a <;> cases h₂ : binders'.idxOf? b <;> simp_all

/-- Below the same binder more, a variable that resolves alike still does. -/
lemma resolve_cons_same {a : Name} {binders binders' : List Name} (c : Name)
    (h : a ≠ c → resolve binders a = resolve binders' a) :
    resolve (c :: binders) a = resolve (c :: binders') a := by
  by_cases hac : a = c
  · simp [hac]
  · exact resolve_cons_congr hac hac (h hac)

/-- An outermost binder of another name does not matter. -/
private lemma resolve_append_of_ne {a b : Name} (binders : List Name) (h : a ≠ b) :
    resolve (binders ++ [b]) a = resolve binders a := by
  induction binders with
  | nil => exact resolve_of_not_mem (by simpa using h)
  | cons c binders ih => exact resolve_cons_same c fun _ => ih

/-- The outermost binder has the greatest index. -/
private lemma resolve_append_self {a : Name} {binders : List Name} (h : a ∉ binders) :
    resolve (binders ++ [a]) a = .bound binders.length := by
  induction binders with
  | nil => exact resolve_cons_self a []
  | cons c binders ih =>
    simp only [List.mem_cons, not_or] at h
    have hca : (c == a) = false := by simpa using Ne.symm h.1
    have hrest := ih h.2
    simp only [resolve, namelessUnder] at hrest ⊢
    simp only [List.cons_append, List.idxOf?_cons, hca]
    cases hi : (binders ++ [a]).idxOf? a <;> simp_all

/-- Only the resolution of the free variables matters for the nameless form. -/
lemma namelessUnder_congr {A : Ty} {binders binders' : List Name}
    (h : ∀ a ∈ A.rigids, resolve binders a = resolve binders' a) :
    A.namelessUnder binders = A.namelessUnder binders' := by
  induction A generalizing binders binders' with
  | unit | evar => rfl
  | var a => exact h a (by simp [rigids])
  | arr A B ihA ihB =>
    simp only [rigids, List.mem_append] at h
    simp only [namelessUnder, ihA fun a ha => h a (.inl ha), ihB fun a ha => h a (.inr ha)]
  | all c A ih =>
    simp only [namelessUnder, Nameless.all.injEq]
    exact ih fun a ha => resolve_cons_same c fun hac => h a (mem_rigids_all.mpr ⟨ha, hac⟩)

/-! ## Names after substitution -/

/-- Renaming a variable does not change the height. -/
lemma height_subst_var (A : Ty) (a b : Name) : (A.subst a (.var b)).height = A.height :=
  height_substWithin_var A.height a b A

/-- A type after renaming has no new free variable but the new name.

**Proof sketch.** Strong induction on the height, as renaming a binder gives a type of the same
height that is not a part. Where the binder has to give way, the body is renamed twice, and the new
binder is not free in the result. -/
private lemma rigids_subst_var {A : Ty} {a b c : Name} (h : c ∈ (A.subst a (.var b)).rigids) :
    c = b ∨ c ∈ A.rigids ∧ c ≠ a := by
  induction hn : A.height using Nat.strongRecOn generalizing A a b c with
  | ind n ih =>
    cases A with
    | unit | evar => simp [rigids] at h
    | var d =>
      simp only [subst_var] at h
      split at h
      · simpa [rigids] using Or.inl h
      · rename_i hda
        obtain rfl : c = d := by simpa [rigids] using h
        exact .inr ⟨by simp [rigids], hda⟩
    | arr A B =>
      simp only [height] at hn
      simp only [subst_arr, rigids, List.mem_append] at h ⊢
      rcases h with h | h
      · exact (ih A.height (by omega) h rfl).imp_right fun hc => ⟨.inl hc.1, hc.2⟩
      · exact (ih B.height (by omega) h rfl).imp_right fun hc => ⟨.inr hc.1, hc.2⟩
    | all d A =>
      simp only [height] at hn
      rw [subst_all] at h
      split at h
      · rename_i hda
        rw [mem_rigids_all] at h
        refine .inr ⟨mem_rigids_all.mpr h, ?_⟩
        rintro rfl
        exact hda.elim (fun e => h.2 e.symm) (· h.1)
      · split at h
        · rw [mem_rigids_all] at h
          exact (ih A.height (by omega) h.1 rfl).imp_right fun hc =>
            ⟨mem_rigids_all.mpr ⟨hc.1, h.2⟩, hc.2⟩
        · rw [mem_rigids_all] at h
          rcases ih A.height (by omega) h.1 (height_subst_var A d _) with hc | ⟨hc, hca⟩
          · exact .inl hc
          · rcases ih A.height (by omega) hc rfl with hc' | hc'
            · exact absurd hc' h.2
            · exact .inr ⟨mem_rigids_all.mpr hc', hca⟩

/-! ## Renaming -/

/-- Renaming a variable does not change the nameless form, if the new name resolves as the old
one did and all other variables resolve as before.

**Proof sketch.** Induction on the height. A binder of the new name is renamed first, and then
the hypothesis applies twice: to the renaming of the binder, below the old binders, and to the
renaming of the variable, from the old binders to the new ones. -/
theorem namelessUnder_subst_var {A : Ty} {a b : Name} {binders binders' : List Name}
    (hab : a ∈ A.rigids → resolve binders' b = resolve binders a)
    (h : ∀ c ∈ A.rigids, c ≠ a → resolve binders' c = resolve binders c) :
    (A.subst a (.var b)).namelessUnder binders' = A.namelessUnder binders := by
  induction hn : A.height using Nat.strongRecOn generalizing A a b binders binders' with
  | ind n ih =>
    cases A with
    | unit | evar => simp [namelessUnder]
    | var c =>
      simp only [subst_var]
      split
      · rename_i hca
        rw [hca]
        exact hab (by simp [rigids, hca])
      · rename_i hca
        exact h c (by simp [rigids]) hca
    | arr A B =>
      simp only [height] at hn
      simp only [rigids, List.mem_append] at hab h
      simp only [subst_arr, namelessUnder]
      rw [ih A.height (by omega) (fun ha => hab (.inl ha)) (fun c hc => h c (.inl hc)) rfl,
        ih B.height (by omega) (fun ha => hab (.inr ha)) (fun c hc => h c (.inr hc)) rfl]
    | all d A =>
      simp only [height] at hn
      rw [subst_all]
      split
      · rename_i hda
        apply namelessUnder_congr
        intro c hc
        refine h c hc ?_
        rintro rfl
        rw [mem_rigids_all] at hc
        exact hda.elim (fun e => hc.2 e.symm) (· hc.1)
      · rename_i hda
        simp only [not_or, Decidable.not_not] at hda
        have haA : a ∈ (all d A).rigids := mem_rigids_all.mpr ⟨hda.2, Ne.symm hda.1⟩
        have hA : ∀ c ∈ A.rigids, c ≠ d → c ≠ a → resolve binders' c = resolve binders c :=
          fun c hc hcd hca => h c (mem_rigids_all.mpr ⟨hc, hcd⟩) hca
        split
        · rename_i hdb
          have hbd : b ≠ d := fun e => hdb (by simp [rigids, e])
          simp only [namelessUnder, Nameless.all.injEq]
          refine ih A.height (by omega) ?_ ?_ rfl
          · exact fun _ => resolve_cons_congr hbd (Ne.symm hda.1) (hab haA)
          · exact fun c hc hca => resolve_cons_same d fun hcd => hA c hc hcd hca
        · -- the binder has the new name and gets another one first
          set d' := d.unused (A.rigids ++ (var b).rigids)
          have hd' : d' ∉ A.rigids ++ (var b).rigids := Name.unused_not_mem d _
          simp only [rigids, List.mem_append, List.mem_singleton, not_or] at hd'
          obtain ⟨hd'A, hd'b⟩ := hd'
          simp only [namelessUnder, Nameless.all.injEq]
          have hren : (A.subst d (.var d')).namelessUnder (d' :: binders) =
              A.namelessUnder (d :: binders) := by
            refine ih A.height (by omega) (fun _ => by simp) ?_ rfl
            exact fun c hc hcd =>
              resolve_cons_congr (fun e => hd'A (e ▸ hc)) hcd rfl
          rw [← hren]
          refine ih A.height (by omega) ?_ ?_ (height_subst_var A d d')
          · exact fun _ =>
              resolve_cons_congr (Ne.symm hd'b) (fun e => hd'A (e ▸ hda.2)) (hab haA)
          · intro c hc hca
            rcases rigids_subst_var hc with rfl | ⟨hcA, hcd⟩
            · simp
            · exact resolve_cons_same d' fun _ => hA c hcA hcd hca

/-! ## Substitution -/

/-- Substitution below binders that are not free in the replacement.

**Proof sketch.** Induction on the height. Where a binder is free in the replacement, it is
renamed first, which does not change the nameless form by `namelessUnder_subst_var`. -/
private lemma namelessUnder_subst {A : Ty} {a : Name} {R : Ty} {binders : List Name}
    (ha : a ∉ binders) (hR : ∀ b ∈ binders, b ∉ R.rigids) :
    (A.subst a R).namelessUnder binders =
      Nameless.replaceFree a R.nameless (A.namelessUnder binders) := by
  induction hn : A.height using Nat.strongRecOn generalizing A binders with
  | ind n ih =>
    cases A with
    | unit | evar => simp [namelessUnder, Nameless.replaceFree, Nameless.fill]
    | var c =>
      simp only [subst_var]
      split
      · rename_i hca
        rw [hca, namelessUnder_var, resolve_of_not_mem ha]
        simp only [Nameless.replaceFree, Nameless.fill, if_true]
        refine namelessUnder_congr fun b hb => ?_
        exact resolve_of_not_mem fun hmem => hR b hmem hb
      · rename_i hca
        by_cases hc : c ∈ binders
        · obtain ⟨i, hi⟩ : ∃ i, binders.idxOf? c = some i := by
            rw [← Option.isSome_iff_exists, List.isSome_idxOf?]
            exact hc
          simp [namelessUnder, hi, Nameless.replaceFree, Nameless.fill]
        · rw [namelessUnder_var, resolve_of_not_mem hc]
          simp [Nameless.replaceFree, Nameless.fill, hca]
    | arr A B =>
      simp only [height] at hn
      simp only [subst_arr, namelessUnder]
      rw [ih A.height (by omega) ha hR rfl, ih B.height (by omega) ha hR rfl]
      rfl
    | all d A =>
      simp only [height] at hn
      rw [subst_all]
      split
      · rename_i hda
        refine (Nameless.replaceFree_eq_self fun hfree => ?_).symm
        rw [mem_frees_namelessUnder, mem_rigids_all] at hfree
        exact hda.elim (fun e => hfree.1.2 e.symm) (· hfree.1.1)
      · rename_i hda
        simp only [not_or, Decidable.not_not] at hda
        split
        · rename_i hdR
          simp only [namelessUnder]
          rw [ih A.height (by omega) (by simp [ha, Ne.symm hda.1]) ?_ rfl]
          · rfl
          · intro b hb
            rcases List.mem_cons.mp hb with rfl | hb
            · exact hdR
            · exact hR b hb
        · set d' := d.unused (A.rigids ++ R.rigids)
          have hd' : d' ∉ A.rigids ++ R.rigids := Name.unused_not_mem d _
          simp only [List.mem_append, not_or] at hd'
          simp only [namelessUnder]
          have hren : (A.subst d (.var d')).namelessUnder (d' :: binders) =
              A.namelessUnder (d :: binders) := by
            refine namelessUnder_subst_var (fun _ => by simp) ?_
            exact fun c hc hcd => resolve_cons_congr (fun e => hd'.1 (e ▸ hc)) hcd rfl
          rw [ih A.height (by omega) ?_ ?_ (height_subst_var A d d'), hren]
          · rfl
          · simp only [List.mem_cons, not_or]
            exact ⟨fun e => hd'.1 (e ▸ hda.2), ha⟩
          · intro b hb
            rcases List.mem_cons.mp hb with rfl | hb
            · exact hd'.2
            · exact hR b hb

/-- Substitution on types with names is substitution on nameless types. -/
theorem nameless_subst (A : Ty) (a : Name) (R : Ty) :
    (A.subst a R).nameless = Nameless.replaceFree a R.nameless A.nameless :=
  namelessUnder_subst (by simp) (by simp)

/-- The free variables of a type after substitution, whichever binders have been renamed. -/
lemma mem_rigids_subst {A R : Ty} {a b : Name} :
    b ∈ (A.subst a R).rigids ↔ b ∈ A.rigids ∧ b ≠ a ∨ a ∈ A.rigids ∧ b ∈ R.rigids := by
  simp only [← mem_frees_nameless, nameless_subst, Nameless.mem_frees_replaceFree]

/-- The existentials of a type after substitution. -/
lemma mem_existentials_subst {A R : Ty} {a x : Name} :
    x ∈ (A.subst a R).existentials ↔
      x ∈ A.existentials ∨ a ∈ A.rigids ∧ x ∈ R.existentials := by
  simp only [← existentials_nameless, ← mem_frees_nameless, nameless_subst,
    Nameless.mem_existentials_replaceFree]

/-- Renaming a variable keeps the existentials. -/
lemma existentials_subst_var (A : Ty) (a b : Name) :
    (A.subst a (.var b)).existentials = A.existentials := by
  rw [← existentials_nameless, nameless_subst, ← existentials_nameless A]
  generalize A.nameless = N
  induction N with
  | unit | bound | evar => rfl
  | free c =>
    simp only [Nameless.replaceFree, Nameless.fill]
    split <;> rfl
  | arr M N ihM ihN => exact congrArg₂ _ ihM ihN
  | all N ih => exact ih

/-- Every index of a nameless form points to one of its binders. -/
private lemma closedAt_namelessUnder (A : Ty) (binders : List Name) :
    (A.namelessUnder binders).ClosedAt binders.length := by
  induction A generalizing binders with
  | unit | evar => trivial
  | var a =>
    simp only [namelessUnder]
    cases h : binders.idxOf? a with
    | none => trivial
    | some i =>
      have hi : i < binders.length := by
        have := List.of_findIdx?_eq_some h
        rcases Nat.lt_or_ge i binders.length with hlt | hge
        · exact hlt
        · simp [List.getElem?_eq_none hge] at this
      exact hi
  | arr A B ihA ihB => exact ⟨ihA binders, ihB binders⟩
  | all c A ih => exact ih (c :: binders)

/-- The nameless form of a type is closed. -/
lemma closedAt_nameless (A : Ty) : A.nameless.ClosedAt 0 :=
  closedAt_namelessUnder A []

/-- A monotype has a monotype as its nameless form. -/
lemma monotype_nameless {A : Ty} (h : A.isMono) : A.nameless.Monotype :=
  ⟨by simpa using h, closedAt_nameless A⟩

/-- What is opened below the binder `a` is what is substituted for the free variable `a`.

**Proof sketch.** Induction on the type. A variable `a` that is not bound further inside is the
index just after these binders, which is what is opened. If an inner binder is called `a` too, then
neither side changes anything below it: there is no index to be opened, and `a` is not free. -/
private lemma openAt_namelessUnder {A : Ty} {a : Name} {R : Nameless} {binders : List Name}
    (ha : a ∉ binders) :
    Nameless.openAt R binders.length (A.namelessUnder (binders ++ [a])) =
      Nameless.replaceFree a R (A.namelessUnder binders) := by
  induction A generalizing binders with
  | unit | evar => rfl
  | var c =>
    simp only [namelessUnder_var]
    by_cases hca : c = a
    · subst hca
      rw [resolve_append_self ha, resolve_of_not_mem ha]
      simp [Nameless.openAt, Nameless.replaceFree, Nameless.fill]
    · have hclosed : (resolve binders c).ClosedAt binders.length :=
        closedAt_namelessUnder (var c) binders
      rw [resolve_append_of_ne binders hca,
        Nameless.openAt_of_closedAt R hclosed (Nat.le_refl _), Nameless.replaceFree_eq_self]
      intro hfree
      have hmem := (mem_frees_namelessUnder.mp hfree).1
      exact hca (by simpa [rigids, eq_comm] using hmem)
  | arr A B ihA ihB =>
    simp only [namelessUnder, Nameless.openAt, ihA ha, ihB ha]
    rfl
  | all c A ih =>
    simp only [namelessUnder, Nameless.openAt]
    by_cases hca : c = a
    · -- the inner binder hides the outer one
      subst hca
      have hcut : A.namelessUnder (c :: (binders ++ [c])) = A.namelessUnder (c :: binders) :=
        namelessUnder_congr fun b _ => resolve_cons_same c (resolve_append_of_ne binders)
      have hclosed := closedAt_namelessUnder A (c :: binders)
      have hopen := Nameless.openAt_of_closedAt R hclosed (Nat.le_refl _)
      rw [List.length_cons] at hopen
      rw [hcut, hopen, Nameless.replaceFree_eq_self]
      simp [Nameless.frees, mem_frees_namelessUnder]
    · have ha' : a ∉ c :: binders := by simp [ha, Ne.symm hca]
      have hbody := ih ha'
      simp only [List.length_cons, List.cons_append] at hbody
      rw [hbody]
      rfl

/-- The body of a quantified type at a type is the opened nameless body. -/
theorem nameless_subst_eq_opened (A : Ty) (a : Name) (R : Ty) :
    (A.subst a R).nameless = (A.namelessUnder [a]).opened R.nameless := by
  have ha : a ∉ ([] : List Name) := List.not_mem_nil
  rw [nameless_subst]
  exact (openAt_namelessUnder ha).symm

/-! ## Monotypes -/

/-- Monotypes with the same nameless form are equal. -/
theorem eq_of_alphaEq_of_isMono {A B : Ty} (h : A.AlphaEq B) (hA : A.isMono) : A = B := by
  unfold AlphaEq at h
  induction A generalizing B with
  | unit | var | evar => cases B <;> simp_all [nameless, namelessUnder, List.idxOf?]
  | arr A₁ A₂ ih₁ ih₂ =>
    simp only [isMono, Bool.and_eq_true] at hA
    cases B with
    | arr B₁ B₂ =>
      simp only [nameless, namelessUnder, Nameless.arr.injEq] at h
      rw [ih₁ h.1 hA.1, ih₂ h.2 hA.2]
    | _ => simp [nameless, namelessUnder] at h
  | all => simp [isMono] at hA

/-! ## What substitution does -/

/-- A type in which the variable is not free stays as it is, bound names included. -/
private lemma subst_eq_self {A : Ty} {a : Name} (R : Ty) (h : a ∉ A.rigids) : A.subst a R = A := by
  induction A with
  | unit | evar => simp
  | var b =>
    rw [subst_var, if_neg]
    rintro rfl
    exact h (by simp [rigids])
  | arr A B ihA ihB =>
    simp only [rigids, List.mem_append, not_or] at h
    rw [subst_arr, ihA h.1, ihB h.2]
  | all b A =>
    -- either the binder hides the variable, or it does not occur below it
    rw [mem_rigids_all, not_and, not_not] at h
    rw [subst_all, if_pos]
    by_cases ha : a ∈ A.rigids
    · exact .inl (h ha).symm
    · exact .inr ha

/-- Substitution never captures, whatever the bound names of the type and the free names of the
replacement are: up to bound names the replacement stands in the place of every free occurrence of
the variable, and nothing else has changed. If there is no such occurrence, not even a bound name
has changed. So the instance of a quantified type is its opened body. -/
theorem subst_avoids_capture (A : Ty) (a : Name) (R : Ty) :
    (A.subst a R).nameless = Nameless.replaceFree a R.nameless A.nameless ∧
      (a ∉ A.rigids → A.subst a R = A) ∧
      ∀ (b : Name) (B : Ty) (N : Nameless), (all b B).nameless = .all N →
        ((all b B).instantiate R).nameless = N.opened R.nameless := by
  refine ⟨nameless_subst A a R, subst_eq_self R, fun b B N hN => ?_⟩
  obtain rfl : B.namelessUnder [b] = N := Nameless.all.inj hN
  exact nameless_subst_eq_opened B b R

/-- The replacement mentions the variable itself, the outer binder, the inner one, and the name that
the outer binder would get with one prime. -/
theorem subst_avoids_capture_primed :
    let R : Ty := .arr (.var "b") (.arr (.var "b'") (.var "a"))
    let A : Ty := .all "b" (.arr (.var "a") (.all "b'" (.arr (.var "b") (.var "b'"))))
    let N : Nameless := .all (.arr (.bound 1) (.all (.arr (.bound 1) (.bound 0))))
    A.subst "a" R = .all "b''" (.arr R (.all "b'" (.arr (.var "b''") (.var "b'")))) ∧
      (A.subst "a" R).nameless = Nameless.replaceFree "a" R.nameless A.nameless ∧
      "b" ∉ A.rigids ∧ A.subst "b" R = A ∧
      (all "a" A).nameless = .all N ∧
      ((all "a" A).instantiate R).nameless = N.opened R.nameless := by
  intro R A N
  have hnot : "b" ∉ A.rigids := by decide
  have hN : (all "a" A).nameless = .all N := by decide
  obtain ⟨hsubst, -, hopen⟩ := subst_avoids_capture A "a" R
  obtain ⟨-, hself, -⟩ := subst_avoids_capture A "b" R
  exact ⟨by decide +kernel, hsubst, hnot, hself hnot, hN, hopen "a" A N hN⟩

end HigherRank.Ty
