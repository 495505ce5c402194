import HigherRank.Context.Renaming
import HigherRank.Proofs.Growth

set_option autoImplicit false
set_option relaxedAutoImplicit false

/-!
# What renaming keeps

A renamed type has the form of the type, and its names are the renamed ones. Under a renamed context
the renamed types are in scope, they stand for the renamed monotypes, and an entry of either context
has its counterpart in the other.

## Main results

* `HigherRank.Ty.Renames.subst` — substitution on renamed types.
* `HigherRank.Ty.Renames.eq_of_isMono` — distinct monotypes stay distinct.
* `HigherRank.Context.Renames.exists_slot` — a slot of the one context is a slot of the other.
* `HigherRank.Context.Renames.scopes_iff` — a type is in scope exactly if the renamed one is.
* `HigherRank.Context.Renames.apply` — the application of renamed contexts.
* `HigherRank.Context.Renames.cons`, `HigherRank.Context.Renames.update` — new names.
-/

namespace HigherRank

/-! ## Renamed nameless types -/

namespace Nameless

variable {A B : Nameless} {r r' : Name → Name}

/-- The free variables are renamed one by one. -/
private lemma frees_rename (A : Nameless) (r : Name → Name) :
    (A.rename r).frees = A.frees.map r := by
  induction A with
  | unit | bound | free | evar => rfl
  | arr A B ihA ihB =>
    simp only [rename, fill, frees, List.map_append] at ihA ihB ⊢
    rw [ihA, ihB]
  | all A ih => exact ih

/-- The existentials are renamed one by one. -/
private lemma existentials_rename (A : Nameless) (r : Name → Name) :
    (A.rename r).existentials = A.existentials.map r := by
  induction A with
  | unit | bound | free | evar => rfl
  | arr A B ihA ihB =>
    simp only [rename, fill, existentials, List.map_append] at ihA ihB ⊢
    rw [ihA, ihB]
  | all A ih => exact ih

/-- Only what happens to the free names of the type matters. -/
private lemma rename_congr (hfrees : ∀ a ∈ A.frees, r' a = r a)
    (hexistentials : ∀ x ∈ A.existentials, r' x = r x) : A.rename r' = A.rename r :=
  fill_congr (fun a ha => by rw [hfrees a ha]) fun x hx => by rw [hexistentials x hx]

/-- Opening a renamed body is renaming the opened one. -/
private lemma rename_openAt (A R : Nameless) (k : Nat) (r : Name → Name) :
    (openAt R k A).rename r = openAt (R.rename r) k (A.rename r) :=
  fill_openAt A R k (fun a => (monotype_free (r a)).closed) fun x => (monotype_evar (r x)).closed

/-- Renamed types may be filled in for the existentials of a renamed type. -/
private lemma fillExistentials_rename {θ θ' : Name → Nameless}
    (h : ∀ x ∈ A.existentials, θ' (r x) = (θ x).rename r) :
    (A.rename r).fillExistentials θ' = (A.fillExistentials θ).rename r := by
  simp only [rename, fillExistentials, fill_fill]
  exact fill_congr (fun _ _ => rfl) h

/-- Types whose names stay apart are equal if the renamed ones are.

**Proof sketch.** Induction on the first type. The constructors are kept by the renaming, and names
that are sent to the same name are equal. -/
private lemma rename_injective {P : Name → Prop} (hr : ∀ x y, P x → P y → r x = r y → x = y)
    (hA : ∀ x, x ∈ A.frees ∨ x ∈ A.existentials → P x)
    (hB : ∀ x, x ∈ B.frees ∨ x ∈ B.existentials → P x) (h : A.rename r = B.rename r) : A = B := by
  induction A generalizing B with
  | unit | bound =>
    cases B <;> simp_all [rename, fill]
  | free a =>
    cases B <;> simp only [rename, fill, free.injEq, reduceCtorEq] at h ⊢
    exact hr _ _ (hA _ (by simp [frees])) (hB _ (by simp [frees])) h
  | evar x =>
    cases B <;> simp only [rename, fill, evar.injEq, reduceCtorEq] at h ⊢
    exact hr _ _ (hA _ (by simp [existentials])) (hB _ (by simp [existentials])) h
  | arr A₁ A₂ ih₁ ih₂ =>
    cases B with
    | arr B₁ B₂ =>
      simp only [rename, fill, arr.injEq] at h
      simp only [frees, existentials, List.mem_append] at hA hB
      have h₁ := ih₁ (B := B₁) (fun x hx => hA x (hx.imp .inl .inl))
        (fun x hx => hB x (hx.imp .inl .inl)) h.1
      have h₂ := ih₂ (B := B₂) (fun x hx => hA x (hx.imp .inr .inr))
        (fun x hx => hB x (hx.imp .inr .inr)) h.2
      rw [h₁, h₂]
    | _ => simp [rename, fill] at h
  | all A ih =>
    cases B with
    | all B =>
      have hbody : A.rename r = B.rename r := by simpa [rename, fill] using h
      rw [ih (B := B) hA hB hbody]
    | _ => simp [rename, fill] at h

end Nameless

/-! ## Renamed types -/

namespace Ty

variable {r r' : Name → Name} {A A' B B' R R' A₁ A₂ : Ty} {a b x : Name}

/-- A rigid variable is free in itself. -/
private lemma nameless_var (a : Name) : (var a).nameless = .free a :=
  resolve_nil a

/-- The unit type renames to nothing else. -/
private lemma Renames.unit (h : Renames r .unit A') : A' = .unit := by
  cases A' <;> simp_all [Renames, nameless, namelessUnder, Nameless.rename, Nameless.fill]

/-- A rigid variable renames to nothing but a rigid variable. -/
lemma Renames.var (h : Renames r (.var a) A') : A' = .var (r a) := by
  cases A' <;> simp_all [Renames, nameless, namelessUnder, Nameless.rename, Nameless.fill]

/-- An existential renames to nothing but an existential. -/
lemma Renames.evar (h : Renames r (.evar x) A') : A' = .evar (r x) := by
  cases A' <;> simp_all [Renames, nameless, namelessUnder, Nameless.rename, Nameless.fill]

/-- An existential with its name changed. -/
lemma renames_evar (r : Name → Name) (x : Name) : Renames r (.evar x) (.evar (r x)) :=
  rfl

/-- A rigid variable with its name changed. -/
lemma renames_var (r : Name → Name) (a : Name) : Renames r (.var a) (.var (r a)) := by
  rw [Renames, nameless_var, nameless_var]
  rfl

/-- A renamed arrow is an arrow of renamed types. -/
lemma Renames.arr (h : Renames r (.arr A₁ A₂) A') :
    ∃ B₁ B₂, A' = .arr B₁ B₂ ∧ A₁.Renames r B₁ ∧ A₂.Renames r B₂ := by
  cases A' with
  | arr B₁ B₂ =>
    simp only [Renames, nameless, namelessUnder, Nameless.rename, Nameless.fill,
      Nameless.arr.injEq] at h
    exact ⟨B₁, B₂, rfl, h.1, h.2⟩
  | _ => simp [Renames, nameless, namelessUnder, Nameless.rename, Nameless.fill] at h

/-- An arrow may be renamed part by part. -/
lemma renames_arr {B₁ B₂ : Ty} (h₁ : A₁.Renames r B₁) (h₂ : A₂.Renames r B₂) :
    (Ty.arr A₁ A₂).Renames r (.arr B₁ B₂) :=
  congrArg₂ Nameless.arr h₁ h₂

/-- A renamed quantified type is quantified. -/
lemma Renames.all (h : Renames r (.all a A) A') : ∃ b B, A' = .all b B := by
  cases A' with
  | all b B => exact ⟨b, B, rfl⟩
  | _ => simp [Renames, nameless, namelessUnder, Nameless.rename, Nameless.fill] at h

/-- Only an existential is renamed to an existential. -/
private lemma Renames.exists_evar {y : Name} (h : A.Renames r (.evar y)) :
    ∃ x, A = .evar x ∧ r x = y := by
  cases A with
  | evar x => exact ⟨x, rfl, by simpa using h.evar.symm⟩
  | unit => simpa using h.unit
  | var => simpa using h.var
  | arr =>
    obtain ⟨B₁, B₂, hB, -, -⟩ := h.arr
    simp at hB
  | all =>
    obtain ⟨b, B, hB⟩ := h.all
    simp at hB

/-- Only an existential renames to an existential. -/
lemma Renames.ne_evar (h : A.Renames r A') (hA : ∀ x, A ≠ .evar x) (y : Name) :
    A' ≠ .evar y := by
  rintro rfl
  obtain ⟨x, hx, -⟩ := h.exists_evar
  exact hA x hx

/-- A renamed type has the form of the type. -/
lemma Renames.form (h : A.Renames r A') :
    A'.isAtom = A.isAtom ∧ A'.isArr = A.isArr ∧ A'.isAll = A.isAll := by
  cases A with
  | unit => simp [h.unit]
  | var => simp [h.var, isAtom, isArr, isAll]
  | evar => simp [h.evar, isAtom, isArr, isAll]
  | arr =>
    obtain ⟨B₁, B₂, rfl, -, -⟩ := h.arr
    simp [isAtom, isArr, isAll]
  | all =>
    obtain ⟨b, B, rfl⟩ := h.all
    simp [isAtom, isArr, isAll]

/-- The existentials are renamed one by one. -/
lemma Renames.existentials (h : A.Renames r A') : A'.existentials = A.existentials.map r := by
  rw [← existentials_nameless, h, Nameless.existentials_rename, existentials_nameless]

/-- The free variables are those of the type with their names changed. -/
private lemma Renames.mem_rigids (h : A.Renames r A') :
    a ∈ A'.rigids ↔ ∃ b ∈ A.rigids, r b = a := by
  rw [← mem_frees_nameless, h, Nameless.frees_rename, List.mem_map]
  simp only [mem_frees_nameless]

/-- Only the names that occur in the type matter. -/
private lemma Renames.congr (h : A.Renames r A') (hrigids : ∀ a ∈ A.rigids, r' a = r a)
    (hexistentials : ∀ x ∈ A.existentials, r' x = r x) : A.Renames r' A' := by
  rw [Renames, h]
  refine (Nameless.rename_congr (fun a ha => ?_) fun x hx => ?_).symm
  · exact hrigids a (mem_frees_nameless.mp ha)
  · exact hexistentials x (by simpa using hx)

/-- The body of a renamed quantified type at a renamed type is the renamed body at the type. -/
theorem Renames.subst (h : (Ty.all a A).Renames r (.all b B)) (hR : R.Renames r R') :
    (A.subst a R).Renames r (B.subst b R') := by
  have hbody : B.namelessUnder [b] = (A.namelessUnder [a]).rename r := by
    simpa [Renames, nameless, namelessUnder, Nameless.rename, Nameless.fill] using h
  rw [Renames, nameless_subst_eq_opened, nameless_subst_eq_opened, hbody, hR]
  exact (Nameless.rename_openAt _ _ 0 r).symm

/-- Monotypes whose names stay apart are equal if the renamed ones are. -/
theorem Renames.eq_of_isMono {P : Name → Prop} (hr : ∀ x y, P x → P y → r x = r y → x = y)
    (hA : A.Renames r R) (hB : B.Renames r R) (hmono : A.isMono)
    (hPA : ∀ x, x ∈ A.rigids ∨ x ∈ A.existentials → P x)
    (hPB : ∀ x, x ∈ B.rigids ∨ x ∈ B.existentials → P x) : A = B := by
  refine eq_of_alphaEq_of_isMono ?_ hmono
  refine Nameless.rename_injective hr (fun x hx => hPA x ?_) (fun x hx => hPB x ?_) (hA ▸ hB)
  · rwa [mem_frees_nameless, existentials_nameless] at hx
  · rwa [mem_frees_nameless, existentials_nameless] at hx

end Ty

/-! ## Renamed entries -/

namespace Entry

variable {r : Name → Name} {a b x y : Name}

/-- A declaration of a rigid variable under another name. -/
lemma renames_rigid (h : r a = b) : Renames r (.rigid a) (.rigid b) :=
  h ▸ .rigid a

/-- A declaration of an existential under another name. -/
lemma renames_unsolved (h : r x = y) : Renames r (.unsolved x) (.unsolved y) :=
  h ▸ .unsolved x

/-- A mark under another name. -/
lemma renames_marker (h : r x = y) : Renames r (.marker x) (.marker y) :=
  h ▸ .marker x

/-- A solution under another name, with its type renamed. -/
lemma renames_solved {A A' : Ty} (h : r x = y) (hA : A.Renames r A') :
    Renames r (.solved x A) (.solved y A') :=
  h ▸ .solved x hA

end Entry

/-! ## Names of a context -/

namespace Context

section Taken

variable {Γ Δ : Context} {A : Ty} {x : Name}

/-- A name is taken if it is not unused. -/
private lemma not_unused_iff : ¬ Γ.Unused x ↔ Γ.Taken x := by
  simp [Unused, Taken]

/-- A name that is taken stays so with more entries. -/
private lemma Taken.mono (h : Γ.Taken x) (hsub : Γ ⊆ Δ) : Δ.Taken x :=
  let ⟨m, hm, hx⟩ := h
  ⟨m, hsub hm, hx⟩

/-- A name is taken by the newest entry or by another one. -/
lemma taken_cons {m : Entry} : Taken (m :: Γ) x ↔ m.takenName? = some x ∨ Γ.Taken x := by
  simp [Taken]

/-- A name is taken in either part of a context. -/
lemma taken_concat : (Γ.concat Δ).Taken x ↔ Δ.Taken x ∨ Γ.Taken x := by
  simp [Taken, or_and_right, exists_or]

/-- The name of an existential is taken. -/
lemma Existential.taken (h : Γ.Existential x) : Γ.Taken x := by
  rcases h with h | ⟨T, h⟩ <;> exact ⟨_, h, rfl⟩

/-- The names of a type in scope are names of the context. -/
lemma Scopes.taken (h : Γ.Scopes A) (hx : x ∈ A.rigids ∨ x ∈ A.existentials) : Γ.Taken x := by
  rcases hx with hx | hx
  · exact ⟨_, h.rigid x hx, rfl⟩
  · exact (h.existential x hx).taken

/-- The names of a context stay its names. -/
lemma Extends.taken {new : Name → Prop} (h : Extends new Γ Δ) (hx : Γ.Taken x) : Δ.Taken x := by
  obtain ⟨m, hm, hmx⟩ := hx
  by_cases hu : ∃ y, m = .unsolved y
  · obtain ⟨y, rfl⟩ := hu
    obtain rfl : y = x := by simpa [Entry.takenName?, Entry.name] using hmx
    exact (h.existential (.inl hm)).taken
  · exact ⟨m, h.mem hm (not_exists.mp hu), hmx⟩

/-- A renaming agrees with itself. -/
lemma Agree.refl (Γ : Context) (r : Name → Name) : Γ.Agree r r :=
  fun _ _ => rfl

/-- A type in scope is renamed alike. -/
lemma Agree.renames {r r' : Name → Name} {A' : Ty} (h : Γ.Agree r' r) (hA : Γ.Scopes A)
    (hr : A.Renames r A') : A.Renames r' A' :=
  hr.congr (fun a ha => h a (hA.taken (.inl ha))) fun x hx => h x (hA.taken (.inr hx))

end Taken

/-! ## Renamed contexts -/

namespace Renames

variable {r r' : Name → Name} {Γ Γ' left right : Context} {m m' : Entry} {A A' B B' : Ty}
  {a x : Name}

/-- Every entry has its counterpart. -/
lemma exists_mem (h : Γ.Renames r Γ') (hm : m ∈ Γ) : ∃ m' ∈ Γ', m.Renames r m' := by
  obtain ⟨i, hi, rfl⟩ := List.mem_iff_getElem.mp hm
  have hi' : i < Γ'.length := h.entries.length_eq ▸ hi
  exact ⟨_, List.getElem_mem hi', h.entries.get hi hi'⟩

/-- Every entry is the counterpart of an entry. -/
lemma exists_mem_of_mem (h : Γ.Renames r Γ') (hm : m' ∈ Γ') : ∃ m ∈ Γ, m.Renames r m' := by
  obtain ⟨i, hi, rfl⟩ := List.mem_iff_getElem.mp hm
  have hi' : i < Γ.length := h.entries.length_eq ▸ hi
  exact ⟨_, List.getElem_mem hi', h.entries.get hi' hi⟩

/-- The rigid variables are declared under their new names. -/
private lemma rigid_mem (h : Γ.Renames r Γ') (ha : .rigid a ∈ Γ) : .rigid (r a) ∈ Γ' := by
  obtain ⟨m', hm', hr⟩ := h.exists_mem ha
  cases hr
  exact hm'

/-- The existentials are declared under their new names. -/
private lemma unsolved_mem (h : Γ.Renames r Γ') (hx : .unsolved x ∈ Γ) : .unsolved (r x) ∈ Γ' := by
  obtain ⟨m', hm', hr⟩ := h.exists_mem hx
  cases hr
  exact hm'

/-- The solutions are there under their new names. -/
private lemma solved_mem (h : Γ.Renames r Γ') (hA : .solved x A ∈ Γ) :
    ∃ A', .solved (r x) A' ∈ Γ' ∧ A.Renames r A' := by
  obtain ⟨m', hm', hr⟩ := h.exists_mem hA
  cases hr
  exact ⟨_, hm', ‹_›⟩

/-- Existentials stay existentials. -/
private lemma existential (h : Γ.Renames r Γ') (hx : Γ.Existential x) : Γ'.Existential (r x) :=
  hx.imp h.unsolved_mem fun ⟨_, hA⟩ => (h.solved_mem hA).imp fun _ hA' => hA'.1

/-- Names that are taken stay so under their new names. -/
private lemma taken (h : Γ.Renames r Γ') (hx : Γ.Taken x) : Γ'.Taken (r x) := by
  obtain ⟨m, hm, hmx⟩ := hx
  obtain ⟨m', hm', hr⟩ := h.exists_mem hm
  cases hr with
  | assumed => simp [Entry.takenName?] at hmx
  | _ =>
    obtain rfl : _ = x := by simpa [Entry.takenName?, Entry.name] using hmx
    exact ⟨_, hm', rfl⟩

/-- A name that is not in use in the renamed context is no renamed name. -/
private lemma ne_of_unused (h : Γ.Renames r Γ') {c : Name} (hc : Γ'.Unused c) (hx : Γ.Taken x) :
    r x ≠ c := by
  rintro rfl
  exact not_unused_iff.mpr (h.taken hx) hc

/-- A part of a context is renamed by the same function. -/
lemma of_subset {Δ Δ' : Context} (h : Γ.Renames r Γ')
    (hentries : List.Forall₂ (Entry.Renames r) Δ Δ') (hsub : Δ ⊆ Γ) : Δ.Renames r Δ' :=
  ⟨hentries, fun x y hx hy => h.injective x y (hx.mono hsub) (hy.mono hsub)⟩

/-- A slot of the context is a slot of the renamed one. -/
theorem exists_slot (h : (Context.concat (m :: left) right).Renames r Γ') :
    ∃ m' left' right', Γ' = Context.concat (m' :: left') right' ∧ m.Renames r m' ∧
      left.Renames r left' ∧ List.Forall₂ (Entry.Renames r) right right' := by
  have hparts : ∀ {right Γ'}, List.Forall₂ (Entry.Renames r) (Context.concat (m :: left) right) Γ' →
      ∃ m' left' right', Γ' = Context.concat (m' :: left') right' ∧ m.Renames r m' ∧
        List.Forall₂ (Entry.Renames r) left left' ∧
        List.Forall₂ (Entry.Renames r) right right' := by
    intro right Γ' hentries
    induction right generalizing Γ' with
    | nil =>
      cases hentries with
      | cons hm hleft => exact ⟨_, _, [], rfl, hm, hleft, .nil⟩
    | cons n right ih =>
      cases hentries with
      | cons hn hrest =>
        obtain ⟨m', left', right', rfl, hm, hleft, hright⟩ := ih hrest
        exact ⟨m', left', _ :: right', rfl, hm, hleft, .cons hn hright⟩
  obtain ⟨m', left', right', hΓ', hm, hleft, hright⟩ := hparts h.entries
  exact ⟨m', left', right', hΓ', hm, h.of_subset hleft fun n hn => by simp [hn], hright⟩

/-- A slot has a counterpart in the renamed context. -/
lemma exists_unsolved_slot (h : Γ.Renames r Γ')
    (hs : Γ = Context.concat (.unsolved x :: left) right) :
    ∃ left' right', Γ' = Context.concat (.unsolved (r x) :: left') right' :=
  Context.exists_concat_of_mem (h.unsolved_mem (by simp [hs]))

/-- The parts around an entry are renamed by the same function. -/
lemma of_slots (h : (Context.concat (m :: left) right).Renames r Γ') (hΓ' : Γ'.WellFormed)
    {left' right' : Context} (hs' : Γ' = Context.concat (m' :: left') right')
    (hm : ∀ n, m.Renames r n → n = m') :
    left.Renames r left' ∧ List.Forall₂ (Entry.Renames r) right right' := by
  obtain ⟨n, left₁, right₁, hs₁, hn, hleft, hright⟩ := h.exists_slot
  obtain rfl : n = m' := hm n hn
  obtain ⟨rfl, rfl⟩ := hΓ'.slot_unique hs₁ hs'
  exact ⟨hleft, hright⟩

/-! ## Scope -/

/-- A type in scope is in scope of the renamed context when it is renamed. -/
lemma scopes (h : Γ.Renames r Γ') (hA : Γ.Scopes A) (hr : A.Renames r A') : Γ'.Scopes A' where
  rigid a ha := by
    obtain ⟨b, hb, rfl⟩ := hr.mem_rigids.mp ha
    exact h.rigid_mem (hA.rigid b hb)
  existential x hx := by
    rw [hr.existentials] at hx
    obtain ⟨y, hy, rfl⟩ := List.mem_map.mp hx
    exact h.existential (hA.existential y hy)

section Part

variable {Δ Δ' : Context} (h : Γ.Renames r Γ') (hΔ : Δ.Renames r Δ') (hsub : Δ ⊆ Γ)

include h hΔ hsub

/-- A variable is declared in a part of the context if the renamed one is declared there. -/
private lemma of_rigid_mem (ha : Γ.Taken a) (hmem : .rigid (r a) ∈ Δ') : .rigid a ∈ Δ := by
  obtain ⟨m, hm, hr⟩ := hΔ.exists_mem_of_mem hmem
  generalize hb : r a = b at hr
  cases hr with
  | rigid c =>
    obtain rfl : a = c := h.injective a c ha ⟨_, hsub hm, rfl⟩ hb
    exact hm

/-- An existential has no solution in a part of the context if the renamed one has none there. -/
private lemma of_unsolved_mem (hx : Γ.Taken x) (hmem : .unsolved (r x) ∈ Δ') : .unsolved x ∈ Δ := by
  obtain ⟨m, hm, hr⟩ := hΔ.exists_mem_of_mem hmem
  generalize hb : r x = b at hr
  cases hr with
  | unsolved y =>
    obtain rfl : x = y := h.injective x y hx ⟨_, hsub hm, rfl⟩ hb
    exact hm

/-- An existential has a solution in a part of the context if the renamed one has one there. -/
private lemma of_solved_mem (hx : Γ.Taken x) (hmem : .solved (r x) A' ∈ Δ') :
    ∃ A, .solved x A ∈ Δ ∧ A.Renames r A' := by
  obtain ⟨m, hm, hr⟩ := hΔ.exists_mem_of_mem hmem
  generalize hb : r x = b at hr
  cases hr with
  | solved y hA =>
    obtain rfl : x = y := h.injective x y hx ⟨_, hsub hm, rfl⟩ hb
    exact ⟨_, hm, hA⟩

/-- In a part of the context a type is in scope exactly if the renamed one is. -/
theorem scopes_iff (hA : Γ.Scopes A) (hr : A.Renames r A') : Δ'.Scopes A' ↔ Δ.Scopes A := by
  refine ⟨fun hA' => ⟨fun a ha => ?_, fun x hx => ?_⟩, fun hA => hΔ.scopes hA hr⟩
  · exact of_rigid_mem h hΔ hsub (hA.taken (.inl ha)) (hA'.rigid _ (hr.mem_rigids.mpr ⟨a, ha, rfl⟩))
  · have hx' : Γ.Taken x := hA.taken (.inr hx)
    have hmem : r x ∈ A'.existentials := hr.existentials ▸ List.mem_map_of_mem hx
    exact (hA'.existential _ hmem).imp (of_unsolved_mem h hΔ hsub hx') fun ⟨T, hT⟩ =>
      (of_solved_mem h hΔ hsub hx' hT).imp fun _ hT' => hT'.1

end Part

/-- A type has a solution in both contexts or in none. -/
lemma hasSolution_iff (h : Γ.Renames r Γ') (hA : Γ.Scopes A) (hr : A.Renames r A') :
    Γ'.HasSolution A' ↔ Γ.HasSolution A := by
  constructor
  · rintro ⟨y, T, rfl, hT⟩
    obtain ⟨x, rfl, rfl⟩ := hr.exists_evar
    obtain ⟨S, hS, -⟩ := of_solved_mem h h (List.Subset.refl Γ) (scopes_evar.mp hA).taken hT
    exact ⟨x, S, rfl, hS⟩
  · rintro ⟨x, T, rfl, hT⟩
    obtain ⟨T', hT', -⟩ := h.solved_mem hT
    exact ⟨r x, T', hr.evar, hT'⟩

/-- An existential occurs in a type exactly if the renamed one occurs in the renamed type. -/
lemma mem_existentials_iff (h : Γ.Renames r Γ') (hA : Γ.Scopes A) (hr : A.Renames r A')
    (hx : Γ.Taken x) : r x ∈ A'.existentials ↔ x ∈ A.existentials := by
  rw [hr.existentials, List.mem_map]
  refine ⟨fun ⟨y, hy, hyx⟩ => ?_, fun hx => ⟨x, hx, rfl⟩⟩
  obtain rfl : y = x := h.injective y x (hA.taken (.inr hy)) hx hyx
  exact hy

/-- Types of which one is a monotype stay distinct. -/
lemma ne (h : Γ.Renames r Γ') (hA : Γ.Scopes A) (hB : Γ.Scopes B) (hAA' : A.Renames r A')
    (hBB' : B.Renames r B') (hmono : A.isMono ∨ B.isMono) (hne : A ≠ B) : A' ≠ B' := by
  rintro rfl
  rcases hmono with hmono | hmono
  · exact hne (hAA'.eq_of_isMono h.injective hBB' hmono (fun _ hx => hA.taken hx)
      fun _ hx => hB.taken hx)
  · exact hne (hBB'.eq_of_isMono h.injective hAA' hmono (fun _ hx => hB.taken hx)
      fun _ hx => hA.taken hx).symm

/-! ## What types stand for -/

/-- In a part of the context a renamed existential stands for the renamed monotype.

**Proof sketch.** Induction on the part. The names of the whole context stay apart, so that a
solution is found for the renamed existential exactly where one is found for the existential. -/
private lemma solution_of_part {Δ Δ' : Context} (h : Γ.Renames r Γ')
    (hentries : List.Forall₂ (Entry.Renames r) Δ Δ') (hΔ : Δ.WellFormed) (hsub : Δ ⊆ Γ)
    (hx : Γ.Taken x) : Δ'.solution (r x) = (Δ.solution x).rename r := by
  induction hentries generalizing x with
  | nil => rfl
  | @cons m m' Δ Δ' hm _ ih =>
    obtain ⟨hwf, hadm⟩ := wellFormed_cons.mp hΔ
    have hrest : ∀ z, Γ.Taken z →
        Context.solution Δ' (r z) = (Context.solution Δ z).rename r :=
      fun z hz => ih hwf (fun n hn => hsub (List.mem_cons_of_mem m hn)) hz
    cases hm with
    | @solved y A A' hA =>
      have hy : Γ.Taken y := ⟨_, hsub List.mem_cons_self, rfl⟩
      simp only [Context.solution]
      by_cases hxy : x = y
      · subst hxy
        rw [if_pos rfl, if_pos rfl, hA]
        refine Nameless.fillExistentials_rename fun z hz => hrest z ?_
        cases hadm with
        | solved _ _ _ _ hscope =>
          have hz' : Taken Δ z := hscope.taken (.inr (by simpa using hz))
          exact hz'.mono fun n hn => hsub (List.mem_cons_of_mem _ hn)
      · rw [if_neg hxy, if_neg fun e => hxy (h.injective x y hx hy e)]
        exact hrest x hx
    | _ => exact hrest x hx

/-- What an existential stands for is renamed with the context. -/
private lemma solution (h : Γ.Renames r Γ') (hΓ : Γ.WellFormed) (hx : Γ.Taken x) :
    Γ'.solution (r x) = (Γ.solution x).rename r :=
  h.solution_of_part h.entries hΓ (List.Subset.refl Γ) hx

/-- A renamed type stands for the renamed nameless type. -/
private lemma resolved (h : Γ.Renames r Γ') (hΓ : Γ.WellFormed) (hA : Γ.Scopes A)
    (hr : A.Renames r A') : Γ'.resolved A' = (Γ.resolved A).rename r := by
  rw [Context.resolved, hr]
  refine Nameless.fillExistentials_rename fun x hx => h.solution hΓ ?_
  exact hA.taken (.inr (by simpa using hx))

/-- Applying the renamed context to the renamed type gives the renamed result. -/
theorem apply (h : Γ.Renames r Γ') (hΓ : Γ.WellFormed) (hΓ' : Γ'.WellFormed) (hA : Γ.Scopes A)
    (hr : A.Renames r A') (hB : Γ.apply A = .ok B) (hB' : Γ'.apply A' = .ok B') :
    B.Renames r B' := by
  rw [Ty.Renames, hΓ'.nameless_apply hB', hΓ.nameless_apply hB, h.resolved hΓ hA hr]

/-! ## New names -/

/-- Only the names of the context matter.

**Proof sketch.** Induction on the entries. The name of each entry is taken, and the names in its
type are since the context is well-formed; so the renamings agree on them. -/
lemma congr (h : Γ.Renames r Γ') (hΓ : Γ.WellFormed) (hr : Γ.Agree r' r) : Γ.Renames r' Γ' := by
  refine ⟨?_, fun x y hx hy hxy => h.injective x y hx hy (by rw [← hr x hx, ← hr y hy, hxy])⟩
  have hentries := h.entries
  clear h
  induction hentries with
  | nil => exact .nil
  | @cons m m' Δ Δ' hm _ ih =>
    obtain ⟨hΔ, hadm⟩ := wellFormed_cons.mp hΓ
    have hrest : Agree Δ r' r := fun x hx => hr x (taken_cons.mpr (.inr hx))
    have hname : ∀ x, m.takenName? = some x → r' x = r x := fun x hx =>
      hr x (taken_cons.mpr (.inl hx))
    refine .cons ?_ (ih hΔ hrest)
    cases hm with
    | rigid a =>
      rw [← hname a rfl]
      exact .rigid a
    | unsolved x =>
      rw [← hname x rfl]
      exact .unsolved x
    | marker x =>
      rw [← hname x rfl]
      exact .marker x
    | assumed x hA =>
      cases hadm with
      | assumed _ _ _ hscope => exact .assumed x (hrest.renames hscope hA)
    | solved x hA =>
      rw [← hname x rfl]
      cases hadm with
      | solved _ _ _ _ hscope => exact .solved x (hrest.renames hscope hA)

/-- An entry more, whose name stays apart from those of the context if it is new. -/
theorem cons (h : Γ.Renames r Γ') (hm : m.Renames r m')
    (hnew : ∀ c, m.takenName? = some c → Γ.Taken c ∨ Γ'.Unused (r c)) :
    Renames r (m :: Γ) (m' :: Γ') := by
  refine ⟨.cons hm h.entries, fun x y hx hy hxy => ?_⟩
  have happart : ∀ c z, m.takenName? = some c → Γ.Taken z → r c = r z → c = z := by
    intro c z hc hz hcz
    rcases hnew c hc with hc' | hc'
    · exact h.injective c z hc' hz hcz
    · exact absurd hcz.symm (h.ne_of_unused hc' hz)
  rcases taken_cons.mp hx with hx | hx <;> rcases taken_cons.mp hy with hy | hy
  · exact Option.some.inj (hx.symm.trans hy)
  · exact happart x y hx hy hxy
  · exact (happart y x hy hx hxy.symm).symm
  · exact h.injective x y hx hy hxy

end Renames

/-- For a name that is not in use the function may be changed. -/
lemma agree_update {Γ : Context} {x : Name} (hx : Γ.Unused x) (r : Name → Name) (c : Name) :
    Γ.Agree (Function.update r x c) r := by
  intro y hy
  refine Function.update_of_ne ?_ c r
  rintro rfl
  exact not_unused_iff.mpr hy hx

/-- A new name may be renamed to any name that is not in use in the other context. -/
theorem Renames.update {r : Name → Name} {Γ Γ' : Context} {m m' : Entry} {x x' : Name}
    (h : Γ.Renames r Γ') (hΓ : Γ.WellFormed) (hm : m.Renames (Function.update r x x') m')
    (hmx : m.takenName? = some x) (hx : Γ.Unused x) (hx' : Γ'.Unused x') :
    Renames (Function.update r x x') (m :: Γ) (m' :: Γ') := by
  refine (h.congr hΓ (agree_update hx r x')).cons hm fun c hc => ?_
  obtain rfl : x = c := Option.some.inj (hmx.symm.trans hc)
  rw [Function.update_self]
  exact .inr hx'

end Context

end HigherRank
