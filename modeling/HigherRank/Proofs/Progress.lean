import HigherRank.Proofs.Instantiation
import Mathlib.Tactic.Ring

set_option autoImplicit false
set_option relaxedAutoImplicit false

/-!
# How far a run gets

A run that succeeds leaves at most one new existential without a solution for every quantifier, and
without quantifiers it solves an existential or does nothing at all. Each existential that it solves
at most doubles the height of the types that are still to be compared.

## Main definitions

* `HigherRank.Context.Advances` — what has become of a context after a run.

## Main results

* `HigherRank.Context.Advances.trans` — one run after another.
* `HigherRank.Derivation.advances` — what a run does to the measures of its context.
-/

namespace HigherRank

open Context (Extends WellFormed Instantiates)

namespace Context

/-- After a run for types with `q` quantifiers and of height `h` there are at most `q` more
existentials without a solution. If there was no quantifier, there are fewer of them, or the context
is the same. A type is at most twice as high for every existential that has been solved. -/
structure Advances (Γ Δ : Context) (q h : Nat) : Prop where
  pending : Δ.pending ≤ Γ.pending + q
  solves : q = 0 → Δ = Γ ∨ Δ.pending < Γ.pending
  height : ∀ k, h ≤ k → ∀ A, Γ.Scopes A → (Γ.resolved A).height ≤ k →
    (Δ.resolved A).height * 2 ^ Δ.pending ≤ k * 2 ^ (Γ.pending + q)

namespace Advances

variable {new : Name → Prop} {Γ Δ Θ : Context} {q q₁ q₂ h h₁ h₂ : Nat} {x : Name} {T : Ty}

/-- A run that changes nothing keeps all counts. -/
private lemma refl (Γ : Context) (q h : Nat) : Γ.Advances Γ q h where
  pending := by omega
  solves _ := .inl rfl
  height k _ A _ hA :=
    Nat.mul_le_mul hA (Nat.pow_le_pow_right (by omega) (by omega))

/-- More may be allowed. -/
lemma mono (hΔ : Γ.Advances Δ q h₁) (hh : h₁ ≤ h) : Γ.Advances Δ q h :=
  ⟨hΔ.pending, hΔ.solves, fun k hk => hΔ.height k (by omega)⟩

/-- A run after another, for types no higher than the first one may have made them.

**Proof sketch.** What is pending adds up. For the heights let `k'` be the height to which the first
run may have let the type grow, and at least the height for which the second run is measured; the
growth of the second run from `k'` on and that of the first one multiply. -/
theorem trans (hΔ : Γ.Advances Δ q₁ h) (hΘ : Δ.Advances Θ q₂ h₂) (hext : Extends new Γ Δ)
    (hh : h₂ * 2 ^ Δ.pending ≤ h * 2 ^ (Γ.pending + q₁)) : Γ.Advances Θ (q₁ + q₂) h := by
  have hp₁ := hΔ.pending
  have hp₂ := hΘ.pending
  refine ⟨by omega, fun hq => ?_, fun k hk A hA hAk => ?_⟩
  · rcases hΔ.solves (by omega) with rfl | hlt
    · exact hΘ.solves (by omega)
    · exact .inr (by omega)
  · have hAΔ := hΔ.height k hk A hA hAk
    have hk' : h₂ * 2 ^ Δ.pending ≤ k * 2 ^ (Γ.pending + q₁) :=
      Nat.le_trans hh (Nat.mul_le_mul_right _ hk)
    -- the height to which types have grown between the two runs
    let k' := max (Δ.resolved A).height h₂
    have hmax : k' * 2 ^ Δ.pending ≤ k * 2 ^ (Γ.pending + q₁) := by
      rcases Nat.le_total (Δ.resolved A).height h₂ with hle | hle
      · simpa only [k', Nat.max_eq_right hle] using hk'
      · simpa only [k', Nat.max_eq_left hle] using hAΔ
    calc (Θ.resolved A).height * 2 ^ Θ.pending
        ≤ k' * 2 ^ (Δ.pending + q₂) :=
          hΘ.height k' (Nat.le_max_right _ _) A (hext.scopes hA) (Nat.le_max_left _ _)
      _ = k' * 2 ^ Δ.pending * 2 ^ q₂ := by rw [Nat.pow_add, Nat.mul_assoc]
      _ ≤ k * 2 ^ (Γ.pending + q₁) * 2 ^ q₂ := Nat.mul_le_mul_right _ hmax
      _ = k * 2 ^ (Γ.pending + (q₁ + q₂)) := by
        rw [Nat.mul_assoc, ← Nat.pow_add, Nat.add_assoc]

/-- Solving one existential. -/
private lemma of_instantiates (hT : Γ.Instantiates Δ x T) (hΓ : Γ.WellFormed) (hΔ : Δ.WellFormed)
    (hext : Extends new Γ Δ) : Γ.Advances Δ T.nameless.quantifiers (Γ.resolved T).height := by
  have hp := hT.pending
  refine ⟨by omega, fun hq => .inr (by omega), fun k hk A hA hAk => ?_⟩
  have hle := hT.height_resolved_le hΓ hΔ hext hA
  calc (Δ.resolved A).height * 2 ^ Δ.pending
      ≤ (k * 2) * 2 ^ Δ.pending := Nat.mul_le_mul_right _ (by omega)
    _ = k * 2 ^ (Δ.pending + 1) := by rw [Nat.pow_succ]; ring
    _ ≤ k * 2 ^ (Γ.pending + T.nameless.quantifiers) :=
      Nat.mul_le_mul_left _ (Nat.pow_le_pow_right (by omega) hp)

/-- A run in the scope of a quantifier, seen from outside of the scope. -/
private lemma close {Γ' Δ' : Context} {q' h' : Nat} (hΔ : Γ'.Advances Δ' q' h') (hq : 0 < q)
    (hpending : Γ'.pending + q' ≤ Γ.pending + q) (hlost : Δ.pending ≤ Δ'.pending) (hh : h' ≤ h)
    (hΓ : ∀ A, Γ.Scopes A → Γ'.Scopes A ∧ Γ'.resolved A = Γ.resolved A ∧
      Δ'.resolved A = Δ.resolved A) : Γ.Advances Δ q h := by
  have hp := hΔ.pending
  refine ⟨by omega, fun hzero => by omega, fun k hk A hA hAk => ?_⟩
  obtain ⟨hA', hresΓ, hresΔ⟩ := hΓ A hA
  have hle := hΔ.height k (by omega) A hA' (hresΓ ▸ hAk)
  rw [hresΔ] at hle
  calc (Δ.resolved A).height * 2 ^ Δ.pending
      ≤ (Δ.resolved A).height * 2 ^ Δ'.pending :=
        Nat.mul_le_mul_left _ (Nat.pow_le_pow_right (by omega) hlost)
    _ ≤ k * 2 ^ (Γ'.pending + q') := hle
    _ ≤ k * 2 ^ (Γ.pending + q) :=
      Nat.mul_le_mul_left _ (Nat.pow_le_pow_right (by omega) hpending)

end Advances

end Context

/-! ## Queries -/

/-- The number of quantifiers of two types. -/
def quantifiersOf (A B : Ty) : Nat :=
  A.nameless.quantifiers + B.nameless.quantifiers

namespace Session

/-- The height of the higher one of two types, with all solutions filled in. -/
def heightOf (s : Session) (A B : Ty) : Nat :=
  max (s.context.resolved A).height (s.context.resolved B).height

section Heights

variable {s : Session} {A B A' B' A₁ A₂ B₁ B₂ : Ty}

/-- Applying the context does not change the height of a query. -/
lemma heightOf_apply (h : s.context.WellFormed) (hA : s.context.apply A = .ok A')
    (hB : s.context.apply B = .ok B') : s.heightOf A' B' = s.heightOf A B := by
  rw [heightOf, h.resolved_apply hA, h.resolved_apply hB, heightOf]

/-- Two types in scope have grown together with the types of the run. -/
lemma heightOf_mul_le {s₁ : Session} {q k : Nat} (hadv : s.context.Advances s₁.context q k)
    (h : s.WellPosed A B) (hle : s.heightOf A B ≤ k) :
    s₁.heightOf A B * 2 ^ s₁.context.pending ≤ k * 2 ^ (s.context.pending + q) := by
  unfold heightOf at hle ⊢
  have hA := hadv.height k (Nat.le_refl k) A h.left (by omega)
  have hB := hadv.height k (Nat.le_refl k) B h.right (by omega)
  rcases Nat.le_total (s₁.context.resolved A).height (s₁.context.resolved B).height with hAB | hAB
  · rwa [Nat.max_eq_right hAB]
  · rwa [Nat.max_eq_left hAB]

/-- The domains are less high than the arrows. -/
lemma heightOf_domains (s : Session) (A₁ A₂ B₁ B₂ : Ty) :
    s.heightOf B₁ A₁ + 1 ≤ s.heightOf (.arr A₁ A₂) (.arr B₁ B₂) := by
  simp only [heightOf, Context.resolved_arr, Nameless.height]
  omega

/-- The codomains are less high than the arrows. -/
lemma heightOf_codomains (s : Session) (A₁ A₂ B₁ B₂ : Ty) :
    s.heightOf A₂ B₂ + 1 ≤ s.heightOf (.arr A₁ A₂) (.arr B₁ B₂) := by
  simp only [heightOf, Context.resolved_arr, Nameless.height]
  omega

/-- Opening a quantifier on the right does not add to the height. -/
lemma heightOf_openRight (h : s.context.WellFormed) (A : Ty) (b : Name) (B : Ty) :
    s.openRight.heightOf A (B.subst b (.var s.rightName)) ≤ s.heightOf A (.all b B) := by
  have hB := height_openRight h b B
  have hA : s.openRight.context.resolved A = s.context.resolved A := rfl
  simp only [heightOf, hA]
  omega

/-- Opening a quantifier on the left does not add to the height. -/
lemma heightOf_openLeft (h : s.context.WellFormed) (a : Name) (A B : Ty) :
    s.openLeft.heightOf (A.subst a (.evar s.leftName)) B ≤ s.heightOf (.all a A) B := by
  have hA := height_openLeft h a A
  have hB : s.openLeft.context.resolved B = s.context.resolved B := rfl
  simp only [heightOf, hB]
  omega

end Heights

end Session

section Quantifiers

variable {Γ : Context} {A B A' B' A₁ A₂ B₁ B₂ : Ty}

/-- Applying the context does not change the quantifiers of a query. -/
lemma quantifiersOf_apply (h : Γ.WellFormed) (hA : Γ.apply A = .ok A') (hB : Γ.apply B = .ok B') :
    quantifiersOf A' B' = quantifiersOf A B := by
  rw [quantifiersOf, h.quantifiers_apply hA, h.quantifiers_apply hB, quantifiersOf]

/-- The quantifiers of two arrows are those of their domains and of their codomains. -/
lemma quantifiersOf_arr (A₁ A₂ B₁ B₂ : Ty) :
    quantifiersOf (.arr A₁ A₂) (.arr B₁ B₂) = quantifiersOf B₁ A₁ + quantifiersOf A₂ B₂ := by
  simp only [quantifiersOf, Ty.nameless, Ty.namelessUnder, Nameless.quantifiers]
  omega

/-- Opening a quantifier on the right leaves one fewer. -/
lemma quantifiersOf_allRight (A : Ty) (b c : Name) (B : Ty) :
    quantifiersOf A (B.subst b (.var c)) + 1 = quantifiersOf A (.all b B) := by
  have hB := Ty.quantifiers_subst b B (R := .var c) rfl
  simp only [quantifiersOf]
  omega

/-- Opening a quantifier on the left leaves one fewer. -/
lemma quantifiersOf_allLeft (a x : Name) (A B : Ty) :
    quantifiersOf (A.subst a (.evar x)) B + 1 = quantifiersOf (.all a A) B := by
  have hA := Ty.quantifiers_subst a A (R := .evar x) rfl
  simp only [quantifiersOf]
  omega

end Quantifiers

/-! ## Runs -/

namespace Derivation

open Context (Advances)

variable {s s' : Session} {A B T : Ty} {x : Name}

/-- A run that solves an existential. -/
private lemma advances_of_faces (h : Derivation s A B s') (hAB : Session.Faces x T A B)
    (hxu : .unsolved x ∈ s.context) (hx : x ∉ (s.context.resolved T).existentials) :
    s.context.Advances s'.context (quantifiersOf A B) (s.heightOf A B) := by
  have hgrows := h.grows
  have hadv := Context.Advances.of_instantiates (h.instantiates hAB hxu hx) h.wellPosed.wellFormed
    hgrows.wellFormed hgrows.extension
  have hzero : (Ty.evar x).nameless.quantifiers = 0 := rfl
  rcases hAB with ⟨rfl, rfl⟩ | ⟨rfl, rfl⟩
  · have hq : quantifiersOf (.evar x) B = B.nameless.quantifiers := by
      rw [quantifiersOf, hzero, Nat.zero_add]
    rw [hq]
    exact hadv.mono (Nat.le_max_right _ _)
  · have hq : quantifiersOf A (.evar x) = A.nameless.quantifiers := by
      rw [quantifiersOf, hzero, Nat.add_zero]
    rw [hq]
    exact hadv.mono (Nat.le_max_left _ _)

/-- An existential that is articulated does not occur in the arrow, with all solutions filled in. -/
private lemma not_mem_of_faces_arr {T₁ T₂ : Ty} (h : Derivation s A B s')
    (hAB : Session.Faces x (.arr T₁ T₂) A B) :
    x ∉ (s.context.resolved (.arr T₁ T₂)).existentials := by
  intro hx
  have hcore := h.core_eq_of_occurs hAB hx
  simp [Context.resolved_arr, Nameless.core] at hcore

/-- What a run does to the measures of its context.

**Proof sketch.** Induction on the derivation. Where an existential is solved or articulated, the
whole run solves it. -/
theorem advances (h : Derivation s A B s') :
    s.context.Advances s'.context (quantifiersOf A B) (s.heightOf A B) := by
  induction h with
  | same => exact .refl _ _ _
  | @arr s s₁ s₂ A₁ A₂ B₁ B₂ A₂' B₂' h hd₁ hA hB hd₂ ih₁ ih₂ =>
    have hdom := s.heightOf_domains A₁ A₂ B₁ B₂
    have hcod := s.heightOf_codomains A₁ A₂ B₁ B₂
    have ih₁ := ih₁.mono (h := s.heightOf (.arr A₁ A₂) (.arr B₁ B₂)) (by omega)
    rw [quantifiersOf_arr, ← quantifiersOf_apply hd₁.grows.wellFormed hA hB]
    refine ih₁.trans ih₂ hd₁.grows.extension ?_
    rw [Session.heightOf_apply hd₁.grows.wellFormed hA hB]
    exact Session.heightOf_mul_le ih₁ h.codomains (by omega)
  | @allRight s s₁ A B b Δ h hd hΔ ih =>
    have hq := quantifiersOf_allRight A b s.rightName B
    have hheight := Session.heightOf_openRight h.wellFormed A b B
    rw [hΔ] at ih
    refine ih.close (by omega) ?_ (by simp) hheight fun C hC => ⟨hC.cons _, rfl, rfl⟩
    simp only [Session.context_openRight, Context.pending_rigid]
    omega
  | @allLeft s s₁ A B a Δ block h _ hd hΔ ih =>
    have hq := quantifiersOf_allLeft a s.leftName A B
    have hheight := Session.heightOf_openLeft h.wellFormed a A B
    have hclosed := (hd.grows.closeLeft hΔ).1
    have hwf₁ := hd.grows.wellFormed
    rw [hΔ] at ih hwf₁
    refine ih.close (by omega) ?_ (by simp) hheight fun C hC => ⟨(hC.cons _).cons _, rfl, ?_⟩
    · simp only [Session.context_openLeft, Context.pending_unsolved, Context.pending_marker]
      omega
    · exact hwf₁.resolved_left_of_slot (hclosed.extension.scopes hC)
  | solved h _ hA hB _ ih =>
    rwa [quantifiersOf_apply h.wellFormed hA hB, Session.heightOf_apply h.wellFormed hA hB] at ih
  | @articulateLeft s s₁ s₂ x left right B₁ B₂ C' B₂' h hs hx hd₁ hA hB hd₂ _ _ =>
    have hd := Derivation.articulateLeft h hs hx hd₁ hA hB hd₂
    have hAB : Session.Faces x (.arr B₁ B₂) (.evar x) (.arr B₁ B₂) := .inl ⟨rfl, rfl⟩
    exact hd.advances_of_faces hAB (by simp [hs]) (hd.not_mem_of_faces_arr hAB)
  | @articulateRight s s₁ s₂ x left right A₁ A₂ A₂' C' h hs hx hd₁ hA hB hd₂ _ _ =>
    have hd := Derivation.articulateRight h hs hx hd₁ hA hB hd₂
    have hAB : Session.Faces x (.arr A₁ A₂) (.arr A₁ A₂) (.evar x) := .inr ⟨rfl, rfl⟩
    exact hd.advances_of_faces hAB (by simp [hs]) (hd.not_mem_of_faces_arr hAB)
  | @solve s x T A B left right h hs hT hscope hAB =>
    refine (Derivation.solve h hs hT hscope hAB).advances_of_faces hAB (by simp [hs]) fun hmem => ?_
    -- what is in scope on the left of the slot does not mention the existential of the slot
    have hwf := h.wellFormed
    rw [hs] at hwf hmem
    rw [hwf.resolved_left_of_slot hscope] at hmem
    have hleft := hwf.of_concat.of_cons.existentials_resolved hscope hmem
    exact hwf.not_mem_left rfl hleft

end Derivation

end HigherRank
