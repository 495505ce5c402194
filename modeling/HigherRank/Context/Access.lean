import HigherRank.Context.Basic

set_option autoImplicit false
set_option relaxedAutoImplicit false

/-!
# Access by position

Positions count from the left, from zero; a negative position counts from the right end. A slice
takes every so many entries between two positions, forwards or backwards, and cuts what lies
outside the context.

## Main definitions

* `HigherRank.Context.AccessError` — why an access fails.
* `HigherRank.Context.get`, `HigherRank.Context.last`, `HigherRank.Context.index` — one entry.
* `HigherRank.Context.Slice`, `HigherRank.Context.slice` — several entries.

## Main results

* `HigherRank.Context.get_of_getElem?` — a position that is not negative counts the members.
* `HigherRank.Context.Slice.lt_of_mem_positionsBy` — the positions of a slice lie in the context.
-/

namespace HigherRank.Context

/-! ## Errors -/

/-- Why an access by position fails. -/
inductive AccessError where
  /-- No entry at this position. A negative position has the length added already. -/
  | outOfRange (i : Int)
  /-- The empty context has no last entry. -/
  | noLast
  /-- The entry that is looked for is not there. -/
  | absent
  /-- A slice that does not advance. -/
  | zeroStep
  deriving DecidableEq

/-- The report of a failed access. -/
def AccessError.message : AccessError → String
  | .outOfRange i => toString i
  | .noLast => "empty context has no last member"
  | .absent => ""
  | .zeroStep => "slice step cannot be zero"

/-! ## Single entries -/

/-- The rightmost entry. -/
def last : Context → Except AccessError Entry
  | [] => .error .noLast
  | m :: _ => .ok m

/-- The entry at a position. -/
def get (Γ : Context) (i : Int) : Except AccessError Entry :=
  let j := if i < 0 then i + Γ.length else i
  if 0 ≤ j ∧ j < Γ.length then (Γ.dropNewest (Γ.length - j - 1)).last
  else .error (.outOfRange j)

/-- The first position of an entry. -/
def index (Γ : Context) (m : Entry) : Except AccessError Nat :=
  match Γ.members.idxOf? m with
  | some i => .ok i
  | none => .error .absent

/-- A position that is not negative counts the members. -/
theorem get_of_getElem? {Γ : Context} {n : Nat} {m : Entry} (h : Γ.members[n]? = some m) :
    Γ.get n = .ok m := by
  have hn : n < Γ.length := by
    rw [← length_members]
    exact (List.getElem?_eq_some_iff.mp h).1
  have hd : ((Γ.length : Int) - n - 1).toNat = Γ.length - 1 - n := by omega
  have hlt : Γ.length - 1 - n < Γ.length := by omega
  rw [members, List.getElem?_reverse hn, List.getElem?_eq_getElem hlt, Option.some_inj] at h
  have h0 : ¬ ((n : Int) < 0) := by omega
  simp only [get, h0, if_false, dropNewest, hd]
  rw [if_pos ⟨by omega, by omega⟩, List.drop_eq_getElem_cons hlt, h]
  rfl

/-! ## Slices -/

/-- A choice of positions: from the first on, up to but without the second, with a step. What is
missing reaches as far as it can, and a missing step is one. -/
structure Slice where
  start : Option Int
  stop : Option Int
  step : Option Int

namespace Slice

/-- A bound of a slice in a sequence of the given length. A negative one counts from the right
end, and what is outside is moved to the nearest end of the range. -/
def clamp (length low high i : Int) : Int :=
  max low (min high (if i < 0 then i + length else i))

/-- A bound is moved at least to the left end of the range. -/
theorem le_clamp (length low high i : Int) : low ≤ clamp length low high i :=
  Int.le_max_left low _

/-- A bound is moved at most to the right end of the range. -/
theorem clamp_le {length low high i : Int} (h : low ≤ high) : clamp length low high i ≤ high :=
  Int.max_le.mpr ⟨h, Int.min_le_left high _⟩

/-- A bound that may be missing is at least what the given one and the missing one are. -/
theorem le_bound {f : Int → Int} {b d : Int} (o : Option Int) (hf : ∀ i, b ≤ f i) (hd : b ≤ d) :
    b ≤ (o.map f).getD d := by
  cases o with
  | none => exact hd
  | some i => exact hf i

/-- A bound that may be missing is at most what the given one and the missing one are. -/
theorem bound_le {f : Int → Int} {b d : Int} (o : Option Int) (hf : ∀ i, f i ≤ b) (hd : d ≤ b) :
    (o.map f).getD d ≤ b := by
  cases o with
  | none => exact hd
  | some i => exact hf i

/-- The positions of a slice with the given step in a sequence of the given length. -/
def positionsBy (s : Slice) (step : Int) (length : Nat) : List Nat :=
  let low : Int := if step < 0 then -1 else 0
  let high : Int := if step < 0 then length - 1 else length
  let first := (s.start.map (clamp length low high)).getD (if step < 0 then high else low)
  let limit := (s.stop.map (clamp length low high)).getD (if step < 0 then low else high)
  let distance := if step < 0 then first - limit else limit - first
  let count := ((distance + step.natAbs - 1) / step.natAbs).toNat
  (List.range count).map fun k : Nat => (first + k * step).toNat

/-- The positions of a slice in a sequence of the given length. -/
def positions (s : Slice) (length : Nat) : Except AccessError (List Nat) :=
  let step := s.step.getD 1
  if step = 0 then .error .zeroStep else .ok (s.positionsBy step length)

/-- The steps of a slice stay on the near side of its limit. -/
theorem mul_lt_of_lt_count {distance a : Int} {k : Nat} (ha : 0 < a)
    (hk : k < ((distance + a - 1) / a).toNat) : k * a < distance := by
  have h := (Int.le_ediv_iff_mul_le ha).mp
    (show (k : Int) + 1 ≤ (distance + a - 1) / a by omega)
  rw [Int.add_mul, Int.one_mul] at h
  omega

/-- The positions of a slice lie in the sequence.

**Proof sketch.** By the sign of the step. The first position is clamped into the sequence, and the
limit to its ends. A position is the first one plus a multiple of the step, and as long as it is
counted this multiple is smaller than the distance from the first position to the limit
(`mul_lt_of_lt_count`). -/
theorem lt_of_mem_positionsBy {s : Slice} {step : Int} {length i : Nat} (hstep : step ≠ 0)
    (hi : i ∈ s.positionsBy step length) : i < length := by
  obtain ⟨start, stop, _⟩ := s
  simp only [positionsBy, List.mem_map, List.mem_range] at hi
  obtain ⟨k, hk, rfl⟩ := hi
  have hpos : (0 : Int) < step.natAbs := by omega
  rcases Int.lt_or_gt_of_ne hstep with h | h
  · simp only [h, if_true] at hk ⊢
    generalize hfirst : ((start.map _).getD _ : Int) = first at hk ⊢
    generalize hlimit : ((stop.map _).getD _ : Int) = limit at hk
    have hfirst_le : first ≤ length - 1 :=
      hfirst ▸ bound_le start (fun _ => clamp_le (by omega)) (Int.le_refl _)
    have hlimit_ge : -1 ≤ limit := hlimit ▸ le_bound stop (fun _ => le_clamp ..) (Int.le_refl _)
    have hsteps := mul_lt_of_lt_count hpos hk
    have habs : (k : Int) * step = -(k * step.natAbs) := by
      rw [Int.ofNat_natAbs_of_nonpos (Int.le_of_lt h), Int.mul_neg, Int.neg_neg]
    have hnonneg : 0 ≤ (k : Int) * step.natAbs := Int.mul_nonneg (by omega) (by omega)
    rw [habs]
    omega
  · have hn : ¬ step < 0 := by omega
    simp only [hn, if_false] at hk ⊢
    generalize hfirst : ((start.map _).getD _ : Int) = first at hk ⊢
    generalize hlimit : ((stop.map _).getD _ : Int) = limit at hk
    have hfirst_ge : 0 ≤ first := hfirst ▸ le_bound start (fun _ => le_clamp ..) (Int.le_refl _)
    have hlimit_le : limit ≤ length :=
      hlimit ▸ bound_le stop (fun _ => clamp_le (by omega)) (Int.le_refl _)
    have hsteps := mul_lt_of_lt_count hpos hk
    have habs : (k : Int) * step = k * step.natAbs := by
      rw [Int.natAbs_of_nonneg (Int.le_of_lt h)]
    have hnonneg : 0 ≤ (k : Int) * step.natAbs := Int.mul_nonneg (by omega) (by omega)
    rw [habs]
    omega

end Slice

/-- The entries of a slice, in the order of its positions. -/
def slice (Γ : Context) (s : Slice) : Except AccessError Context :=
  (s.positions Γ.length).map fun is => ofMembers (is.filterMap (Γ.members[·]?))

end HigherRank.Context
