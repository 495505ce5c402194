import HigherRank.Entry
import HigherRank.Usage

set_option autoImplicit false
set_option relaxedAutoImplicit false

/-!
# Contexts

A context is a sequence of entries. It is read from left to right: an entry may mention only
what entries to its left declare. Contexts grow and are cut back on the right.

## Main definitions

* `HigherRank.Context` — the contexts.
* `HigherRank.Context.members`, `HigherRank.Context.ofMembers` — the entries in reading order.
* `HigherRank.Context.concat` — one context to the right of another.
* `HigherRank.Context.dropNewest` — a context without its last entries.
* `HigherRank.Context.Operand` — what may be put to the right of a context.
* `HigherRank.Context.text`, `HigherRank.Context.literal` — the written forms.

## Main results

* `HigherRank.Context.members_cons`, `HigherRank.Context.members_concat`,
  `HigherRank.Context.members_dropNewest`, … — each operation on the entries in reading order.

## Implementation notes

The list holds the newest entry first, so that a context and its extensions share a tail, and
`m :: Γ` extends `Γ` on the right. Everything that is reported goes through `Context.members`.
-/

namespace HigherRank

/-- A sequence of entries, the rightmost one first. -/
abbrev Context := List Entry

namespace Context

/-! ## Reading order -/

/-- The entries from left to right. -/
def members (Γ : Context) : List Entry :=
  Γ.reverse

/-- The context with the given entries from left to right. -/
def ofMembers (ms : List Entry) : Context :=
  ms.reverse

/-- A context that is made from entries has these entries. -/
@[simp]
theorem members_ofMembers (ms : List Entry) : (ofMembers ms).members = ms := by
  simp [members, ofMembers]

/-- A context is made from its entries. -/
@[simp]
theorem ofMembers_members (Γ : Context) : ofMembers Γ.members = Γ := by
  simp [members, ofMembers]

/-- The empty context has no entries. -/
@[simp]
theorem members_nil : members [] = [] :=
  rfl

/-- The newest entry is the rightmost one. -/
@[simp]
theorem members_cons (m : Entry) (Γ : Context) : members (m :: Γ) = members Γ ++ [m] := by
  simp [members]

/-- A context is as long as the list of its entries. -/
@[simp]
theorem length_members (Γ : Context) : Γ.members.length = Γ.length := by
  simp [members]

/-- The entries are the same, whichever end is read first. -/
@[simp]
theorem mem_members {m : Entry} {Γ : Context} : m ∈ Γ.members ↔ m ∈ Γ := by
  simp [members]

/-- Contexts with the same entries in the same order are equal. -/
theorem members_inj {Γ Δ : Context} : Γ.members = Δ.members ↔ Γ = Δ :=
  List.reverse_inj

/-- Leaving out entries keeps the others in order. -/
@[simp]
theorem members_filter (p : Entry → Bool) (Γ : Context) :
    members (Γ.filter p) = Γ.members.filter p := by
  simp [members]

/-! ## Building and cutting -/

/-- The entries of one context followed by those of another. -/
def concat (Γ Δ : Context) : Context :=
  Δ ++ Γ

/-- Of two contexts in a row the entries of the left one come first. -/
@[simp]
theorem members_concat (Γ Δ : Context) : (Γ.concat Δ).members = Γ.members ++ Δ.members := by
  simp [members, concat]

/-- The context without its last entry. The empty context stays as it is. -/
def dropLast (Γ : Context) : Context :=
  Γ.tail

/-- Taking off the newest entry takes off the rightmost one. -/
@[simp]
theorem members_dropLast (Γ : Context) : Γ.dropLast.members = Γ.members.dropLast := by
  simp [members, dropLast]

/-- The context without its last `n` entries: empty if there are not that many, and as it is if
the number is negative. -/
def dropNewest (Γ : Context) (n : Int) : Context :=
  List.drop n.toNat Γ

/-- Taking off the newest entries leaves those on the left. -/
@[simp]
theorem members_dropNewest (Γ : Context) (n : Int) :
    (Γ.dropNewest n).members = Γ.members.take (Γ.length - n.toNat) := by
  simp only [members, dropNewest, List.take_reverse]
  rcases Nat.le_total n.toNat Γ.length with h | h
  · rw [Nat.sub_sub_self h]
  · rw [List.drop_eq_nil_of_le h, List.drop_eq_nil_of_le (by omega)]

/-- The names of the existentials without a solution, from left to right. -/
def unsolved (Γ : Context) : List Name :=
  Γ.members.filterMap fun
    | .unsolved x => some x
    | _ => none

/-- The unsolved existentials are those that are declared without a solution. -/
theorem mem_unsolved {Γ : Context} {x : Name} : x ∈ Γ.unsolved ↔ .unsolved x ∈ Γ := by
  simp only [unsolved, List.mem_filterMap, mem_members]
  constructor
  · rintro ⟨m, hm, h⟩
    cases m <;> simp at h
    exact h ▸ hm
  · exact fun h => ⟨_, h, rfl⟩

/-! ## Operands -/

/-- What may be put to the right of a context or compared with it: a context, or a plain list of
entries. -/
inductive Operand where
  | context (Δ : Context)
  | plain (ms : List Entry)

/-- The context with an operand to its right. Only contexts can stand there. -/
def append (Γ : Context) : Operand → Except UsageError Context
  | .context Δ => .ok (Γ.concat Δ)
  | .plain _ => .error .plainList

/-- Whether the operand is a context with the same entries. A plain list never is. -/
def sameAs (Γ : Context) : Operand → Bool
  | .context Δ => Γ = Δ
  | .plain _ => false

/-! ## Written forms -/

/-- The display form. -/
def text (Γ : Context) : String :=
  Text.bracketed (Γ.members.map Entry.text)

/-- The literal form. -/
def literal (Γ : Context) : String :=
  "Context.from_iterable(" ++ Text.bracketed (Γ.members.map Entry.literal) ++ ")"

end Context

end HigherRank
