import Minnal.Library.Bytes

/-!
# The strings with a given beginning

In the lexicographic order, the strings that begin with `p` are an interval. It starts at `p`; where
it ends depends on the last byte of `p` that is not the largest one (`between_snoc_iff`,
`between_snoc_max_iff`).
-/

namespace PrefixRanges

open ByteCodec

variable {a b : List UInt8}

theorem append_lt_append_left (p : List UInt8) : p ++ a < p ++ b ↔ a < b := by
  induction p with
  | nil => rfl
  | cons x p ih => rw [List.cons_append, List.cons_append, List.cons_lt_cons_iff, ih]; simp

theorem append_le_append_left (p : List UInt8) : p ++ a ≤ p ++ b ↔ a ≤ b := by
  rw [← not_lt, append_lt_append_left, not_lt]

variable {p k : List UInt8}

theorem le_of_isPrefix (h : p <+: k) : p ≤ k := by
  obtain ⟨r, rfl⟩ := h
  have hnil : p ++ [] ≤ p ++ r := (append_le_append_left p).mpr (nil_le r)
  rwa [List.append_nil] at hnil

/-- What lies between two strings with the same beginning begins so too. -/
theorem isPrefix_of_between (ha : p ++ a ≤ k) (hb : k < p ++ b) : p <+: k := by
  induction p generalizing k with
  | nil => exact List.nil_prefix
  | cons x p ih =>
    rcases k with _ | ⟨y, k⟩
    · exact absurd ha (not_le.mpr (List.nil_lt_cons x _))
    rw [List.cons_append, ← not_lt, List.cons_lt_cons_iff] at ha
    rw [List.cons_append, List.cons_lt_cons_iff] at hb
    push Not at ha
    rcases hb with hlt | ⟨rfl, hb⟩
    · exact absurd hlt (not_lt.mpr ha.1)
    · exact (List.prefix_cons_inj y).mpr (ih (ha.2 rfl) hb)

/-- A byte that is not the largest one is below the next. -/
theorem lt_succ {b : UInt8} (hb : b ≠ 0xff) {x : UInt8} : x < b + 1 ↔ x ≤ b := by
  have hmax : b.toNat ≠ 255 := fun h => hb (UInt8.toNat_inj.mp h)
  have hlt := b.toNat_lt
  rw [UInt8.lt_iff_toNat_lt, UInt8.le_iff_toNat_le, UInt8.toNat_add, Nat.mod_eq_of_lt]
  · exact Nat.lt_succ_iff
  · exact Nat.lt_of_le_of_ne (Nat.succ_le_of_lt hlt) fun h => hmax (Nat.succ.inj h)

/-- **The interval of a beginning** whose last byte can be raised. -/
theorem between_snoc_iff (p : List UInt8) {b : UInt8} (hb : b ≠ 0xff) :
    p ++ [b] ≤ k ∧ k < p ++ [b + 1] ↔ p ++ [b] <+: k := by
  constructor
  · rintro ⟨hle, hlt⟩
    obtain ⟨r, rfl⟩ := isPrefix_of_between hle hlt
    rw [append_le_append_left] at hle
    rw [append_lt_append_left] at hlt
    rcases r with _ | ⟨x, r⟩
    · exact absurd hle (not_le.mpr (List.nil_lt_cons b []))
    rw [← not_lt, List.cons_lt_cons_iff] at hle
    rw [List.cons_lt_cons_iff] at hlt
    push Not at hle
    have hx : x ≤ b := by
      rcases hlt with hlt | ⟨-, hlt⟩
      · exact (lt_succ hb).mp hlt
      · exact absurd hlt (List.not_lt_nil r)
    obtain rfl := le_antisymm hx hle.1
    exact ⟨r, by simp⟩
  · rintro ⟨r, rfl⟩
    rw [List.append_assoc, append_le_append_left, append_lt_append_left]
    refine ⟨le_of_isPrefix ⟨r, rfl⟩, ?_⟩
    exact List.cons_lt_cons_iff.mpr (.inl ((lt_succ hb).mpr le_rfl))

/-- **The interval of a beginning** whose last byte is the largest one ends where the interval of
the bytes before it ends. -/
theorem between_snoc_max_iff (hp : p <+: k) : p ++ [0xff] ≤ k ↔ p ++ [0xff] <+: k := by
  refine ⟨fun hle => ?_, le_of_isPrefix⟩
  obtain ⟨r, rfl⟩ := hp
  rw [append_le_append_left] at hle
  rcases r with _ | ⟨x, r⟩
  · exact absurd hle (not_le.mpr (List.nil_lt_cons _ []))
  rw [← not_lt, List.cons_lt_cons_iff] at hle
  push Not at hle
  have hmax : x ≤ 0xff := UInt8.le_iff_toNat_le.mpr (Nat.le_of_lt_succ x.toNat_lt)
  obtain rfl := le_antisymm hmax hle.1
  exact ⟨r, by simp⟩

end PrefixRanges
