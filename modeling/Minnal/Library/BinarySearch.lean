import Mathlib.Order.Nat

/-!
# Binary search

A search knows of each index only how the element there compares with the target. `narrow` keeps a
base and a size and halves the size, as a slice's own search does; `bisect` keeps both ends of the
range and stops at the first equal element. Where the comparisons are **directed**, smaller
elements first and at most one of them equal, both find the index that compares equal
(`search_eq_some_iff`, `bisect_eq_some_iff`), and so they agree.
-/

namespace BinarySearch

variable (f : ℕ → Ordering)

/-- Halve the range of `size` indices from `base`, to one index. -/
def narrow (base size : ℕ) : ℕ :=
  if 1 < size then
    narrow (if f (base + size / 2) = .gt then base else base + size / 2) (size - size / 2)
  else base
termination_by size

/-- A slice's `binary_search_by`: the index that compares equal. -/
def search (n : ℕ) : Option ℕ :=
  if n = 0 then none
  else if f (narrow f 0 n) = .eq then some (narrow f 0 n) else none

/-- Search between two ends, the upper one exclusive. -/
def bisect (lo hi : ℕ) : Option ℕ :=
  if lo < hi then
    match f (lo + (hi - lo) / 2) with
    | .eq => some (lo + (hi - lo) / 2)
    | .lt => bisect (lo + (hi - lo) / 2 + 1) hi
    | .gt => bisect lo (lo + (hi - lo) / 2)
  else none
termination_by hi - lo

/-- Below `n`, what follows an element that is not less than the target is greater. -/
def Directed (n : ℕ) : Prop := ∀ i j, i < j → j < n → f i ≠ .lt → f j = .gt

variable {f} {n : ℕ}

theorem Directed.eq_of_eq (h : Directed f n) {i j : ℕ} (hi : i < n) (hj : j < n)
    (hfi : f i = .eq) (hfj : f j = .eq) : i = j := by
  rcases lt_trichotomy i j with hlt | heq | hgt
  · exact absurd (h i j hlt hj (by simp [hfi])) (by simp [hfj])
  · exact heq
  · exact absurd (h j i hgt hi (by simp [hfj])) (by simp [hfi])

/-- Narrowing keeps an equal element in the range. -/
theorem narrow_eq (h : Directed f n) {i : ℕ} (hi : i < n) (hf : f i = .eq) {base size : ℕ}
    (hlo : base ≤ i) (hhi : i < base + size) (hn : base + size ≤ n) : narrow f base size = i := by
  induction base, size using narrow.induct f with
  | case1 base size hsize ih =>
    rw [narrow, if_pos hsize]
    split_ifs at ih ⊢ with hgt
    · have hlt : i < base + size / 2 := by
        by_contra hge
        rcases (not_lt.mp hge).eq_or_lt with heq | hlt
        · exact absurd (heq ▸ hgt) (by simp [hf])
        · exact absurd (h _ _ hlt hi (by simp [hgt])) (by simp [hf])
      exact ih hlo (by omega) (by omega)
    · have hle : base + size / 2 ≤ i := by
        by_contra hlt
        exact hgt (h _ _ (not_le.mp hlt) (by omega) (by simp [hf]))
      exact ih hle (by omega) (by omega)
  | case2 base size hsize =>
    rw [narrow, if_neg hsize]
    omega

theorem narrow_lt {base size : ℕ} (hsize : 0 < size) : narrow f base size < base + size := by
  induction base, size using narrow.induct f with
  | case1 base size hlt ih =>
    rw [narrow, if_pos hlt]
    have := ih (by omega)
    split_ifs at this ⊢
    · omega
    · omega
  | case2 base size hlt =>
    rw [narrow, if_neg hlt]
    omega

/-- **A slice's search** finds the index that compares equal. -/
theorem search_eq_some_iff (h : Directed f n) {i : ℕ} :
    search f n = some i ↔ i < n ∧ f i = .eq := by
  rw [search]
  constructor
  · intro hsome
    split_ifs at hsome with hn heq
    obtain rfl := Option.some.inj hsome
    have hlt : narrow f 0 n < 0 + n := narrow_lt (Nat.pos_of_ne_zero hn)
    exact ⟨by omega, heq⟩
  · rintro ⟨hi, hf⟩
    rw [if_neg (by omega), narrow_eq h hi hf (Nat.zero_le i) (by omega) (by omega), if_pos hf]

private theorem bisect_eq_some {lo hi i : ℕ} (h : bisect f lo hi = some i) :
    lo ≤ i ∧ i < hi ∧ f i = .eq := by
  fun_induction bisect f lo hi with
  | case1 lo hi hlt heq =>
    obtain rfl := Option.some.inj h
    exact ⟨by omega, by omega, heq⟩
  | case2 lo hi hlt hless ih =>
    obtain ⟨hle, hlt', heq⟩ := ih h
    exact ⟨by omega, hlt', heq⟩
  | case3 lo hi hlt hmore ih =>
    obtain ⟨hle, hlt', heq⟩ := ih h
    exact ⟨hle, by omega, heq⟩
  | case4 lo hi hlt => cases h

private theorem bisect_of_eq (h : Directed f n) {lo hi i : ℕ} (hn : hi ≤ n) (hle : lo ≤ i)
    (hlt : i < hi) (hf : f i = .eq) : bisect f lo hi = some i := by
  fun_induction bisect f lo hi with
  | case1 lo hi hrange heq =>
    exact congrArg some (h.eq_of_eq (by omega) (by omega) heq hf)
  | case2 lo hi hrange hless ih =>
    refine ih hn ?_ hlt
    by_contra hmid
    rcases (Nat.lt_succ_iff.mp (not_le.mp hmid)).eq_or_lt with heq | hbelow
    · exact absurd (heq ▸ hf) (by simp [hless])
    · exact absurd (h _ _ hbelow (by omega) (by simp [hf])) (by simp [hless])
  | case3 lo hi hrange hmore ih =>
    refine ih (by omega) hle ?_
    by_contra hmid
    rcases (not_lt.mp hmid).eq_or_lt with heq | habove
    · exact absurd (heq ▸ hmore) (by simp [hf])
    · exact absurd (h _ _ habove (by omega) (by simp [hmore])) (by simp [hf])
  | case4 lo hi hrange => omega

/-- **A search between two ends** finds the index that compares equal. -/
theorem bisect_eq_some_iff (h : Directed f n) {lo hi i : ℕ} (hn : hi ≤ n) :
    bisect f lo hi = some i ↔ lo ≤ i ∧ i < hi ∧ f i = .eq :=
  ⟨bisect_eq_some, fun ⟨hle, hlt, hf⟩ => bisect_of_eq h hn hle hlt hf⟩

end BinarySearch
