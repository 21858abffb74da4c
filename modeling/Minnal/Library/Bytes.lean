import Mathlib

/-!
# Byte strings: order, slices, fixed-width integers

Byte strings are `List UInt8`, ordered lexicographically. A file is a byte string too, and
a positional read of `n` bytes at offset `off` is the slice `readAt file off n`, shorter
than `n` only when the file ends first.

Integers are stored in fixed width: `leBytes w n` is the little-endian form of `n` in `w`
bytes, taken modulo `256 ^ w` as a machine store does, and `leNat` reads a byte string back
whatever its length. The big-endian pair is the reversed one.
-/

namespace ByteCodec

instance instLinearOrderUInt8 : LinearOrder UInt8 where
  le_refl := UInt8.le_refl
  le_trans _ _ _ := UInt8.le_trans
  lt_iff_le_not_ge a b := by
    simp only [UInt8.lt_iff_toNat_lt, UInt8.le_iff_toNat_le]
    omega
  le_antisymm _ _ := UInt8.le_antisymm
  le_total := UInt8.le_total
  toDecidableLE := inferInstance
  toDecidableEq := inferInstance
  toDecidableLT := inferInstance

/-! ### Fixed-width integers -/

/-- The `w` low bytes of `n`, least significant first. -/
def leBytes : ℕ → ℕ → List UInt8
  | 0, _ => []
  | w + 1, n => UInt8.ofNat n :: leBytes w (n / 256)

/-- The number a little-endian byte string spells. -/
def leNat : List UInt8 → ℕ
  | [] => 0
  | b :: bs => b.toNat + 256 * leNat bs

/-- The `w` low bytes of `n`, most significant first. -/
def beBytes (w n : ℕ) : List UInt8 := (leBytes w n).reverse

/-- The number a big-endian byte string spells. -/
def beNat (bs : List UInt8) : ℕ := leNat bs.reverse

@[simp] theorem length_leBytes (w n : ℕ) : (leBytes w n).length = w := by
  induction w generalizing n with
  | zero => rfl
  | succ w ih => simp [leBytes, ih]

@[simp] theorem length_beBytes (w n : ℕ) : (beBytes w n).length = w := by
  simp [beBytes]

/-- Reading back a stored number gives it modulo the width. -/
theorem leNat_leBytes (w n : ℕ) : leNat (leBytes w n) = n % 256 ^ w := by
  induction w generalizing n with
  | zero => simp [leBytes, leNat, Nat.mod_one]
  | succ w ih =>
    have hb : (UInt8.ofNat n).toNat = n % 256 := UInt8.toNat_ofNat'
    rw [leBytes, leNat, ih, hb, pow_succ', Nat.mod_mul]

theorem leNat_leBytes_of_lt {w n : ℕ} (h : n < 256 ^ w) : leNat (leBytes w n) = n := by
  rw [leNat_leBytes, Nat.mod_eq_of_lt h]

/-- Storing a number read from a byte string gives the string back. -/
theorem leBytes_leNat (bs : List UInt8) : leBytes bs.length (leNat bs) = bs := by
  induction bs with
  | nil => rfl
  | cons b bs ih =>
    have hlt : b.toNat < 256 := b.toNat_lt
    have hhead : UInt8.ofNat (leNat (b :: bs)) = b := by
      apply UInt8.toNat_inj.mp
      rw [UInt8.toNat_ofNat', leNat]
      omega
    have htail : leNat (b :: bs) / 256 = leNat bs := by
      rw [leNat]
      omega
    rw [List.length_cons, leBytes, hhead, htail, ih]

theorem beBytes_beNat (bs : List UInt8) : beBytes bs.length (beNat bs) = bs := by
  have h := leBytes_leNat bs.reverse
  rw [List.length_reverse] at h
  rw [beBytes, beNat, h, List.reverse_reverse]

theorem leNat_lt (bs : List UInt8) : leNat bs < 256 ^ bs.length := by
  induction bs with
  | nil => simp [leNat]
  | cons b bs ih =>
    have hlt : b.toNat < 256 := b.toNat_lt
    rw [leNat, List.length_cons, pow_succ']
    omega

/-! ### Order

Big-endian integers compare as their byte strings do, so a byte string may be compared by a
fixed number of leading bytes read as an integer, zero-padded where it is shorter. -/

theorem nil_le (k : List UInt8) : [] ≤ k := not_lt.mp (List.not_lt_nil k)

theorem beNat_cons (b : UInt8) (bs : List UInt8) :
    beNat (b :: bs) = b.toNat * 256 ^ bs.length + beNat bs := by
  have happ : ∀ xs ys : List UInt8, leNat (xs ++ ys) = leNat xs + 256 ^ xs.length * leNat ys := by
    intro xs ys
    induction xs with
    | nil => simp [leNat]
    | cons x xs ih =>
      rw [List.cons_append, leNat, leNat, ih, List.length_cons, pow_succ']
      ring
  rw [beNat, List.reverse_cons, happ, beNat, List.length_reverse]
  simp only [leNat]
  ring

theorem beNat_lt (bs : List UInt8) : beNat bs < 256 ^ bs.length := by
  have hlt := leNat_lt bs.reverse
  rwa [List.length_reverse] at hlt

theorem beNat_beBytes_of_lt {w n : ℕ} (h : n < 256 ^ w) : beNat (beBytes w n) = n := by
  rw [beNat, beBytes, List.reverse_reverse, leNat_leBytes_of_lt h]

/-- Equally long strings compare as the integers they spell. -/
theorem beNat_lt_beNat_iff {xs ys : List UInt8} (h : xs.length = ys.length) :
    beNat xs < beNat ys ↔ xs < ys := by
  induction xs generalizing ys with
  | nil =>
    obtain rfl := List.length_eq_zero_iff.mp h.symm
    simp
  | cons x xs ih =>
    rcases ys with _ | ⟨y, ys⟩
    · cases h
    have hlen : xs.length = ys.length := by simpa using h
    have hx := beNat_lt xs
    have hy := beNat_lt ys
    rw [hlen] at hx
    rw [List.cons_lt_cons_iff, ← ih hlen, beNat_cons, beNat_cons, hlen, UInt8.lt_iff_toNat_lt]
    generalize 256 ^ ys.length = w at hx hy
    rcases lt_trichotomy x.toNat y.toNat with hlt | heq | hgt
    · have hmul : (x.toNat + 1) * w ≤ y.toNat * w := Nat.mul_le_mul_right w hlt
      rw [Nat.add_one_mul] at hmul
      simp only [hlt, true_or, iff_true]
      omega
    · obtain rfl := UInt8.toNat_inj.mp heq
      simp
    · have hmul : (y.toNat + 1) * w ≤ x.toNat * w := Nat.mul_le_mul_right w hgt
      rw [Nat.add_one_mul] at hmul
      have hne : x ≠ y := fun hxy => hgt.ne' (hxy ▸ rfl)
      simp only [hgt.not_gt, hne, false_and, or_self, iff_false]
      omega

/-- A string is below a string that is not longer exactly when its leading bytes are. -/
theorem lt_iff_take_lt {p k : List UInt8} (h : p.length ≤ k.length) :
    k < p ↔ k.take p.length < p := by
  induction p generalizing k with
  | nil => simp
  | cons x p ih =>
    rcases k with _ | ⟨y, k⟩
    · cases h
    have hlen : p.length ≤ k.length := by simpa using h
    rw [List.length_cons, List.take_succ_cons, List.cons_lt_cons_iff, List.cons_lt_cons_iff,
      ih hlen]

/-- A string of at least `w` bytes is below a `w`-byte integer exactly when its first `w`
bytes spell a smaller one. -/
theorem lt_beBytes_iff {w n : ℕ} (hn : n < 256 ^ w) {k : List UInt8} (hk : w ≤ k.length) :
    k < beBytes w n ↔ beNat (k.take w) < n := by
  have hlen := length_beBytes w n
  rw [lt_iff_take_lt (hlen.trans_le hk), hlen,
    ← beNat_lt_beNat_iff ((List.length_take_of_le hk).trans hlen.symm), beNat_beBytes_of_lt hn]

/-- The first `w` bytes of a string, zero-padded. -/
def padTake (w : ℕ) (k : List UInt8) : List UInt8 := k.take w ++ List.replicate (w - k.length) 0

@[simp] theorem length_padTake (w : ℕ) (k : List UInt8) : (padTake w k).length = w := by
  simp [padTake]
  omega

theorem padTake_cons (w : ℕ) (b : UInt8) (k : List UInt8) :
    padTake (w + 1) (b :: k) = b :: padTake w k := by
  simp [padTake]

theorem padTake_nil (w : ℕ) : padTake (w + 1) [] = 0 :: padTake w [] := by
  simp [padTake, List.replicate_succ]

/-- Padded leading bytes never compare against the order of the strings. -/
theorem lt_of_padTake_lt {w : ℕ} {a b : List UInt8} (h : padTake w a < padTake w b) : a < b := by
  have hzero : ∀ (w : ℕ) (k : List UInt8), ¬ padTake w k < padTake w [] := by
    intro w
    induction w with
    | zero =>
      intro k hk
      simp [padTake] at hk
    | succ w ih =>
      rintro (_ | ⟨x, k⟩) hk
      · exact absurd hk (lt_irrefl _)
      · rw [padTake_cons, padTake_nil, List.cons_lt_cons_iff] at hk
        rcases hk with hx | ⟨-, hk⟩
        · exact absurd hx (by rw [UInt8.lt_iff_toNat_lt]; simp)
        · exact ih k hk
  induction w generalizing a b with
  | zero => simp [padTake] at h
  | succ w ih =>
    rcases b with _ | ⟨y, b⟩
    · exact absurd h (hzero _ a)
    rcases a with _ | ⟨x, a⟩
    · exact List.nil_lt_cons y b
    rw [padTake_cons, padTake_cons, List.cons_lt_cons_iff] at h
    rcases h with hxy | ⟨rfl, h⟩
    · exact List.cons_lt_cons_iff.mpr (.inl hxy)
    · exact List.cons_lt_cons_iff.mpr (.inr ⟨rfl, ih h⟩)

/-- A string at least as long as `p` starts with `p` exactly when its padded leading bytes
do. -/
theorem take_padTake {w : ℕ} {p k : List UInt8} (hp : p.length ≤ w) (hk : p.length ≤ k.length) :
    (padTake w k).take p.length = p ↔ p <+: k := by
  have htake : (padTake w k).take p.length = k.take p.length := by
    rw [padTake, List.take_append_of_le_length (by rw [List.length_take]; omega), List.take_take,
      min_eq_left hp]
  rw [htake, List.prefix_iff_eq_take, eq_comm]

/-! ### Positional reads -/

/-- The bytes a positional read of `n` bytes at `off` returns. -/
def readAt (file : List UInt8) (off n : ℕ) : List UInt8 := (file.drop off).take n

theorem length_readAt (file : List UInt8) (off n : ℕ) :
    (readAt file off n).length = min n (file.length - off) := by
  simp [readAt]

/-- A read that starts where `mid` starts and has its length returns `mid`. -/
theorem readAt_append (pre mid rest : List UInt8) :
    readAt (pre ++ (mid ++ rest)) pre.length mid.length = mid := by
  simp [readAt]

/-- A read past a known prefix of the file is a read of the rest. -/
theorem readAt_append_add (pre rest : List UInt8) (off n : ℕ) :
    readAt (pre ++ rest) (pre.length + off) n = readAt rest off n := by
  have hdrop : pre.drop (pre.length + off) = [] := List.drop_eq_nil_of_le (by omega)
  simp [readAt, List.drop_append, hdrop]

/-- A read within what a read returned is a read of the file. -/
theorem readAt_readAt (file : List UInt8) {off n lo m : ℕ} (h : lo + m ≤ n) :
    readAt (readAt file off n) lo m = readAt file (off + lo) m := by
  rw [readAt, readAt, readAt, List.drop_take, List.drop_drop, List.take_take,
    min_eq_left (by omega)]

/-- Appending does not change a read that ends within the file. -/
theorem readAt_of_grows {file file' : List UInt8} (h : file <+: file') {off n : ℕ}
    (hn : off + n ≤ file.length) : readAt file' off n = readAt file off n := by
  obtain ⟨rest, rfl⟩ := h
  rw [readAt, readAt, List.drop_append_of_le_length (by omega), List.take_append_of_le_length]
  rw [List.length_drop]
  omega

@[simp] theorem readAt_length (file : List UInt8) (n : ℕ) : readAt file file.length n = [] := by
  simp [readAt]

end ByteCodec
