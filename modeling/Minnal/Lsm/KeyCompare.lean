import Minnal.Library.Lanes
import Minnal.Lsm.SkipRuns

/-!
# The accelerated comparison of keys

Each instruction set compares keys its own way: whole registers first, from a mask of the equal
lanes, and what is left byte by byte. Here the registers are modelled **lane by lane**. Every
kernel gives the byte order (`compareBytesAvx512_eq` and its siblings), and so does the skip list's
way of comparing two 8-byte prefixes before the keys, so the nodes of a memtable stand in byte
order whatever was written to it (`key_comparison_exact`).
-/

set_option linter.dupNamespace false

namespace Minnal

open ByteCodec Lanes

/-! ### Lane operations -/

/-- `_mm512_cmpeq_epi8_mask`. -/
def cmpeqEpi8Mask (x y : Bytes) : ℕ := mask (List.zipWith (fun a b => decide (a = b)) x y)

/-- `_mm256_cmpeq_epi8` and `vceqq_u8`: ones in the lanes that are equal. -/
def cmpeqEpi8 (x y : Bytes) : Bytes := List.zipWith (fun a b => if a = b then 0xFF else 0) x y

/-- `_mm256_movemask_epi8`: the top bits of the lanes. -/
def movemaskEpi8 (x : Bytes) : ℕ := mask (x.map fun b => b.toNat.testBit 7)

/-- The weights of the lanes in each half of a NEON register. -/
def bitWeights : Bytes := [1, 2, 4, 8, 16, 32, 64, 128]

/-- `vaddv_u8`: the sum of eight lanes, modulo 256. -/
def vaddvU8 (x : Bytes) : UInt8 := x.foldr (· + ·) 0

/-- The mask of the equal lanes of two NEON registers, its halves summed up one by one. -/
def neonEqMask (x y : Bytes) : ℕ :=
  let masked := List.zipWith (· &&& ·) (cmpeqEpi8 x y) (bitWeights ++ bitWeights)
  let lo := (vaddvU8 (masked.take 8)).toNat
  let hi := (vaddvU8 (masked.drop 8)).toNat
  lo ||| hi <<< 8

/-! ### The kernels -/

/-- Compare blocks of `w` bytes from a position on: how the first bytes that differ compare, or
where the blocks end. -/
def compareBlocks (w : ℕ) [NeZero w] (eqMask : Bytes → Bytes → ℕ) (a b : Bytes) (pos : ℕ) :
    Ordering ⊕ ℕ :=
  if pos + w ≤ min a.length b.length then
    let m := eqMask (readAt a pos w) (readAt b pos w)
    if m ≠ 2 ^ w - 1 then
      .inl (compare (a.getD (pos + trailingOnes w m) 0) (b.getD (pos + trailingOnes w m) 0))
    else compareBlocks w eqMask a b (pos + w)
  else .inr pos
termination_by a.length - pos
decreasing_by
  have := NeZero.pos w
  omega

/-- How the first bytes that differ compare, of `n` from a position on. -/
def compareScalar (a b : Bytes) : ℕ → ℕ → Option Ordering
  | 0, _ => none
  | n + 1, i =>
    match a[i]?, b[i]? with
    | some x, some y =>
      if compare x y = .eq then compareScalar a b n (i + 1) else some (compare x y)
    | _, _ => none

/-- The scalar tail, and the lengths where all bytes are equal. -/
def compareTail (a b : Bytes) (n pos : ℕ) : Ordering :=
  (compareScalar a b n pos).getD (compare a.length b.length)

/-- The comparison on AVX-512: blocks of 64 bytes, one of 32, the rest byte by byte. -/
def compareBytesAvx512 (a b : Bytes) : Ordering :=
  match compareBlocks 64 cmpeqEpi8Mask a b 0 with
  | .inl o => o
  | .inr pos =>
    if pos + 32 ≤ a.length ∧ pos + 32 ≤ b.length then
      let eqMask := cmpeqEpi8 (readAt a pos 32) (readAt b pos 32)
      let cmpResult := cmpeqEpi8 eqMask (List.replicate 32 0xFF)
      let found := if movemaskEpi8 cmpResult ≠ 2 ^ 32 - 1 then compareScalar a b 32 pos else none
      found.getD (compareTail a b (min (a.length - (pos + 32)) (b.length - (pos + 32))) (pos + 32))
    else compareTail a b (min (a.length - pos) (b.length - pos)) pos

/-- The comparison on AVX2. -/
def compareBytesAvx2 (a b : Bytes) : Ordering :=
  match compareBlocks 32 (fun x y => movemaskEpi8 (cmpeqEpi8 x y)) a b 0 with
  | .inl o => o
  | .inr pos => compareTail a b (min a.length b.length - pos) pos

/-- The comparison on NEON. -/
def compareBytesNeon (a b : Bytes) : Ordering :=
  match compareBlocks 16 neonEqMask a b 0 with
  | .inl o => o
  | .inr pos => compareTail a b (min a.length b.length - pos) pos

/-- The prefixes first, the keys where these are equal. -/
def compareByPrefix (a b : Key) : Ordering :=
  if keyPrefixOf a < keyPrefixOf b then .lt
  else if keyPrefixOf b < keyPrefixOf a then .gt
  else compareBytesSimd a b

/-! ### Masks of equal lanes -/

/-- The answers of the lanes of two registers. -/
def equalLanes (x y : Bytes) : List Bool := List.zipWith (fun a b => decide (a = b)) x y

theorem movemaskEpi8_cmpeqEpi8 (x y : Bytes) :
    movemaskEpi8 (cmpeqEpi8 x y) = mask (equalLanes x y) := by
  rw [movemaskEpi8, cmpeqEpi8, equalLanes, List.map_zipWith]
  congr 2
  funext a b
  by_cases h : a = b
  · simp [h]
    decide
  · simp [h]

/-- Comparing the equal lanes with ones once more changes nothing. -/
theorem cmpeqEpi8_ones (x y : Bytes) {n : ℕ} (hx : x.length = n) (hy : y.length = n) :
    cmpeqEpi8 (cmpeqEpi8 x y) (List.replicate n 0xFF) = cmpeqEpi8 x y := by
  induction n generalizing x y with
  | zero =>
    obtain rfl := List.length_eq_zero_iff.mp hx
    rfl
  | succ n ih =>
    obtain ⟨a, x, rfl⟩ := List.exists_cons_of_length_eq_add_one hx
    obtain ⟨b, y, rfl⟩ := List.exists_cons_of_length_eq_add_one hy
    have hrest := ih x y (by simpa using hx) (by simpa using hy)
    rw [cmpeqEpi8, cmpeqEpi8, List.replicate_succ] at *
    rw [List.zipWith_cons_cons, List.zipWith_cons_cons]
    refine congrArg₂ List.cons ?_ hrest
    by_cases h : a = b
    · simp [h]
    · simp [h]

private theorem vaddvU8_eq : ∀ b₀ b₁ b₂ b₃ b₄ b₅ b₆ b₇ : Bool,
    (vaddvU8 (List.zipWith (· &&& ·)
      ([b₀, b₁, b₂, b₃, b₄, b₅, b₆, b₇].map fun b => if b then 0xFF else 0) bitWeights)).toNat =
        mask [b₀, b₁, b₂, b₃, b₄, b₅, b₆, b₇] := by
  decide +kernel

/-- Half a NEON mask. -/
private theorem vaddvU8_lanes {bs : List Bool} (h : bs.length = 8) :
    (vaddvU8 (List.zipWith (· &&& ·) (bs.map fun b => if b then 0xFF else 0) bitWeights)).toNat =
      mask bs := by
  match bs, h with
  | [b₀, b₁, b₂, b₃, b₄, b₅, b₆, b₇], _ => exact vaddvU8_eq b₀ b₁ b₂ b₃ b₄ b₅ b₆ b₇

theorem neonEqMask_eq {x y : Bytes} (hx : x.length = 16) (hy : y.length = 16) :
    neonEqMask x y = mask (equalLanes x y) := by
  have hlanes : cmpeqEpi8 x y = (equalLanes x y).map fun b => if b then 0xFF else 0 := by
    rw [cmpeqEpi8, equalLanes, List.map_zipWith]
    congr 1
    funext a b
    by_cases h : a = b <;> simp [h]
  have hlen : (equalLanes x y).length = 16 := by
    rw [equalLanes, List.length_zipWith, hx, hy]
    rfl
  obtain ⟨lo, hi, hsplit, hlo, hhi⟩ : ∃ lo hi, equalLanes x y = lo ++ hi ∧ lo.length = 8 ∧
      hi.length = 8 :=
    ⟨(equalLanes x y).take 8, (equalLanes x y).drop 8, (List.take_append_drop _ _).symm,
      by rw [List.length_take, hlen]; rfl, by rw [List.length_drop, hlen]⟩
  have hzip : List.zipWith (· &&& ·) (cmpeqEpi8 x y) (bitWeights ++ bitWeights) =
      List.zipWith (· &&& ·) (lo.map fun b => if b then 0xFF else 0) bitWeights ++
        List.zipWith (· &&& ·) (hi.map fun b => if b then 0xFF else 0) bitWeights := by
    rw [hlanes, hsplit, List.map_append, List.zipWith_append]
    rw [List.length_map, hlo]
    rfl
  have hhead : (List.zipWith (· &&& ·) (lo.map fun b => if b then (0xFF : UInt8) else 0)
      bitWeights).length = 8 := by
    rw [List.length_zipWith, List.length_map, hlo]
    rfl
  have hlt := mask_lt lo
  rw [hlo] at hlt
  rw [neonEqMask, hzip, List.take_left' hhead, List.drop_left' hhead, vaddvU8_lanes hlo, vaddvU8_lanes hhi,
    hsplit, mask_append, hlo, Nat.lor_comm, ← Nat.shiftLeft_add_eq_or_of_lt hlt,
    Nat.shiftLeft_eq, Nat.add_comm, Nat.mul_comm]

/-! ### The byte order from a position on -/

section Order

variable {a b : Bytes} {i n pos : ℕ}

theorem compareBytesSimd_cons (x y : UInt8) (a b : Bytes) :
    compareBytesSimd (x :: a) (y :: b) =
      if x = y then compareBytesSimd a b else compare x y := by
  simp only [compareBytesSimd, List.cons_lt_cons_iff, List.cons.injEq]
  rcases lt_trichotomy x y with hlt | rfl | hgt
  · rw [if_pos (.inl hlt), if_neg hlt.ne, compare_lt_iff_lt.mpr hlt]
  · simp
  · have hnot : ¬(x < y ∨ x = y ∧ a < b) := by
      rintro (h | ⟨h, -⟩)
      · exact absurd h hgt.not_gt
      · exact hgt.ne' h
    rw [if_neg hnot, if_neg fun h => hgt.ne' h.1, if_neg hgt.ne', compare_gt_iff_gt.mpr hgt]

/-- How the strings compare from a position on. -/
def compareFrom (a b : Bytes) (i : ℕ) : Ordering := compareBytesSimd (a.drop i) (b.drop i)

theorem compareFrom_of_lt (ha : i < a.length) (hb : i < b.length) :
    compareFrom a b i = if a[i] = b[i] then compareFrom a b (i + 1) else compare a[i] b[i] := by
  rw [compareFrom, List.drop_eq_getElem_cons ha, List.drop_eq_getElem_cons hb,
    compareBytesSimd_cons]
  rfl

/-- Where one of the strings ends, the lengths decide. -/
theorem compareFrom_min : compareFrom a b (min a.length b.length) = compare a.length b.length := by
  rw [compareFrom, compareBytesSimd]
  rcases lt_trichotomy a.length b.length with hlt | heq | hgt
  · rw [min_eq_left hlt.le, List.drop_length, compare_lt_iff_lt.mpr hlt, if_pos]
    obtain ⟨y, rest, hdrop⟩ : ∃ y rest, b.drop a.length = y :: rest :=
      List.exists_cons_of_length_pos (by rw [List.length_drop]; omega)
    rw [hdrop]
    exact List.nil_lt_cons y rest
  · rw [heq, min_self, List.drop_length, ← heq, List.drop_length]
    simp
  · obtain ⟨x, rest, hdrop⟩ : ∃ x rest, a.drop b.length = x :: rest :=
      List.exists_cons_of_length_pos (by rw [List.length_drop]; omega)
    rw [min_eq_right hgt.le, List.drop_length, compare_gt_iff_gt.mpr hgt, hdrop]
    simp

theorem compareFrom_of_equal (ha : i + n ≤ a.length) (hb : i + n ≤ b.length)
    (h : ∀ k < n, a[i + k]? = b[i + k]?) : compareFrom a b i = compareFrom a b (i + n) := by
  induction n generalizing i with
  | zero => rfl
  | succ n ih =>
    have hfirst := h 0 (Nat.succ_pos n)
    rw [Nat.add_zero, List.getElem?_eq_getElem (by omega), List.getElem?_eq_getElem (by omega)]
      at hfirst
    rw [compareFrom_of_lt (by omega) (by omega), if_pos (Option.some.inj hfirst),
      ih (by omega) (by omega) fun k hk => ?_, Nat.add_assoc, Nat.add_comm 1 n]
    rw [Nat.add_assoc, Nat.add_comm 1 k]
    exact h (k + 1) (by omega)

theorem compareScalar_spec (ha : i + n ≤ a.length) (hb : i + n ≤ b.length) :
    compareFrom a b i = (compareScalar a b n i).getD (compareFrom a b (i + n)) := by
  induction n generalizing i with
  | zero => rfl
  | succ n ih =>
    rw [compareScalar, List.getElem?_eq_getElem (by omega : i < a.length),
      List.getElem?_eq_getElem (by omega : i < b.length),
      compareFrom_of_lt (by omega) (by omega)]
    simp only [compare_eq_iff_eq]
    split_ifs with heq
    · rw [ih (by omega) (by omega), Nat.add_assoc, Nat.add_comm 1 n]
    · rfl

theorem compareTail_spec (h : i + n = min a.length b.length) :
    compareTail a b n i = compareFrom a b i := by
  rw [compareScalar_spec (n := n) (by omega) (by omega), h, compareFrom_min]
  rfl

/-! ### Blocks -/

theorem getElem?_equalLanes {w k : ℕ} (ha : pos + w ≤ a.length) (hb : pos + w ≤ b.length)
    (hk : k < w) : (equalLanes (readAt a pos w) (readAt b pos w))[k]? =
      some (decide (a[pos + k]? = b[pos + k]?)) := by
  rw [equalLanes, List.getElem?_zipWith, readAt, readAt, List.getElem?_take_of_lt hk,
    List.getElem?_take_of_lt hk, List.getElem?_drop, List.getElem?_drop,
    List.getElem?_eq_getElem (by omega), List.getElem?_eq_getElem (by omega)]
  simp

theorem length_equalLanes {w : ℕ} (ha : pos + w ≤ a.length) (hb : pos + w ≤ b.length) :
    (equalLanes (readAt a pos w) (readAt b pos w)).length = w := by
  rw [equalLanes, List.length_zipWith, length_readAt, length_readAt]
  omega

/-- A block with all lanes equal is passed over. -/
theorem compareFrom_of_mask_eq {w : ℕ} (ha : pos + w ≤ a.length) (hb : pos + w ≤ b.length)
    (h : mask (equalLanes (readAt a pos w) (readAt b pos w)) = 2 ^ w - 1) :
    compareFrom a b pos = compareFrom a b (pos + w) := by
  have hlen := length_equalLanes ha hb
  have hall := mask_eq_max_iff.mp (by rw [hlen]; exact h)
  refine compareFrom_of_equal ha hb fun k hk => ?_
  have hget := getElem?_equalLanes ha hb hk
  simpa using hall _ (List.mem_of_getElem? hget)

/-- In a block with a lane that differs, the ones at the end of the mask lead to the first. -/
theorem compareFrom_of_mask_ne {w : ℕ} (ha : pos + w ≤ a.length) (hb : pos + w ≤ b.length)
    {m : ℕ} (hm : m = mask (equalLanes (readAt a pos w) (readAt b pos w)))
    (h : m ≠ 2 ^ w - 1) :
    compareFrom a b pos = compare (a.getD (pos + trailingOnes w m) 0)
      (b.getD (pos + trailingOnes w m) 0) := by
  have hlen := length_equalLanes ha hb
  have hget := fun k => getElem?_equalLanes (k := k) ha hb
  generalize equalLanes (readAt a pos w) (readAt b pos w) = bs at hlen hget hm
  subst hlen
  rw [hm] at h ⊢
  rw [trailingOnes_mask]
  have hshort : (bs.takeWhile fun b => b).length < bs.length := by
    refine lt_of_le_of_ne (List.takeWhile_sublist _).length_le fun hall => h ?_
    rw [mask_eq_max_iff, ← (List.takeWhile_prefix fun b => b).eq_of_length hall]
    exact fun b hb => List.mem_takeWhile_imp hb
  generalize hd : (bs.takeWhile fun b => b).length = d at hshort ⊢
  have hsame : ∀ k < d, a[pos + k]? = b[pos + k]? := by
    intro k hk
    have hkbs := hget k (by omega)
    have htrue : (bs.takeWhile fun b => b)[k]? = bs[k]? := by
      obtain ⟨rest, hrest⟩ := List.takeWhile_prefix (l := bs) fun b => b
      conv_rhs => rw [← hrest]
      rw [List.getElem?_append_left (by omega)]
    rw [hkbs] at htrue
    simpa using List.mem_takeWhile_imp (List.mem_of_getElem? htrue)
  have hdiff : a[pos + d]? ≠ b[pos + d]? := by
    have hdbs := hget d hshort
    have hfalse : bs[d]? = some false := by
      have hhead := List.head?_dropWhile_not (fun b => b) bs
      have hdrop : bs.drop d = bs.dropWhile fun b => b := by
        conv_lhs => rw [← List.takeWhile_append_dropWhile (p := fun b => b) (l := bs)]
        exact List.drop_left' hd
      rw [← hdrop, List.head?_drop, hdbs] at hhead
      rw [hdbs]
      simpa using hhead
    rw [hdbs] at hfalse
    simpa using hfalse
  have hla : pos + d < a.length := by omega
  have hlb : pos + d < b.length := by omega
  rw [List.getElem?_eq_getElem hla, List.getElem?_eq_getElem hlb, ne_eq, Option.some.injEq] at hdiff
  rw [compareFrom_of_equal (n := d) (by omega) (by omega) hsame, compareFrom_of_lt hla hlb,
    if_neg hdiff, List.getD_eq_getElem _ _ hla, List.getD_eq_getElem _ _ hlb]

/-- **The blocks**: either they decide, or what is left decides. -/
theorem compareBlocks_spec {w : ℕ} [NeZero w] {eqMask : Bytes → Bytes → ℕ}
    (hmask : ∀ x y : Bytes, x.length = w → y.length = w → eqMask x y = mask (equalLanes x y))
    (hpos : pos ≤ min a.length b.length) :
    match compareBlocks w eqMask a b pos with
    | .inl o => compareFrom a b pos = o
    | .inr p => compareFrom a b pos = compareFrom a b p ∧ p ≤ min a.length b.length := by
  fun_induction compareBlocks w eqMask a b pos with
  | case1 pos hroom m hne =>
    refine compareFrom_of_mask_ne (by omega) (by omega) (hmask _ _ ?_ ?_) hne
    · rw [length_readAt]
      omega
    · rw [length_readAt]
      omega
  | case2 pos hroom m heq ih =>
    have hm : m = mask (equalLanes (readAt a pos w) (readAt b pos w)) := by
      refine hmask _ _ ?_ ?_
      · rw [length_readAt]
        omega
      · rw [length_readAt]
        omega
    have hstep := compareFrom_of_mask_eq (by omega) (by omega) (hm.symm.trans (not_not.mp heq))
    rw [hstep]
    exact ih hroom
  | case3 pos hroom => exact ⟨rfl, hpos⟩

/-- A kernel that leaves what is behind the blocks to the scalar tail. -/
theorem blocks_then_tail {w : ℕ} [NeZero w] {eqMask : Bytes → Bytes → ℕ}
    (hmask : ∀ x y : Bytes, x.length = w → y.length = w → eqMask x y = mask (equalLanes x y)) :
    (match compareBlocks w eqMask a b 0 with
      | .inl o => o
      | .inr pos => compareTail a b (min a.length b.length - pos) pos) = compareBytesSimd a b := by
  have hblocks := compareBlocks_spec (a := a) (b := b) hmask (Nat.zero_le _)
  cases hout : compareBlocks w eqMask a b 0 with
  | inl o =>
    rw [hout] at hblocks
    exact hblocks.symm
  | inr pos =>
    rw [hout] at hblocks
    exact (compareTail_spec (Nat.add_sub_cancel' hblocks.2)).trans hblocks.1.symm

/-! ### The kernels give the byte order -/

theorem compareBytesAvx2_eq (a b : Bytes) : compareBytesAvx2 a b = compareBytesSimd a b :=
  blocks_then_tail fun x y _ _ => movemaskEpi8_cmpeqEpi8 x y

theorem compareBytesNeon_eq (a b : Bytes) : compareBytesNeon a b = compareBytesSimd a b :=
  blocks_then_tail fun _ _ hx hy => neonEqMask_eq hx hy

theorem compareBytesAvx512_eq (a b : Bytes) : compareBytesAvx512 a b = compareBytesSimd a b := by
  have hblocks := @compareBlocks_spec a b 0 64 _ cmpeqEpi8Mask (fun _ _ _ _ => rfl) (Nat.zero_le _)
  rw [compareBytesAvx512]
  cases hout : compareBlocks 64 cmpeqEpi8Mask a b 0 with
  | inl o =>
    rw [hout] at hblocks
    exact hblocks.symm
  | inr pos =>
    rw [hout] at hblocks
    obtain ⟨hstart, hpos⟩ := hblocks
    have hwhole : compareBytesSimd a b = compareFrom a b pos := hstart
    rw [hwhole]
    simp only
    split_ifs with hroom hne
    · rw [compareTail_spec (by omega)]
      exact (compareScalar_spec hroom.1 hroom.2).symm
    · -- the 32 lanes are all equal
      have hlen : ∀ s : Bytes, pos + 32 ≤ s.length → (readAt s pos 32).length = 32 := fun s hs => by
        rw [length_readAt]
        omega
      rw [cmpeqEpi8_ones _ _ (hlen a hroom.1) (hlen b hroom.2), movemaskEpi8_cmpeqEpi8] at hne
      rw [Option.getD_none, compareTail_spec (by omega),
        compareFrom_of_mask_eq hroom.1 hroom.2 (not_not.mp hne)]
    · exact compareTail_spec (by omega)

theorem lt_of_keyPrefixOf_lt {a b : Key} (h : keyPrefixOf a < keyPrefixOf b) : a < b := by
  refine lt_of_padTake_lt (w := 8) ((beNat_lt_beNat_iff ?_).mp h)
  rw [length_padTake, length_padTake]

/-- **The prefixes decide only where they agree with the byte order.** -/
theorem compareByPrefix_eq (a b : Key) : compareByPrefix a b = compareBytesSimd a b := by
  rw [compareByPrefix]
  split_ifs with hless hmore
  · rw [compareBytesSimd, if_pos (lt_of_keyPrefixOf_lt hless)]
  · have hgt := lt_of_keyPrefixOf_lt hmore
    rw [compareBytesSimd, if_neg hgt.not_gt, if_neg hgt.ne']
  · rfl

end Order

/-! ### The memtable -/

namespace SkipArena

variable {s : SkipArena} {base : List ℕ}

/-- Every node but the sentinel stands in the list. -/
theorem Tiers.mem_base (h : s.Tiers base) {i : ℕ} (hpos : 0 < i) (hi : i < s.nodes.length) :
    i ∈ base := by
  have hsub : base.toFinset ⊆ Finset.Ioo 0 s.nodes.length := fun j hj =>
    Finset.mem_Ioo.mpr (h.range j (List.mem_toFinset.mp hj))
  have hcard : (Finset.Ioo 0 s.nodes.length).card ≤ base.toFinset.card := by
    rw [List.toFinset_card_of_nodup h.nodup, Nat.card_Ioo]
    have := h.length
    omega
  have hall := Finset.eq_of_subset_of_card_le hsub hcard
  exact List.mem_toFinset.mp (hall ▸ Finset.mem_Ioo.mpr ⟨hpos, hi⟩)

end SkipArena

/-- **Comparing keys is comparing bytes.** Every kernel and the comparison by prefixes give the
byte order of any two strings, a total order; and in the skip list that any run of writes leaves,
a node is compared with a target in the byte order of their keys. -/
theorem key_comparison_exact :
    (∀ a b : Bytes,
      (compareBytesSimd a b = .lt ↔ a < b) ∧ (compareBytesSimd a b = .eq ↔ a = b) ∧
        (compareBytesSimd a b = .gt ↔ b < a) ∧ compareBytesAvx512 a b = compareBytesSimd a b ∧
        compareBytesAvx2 a b = compareBytesSimd a b ∧ compareBytesNeon a b = compareBytesSimd a b ∧
        compareByPrefix a b = compareBytesSimd a b) ∧
      ∀ (maxCapacity : ℕ) (heights : ℕ → Fin maxLevel) (ops : List SkipOp),
        let s := ((SkipArena.withCapacity maxCapacity heights).run ops).1
        ∀ i, 0 < i → i < s.nodes.length → ∀ target,
          s.keyCmpNodeTarget i target (keyPrefixOf target) =
            compareBytesSimd (s.keySlice i) target := by
  refine ⟨fun a b => ⟨?_, ?_, ?_, compareBytesAvx512_eq a b, compareBytesAvx2_eq a b,
    compareBytesNeon_eq a b, compareByPrefix_eq a b⟩, fun maxCapacity heights ops i hpos hi target => ?_⟩
  · rw [compareBytesSimd]
    split_ifs with hlt heq <;> simp_all
  · rw [compareBytesSimd]
    split_ifs with hlt heq
    · simp [hlt.ne]
    · simp [heq]
    · simp [heq]
  · rw [compareBytesSimd]
    split_ifs with hlt heq
    · simp [hlt.not_gt]
    · simp [heq]
    · simpa using lt_of_le_of_ne (not_lt.mp hlt) (Ne.symm heq)
  · obtain ⟨base, -, htiers, -⟩ :=
      ((SkipArena.represents_withCapacity maxCapacity heights).run ops).holds
    rw [SkipArena.keyCmpNodeTarget, htiers.keyPrefix i (htiers.mem_base hpos hi)]
    exact compareByPrefix_eq _ _

end Minnal
