import Minnal.Library.SortedMap

/-!
# Walking two sorted lists together

`mergeJoin` walks two ascending lists with one pointer in each, as set operations on sorted
data do: the smaller key advances, equal keys advance together. What is emitted is decided by
three handlers, for an element met **on the left only**, **on both sides**, and **on the right
only**. On ascending lists the walk emits exactly what the handlers say of each key
(`mem_mergeJoin`), in ascending order (`ascending_mergeJoin`).
-/

namespace SortedMap

variable {α β γ κ : Type*} [LinearOrder κ] (ka : α → κ) (kb : β → κ) (kc : γ → κ)
  (left : α → Option γ) (both : α → β → Option γ) (right : β → Option γ)

/-- Skipping what is below `k` keeps what is not. -/
theorem Ascending.dropWhile_eq_filter {key : α → κ} {l : List α} (hl : Ascending key l) (k : κ) :
    (l.dropWhile fun a => key a < k) = l.filter fun a => k ≤ key a := by
  induction l with
  | nil => rfl
  | cons a l ih =>
    obtain ⟨ha, hl'⟩ := ascending_cons.mp hl
    by_cases hak : key a < k
    · rw [List.dropWhile_cons_of_pos (by simpa using hak), ih hl',
        List.filter_cons_of_neg (by simpa using hak)]
    · have hall : ∀ b ∈ a :: l, k ≤ key b := by
        intro b hb
        rcases List.mem_cons.mp hb with rfl | hb
        · exact not_lt.mp hak
        · exact (not_lt.mp hak).trans (ha b hb).le
      rw [List.dropWhile_cons_of_neg (by simpa using hak),
        List.filter_eq_self.mpr (by simpa using hall)]

/-- Reading up to `k` keeps what is not beyond it. -/
theorem Ascending.takeWhile_eq_filter {key : α → κ} {l : List α} (hl : Ascending key l) (k : κ) :
    (l.takeWhile fun a => key a ≤ k) = l.filter fun a => key a ≤ k := by
  induction l with
  | nil => rfl
  | cons a l ih =>
    obtain ⟨ha, hl'⟩ := ascending_cons.mp hl
    by_cases hak : key a ≤ k
    · rw [List.takeWhile_cons_of_pos (by simpa using hak), ih hl',
        List.filter_cons_of_pos (by simpa using hak)]
    · have hnone : ∀ b ∈ a :: l, ¬ key b ≤ k := by
        intro b hb
        rcases List.mem_cons.mp hb with rfl | hb
        · exact hak
        · exact fun h => hak ((ha b hb).le.trans h)
      rw [List.takeWhile_cons_of_neg (by simpa using hak),
        List.filter_eq_nil_iff.mpr (by simpa using hnone)]

/-- The walk while the left pointer stands at `a`; `rest` goes on to the left of it. -/
def joinOne (a : α) (rest : List β → List γ) : List β → List γ
  | [] => (left a).toList ++ rest []
  | b :: bs =>
    if ka a < kb b then (left a).toList ++ rest (b :: bs)
    else if kb b < ka a then (right b).toList ++ joinOne a rest bs
    else (both a b).toList ++ rest bs

/-- The two-pointer walk over `as` and `bs`. -/
def mergeJoin : List α → List β → List γ
  | [], bs => bs.filterMap right
  | a :: as, bs => joinOne ka kb left both right a (mergeJoin as) bs

variable {ka kb kc left both right} {as : List α} {c : γ} {bs : List β}

/-- What the walk emits while the left pointer stands at `a`, given what it emits after. -/
private theorem mem_joinOne {a : α} (has : Ascending ka (a :: as)) {rest : List β → List γ}
    (hrest : ∀ bs, Ascending kb bs → (c ∈ rest bs ↔
      (∃ x ∈ as, (∀ b ∈ bs, kb b ≠ ka x) ∧ left x = some c) ∨
      (∃ x ∈ as, ∃ b ∈ bs, ka x = kb b ∧ both x b = some c) ∨
      ∃ b ∈ bs, (∀ x ∈ as, ka x ≠ kb b) ∧ right b = some c)) (hbs : Ascending kb bs) :
    c ∈ joinOne ka kb left both right a rest bs ↔
      (∃ x ∈ a :: as, (∀ b ∈ bs, kb b ≠ ka x) ∧ left x = some c) ∨
      (∃ x ∈ a :: as, ∃ b ∈ bs, ka x = kb b ∧ both x b = some c) ∨
      ∃ b ∈ bs, (∀ x ∈ a :: as, ka x ≠ kb b) ∧ right b = some c := by
  obtain ⟨ha, has'⟩ := ascending_cons.mp has
  induction bs with
  | nil => simp [joinOne, hrest [] ascending_nil]
  | cons b bs ih =>
    obtain ⟨hb, hbs'⟩ := ascending_cons.mp hbs
    rw [joinOne]
    split_ifs with hab hba
    · -- `a` is below everything on the right
      have hmiss : ∀ y ∈ b :: bs, kb y ≠ ka a := by
        intro y hy
        rcases List.mem_cons.mp hy with rfl | hy
        · exact hab.ne'
        · exact (hab.trans (hb y hy)).ne'
      have hnone : ¬ ∃ y ∈ b :: bs, ka a = kb y ∧ both a y = some c :=
        fun ⟨y, hy, hkey, _⟩ => hmiss y hy hkey.symm
      have hright : ∀ y ∈ b :: bs, ((∀ x ∈ a :: as, ka x ≠ kb y) ↔ ∀ x ∈ as, ka x ≠ kb y) :=
        fun y hy => by rw [List.forall_mem_cons, and_iff_right (hmiss y hy).symm]
      rw [List.mem_append, hrest _ hbs, List.exists_mem_cons_iff _ a, List.exists_mem_cons_iff _ a,
        iff_false_intro hnone, false_or, and_iff_right hmiss, Option.mem_toList, or_assoc,
        exists_congr fun y => and_congr_right fun hy => and_congr_left' (hright y hy)]
    · -- `b` is below everything on the left
      have hmiss : ∀ x ∈ a :: as, ka x ≠ kb b := by
        intro x hx
        rcases List.mem_cons.mp hx with rfl | hx
        · exact hba.ne'
        · exact (hba.trans (ha x hx)).ne'
      have hleft : ∀ x ∈ a :: as, ((∀ y ∈ b :: bs, kb y ≠ ka x) ↔ ∀ y ∈ bs, kb y ≠ ka x) :=
        fun x hx => by rw [List.forall_mem_cons, and_iff_right (hmiss x hx).symm]
      have hboth : ∀ x ∈ a :: as, ((∃ y ∈ b :: bs, ka x = kb y ∧ both x y = some c) ↔
          ∃ y ∈ bs, ka x = kb y ∧ both x y = some c) := fun x hx => by
        rw [List.exists_mem_cons_iff, or_iff_right fun h => hmiss x hx h.1]
      rw [List.mem_append, ih hbs', Option.mem_toList, List.exists_mem_cons_iff _ b,
        and_iff_right hmiss,
        exists_congr fun x => and_congr_right fun hx => and_congr_left' (hleft x hx),
        exists_congr fun x => and_congr_right fun hx => hboth x hx]
      exact or_left_comm.trans (or_congr_right or_left_comm)
    · -- one key, met on both sides: neither meets anything else
      have hkey : ka a = kb b := le_antisymm (not_lt.mp hba) (not_lt.mp hab)
      rw [List.mem_append, hrest _ hbs']
      simp only [Option.mem_toList]
      have hleft : ∀ x ∈ as, kb b ≠ ka x := fun x hx => hkey ▸ (ha x hx).ne
      have hright : ∀ y ∈ bs, ka a ≠ kb y := fun y hy => hkey ▸ (hb y hy).ne
      constructor
      · grind
      · grind

/-- **What the walk emits**: for each key what its handler says of it. -/
theorem mem_mergeJoin (has : Ascending ka as) (hbs : Ascending kb bs) :
    c ∈ mergeJoin ka kb left both right as bs ↔
      (∃ a ∈ as, (∀ b ∈ bs, kb b ≠ ka a) ∧ left a = some c) ∨
      (∃ a ∈ as, ∃ b ∈ bs, ka a = kb b ∧ both a b = some c) ∨
      ∃ b ∈ bs, (∀ a ∈ as, ka a ≠ kb b) ∧ right b = some c := by
  induction as generalizing bs with
  | nil => simp [mergeJoin]
  | cons a as ih =>
    rw [mergeJoin]
    exact mem_joinOne has (fun bs hbs => ih (ascending_cons.mp has).2 hbs) hbs

section Order

variable (hleft : ∀ a c, left a = some c → kc c = ka a)
  (hboth : ∀ a b c, both a b = some c → kc c = ka a)
  (hright : ∀ b c, right b = some c → kc c = kb b)
include hleft hboth hright

/-- Everything emitted has the key of something on the left or on the right. -/
theorem key_of_mem_mergeJoin (has : Ascending ka as) (hbs : Ascending kb bs)
    (hc : c ∈ mergeJoin ka kb left both right as bs) :
    (∃ a ∈ as, kc c = ka a) ∨ ∃ b ∈ bs, kc c = kb b := by
  obtain ⟨a, ha, -, h⟩ | ⟨a, ha, b, hb, -, h⟩ | ⟨b, hb, -, h⟩ := (mem_mergeJoin has hbs).mp hc
  · exact .inl ⟨a, ha, hleft a c h⟩
  · exact .inl ⟨a, ha, hboth a b c h⟩
  · exact .inr ⟨b, hb, hright b c h⟩

omit hboth hright in
private theorem ascending_left_append {a : α} {l : List γ} (hl : Ascending kc l)
    (h : ∀ c ∈ l, ka a < kc c) : Ascending kc ((left a).toList ++ l) := by
  refine List.pairwise_append.mpr ⟨?_, hl, fun c hc d hd => ?_⟩
  · cases left a <;> simp
  · rw [hleft a c (Option.mem_toList.mp hc)]
    exact h d hd

/-- The walk emits in ascending order, when what the handlers emit keeps its key. -/
theorem ascending_mergeJoin (has : Ascending ka as) (hbs : Ascending kb bs) :
    Ascending kc (mergeJoin ka kb left both right as bs) := by
  induction as generalizing bs with
  | nil =>
    refine List.Pairwise.filterMap right (fun b b' hlt c hc c' hc' => ?_) hbs
    rw [hright b c hc, hright b' c' hc']
    exact hlt
  | cons a as ih =>
    obtain ⟨ha, has'⟩ := ascending_cons.mp has
    -- what is emitted later lies above both pointers
    have habove : ∀ {k : κ} {l : List β}, Ascending kb l → (∀ x ∈ as, k < ka x) →
        (∀ y ∈ l, k < kb y) → ∀ c ∈ mergeJoin ka kb left both right as l, k < kc c := by
      intro k l hl hx hy c hc
      obtain ⟨x, hmem, h⟩ | ⟨y, hmem, h⟩ :=
        key_of_mem_mergeJoin hleft hboth hright has' hl hc
      · exact h ▸ hx x hmem
      · exact h ▸ hy y hmem
    rw [mergeJoin]
    induction bs with
    | nil => exact ascending_left_append hleft (ih has' hbs) (habove hbs ha (by simp))
    | cons b bs ihb =>
      obtain ⟨hb, hbs'⟩ := ascending_cons.mp hbs
      rw [joinOne]
      split_ifs with hab hba
      · refine ascending_left_append hleft (ih has' hbs) (habove hbs ha fun y hy => ?_)
        rcases List.mem_cons.mp hy with rfl | hy
        · exact hab
        · exact hab.trans (hb y hy)
      · refine List.pairwise_append.mpr ⟨by cases right b <;> simp, ihb hbs', ?_⟩
        intro c hc d hd
        rw [hright b c (Option.mem_toList.mp hc)]
        obtain ⟨x, hx, h⟩ | ⟨y, hy, h⟩ := key_of_mem_mergeJoin hleft hboth hright has hbs' hd
        · rw [h]
          rcases List.mem_cons.mp hx with rfl | hx
          · exact hba
          · exact hba.trans (ha x hx)
        · exact h ▸ hb y hy
      · have hkey : ka a = kb b := le_antisymm (not_lt.mp hba) (not_lt.mp hab)
        refine List.pairwise_append.mpr ⟨by cases both a b <;> simp, ih has' hbs', ?_⟩
        intro c hc d hd
        rw [hboth a b c (Option.mem_toList.mp hc)]
        exact habove hbs' ha (fun y hy => hkey ▸ hb y hy) d hd

end Order

end SortedMap
