import Minnal.Library.SortedMap

/-!
# Pages of a sorted list

Reading a sorted list in pieces. A list that was put together from **truncated** sources agrees
with the full one on its first `n` elements as soon as, wherever the two differ, `n` elements
they share come before (`take_eq_take_of_shared`).

A **cursor** walks a list page by page: `pageAt` returns the first `n` elements from a key on,
and the key of the element after them as the next cursor. The list may be another one at every
call. The pages, put end to end, are in strictly ascending order (`ascending_follow`); once the
cursor is gone they have an element at each key that no call missed (`follow_complete`); and over
a list that stays as it is the cursor is gone after as many calls as there are pages, which are
the list (`follow_replicate`).
-/

namespace SortedMap

open List (mem_cons_self mem_cons mem_cons_of_mem mem_filter eq_of_mem_replicate mem_append)

variable {α κ : Type*} [LinearOrder κ] {key : α → κ}

/-! ### Truncated sources -/

/-- An ascending list is determined by its elements. -/
theorem Ascending.ext {xs ys : List α} (hxs : Ascending key xs) (hys : Ascending key ys)
    (h : ∀ a, a ∈ xs ↔ a ∈ ys) : xs = ys := by
  induction xs generalizing ys with
  | nil => exact (List.eq_nil_iff_forall_not_mem.mpr fun a ha => by simpa using (h a).mpr ha).symm
  | cons x xs ih =>
    obtain ⟨hx, hxs'⟩ := ascending_cons.mp hxs
    rcases ys with _ | ⟨y, ys⟩
    · simpa using (h x).mp mem_cons_self
    · obtain ⟨hy, hys'⟩ := ascending_cons.mp hys
      have hxy : x = y := by
        rcases mem_cons.mp ((h x).mp mem_cons_self) with rfl | hmem
        · rfl
        rcases mem_cons.mp ((h y).mpr mem_cons_self) with rfl | hmem'
        · rfl
        · exact absurd ((hx y hmem').trans (hy x hmem)) (lt_irrefl _)
      subst hxy
      refine congrArg (x :: ·) (ih hxs' hys' fun a => ⟨fun ha => ?_, fun ha => ?_⟩)
      · rcases mem_cons.mp ((h a).mp (mem_cons_of_mem _ ha)) with rfl | hmem
        · exact absurd (hx a ha) (lt_irrefl _)
        · exact hmem
      · rcases mem_cons.mp ((h a).mpr (mem_cons_of_mem _ ha)) with rfl | hmem
        · exact absurd (hy a ha) (lt_irrefl _)
        · exact hmem

/-- **Truncation.** Two ascending lists agree on their first `n` elements if, below each element
only one of them has, there are `n` that both have. -/
theorem take_eq_take_of_shared {n : ℕ} {xs ys : List α} (hxs : Ascending key xs)
    (hys : Ascending key ys)
    (h : ∀ a, (a ∈ xs ∧ a ∉ ys) ∨ (a ∈ ys ∧ a ∉ xs) → ∃ zs, Ascending key zs ∧ n ≤ zs.length ∧
      ∀ z ∈ zs, z ∈ xs ∧ z ∈ ys ∧ key z < key a) : xs.take n = ys.take n := by
  induction n generalizing xs ys with
  | zero => rfl
  | succ n ih =>
    -- a head that is not shared would have shared elements below it
    have hhead : ∀ {a : α} {l : List α}, (∀ b ∈ l, key a < key b) →
        ∀ zs : List α, n + 1 ≤ zs.length → ¬ ∀ z ∈ zs, z ∈ a :: l ∧ key z < key a := by
      intro a l hlt zs hlen hzs
      obtain ⟨z, hz⟩ := List.exists_mem_of_length_pos (Nat.lt_of_lt_of_le n.succ_pos hlen)
      obtain ⟨hmem, hza⟩ := hzs z hz
      rcases mem_cons.mp hmem with rfl | hmem
      · exact lt_irrefl _ hza
      · exact lt_asymm hza (hlt z hmem)
    rcases xs with _ | ⟨x, xs⟩
    · rcases ys with _ | ⟨y, ys⟩
      · rfl
      · obtain ⟨zs, -, hlen, hzs⟩ := h y (.inr ⟨mem_cons_self, by simp⟩)
        exact absurd (fun z hz => (hzs z hz).2) (hhead (ascending_cons.mp hys).1 zs hlen)
    rcases ys with _ | ⟨y, ys⟩
    · obtain ⟨zs, -, hlen, hzs⟩ := h x (.inl ⟨mem_cons_self, by simp⟩)
      exact absurd (fun z hz => ⟨(hzs z hz).1, (hzs z hz).2.2⟩)
        (hhead (ascending_cons.mp hxs).1 zs hlen)
    obtain ⟨hx, hxs'⟩ := ascending_cons.mp hxs
    obtain ⟨hy, hys'⟩ := ascending_cons.mp hys
    have hnot : ∀ {a b : α} {l : List α}, (∀ d ∈ l, key b < key d) → key a ≤ key b → a ≠ b →
        a ∉ b :: l := by
      intro a b l hb hle hne hmem
      rcases mem_cons.mp hmem with rfl | hmem
      · exact hne rfl
      · exact (hb a hmem).not_ge hle
    have hxy : x = y := by
      by_contra hne
      rcases le_total (key x) (key y) with hle | hle
      · obtain ⟨zs, -, hlen, hzs⟩ := h x (.inl ⟨mem_cons_self, hnot hy hle hne⟩)
        exact hhead hx zs hlen fun z hz => ⟨(hzs z hz).1, (hzs z hz).2.2⟩
      · obtain ⟨zs, -, hlen, hzs⟩ := h y (.inr ⟨mem_cons_self, hnot hx hle (Ne.symm hne)⟩)
        exact hhead hy zs hlen fun z hz => (hzs z hz).2
    subst hxy
    rw [List.take_succ_cons, List.take_succ_cons]
    refine congrArg (x :: ·) (ih hxs' hys' fun a ha => ?_)
    have hxa : key x < key a := by
      rcases ha with ⟨ha, -⟩ | ⟨ha, -⟩
      · exact hx a ha
      · exact hy a ha
    have hone : (a ∈ x :: xs ∧ a ∉ x :: ys) ∨ (a ∈ x :: ys ∧ a ∉ x :: xs) := by
      have hne : a ≠ x := fun hax => hxa.ne (congrArg key hax.symm)
      simpa [hne] using ha
    obtain ⟨zs, hzs, hlen, hshared⟩ := h a hone
    -- what is shared below `a` is shared in the tails, but for the first of it
    rcases zs with _ | ⟨z, zs⟩
    · simp at hlen
    obtain ⟨hz, hzs'⟩ := ascending_cons.mp hzs
    refine ⟨zs, hzs', by simpa using hlen, fun w hw => ?_⟩
    obtain ⟨hwx, hwy, hwa⟩ := hshared w (mem_cons_of_mem _ hw)
    have hxw : key x < key w := by
      refine lt_of_le_of_lt ?_ (hz w hw)
      rcases mem_cons.mp (hshared z mem_cons_self).1 with rfl | hmem
      · exact le_rfl
      · exact (hx z hmem).le
    have hne : w ≠ x := fun hwx => hxw.ne (congrArg key hwx.symm)
    exact ⟨(mem_cons.mp hwx).resolve_left hne, (mem_cons.mp hwy).resolve_left hne, hwa⟩

/-- **Late elements.** If the elements `p` accepts are put behind the others, the list is still
ascending exactly if nothing behind such an element is not one. -/
theorem ascending_filter_append_iff {l : List α} (hl : Ascending key l) (p : α → Bool) :
    Ascending key ((l.filter fun a => !p a) ++ l.filter p) ↔
      l.Pairwise fun a b => p a = true → p b = true := by
  induction l with
  | nil => simp [Ascending]
  | cons a l ih =>
    obtain ⟨ha, hl'⟩ := ascending_cons.mp hl
    rw [List.pairwise_cons, ← ih hl']
    cases hp : p a with
    | false =>
      -- an element in its place is below everything that follows it
      have hbelow : ∀ b ∈ (l.filter fun a => !p a) ++ l.filter p, key a < key b := by
        intro b hb
        rcases mem_append.mp hb with hb | hb
        · exact ha b (mem_filter.mp hb).1
        · exact ha b (mem_filter.mp hb).1
      rw [List.filter_cons_of_pos (by simp [hp]), List.filter_cons_of_neg (by simp [hp]),
        List.cons_append, ascending_cons]
      simp only [Bool.false_eq_true, false_implies, implies_true, true_and]
      exact and_iff_right hbelow
    | true =>
      rw [List.filter_cons_of_neg (by simp [hp]), List.filter_cons_of_pos hp]
      constructor
      · intro h
        have hnone : ∀ b ∈ l, p b = true := by
          intro b hb
          by_contra hpb
          have hb' : b ∈ l.filter fun a => !p a := mem_filter.mpr ⟨hb, by simp [hpb]⟩
          exact lt_asymm (ha b hb)
            ((List.pairwise_append.mp h).2.2 b hb' a mem_cons_self)
        refine ⟨fun b hb _ => hnone b hb, h.sublist ?_⟩
        exact (List.Sublist.refl _).append (List.sublist_cons_self _ _)
      · rintro ⟨hall, -⟩
        have hrest : l.filter (fun a => !p a) = [] :=
          List.filter_eq_nil_iff.mpr fun b hb => by simp [hall b hb rfl]
        rw [hrest, List.nil_append]
        exact ascending_cons.mpr ⟨fun b hb => ha b (mem_filter.mp hb).1, hl'.filter p⟩

/-! ### Cursors -/

/-- The elements from the cursor on. -/
def fromCursor (key : α → κ) (cursor : Option κ) (l : List α) : List α :=
  l.filter fun a => cursor.all fun k => decide (k ≤ key a)

/-- A page of `n` elements from the cursor on, and the key of the element behind it. -/
def pageAt (key : α → κ) (n : ℕ) (cursor : Option κ) (l : List α) : List α × Option κ :=
  ((fromCursor key cursor l).take n, (fromCursor key cursor l)[n]?.map key)

/-- Follow the cursor over a list that may change from call to call, until there is none: the pages,
and whether the end was reached. -/
def follow (key : α → κ) (n : ℕ) : Option κ → List (List α) → List (List α) × Bool
  | _, [] => ([], false)
  | cursor, l :: ls =>
    match (pageAt key n cursor l).2 with
    | none => ([(pageAt key n cursor l).1], true)
    | some next =>
      ((pageAt key n cursor l).1 :: (follow key n (some next) ls).1,
        (follow key n (some next) ls).2)

variable {n : ℕ} {cursor : Option κ} {l : List α} {ls : List (List α)}

theorem mem_fromCursor {a : α} :
    a ∈ fromCursor key cursor l ↔ a ∈ l ∧ ∀ k ∈ cursor, k ≤ key a := by
  simp [fromCursor, Option.all_eq_true]

@[simp] theorem fromCursor_none : fromCursor key none l = l :=
  List.filter_eq_self.mpr fun _ _ => rfl

/-- Without a next cursor, the page is all there is. -/
theorem pageAt_of_none (h : (pageAt key n cursor l).2 = none) :
    (pageAt key n cursor l).1 = fromCursor key cursor l := by
  have hlen : (fromCursor key cursor l)[n]? = none := Option.map_eq_none_iff.mp h
  exact List.take_of_length_le (List.getElem?_eq_none_iff.mp hlen)

/-- **One page.** The next cursor is a key of the list, beyond the page and the cursor before, and
the page has what is below it. -/
theorem pageAt_of_some (hl : Ascending key l) (hn : 0 < n) {next : κ}
    (h : (pageAt key n cursor l).2 = some next) :
    (∃ a ∈ l, key a = next) ∧ (∀ k ∈ cursor, k < next) ∧
      ∀ a, a ∈ (pageAt key n cursor l).1 ↔ a ∈ fromCursor key cursor l ∧ key a < next := by
  obtain ⟨b, hb, rfl⟩ := Option.map_eq_some_iff.mp h
  have hasc : Ascending key (fromCursor key cursor l) := hl.filter _
  obtain ⟨hlt, hget⟩ := List.getElem?_eq_some_iff.mp hb
  have hsplit : fromCursor key cursor l = (pageAt key n cursor l).1 ++
      b :: (fromCursor key cursor l).drop (n + 1) := by
    rw [pageAt, ← hget, List.getElem_cons_drop, List.take_append_drop]
  rw [hsplit] at hasc
  obtain ⟨-, hrest, hbelow⟩ := List.pairwise_append.mp hasc
  have hmem : ∀ a, a ∈ (pageAt key n cursor l).1 ↔
      a ∈ fromCursor key cursor l ∧ key a < key b := by
    intro a
    refine ⟨fun ha => ⟨List.mem_of_mem_take ha, hbelow a ha b mem_cons_self⟩, fun ha => ?_⟩
    rw [hsplit] at ha
    rcases mem_append.mp ha.1 with hin | hin
    · exact hin
    rcases mem_cons.mp hin with rfl | hin
    · exact absurd ha.2 (lt_irrefl _)
    · exact absurd ha.2 ((ascending_cons.mp hrest).1 a hin).asymm
  refine ⟨⟨b, (mem_fromCursor.mp (List.mem_of_getElem? hb)).1, rfl⟩, fun k hk => ?_, hmem⟩
  -- any element of the page is between the two cursors
  have hpage : 0 < (pageAt key n cursor l).1.length := by
    rw [pageAt, List.length_take]
    omega
  obtain ⟨a, ha⟩ := List.exists_mem_of_length_pos hpage
  obtain ⟨hfrom, hlast⟩ := (hmem a).mp ha
  exact ((mem_fromCursor.mp hfrom).2 k hk).trans_lt hlast

theorem follow_of_none (h : (pageAt key n cursor l).2 = none) :
    follow key n cursor (l :: ls) = ([fromCursor key cursor l], true) := by
  rw [follow, h, pageAt_of_none h]

theorem follow_of_some {next : κ} (h : (pageAt key n cursor l).2 = some next) :
    follow key n cursor (l :: ls) =
      ((pageAt key n cursor l).1 :: (follow key n (some next) ls).1,
        (follow key n (some next) ls).2) := by
  rw [follow, h]

/-- What is on the pages is beyond the cursor, and was in a list. -/
theorem mem_follow (hls : ∀ l ∈ ls, Ascending key l) (hn : 0 < n) {a : α}
    (ha : a ∈ (follow key n cursor ls).1.flatten) :
    (∀ k ∈ cursor, k ≤ key a) ∧ ∃ l ∈ ls, a ∈ l := by
  induction ls generalizing cursor with
  | nil => simp [follow] at ha
  | cons l ls ih =>
    have hfrom : ∀ a ∈ fromCursor key cursor l,
        (∀ k ∈ cursor, k ≤ key a) ∧ ∃ l' ∈ l :: ls, a ∈ l' := fun a ha =>
      ⟨(mem_fromCursor.mp ha).2, l, mem_cons_self, (mem_fromCursor.mp ha).1⟩
    rcases hnext : (pageAt key n cursor l).2 with _ | next
    · rw [follow_of_none hnext] at ha
      exact hfrom a (by simpa using ha)
    · rw [follow_of_some hnext, List.flatten_cons] at ha
      obtain ⟨-, hlt, hmem⟩ := pageAt_of_some (hls l mem_cons_self) hn hnext
      rcases mem_append.mp ha with ha | ha
      · exact hfrom a ((hmem a).mp ha).1
      · obtain ⟨hle, l', hl', hin⟩ := ih (fun l' hl' => hls l' (mem_cons_of_mem _ hl')) ha
        exact ⟨fun k hk => (hlt k hk).le.trans (hle next rfl), l', mem_cons_of_mem _ hl', hin⟩

/-- **Order.** The pages, put end to end, are in strictly ascending order. -/
theorem ascending_follow (hls : ∀ l ∈ ls, Ascending key l) (hn : 0 < n) (cursor : Option κ) :
    Ascending key (follow key n cursor ls).1.flatten := by
  induction ls generalizing cursor with
  | nil => exact ascending_nil
  | cons l ls ih =>
    have hl := hls l mem_cons_self
    have htail : ∀ l ∈ ls, Ascending key l := fun l hl => hls l (mem_cons_of_mem _ hl)
    rcases hnext : (pageAt key n cursor l).2 with _ | next
    · rw [follow_of_none hnext, List.flatten_singleton]
      exact hl.filter _
    · rw [follow_of_some hnext, List.flatten_cons]
      obtain ⟨-, -, hmem⟩ := pageAt_of_some hl hn hnext
      refine List.pairwise_append.mpr ⟨?_, ih htail _, fun a ha b hb => ?_⟩
      · exact (hl.filter _).sublist (List.take_sublist _ _)
      · exact ((hmem a).mp ha).2.trans_le ((mem_follow htail hn hb).1 next rfl)

/-- **Completeness.** Once the end is reached, each key that was in the list at every call is on a
page. -/
theorem follow_complete (hls : ∀ l ∈ ls, Ascending key l) (hn : 0 < n)
    (hdone : (follow key n cursor ls).2 = true) {k : κ} (hk : ∀ k' ∈ cursor, k' ≤ k)
    (hin : ∀ l ∈ ls.take (follow key n cursor ls).1.length, ∃ a ∈ l, key a = k) :
    ∃ a ∈ (follow key n cursor ls).1.flatten, key a = k := by
  induction ls generalizing cursor with
  | nil => simp [follow] at hdone
  | cons l ls ih =>
    have hl := hls l mem_cons_self
    have htail : ∀ l ∈ ls, Ascending key l := fun l hl => hls l (mem_cons_of_mem _ hl)
    have hhere : (∃ a ∈ l, key a = k) → ∃ a ∈ fromCursor key cursor l, key a = k := by
      rintro ⟨a, ha, rfl⟩
      exact ⟨a, mem_fromCursor.mpr ⟨ha, hk⟩, rfl⟩
    rcases hnext : (pageAt key n cursor l).2 with _ | next
    · rw [follow_of_none hnext] at hin ⊢
      simpa using hhere (hin l (by simp))
    · rw [follow_of_some hnext] at hdone hin ⊢
      obtain ⟨a, ha, hak⟩ := hhere (hin l (by simp))
      obtain ⟨-, -, hmem⟩ := pageAt_of_some hl hn hnext
      rcases lt_or_ge k next with hlt | hge
      · exact ⟨a, List.mem_append_left _ ((hmem a).mpr ⟨ha, hak ▸ hlt⟩), hak⟩
      · obtain ⟨b, hb, hbk⟩ := ih htail hdone (by rintro k' ⟨⟩; exact hge) fun l' hl' =>
          hin l' (by simp [hl'])
        exact ⟨b, List.mem_append_right _ hb, hbk⟩

/-- **Progress.** As long as the end is not reached, the calls have met as many keys. -/
theorem follow_unfinished (hls : ∀ l ∈ ls, Ascending key l) (hn : 0 < n)
    (hdone : (follow key n cursor ls).2 = false) :
    ∃ ks : List κ, ks.Pairwise (· < ·) ∧ ks.length = ls.length ∧
      ∀ k ∈ ks, (∀ k' ∈ cursor, k' < k) ∧ ∃ l ∈ ls, ∃ a ∈ l, key a = k := by
  induction ls generalizing cursor with
  | nil => exact ⟨[], .nil, rfl, by simp⟩
  | cons l ls ih =>
    have hl := hls l mem_cons_self
    rcases hnext : (pageAt key n cursor l).2 with _ | next
    · rw [follow_of_none hnext] at hdone
      cases hdone
    · rw [follow_of_some hnext] at hdone
      obtain ⟨hmet, hlt, -⟩ := pageAt_of_some hl hn hnext
      obtain ⟨ks, hks, hlen, hall⟩ := ih (fun l hl => hls l (mem_cons_of_mem _ hl)) hdone
      refine ⟨next :: ks, List.pairwise_cons.mpr ⟨fun k hk => (hall k hk).1 next rfl, hks⟩,
        by rw [List.length_cons, hlen, List.length_cons], fun k hk => ?_⟩
      rcases mem_cons.mp hk with rfl | hk
      · exact ⟨hlt, l, mem_cons_self, hmet⟩
      · obtain ⟨hgt, l', hl', hmet'⟩ := hall k hk
        exact ⟨fun k' hk' => (hlt k' hk').trans (hgt next rfl), l', mem_cons_of_mem _ hl', hmet'⟩

/-- **A list that stays.** More calls than it has elements reach the end, and the pages are what the
list has from the cursor on. -/
theorem follow_replicate (hl : Ascending key l) (hn : 0 < n) (cursor : Option κ) {calls : ℕ}
    (hcalls : l.length < calls) :
    (follow key n cursor (List.replicate calls l)).2 = true ∧
      (follow key n cursor (List.replicate calls l)).1.flatten = fromCursor key cursor l := by
  have hls : ∀ l' ∈ List.replicate calls l, Ascending key l' := fun l' hl' =>
    eq_of_mem_replicate hl' ▸ hl
  have hdone : (follow key n cursor (List.replicate calls l)).2 = true := by
    by_contra hnot
    obtain ⟨ks, hks, hlen, hall⟩ := follow_unfinished hls hn (Bool.eq_false_of_not_eq_true hnot)
    have hsub : ks ⊆ l.map key := by
      intro k hk
      obtain ⟨-, l', hl', a, ha, hak⟩ := hall k hk
      exact List.mem_map.mpr ⟨a, eq_of_mem_replicate hl' ▸ ha, hak⟩
    have hnodup : ks.Nodup := hks.imp ne_of_lt
    have hle := (hnodup.subperm hsub).length_le
    rw [hlen, List.length_replicate, List.length_map] at hle
    omega
  refine ⟨hdone, (ascending_follow hls hn cursor).ext (hl.filter _) fun a => ?_⟩
  constructor
  · intro ha
    obtain ⟨hfrom, l', hl', hin⟩ := mem_follow hls hn ha
    exact mem_fromCursor.mpr ⟨eq_of_mem_replicate hl' ▸ hin, hfrom⟩
  · intro ha
    obtain ⟨hin, hfrom⟩ := mem_fromCursor.mp ha
    obtain ⟨b, hb, hba⟩ := follow_complete hls hn hdone (k := key a) hfrom fun l' hl' =>
      ⟨a, eq_of_mem_replicate (List.mem_of_mem_take hl') ▸ hin, rfl⟩
    obtain ⟨-, l', hl', hbin⟩ := mem_follow hls hn hb
    rwa [← hl.eq_of_key_eq (eq_of_mem_replicate hl' ▸ hbin) hin hba]

/-! ### Another view of the elements -/

theorem fromCursor_map {β : Type*} (f : β → α) (cursor : Option κ) (l : List β) :
    fromCursor key cursor (l.map f) = (fromCursor (key ∘ f) cursor l).map f := by
  rw [fromCursor, List.filter_map]
  rfl

/-- A page of the views is the view of a page. -/
theorem pageAt_map {β : Type*} (f : β → α) (n : ℕ) (cursor : Option κ) (l : List β) :
    pageAt key n cursor (l.map f) =
      ((pageAt (key ∘ f) n cursor l).1.map f, (pageAt (key ∘ f) n cursor l).2) := by
  rw [pageAt, pageAt, fromCursor_map, List.map_take, List.getElem?_map, Option.map_map]

end SortedMap
