import Mathlib

/-!
# Selecting the best

Two ways to keep the `k` elements of highest score. A **partial selection** rearranges a list around
its `k`-th element and keeps what stands in front; a **bounded heap** is offered the elements one by
one and gives up an element of lowest score for a better one. Which of several equal elements is
moved, given up or kept is left open: both leave some `k` elements that no other beats (`IsTop`).
Where no two scores are equal, there is one such choice (`IsTop.perm`), and one order of it
(`eq_of_descending`).

`chunkBy` groups the neighbours of a list that are alike; in a sorted list these are all elements
of a key (`chunkBy_spec`).
-/

namespace TopSelection

open List (mem_cons mem_cons_self length_cons pairwise_cons flatten_cons mem_flatten mem_map)

variable {α V κ : Type*} [LinearOrder V] {score : α → V} {k : ℕ}

/-! ### The best -/

/-- `chosen` are `k` elements, or all there are, that no other element beats. -/
def IsTop (score : α → V) (k : ℕ) (all chosen : List α) : Prop :=
  ∃ rest, (chosen ++ rest).Perm all ∧ chosen.length = min k all.length ∧
    ∀ c ∈ chosen, ∀ d ∈ rest, score d ≤ score c

theorem isTop_all {all : List α} (h : all.length ≤ k) : IsTop score k all all :=
  ⟨[], by rw [List.append_nil], by omega, by simp⟩

theorem IsTop.subset {all chosen : List α} (h : IsTop score k all chosen) {a : α}
    (ha : a ∈ chosen) : a ∈ all := by
  obtain ⟨rest, hperm, -⟩ := h
  exact hperm.subset (List.mem_append_left _ ha)

/-- A chosen list may be put in any order. -/
theorem IsTop.congr {all chosen chosen' : List α} (h : IsTop score k all chosen)
    (hperm : chosen'.Perm chosen) : IsTop score k all chosen' := by
  obtain ⟨rest, hall, hlen, hbest⟩ := h
  exact ⟨rest, (hperm.append_right rest).trans hall, by rw [hperm.length_eq, hlen],
    fun c hc => hbest c (hperm.subset hc)⟩

theorem IsTop.of_perm {all all' chosen : List α} (h : IsTop score k all chosen)
    (hperm : all.Perm all') : IsTop score k all' chosen := by
  obtain ⟨rest, hall, hlen, hbest⟩ := h
  exact ⟨rest, hall.trans hperm, by rw [hlen, hperm.length_eq], hbest⟩

theorem IsTop.map {β : Type*} {f : β → α} {all chosen : List β}
    (h : IsTop (fun b => score (f b)) k all chosen) :
    IsTop score k (all.map f) (chosen.map f) := by
  obtain ⟨rest, hall, hlen, hbest⟩ := h
  refine ⟨rest.map f, ?_, by simpa using hlen, fun c hc d hd => ?_⟩
  · rw [← List.map_append]
    exact hall.map f
  · obtain ⟨b, hb, rfl⟩ := mem_map.mp hc
    obtain ⟨a, ha, rfl⟩ := mem_map.mp hd
    exact hbest b hb a ha

/-- **Without equal scores the choice is determined.** -/
theorem IsTop.perm {all all' chosen chosen' : List α} (h : IsTop score k all chosen)
    (h' : IsTop score k all' chosen') (hall : all.Perm all') (hnodup : all.Nodup)
    (hinj : ∀ a ∈ all, ∀ b ∈ all, score a = score b → a = b) : chosen.Perm chosen' := by
  obtain ⟨rest, hperm, hlen, hbest⟩ := h
  obtain ⟨rest', hperm', hlen', hbest'⟩ := h'
  have hnd := hperm.nodup_iff.mpr hnodup
  have hnd' := (hperm'.trans hall.symm).nodup_iff.mpr hnodup
  have hsize : chosen.length = chosen'.length := by rw [hlen, hlen', hall.length_eq]
  have hsub : chosen ⊆ chosen' := by
    intro c hc
    by_contra hout
    -- some other element was chosen in its place
    obtain ⟨d, hd, hdout⟩ : ∃ d ∈ chosen', d ∉ chosen := by
      by_contra hnone
      push Not at hnone
      have hchosen : chosen'.Nodup := (List.nodup_append.mp hnd').1
      have hsame := (List.subperm_of_subset hchosen hnone).perm_of_length_le hsize.le
      exact hout (hsame.symm.subset hc)
    have hcall : c ∈ all := hperm.subset (List.mem_append_left _ hc)
    have hdall : d ∈ all := hall.symm.subset (hperm'.subset (List.mem_append_left _ hd))
    have hcrest : c ∈ rest' :=
      (List.mem_append.mp (hperm'.symm.subset (hall.subset hcall))).resolve_left hout
    have hdrest : d ∈ rest := (List.mem_append.mp (hperm.symm.subset hdall)).resolve_left hdout
    have heq := hinj c hcall d hdall (le_antisymm (hbest' d hd c hcrest) (hbest c hc d hdrest))
    exact hout (heq ▸ hd)
  have hchosen : chosen.Nodup := (List.nodup_append.mp hnd).1
  exact (List.subperm_of_subset hchosen hsub).perm_of_length_le hsize.ge

/-- A list in descending order of distinct scores is determined by its members. -/
theorem eq_of_descending {l l' : List α} (hperm : l.Perm l')
    (hl : l.Pairwise fun a b => score b ≤ score a) (hl' : l'.Pairwise fun a b => score b ≤ score a)
    (hinj : ∀ a ∈ l, ∀ b ∈ l, score a = score b → a = b) : l = l' :=
  hperm.eq_of_pairwise
    (fun a b ha hb hab hba => hinj a ha b (hperm.symm.subset hb) (le_antisymm hba hab)) hl hl'

/-! ### Partial selection -/

/-- What a partial selection around the `k`-th element may leave: what stands in front of it is
not less, what stands behind it not greater. -/
def Partitioned (score : α → V) (k : ℕ) (input out : List α) : Prop :=
  out.Perm input ∧ ∀ pivot ∈ out[k]?, (∀ a ∈ out.take k, score pivot ≤ score a) ∧
    ∀ a ∈ out.drop (k + 1), score a ≤ score pivot

/-- **A partial selection** keeps the best in front. -/
theorem Partitioned.isTop {input out : List α} (h : Partitioned score k input out)
    (hk : k < input.length) : IsTop score k input (out.take k) := by
  obtain ⟨hperm, hpivot⟩ := h
  have hlen := hperm.length_eq
  have hk' : k < out.length := by omega
  obtain ⟨hfront, hback⟩ := hpivot out[k] (List.getElem?_eq_getElem hk')
  refine ⟨out.drop k, by rwa [List.take_append_drop], ?_, fun c hc d hd => ?_⟩
  · rw [List.length_take, hlen]
  · rw [List.drop_eq_getElem_cons hk'] at hd
    rcases mem_cons.mp hd with rfl | hd
    · exact hfront c hc
    · exact (hback d hd).trans (hfront c hc)

/-! ### A bounded heap -/

/-- Offer an element to a heap of at most `k`: it is taken while there is room; then it takes the
place of an element of lowest score if its own is higher. -/
inductive Offer (score : α → V) (k : ℕ) : List α → α → List α → Prop
  | push {heap : List α} {a : α} (h : heap.length < k) : Offer score k heap a (a :: heap)
  | none {a : α} (h : ¬([] : List α).length < k) : Offer score k [] a []
  | keep {heap rest : List α} {a m : α} (h : ¬heap.length < k) (hmin : heap.Perm (m :: rest))
      (hle : ∀ x ∈ rest, score m ≤ score x) (hnot : ¬score m < score a) : Offer score k heap a heap
  | replace {heap rest : List α} {a m : α} (h : ¬heap.length < k) (hmin : heap.Perm (m :: rest))
      (hle : ∀ x ∈ rest, score m ≤ score x) (hlt : score m < score a) :
      Offer score k heap a (a :: rest)

/-- Offer the elements of a list in order. -/
inductive Offers (score : α → V) (k : ℕ) : List α → List α → List α → Prop
  | nil {heap : List α} : Offers score k heap [] heap
  | cons {heap heap' last : List α} {a : α} {items : List α} (h : Offer score k heap a heap')
      (hrest : Offers score k heap' items last) : Offers score k heap (a :: items) last

/-- One offer keeps the best of what has been seen. -/
theorem Offer.isTop {seen heap heap' : List α} {a : α} (h : Offer score k heap a heap')
    (htop : IsTop score k seen heap) : IsTop score k (a :: seen) heap' := by
  obtain ⟨rest, hperm, hlen, hbest⟩ := htop
  have hsize := hperm.length_eq
  rw [List.length_append] at hsize
  cases h with
  | push hroom =>
    obtain rfl : rest = [] := List.eq_nil_of_length_eq_zero (by omega)
    refine ⟨[], ?_, ?_, by simp⟩
    · rw [List.append_nil] at hperm ⊢
      exact hperm.cons a
    · simp only [length_cons]
      omega
  | none hfull =>
    refine ⟨a :: rest, hperm.cons a, ?_, by simp⟩
    simp only [length_cons, List.length_nil] at *
    omega
  | @keep _ others _ m hfull hmin hle hnot =>
    refine ⟨a :: rest, List.perm_middle.trans (hperm.cons a), ?_, fun c hc d hd => ?_⟩
    · simp only [length_cons]
      omega
    · rcases mem_cons.mp hd with rfl | hd
      · refine (not_lt.mp hnot).trans ?_
        rcases mem_cons.mp (hmin.subset hc) with rfl | hc
        · exact le_rfl
        · exact hle c hc
      · exact hbest c hc d hd
  | @replace _ others _ m hfull hmin hle hlt =>
    have hcount := hmin.length_eq
    rw [length_cons] at hcount
    refine ⟨m :: rest, ?_, ?_, fun c hc d hd => ?_⟩
    · refine (List.Perm.cons a ?_).trans (hperm.cons a)
      exact List.perm_middle.trans (hmin.symm.append_right rest)
    · simp only [length_cons]
      omega
    · have hm : m ∈ heap := hmin.symm.subset mem_cons_self
      rcases mem_cons.mp hd with rfl | hd
      · rcases mem_cons.mp hc with rfl | hc
        · exact hlt.le
        · exact hle c hc
      · rcases mem_cons.mp hc with rfl | hc
        · exact (hbest m hm d hd).trans hlt.le
        · exact hbest c (hmin.symm.subset (List.mem_cons_of_mem _ hc)) d hd

/-- **A bounded heap** keeps the best of all it is offered. -/
theorem Offers.isTop {seen heap items last : List α} (h : Offers score k heap items last)
    (htop : IsTop score k seen heap) : IsTop score k (items.reverse ++ seen) last := by
  induction h generalizing seen with
  | nil => exact htop
  | cons hoffer _ ih =>
    have hstep := ih (hoffer.isTop htop)
    rwa [List.reverse_cons, List.append_assoc]

/-! ### Groups of neighbours -/

/-- Group neighbours that are alike. -/
def chunkBy (same : α → α → Bool) : List α → List (List α)
  | [] => []
  | [a] => [[a]]
  | a :: b :: l =>
    match chunkBy same (b :: l) with
    | [] => [[a]]
    | g :: groups => if same a b then (a :: g) :: groups else [a] :: g :: groups

variable [LinearOrder κ] (key : α → κ)

/-- **The groups of a sorted list** are its elements by their keys. -/
theorem chunkBy_spec {same : α → α → Bool} {l : List α}
    (hsame : ∀ a ∈ l, ∀ b ∈ l, same a b = true ↔ key a = key b)
    (hsorted : l.Pairwise fun a b => key a ≤ key b) :
    (chunkBy same l).flatten = l ∧
      (∀ g ∈ chunkBy same l, g ≠ [] ∧ ∀ a ∈ g, ∀ b ∈ g, key a = key b) ∧
      (chunkBy same l).Pairwise fun g g' => ∀ a ∈ g, ∀ b ∈ g', key a < key b := by
  induction l with
  | nil => exact ⟨rfl, by simp [chunkBy], .nil⟩
  | cons a l ih =>
    obtain ⟨hle, hsorted'⟩ := pairwise_cons.mp hsorted
    obtain ⟨hflat, hgroups, hpairs⟩ := ih
      (fun x hx y hy => hsame x (List.mem_cons_of_mem _ hx) y (List.mem_cons_of_mem _ hy)) hsorted'
    rcases l with _ | ⟨b, l⟩
    · refine ⟨rfl, ?_, List.pairwise_singleton _ _⟩
      simp [chunkBy]
    rw [chunkBy]
    clear ih
    generalize chunkBy same (b :: l) = chunks at hflat hgroups hpairs ⊢
    rcases chunks with _ | ⟨g, groups⟩
    · simp at hflat
    obtain ⟨hg, hrest⟩ := List.forall_mem_cons.mp hgroups
    obtain ⟨hgne, hgkey⟩ := hg
    obtain ⟨hgbelow, hpairs'⟩ := pairwise_cons.mp hpairs
    obtain ⟨x, g, rfl⟩ := List.exists_cons_of_ne_nil hgne
    obtain rfl : x = b := by
      simp only [flatten_cons, List.cons_append, List.cons.injEq] at hflat
      exact hflat.1
    have hmem : ∀ g' ∈ (x :: g) :: groups, ∀ y ∈ g', y ∈ x :: l := fun g' hg' y hy => by
      rw [← hflat]
      exact mem_flatten.mpr ⟨g', hg', hy⟩
    simp only
    split_ifs with halike
    · have hkey : key a = key x := (hsame a mem_cons_self x (by simp)).mp halike
      have hsamekey : ∀ y ∈ a :: x :: g, key y = key x := by
        intro y hy
        rcases mem_cons.mp hy with rfl | hy
        · exact hkey
        · exact hgkey y hy x mem_cons_self
      refine ⟨?_, List.forall_mem_cons.mpr ⟨⟨by simp, fun y hy z hz => ?_⟩, hrest⟩,
        pairwise_cons.mpr ⟨fun g' hg' y hy z hz => ?_, hpairs'⟩⟩
      · rw [flatten_cons, List.cons_append, ← flatten_cons, hflat]
      · rw [hsamekey y hy, hsamekey z hz]
      · rw [hsamekey y hy]
        exact hgbelow g' hg' x mem_cons_self z hz
    · have hlt : key a < key x := by
        refine lt_of_le_of_ne (hle x mem_cons_self) fun heq => halike ?_
        exact (hsame a mem_cons_self x (by simp)).mpr heq
      refine ⟨?_, List.forall_mem_cons.mpr ⟨⟨by simp, by simp⟩, hgroups⟩,
        pairwise_cons.mpr ⟨fun g' hg' y hy z hz => ?_, hpairs⟩⟩
      · rw [flatten_cons, hflat]
        rfl
      · obtain rfl := List.mem_singleton.mp hy
        have hz' := hmem g' hg' z hz
        rcases mem_cons.mp hz' with rfl | hz'
        · exact hlt
        · exact hlt.trans_le ((pairwise_cons.mp hsorted').1 z hz')

/-- A group holds all elements of its key. -/
theorem mem_chunk_iff {same : α → α → Bool} {l : List α}
    (hsame : ∀ a ∈ l, ∀ b ∈ l, same a b = true ↔ key a = key b)
    (hsorted : l.Pairwise fun a b => key a ≤ key b) {g : List α} (hg : g ∈ chunkBy same l) {a b : α}
    (ha : a ∈ g) : b ∈ g ↔ b ∈ l ∧ key b = key a := by
  obtain ⟨hflat, hgroups, hpairs⟩ := chunkBy_spec key hsame hsorted
  constructor
  · intro hb
    exact ⟨hflat ▸ mem_flatten.mpr ⟨g, hg, hb⟩, (hgroups g hg).2 b hb a ha⟩
  · rintro ⟨hb, hkey⟩
    rw [← hflat] at hb
    obtain ⟨g', hg', hb'⟩ := mem_flatten.mp hb
    have hone : g = g' :=
      List.Pairwise.forall_of_forall_of_flip
        (R := fun g g' => ∀ a ∈ g, ∀ b ∈ g', key b = key a → g = g') (fun _ _ _ _ _ _ _ => rfl)
        (hpairs.imp fun hlt a ha b hb heq => absurd heq (hlt a ha b hb).ne')
        (hpairs.imp fun hlt a ha b hb heq => absurd heq (hlt b hb a ha).ne)
        hg hg' a ha b hb' hkey
    exact hone ▸ hb'

end TopSelection
