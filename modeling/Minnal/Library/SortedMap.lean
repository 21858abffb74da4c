import Mathlib

/-!
# Sorted lists as ordered maps

An ordered map is kept as the list of its elements in strictly ascending key order, the key
of an element being `key a`. `findBy key k l` looks an element up and `upsertBy key k f l`
replaces or inserts the one at `k`, where `f` says what stands there now given what stood
there before. On a sorted list lookup is membership (`findBy_eq_some_iff`), an upsert
changes the answer at its own key only (`findBy_upsertBy`), and anything read off the list
in order comes out in ascending order without duplicates.
-/

namespace SortedMap

open List (mem_cons mem_filter mem_cons_of_mem mem_cons_self)

variable {α κ : Type*} [LinearOrder κ] (key : α → κ)

/-- The elements stand in strictly ascending key order. -/
def Ascending (l : List α) : Prop := l.Pairwise fun a b => key a < key b

/-- The element at `k`. -/
def findBy (k : κ) (l : List α) : Option α := l.find? fun a => decide (key a = k)

/-- Replace the element at `k`, or insert one, by `f` of what was there. -/
def upsertBy (k : κ) (f : Option α → α) : List α → List α
  | [] => [f none]
  | a :: l =>
    if k < key a then f none :: a :: l
    else if key a < k then a :: upsertBy k f l
    else f (some a) :: l

variable {key}

/-! ### Lookup -/

@[simp] theorem ascending_nil : Ascending key ([] : List α) := List.Pairwise.nil

variable {a : α} {l : List α}

theorem ascending_cons : Ascending key (a :: l) ↔ (∀ b ∈ l, key a < key b) ∧ Ascending key l :=
  List.pairwise_cons

theorem Ascending.sublist {l' : List α} (h : Ascending key l') (hs : l.Sublist l') :
    Ascending key l :=
  List.Pairwise.sublist hs h

theorem Ascending.filter (h : Ascending key l) (p : α → Bool) : Ascending key (l.filter p) :=
  h.sublist List.filter_sublist

@[simp] theorem findBy_nil (k : κ) : findBy key k [] = none := rfl

theorem findBy_cons (k : κ) (a : α) (l : List α) :
    findBy key k (a :: l) = if key a = k then some a else findBy key k l := by
  by_cases h : key a = k <;> simp [findBy, h]

variable {k : κ}

theorem mem_of_findBy_eq_some (h : findBy key k l = some a) : a ∈ l ∧ key a = k :=
  ⟨List.mem_of_find?_eq_some h, by simpa using List.find?_some h⟩

theorem findBy_eq_none : findBy key k l = none ↔ ∀ a ∈ l, key a ≠ k := by
  simp [findBy]

/-- On a sorted list, lookup is membership. -/
theorem findBy_eq_some_iff (hl : Ascending key l) :
    findBy key k l = some a ↔ a ∈ l ∧ key a = k := by
  refine ⟨mem_of_findBy_eq_some, ?_⟩
  rintro ⟨hmem, hk⟩
  induction l with
  | nil => cases hmem
  | cons b l ih =>
    obtain ⟨hb, hl⟩ := ascending_cons.mp hl
    rw [findBy_cons]
    rcases mem_cons.mp hmem with rfl | hmem
    · rw [if_pos hk]
    · rw [if_neg (ne_of_lt (hk ▸ hb a hmem)), ih hl hmem]

/-- A sorted list is injective on keys. -/
theorem Ascending.eq_of_key_eq (hl : Ascending key l) {b : α} (ha : a ∈ l) (hb : b ∈ l)
    (h : key a = key b) : a = b := by
  have h₁ := (findBy_eq_some_iff hl).mpr ⟨ha, rfl⟩
  have h₂ := (findBy_eq_some_iff hl).mpr ⟨hb, h.symm⟩
  exact Option.some.inj (h₁.symm.trans h₂)

theorem findBy_append (k : κ) (l₁ l₂ : List α) :
    findBy key k (l₁ ++ l₂) = (findBy key k l₁).or (findBy key k l₂) := by
  simp [findBy, List.find?_append]

/-- Elements below `k` do not matter to a lookup of `k`. -/
theorem findBy_append_of_lt {l₁ : List α} (h : ∀ a ∈ l₁, key a < k) (l₂ : List α) :
    findBy key k (l₁ ++ l₂) = findBy key k l₂ := by
  rw [findBy_append, findBy_eq_none.mpr fun a ha => (h a ha).ne, Option.none_or]

/-- Seeking to `start` and reading while `p` holds finds what `p` accepts, when that is a
stretch of keys from `start` on. -/
theorem Ascending.takeWhile_dropWhile_eq_filter (hl : Ascending key l) {start : κ}
    {below p : α → Bool} (hdef : ∀ a, below a = true ↔ key a < start)
    (hbelow : ∀ a ∈ l, key a < start → p a = false)
    (hstop : ∀ a ∈ l, ∀ b ∈ l, start ≤ key a → key a < key b → p a = false → p b = false) :
    (l.dropWhile below).takeWhile p = l.filter p := by
  induction l with
  | nil => rfl
  | cons a l ih =>
    obtain ⟨hlt, hl'⟩ := ascending_cons.mp hl
    have hrest := ih hl' (fun b hb => hbelow b (mem_cons_of_mem _ hb))
      fun b hb c hc => hstop b (mem_cons_of_mem _ hb) c (mem_cons_of_mem _ hc)
    by_cases ha : key a < start
    · rw [List.dropWhile_cons_of_pos ((hdef a).mpr ha), hrest,
        List.filter_cons_of_neg (by simp [hbelow a mem_cons_self ha])]
    · rw [List.dropWhile_cons_of_neg ((hdef a).not.mpr ha)]
      -- nothing is left to skip
      have hskip : l.dropWhile below = l := by
        refine List.dropWhile_eq_self_iff.mpr fun hpos => ?_
        rw [hdef, not_lt]
        exact (not_lt.mp ha).trans (hlt _ (List.getElem_mem hpos)).le
      rw [hskip] at hrest
      by_cases hp : p a = true
      · rw [List.takeWhile_cons_of_pos hp, List.filter_cons_of_pos hp, hrest]
      · have hnone : l.filter p = [] := by
          refine List.filter_eq_nil_iff.mpr fun b hb => ?_
          rw [hstop a mem_cons_self b (mem_cons_of_mem _ hb) (not_lt.mp ha) (hlt b hb)
            (by simpa using hp)]
          exact Bool.false_ne_true
        rw [List.takeWhile_cons_of_neg hp, List.filter_cons_of_neg hp, hnone]

/-- Once the list has passed `k`, the lookup fails. -/
theorem findBy_eq_none_of_gt (hl : Ascending key (a :: l)) (h : k < key a) :
    findBy key k (a :: l) = none := by
  refine findBy_eq_none.mpr fun b hb => ?_
  rcases mem_cons.mp hb with rfl | hb
  · exact h.ne'
  · exact (h.trans ((ascending_cons.mp hl).1 b hb)).ne'

/-- Filtering a sorted list filters its lookups. -/
theorem findBy_filter (hl : Ascending key l) (p : α → Bool) (k : κ) :
    findBy key k (l.filter p) = (findBy key k l).filter p := by
  ext a
  rw [findBy_eq_some_iff (hl.filter p), Option.filter_eq_some_iff, findBy_eq_some_iff hl,
    mem_filter]
  tauto

/-! ### Upsert -/

/-- `f` keeps what it returns at the key `k`. -/
def KeepsKey (key : α → κ) (k : κ) (f : Option α → α) : Prop :=
  ∀ o : Option α, (∀ a ∈ o, key a = k) → key (f o) = k

variable {f : Option α → α}

omit [LinearOrder κ] in
theorem KeepsKey.vacant (hf : KeepsKey key k f) : key (f none) = k :=
  hf none (by simp)

omit [LinearOrder κ] in
theorem KeepsKey.occupied (hf : KeepsKey key k f) (ha : key a = k) : key (f (some a)) = k :=
  hf (some a) (by simpa using ha)

/-- What an upsert leaves in the list: the old elements off `k`, and the new one. -/
theorem mem_upsertBy (hl : Ascending key l) :
    a ∈ upsertBy key k f l ↔ (a ∈ l ∧ key a ≠ k) ∨ a = f (findBy key k l) := by
  induction l with
  | nil => simp [upsertBy]
  | cons b l ih =>
    obtain ⟨hb, hl'⟩ := ascending_cons.mp hl
    rw [upsertBy]
    rcases lt_trichotomy k (key b) with hlt | heq | hgt
    · have hnone : findBy key k (b :: l) = none := findBy_eq_none_of_gt hl hlt
      have hne : ∀ c ∈ b :: l, key c ≠ k := findBy_eq_none.mp hnone
      rw [if_pos hlt, hnone, mem_cons]
      exact ⟨fun h => h.elim .inr fun h => .inl ⟨h, hne a h⟩, fun h => h.elim (.inr ·.1) .inl⟩
    · have hne : ∀ c ∈ l, key c ≠ k := fun c hc => heq ▸ (hb c hc).ne'
      rw [if_neg heq.not_lt, if_neg heq.not_gt, findBy_cons, if_pos heq.symm, mem_cons,
        mem_cons]
      refine ⟨fun h => h.elim .inr fun h => .inl ⟨.inr h, hne a h⟩, fun h => ?_⟩
      rcases h with ⟨rfl | h, hk⟩ | h
      · exact absurd heq.symm hk
      · exact .inr h
      · exact .inl h
    · rw [if_neg hgt.not_gt, if_pos hgt, findBy_cons, if_neg hgt.ne, mem_cons, mem_cons,
        ih hl']
      refine ⟨fun h => ?_, fun h => ?_⟩
      · rcases h with rfl | ⟨h, hk⟩ | h
        · exact .inl ⟨.inl rfl, hgt.ne⟩
        · exact .inl ⟨.inr h, hk⟩
        · exact .inr h
      · rcases h with ⟨rfl | h, hk⟩ | h
        · exact .inl rfl
        · exact .inr (.inl ⟨h, hk⟩)
        · exact .inr (.inr h)

theorem Ascending.upsertBy (hf : KeepsKey key k f) (hl : Ascending key l) :
    Ascending key (upsertBy key k f l) := by
  induction l with
  | nil => simp [SortedMap.upsertBy, Ascending]
  | cons b l ih =>
    obtain ⟨hb, hl'⟩ := ascending_cons.mp hl
    rw [SortedMap.upsertBy]
    rcases lt_trichotomy k (key b) with hlt | heq | hgt
    · rw [if_pos hlt]
      refine ascending_cons.mpr ⟨fun c hc => ?_, hl⟩
      rw [hf.vacant]
      rcases mem_cons.mp hc with rfl | hc
      · exact hlt
      · exact hlt.trans (hb c hc)
    · rw [if_neg heq.not_lt, if_neg heq.not_gt]
      refine ascending_cons.mpr ⟨fun c hc => ?_, hl'⟩
      rw [hf.occupied heq.symm, heq]
      exact hb c hc
    · rw [if_neg hgt.not_gt, if_pos hgt]
      refine ascending_cons.mpr ⟨fun c hc => ?_, ih hl'⟩
      rcases (mem_upsertBy hl').mp hc with ⟨hc, -⟩ | rfl
      · exact hb c hc
      · rw [hf _ fun a ha => (mem_of_findBy_eq_some ha).2]
        exact hgt

theorem Ascending.nodup (hl : Ascending key l) : l.Nodup :=
  List.Pairwise.imp (fun hlt heq => absurd (heq ▸ hlt) (lt_irrefl _)) hl

/-- A sorted list is determined by its members. -/
theorem Ascending.eq_of_mem_iff {l' : List α} (hl : Ascending key l) (hl' : Ascending key l')
    (h : ∀ a, a ∈ l ↔ a ∈ l') : l = l' := by
  have hperm : l.Perm l' := (List.perm_ext_iff_of_nodup hl.nodup hl'.nodup).mpr h
  exact hperm.eq_of_pairwise (fun a b _ _ hab hba => absurd hba hab.not_gt) hl hl'

/-- An upsert leaves what is in front of its key. -/
theorem upsertBy_append_of_lt {l₁ : List α} (h : ∀ a ∈ l₁, key a < k) (l₂ : List α) :
    upsertBy key k f (l₁ ++ l₂) = l₁ ++ upsertBy key k f l₂ := by
  induction l₁ with
  | nil => rfl
  | cons a l₁ ih =>
    obtain ⟨ha, hl₁⟩ := List.forall_mem_cons.mp h
    rw [List.cons_append, SortedMap.upsertBy, if_neg ha.not_gt, if_pos ha, ih hl₁,
      List.cons_append]

theorem upsertBy_of_gt (h : ∀ a ∈ l, k < key a) : upsertBy key k f l = f none :: l := by
  cases l with
  | nil => rfl
  | cons a l => rw [SortedMap.upsertBy, if_pos (h a mem_cons_self)]

theorem upsertBy_cons_of_eq (h : key a = k) (l : List α) :
    upsertBy key k f (a :: l) = f (some a) :: l := by
  rw [SortedMap.upsertBy, if_neg h.not_gt, if_neg h.not_lt]

/-- An upsert takes the old element at its key out and puts the new one in. -/
theorem upsertBy_perm (hf : KeepsKey key k f) (hl : Ascending key l) :
    (upsertBy key k f l).Perm (f (findBy key k l) :: l.filter fun a => decide (key a ≠ k)) := by
  have hkey : key (f (findBy key k l)) = k := hf _ fun a ha => (mem_of_findBy_eq_some ha).2
  have hnodup : (f (findBy key k l) :: l.filter fun a => decide (key a ≠ k)).Nodup := by
    refine List.nodup_cons.mpr ⟨fun hmem => ?_, hl.nodup.filter _⟩
    exact of_decide_eq_true (mem_filter.mp hmem).2 hkey
  refine (List.perm_ext_iff_of_nodup (hl.upsertBy hf).nodup hnodup).mpr fun a => ?_
  rw [mem_upsertBy hl, mem_cons, mem_filter, decide_eq_true_eq]
  exact or_comm

/-- An upsert changes the answer at its own key only. -/
theorem findBy_upsertBy (hf : KeepsKey key k f) (hl : Ascending key l) (j : κ) [Decidable (j = k)] :
    findBy key j (upsertBy key k f l) = if j = k then some (f (findBy key k l))
      else findBy key j l := by
  have hfk : key (f (findBy key k l)) = k := hf _ fun a ha => (mem_of_findBy_eq_some ha).2
  ext a
  rw [findBy_eq_some_iff (hl.upsertBy hf), mem_upsertBy hl]
  split_ifs with hj
  · subst hj
    refine ⟨?_, ?_⟩
    · rintro ⟨⟨-, hne⟩ | rfl, hk⟩
      · exact absurd hk hne
      · rfl
    · rintro h
      cases h
      exact ⟨.inr rfl, hfk⟩
  · rw [findBy_eq_some_iff hl]
    refine ⟨?_, fun ⟨hmem, hk⟩ => ⟨.inl ⟨hmem, hk ▸ hj⟩, hk⟩⟩
    rintro ⟨⟨hmem, -⟩ | rfl, hk⟩
    · exact ⟨hmem, hk⟩
    · exact absurd (hk.symm.trans hfk) hj

end SortedMap
