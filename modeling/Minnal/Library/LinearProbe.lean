import Mathlib

/-!
# Hash tables with linear probing

A table is a list of **cells**: empty, live with a key and a value, or dead (a tombstone). A key
is looked for from its home on, once round the table, up to the first empty cell. This finds
every live key exactly if the table is **sound**: no key is live in two cells, and no cell
between a live key's home and its position is empty.

Insertion, removal and rebuilding keep a table sound, as long as one cell is not live. A sound
table is a finite map (`lookup`), and the operations are those of maps.
-/

namespace LinearProbe

/-- A cell of the table. -/
inductive Cell (K V : Type*) where
  | empty
  | live (key : K) (value : V)
  | dead
  deriving DecidableEq, Repr

namespace Cell

variable {K V : Type*}

def isEmpty : Cell K V → Bool
  | empty => true
  | _ => false

def isLive : Cell K V → Bool
  | live _ _ => true
  | _ => false

def isDead : Cell K V → Bool
  | dead => true
  | _ => false

@[simp] theorem isEmpty_empty : (empty : Cell K V).isEmpty = true := rfl

@[simp] theorem isEmpty_live (k : K) (v : V) : (live k v).isEmpty = false := rfl

@[simp] theorem isEmpty_dead : (dead : Cell K V).isEmpty = false := rfl

@[simp] theorem isLive_empty : (empty : Cell K V).isLive = false := rfl

@[simp] theorem isLive_live (k : K) (v : V) : (live k v).isLive = true := rfl

@[simp] theorem isLive_dead : (dead : Cell K V).isLive = false := rfl

/-- The key and the value of a live cell. -/
def pair? : Cell K V → Option (K × V)
  | live k v => some (k, v)
  | _ => none

variable {c : Cell K V}

@[simp] theorem pair?_eq_some {k : K} {v : V} : c.pair? = some (k, v) ↔ c = live k v := by
  cases c <;> simp [pair?]

theorem isEmpty_eq_false_iff : c.isEmpty = false ↔ c ≠ empty := by
  cases c <;> simp

theorem isEmpty_of_isLive (h : c.isLive = true) : c.isEmpty = false := by
  cases c <;> simp_all [isLive, isEmpty]

end Cell

variable {K V : Type*}

/-! ### Walks -/

/-- The positions visited from `start` on, once round a table of `n` cells. -/
def walk (n start : ℕ) : List ℕ := (List.range n).map fun d => (start + d) % n

variable {n i : ℕ}

theorem mem_walk {start : ℕ} (hs : start < n) : i ∈ walk n start ↔ i < n := by
  rw [walk, List.mem_map]
  refine ⟨fun ⟨d, _, hd⟩ => hd ▸ Nat.mod_lt _ (by omega), fun hi => ?_⟩
  rcases Nat.lt_or_ge i start with hlt | hge
  · refine ⟨i + n - start, List.mem_range.mpr (by omega), ?_⟩
    rw [show start + (i + n - start) = i + n by omega, Nat.add_mod_right, Nat.mod_eq_of_lt hi]
  · refine ⟨i - start, List.mem_range.mpr (by omega), ?_⟩
    rw [show start + (i - start) = i by omega, Nat.mod_eq_of_lt hi]

variable {j : ℕ}

/-- Filling a cell leaves no other cell empty. -/
theorem isEmpty_set {t : List (Cell K V)} {c : Cell K V} (hc : c.isEmpty = false)
    (hi : (t.getD i .empty).isEmpty = false) : ((t.set j c).getD i .empty).isEmpty = false := by
  rw [List.getD_eq_getElem?_getD] at hi ⊢
  rw [List.getElem?_set]
  split_ifs with heq hlt
  · exact hc
  · subst heq
    rw [List.getElem?_eq_none (not_lt.mp hlt)] at hi
    exact hi
  · exact hi

/-- Position `i` is met on the path before any empty cell. -/
def Met (t : List (Cell K V)) (path : List ℕ) (i : ℕ) : Prop :=
  ∃ before after, path = before ++ i :: after ∧ ∀ j ∈ before, (t.getD j .empty).isEmpty = false

namespace Met

variable {t : List (Cell K V)} {path : List ℕ} {i j : ℕ}

theorem head (t : List (Cell K V)) (i : ℕ) (path : List ℕ) : Met t (i :: path) i :=
  ⟨[], path, rfl, by simp⟩

theorem cons (h : Met t path i) (hj : (t.getD j .empty).isEmpty = false) : Met t (j :: path) i := by
  obtain ⟨before, after, rfl, hfull⟩ := h
  exact ⟨j :: before, after, rfl, by simpa using ⟨hj, hfull⟩⟩

theorem of_cons (h : Met t (j :: path) i) :
    i = j ∨ ((t.getD j .empty).isEmpty = false ∧ Met t path i) := by
  obtain ⟨before, after, hpath, hfull⟩ := h
  cases before with
  | nil => exact .inl (List.cons.inj hpath).1.symm
  | cons b before =>
    obtain ⟨rfl, rfl⟩ := List.cons.inj hpath
    exact .inr ⟨hfull _ List.mem_cons_self, before, after, rfl,
      fun l hl => hfull l (List.mem_cons_of_mem _ hl)⟩

theorem mem (h : Met t path i) : i ∈ path := by
  obtain ⟨before, after, rfl, -⟩ := h
  simp

/-- Filling a cell keeps what is met. -/
theorem set (h : Met t path i) {c : Cell K V} (hc : c.isEmpty = false) : Met (t.set j c) path i := by
  obtain ⟨before, after, rfl, hfull⟩ := h
  exact ⟨before, after, rfl, fun l hl => isEmpty_set hc (hfull l hl)⟩

end Met

/-! ### Searching -/

/-- The key is live at this position. -/
def LiveAt (t : List (Cell K V)) (i : ℕ) (key : K) : Prop := ∃ v, t[i]? = some (.live key v)

variable {t : List (Cell K V)} {key : K} {k : K} {v : V}

theorem liveAt_of_getD (h : t.getD i .empty = .live k v) : LiveAt t i k := by
  rw [List.getD_eq_getElem?_getD] at h
  cases hi : t[i]? with
  | none =>
    rw [hi, Option.getD_none] at h
    cases h
  | some c =>
    rw [hi, Option.getD_some] at h
    exact ⟨v, by rw [hi, h]⟩

theorem LiveAt.getD (h : LiveAt t i key) : ∃ v, t.getD i .empty = .live key v := by
  obtain ⟨v, hv⟩ := h
  exact ⟨v, by rw [List.getD_eq_getElem?_getD, hv, Option.getD_some]⟩

section Search

variable [DecidableEq K]

/-- Look for the key along the path: where it is, or else where it would be put, the first dead
cell met if there is one. `last` stands for a table without any such cell. -/
def search (t : List (Cell K V)) (key : K) : List ℕ → Option ℕ → ℕ → ℕ × Bool
  | [], firstDead, last => (firstDead.getD last, false)
  | i :: path, firstDead, last =>
    match t.getD i .empty with
    | .empty => (firstDead.getD i, false)
    | .live k _ => if k = key then (i, true) else search t key path firstDead last
    | .dead => search t key path (firstDead.or (some i)) last

/-- **What a search finds**: the key where it is met, or that it is not met, and a cell that is
not live. -/
theorem search_spec (t : List (Cell K V)) (key : K) (path : List ℕ) (firstDead : Option ℕ)
    (last : ℕ) :
    (∃ i, search t key path firstDead last = (i, true) ∧ LiveAt t i key ∧ Met t path i) ∨
      (∃ i, search t key path firstDead last = (i, false) ∧
        (∀ j, Met t path j → ¬ LiveAt t j key) ∧
        (∀ d, firstDead = some d → i = d) ∧
        (firstDead = none → (Met t path i ∧ (t.getD i .empty).isLive = false) ∨
          ∀ j ∈ path, (t.getD j .empty).isLive = true)) := by
  induction path generalizing firstDead with
  | nil =>
    refine .inr ⟨firstDead.getD last, rfl, fun j hj => absurd hj.mem List.not_mem_nil, ?_, ?_⟩
    · rintro d rfl
      rfl
    · exact fun _ => .inr (by simp)
  | cons i path ih =>
    cases hcell : t.getD i .empty with
    | empty =>
      right
      refine ⟨firstDead.getD i, by rw [search, hcell], fun j hj hlive => ?_, ?_, ?_⟩
      · obtain rfl | ⟨hfull, -⟩ := hj.of_cons
        · obtain ⟨v, hv⟩ := hlive.getD
          rw [hcell] at hv
          cases hv
        · rw [hcell] at hfull
          cases hfull
      · rintro d rfl
        rfl
      · rintro rfl
        exact .inl ⟨Met.head t i path, by rw [Option.getD_none, hcell]; rfl⟩
    | live k v =>
      have hfull : (t.getD i .empty).isEmpty = false := by rw [hcell]; rfl
      by_cases hk : k = key
      · subst hk
        exact .inl ⟨i, by rw [search, hcell]; exact if_pos rfl, liveAt_of_getD hcell, Met.head t i path⟩
      have hsearch : search t key (i :: path) firstDead last = search t key path firstDead last := by
        rw [search, hcell]
        exact if_neg hk
      rw [hsearch]
      rcases ih firstDead with ⟨j, hj, hlive, hmet⟩ | ⟨j, hj, hnone, hdead, hfree⟩
      · exact .inl ⟨j, hj, hlive, hmet.cons hfull⟩
      · refine .inr ⟨j, hj, fun l hl hlive => ?_, hdead, fun hno => ?_⟩
        · obtain rfl | ⟨-, hl⟩ := hl.of_cons
          · obtain ⟨w, hw⟩ := hlive.getD
            rw [hcell, Cell.live.injEq] at hw
            exact hk hw.1
          · exact hnone l hl hlive
        · rcases hfree hno with ⟨hmet, hlive⟩ | hall
          · exact .inl ⟨hmet.cons hfull, hlive⟩
          · right
            rintro l hl
            rcases List.mem_cons.mp hl with rfl | hl
            · rw [hcell]
              rfl
            · exact hall l hl
    | dead =>
      have hfull : (t.getD i .empty).isEmpty = false := by rw [hcell]; rfl
      have hsearch : search t key (i :: path) firstDead last =
          search t key path (firstDead.or (some i)) last := by rw [search, hcell]
      rw [hsearch]
      rcases ih (firstDead.or (some i)) with ⟨j, hj, hlive, hmet⟩ | ⟨j, hj, hnone, hdead, -⟩
      · exact .inl ⟨j, hj, hlive, hmet.cons hfull⟩
      · refine .inr ⟨j, hj, fun l hl hlive => ?_, ?_, ?_⟩
        · obtain rfl | ⟨-, hl⟩ := hl.of_cons
          · obtain ⟨w, hw⟩ := hlive.getD
            rw [hcell] at hw
            cases hw
          · exact hnone l hl hlive
        · rintro d rfl
          exact hdead d rfl
        · rintro rfl
          obtain rfl := hdead i rfl
          exact .inl ⟨Met.head t _ path, by rw [hcell]; rfl⟩

end Search

/-! ### Sound tables -/

/-- **A sound table** for a hash function: no key twice, no hole on the way to a live key. -/
structure Sound (home : K → ℕ) (t : List (Cell K V)) : Prop where
  unique : ∀ i j k, LiveAt t i k → LiveAt t j k → i = j
  met : ∀ i k, LiveAt t i k → Met t (walk t.length (home k % t.length)) i

theorem LiveAt.lt (h : LiveAt t i key) : i < t.length := by
  obtain ⟨v, hv⟩ := h
  exact (List.getElem?_eq_some_iff.mp hv).1

theorem liveAt_set (hj : j < t.length) :
    LiveAt (t.set j (.live key v)) i k ↔ (i = j ∧ k = key) ∨ (i ≠ j ∧ LiveAt t i k) := by
  by_cases hij : j = i
  · subst hij
    simp [LiveAt, List.getElem?_set_self hj, eq_comm]
  · simp [LiveAt, List.getElem?_set_ne hij, Ne.symm hij]

theorem liveAt_set_dead : LiveAt (t.set j .dead) i k ↔ i ≠ j ∧ LiveAt t i k := by
  by_cases hij : j = i
  · subst hij
    simp only [LiveAt, ne_eq, not_true_eq_false, false_and, iff_false, not_exists]
    intro v hv
    rcases Nat.lt_or_ge j t.length with hlt | hge
    · rw [List.getElem?_set_self hlt, Option.some.injEq] at hv
      cases hv
    · rw [List.getElem?_eq_none (by simpa using hge)] at hv
      cases hv
  · simp [LiveAt, List.getElem?_set_ne hij, Ne.symm hij]

namespace Sound

variable {home : K → ℕ}

/-- Putting a key that is not live elsewhere into a cell that is met from its home. -/
theorem set_live (h : Sound home t) (hj : j < t.length) (habsent : ∀ i, i ≠ j → ¬ LiveAt t i key)
    (hmet : Met t (walk t.length (home key % t.length)) j) :
    Sound home (t.set j (.live key v)) where
  unique := by
    intro a b k ha hb
    rw [liveAt_set hj] at ha hb
    obtain ⟨rfl, rfl⟩ | ⟨hne, ha⟩ := ha <;> obtain ⟨rfl, heq⟩ | ⟨hne', hb⟩ := hb
    · rfl
    · exact absurd hb (habsent _ hne')
    · exact absurd (heq ▸ ha) (habsent _ hne)
    · exact h.unique _ _ _ ha hb
  met := by
    intro i k hi
    rw [List.length_set]
    obtain ⟨rfl, rfl⟩ | ⟨-, hi⟩ := (liveAt_set hj).mp hi
    · exact hmet.set rfl
    · exact (h.met i k hi).set rfl

theorem set_dead (h : Sound home t) (j : ℕ) : Sound home (t.set j .dead) where
  unique := fun a b k ha hb =>
    h.unique a b k (liveAt_set_dead.mp ha).2 (liveAt_set_dead.mp hb).2
  met := fun i k hi => by
    rw [List.length_set]
    exact (h.met i k (liveAt_set_dead.mp hi).2).set rfl

end Sound

/-! ### Lookups -/

section Map

variable [DecidableEq K] (home : K → ℕ)

/-- Look for a key from its home on. -/
def probe (t : List (Cell K V)) (key : K) : ℕ × Bool :=
  search t key (walk t.length (home key % t.length)) none (home key % t.length)

/-- The value of a key that is found. -/
def lookup (t : List (Cell K V)) (key : K) : Option V :=
  if (probe home t key).2 then (t.getD (probe home t key).1 .empty).pair?.map Prod.snd else none

/-- Put a key where it is or where the search ends. -/
def insert (t : List (Cell K V)) (key : K) (v : V) : List (Cell K V) :=
  t.set (probe home t key).1 (.live key v)

/-- Leave a tombstone where the key is. -/
def erase (t : List (Cell K V)) (key : K) : List (Cell K V) :=
  if (probe home t key).2 then t.set (probe home t key).1 .dead else t

/-- The pairs of the live cells, in table order. -/
def entries (t : List (Cell K V)) : List (K × V) := t.filterMap Cell.pair?

/-- Some cell is not live. -/
def HasRoom (t : List (Cell K V)) : Prop := ∃ i < t.length, (t.getD i .empty).isLive = false

variable {home} {k : K} {v w : V} {i : ℕ}

omit [DecidableEq K] in
theorem mem_entries : (k, v) ∈ entries t ↔ ∃ i : ℕ, t[i]? = some (Cell.live k v) := by
  rw [entries, List.mem_filterMap]
  constructor
  · rintro ⟨c, hc, hentry⟩
    obtain rfl := Cell.pair?_eq_some.mp hentry
    exact List.mem_iff_getElem?.mp hc
  · rintro ⟨i, hi⟩
    exact ⟨_, List.mem_of_getElem? hi, Cell.pair?_eq_some.mpr rfl⟩

/-- A key that is found is live, and met from its home. -/
theorem of_probe_eq_true (h : (probe home t key).2 = true) :
    LiveAt t (probe home t key).1 key ∧
      Met t (walk t.length (home key % t.length)) (probe home t key).1 := by
  rcases search_spec t key (walk t.length (home key % t.length)) none (home key % t.length) with
    ⟨i, hi, hlive, hmet⟩ | ⟨i, hi, -⟩
  · rw [probe, hi]
    exact ⟨hlive, hmet⟩
  · rw [probe, hi] at h
    cases h

/-- A key that is met is found. -/
theorem probe_eq_true (hlive : LiveAt t i key)
    (hmet : Met t (walk t.length (home key % t.length)) i) : (probe home t key).2 = true := by
  rcases search_spec t key (walk t.length (home key % t.length)) none (home key % t.length) with
    ⟨j, hj, -⟩ | ⟨j, -, hnone, -⟩
  · rw [probe, hj]
  · exact absurd hlive (hnone i hmet)

/-- A key that is not met would be put where no key is. -/
theorem of_probe_eq_false (h : (probe home t key).2 = false) (hroom : HasRoom t) :
    (probe home t key).1 < t.length ∧ (t.getD (probe home t key).1 .empty).isLive = false ∧
      Met t (walk t.length (home key % t.length)) (probe home t key).1 := by
  obtain ⟨r, hr, hfree⟩ := hroom
  have hstart : home key % t.length < t.length := Nat.mod_lt _ (by omega)
  rcases search_spec t key (walk t.length (home key % t.length)) none (home key % t.length) with
    ⟨i, hi, -⟩ | ⟨i, hi, -, -, hend⟩
  · rw [probe, hi] at h
    cases h
  · rw [probe, hi]
    rcases hend rfl with ⟨hmet, hlive⟩ | hall
    · exact ⟨(mem_walk hstart).mp hmet.mem, hlive, hmet⟩
    · rw [hall r ((mem_walk hstart).mpr hr)] at hfree
      cases hfree

/-- **Soundness is that every live key is found**, and live once. -/
theorem sound_iff : Sound home t ↔
    (∀ i j k, LiveAt t i k → LiveAt t j k → i = j) ∧
      ∀ i k, LiveAt t i k → (probe home t k).2 = true := by
  refine ⟨fun h => ⟨h.unique, fun i k hi => probe_eq_true hi (h.met i k hi)⟩, fun ⟨h₁, h₂⟩ => ⟨h₁, ?_⟩⟩
  intro i k hi
  obtain ⟨hlive, hmet⟩ := of_probe_eq_true (h₂ i k hi)
  rwa [← h₁ _ _ _ hlive hi]

namespace Sound

theorem probe_eq (h : Sound home t) (hi : LiveAt t i key) : probe home t key = (i, true) := by
  have hfound := probe_eq_true hi (h.met i key hi)
  exact Prod.ext (h.unique _ _ _ (of_probe_eq_true hfound).1 hi) hfound

theorem probe_eq_false_iff (h : Sound home t) :
    (probe home t key).2 = false ↔ ∀ i, ¬ LiveAt t i key := by
  refine ⟨fun hno i hi => ?_, fun hno => ?_⟩
  · rw [h.probe_eq hi] at hno
    cases hno
  · rw [← Bool.not_eq_true]
    exact fun hyes => hno _ (of_probe_eq_true hyes).1

/-- **A sound table is a map.** -/
theorem lookup_eq_some_iff (h : Sound home t) :
    lookup home t k = some v ↔ ∃ i : ℕ, t[i]? = some (Cell.live k v) := by
  rw [lookup]
  constructor
  · intro hv
    split_ifs at hv with hfound
    obtain ⟨w, hw⟩ := (of_probe_eq_true hfound).1
    rw [List.getD_eq_getElem?_getD, hw] at hv
    obtain rfl : w = v := by simpa [Cell.pair?] using hv
    exact ⟨_, hw⟩
  · rintro ⟨i, hi⟩
    rw [h.probe_eq ⟨v, hi⟩]
    simp [List.getD_eq_getElem?_getD, hi, Cell.pair?]

/-- Insertion keeps a table sound. -/
theorem insert (h : Sound home t) (hroom : HasRoom t) : Sound home (insert home t key v) := by
  rw [LinearProbe.insert]
  cases hfound : (probe home t key).2 with
  | true =>
    obtain ⟨hlive, hmet⟩ := of_probe_eq_true hfound
    exact h.set_live hlive.lt (fun i hne hi => hne (h.unique _ _ _ hi hlive)) hmet
  | false =>
    obtain ⟨hlt, -, hmet⟩ := of_probe_eq_false hfound hroom
    exact h.set_live hlt (fun i _ => h.probe_eq_false_iff.mp hfound i) hmet

/-- Removal keeps a table sound. -/
theorem erase (h : Sound home t) : Sound home (erase home t key) := by
  rw [LinearProbe.erase]
  split_ifs
  · exact h.set_dead _
  · exact h

theorem lookup_insert (h : Sound home t) (hroom : HasRoom t) :
    lookup home (LinearProbe.insert home t key v) k = if k = key then some v else lookup home t k := by
  have hj : (probe home t key).1 < t.length := by
    cases hfound : (probe home t key).2 with
    | true => exact (of_probe_eq_true hfound).1.lt
    | false => exact (of_probe_eq_false hfound hroom).1
  refine Option.ext fun w => ?_
  rw [(h.insert hroom).lookup_eq_some_iff, LinearProbe.insert]
  split_ifs with hk
  · subst hk
    rw [Option.some.injEq]
    constructor
    · rintro ⟨i, hi⟩
      have hlive : LiveAt (t.set (probe home t k).1 (.live k v)) i k := ⟨w, hi⟩
      have hsound : Sound home (t.set (probe home t k).1 (.live k v)) := h.insert hroom
      obtain rfl := hsound.unique _ _ _ hlive ⟨v, List.getElem?_set_self hj⟩
      rw [List.getElem?_set_self hj, Option.some.injEq, Cell.live.injEq] at hi
      exact hi.2
    · rintro rfl
      exact ⟨_, List.getElem?_set_self hj⟩
  · rw [h.lookup_eq_some_iff]
    refine exists_congr fun i => ?_
    by_cases hi : (probe home t key).1 = i
    · subst hi
      rw [List.getElem?_set_self hj, Option.some.injEq, Cell.live.injEq]
      refine ⟨fun heq => absurd heq.1.symm hk, fun hw => ?_⟩
      cases hfound : (probe home t key).2 with
      | true =>
        obtain ⟨w', hw'⟩ := (of_probe_eq_true hfound).1
        rw [hw, Option.some.injEq, Cell.live.injEq] at hw'
        exact absurd hw'.1 hk
      | false =>
        have hdead := (of_probe_eq_false hfound hroom).2.1
        rw [List.getD_eq_getElem?_getD, hw] at hdead
        cases hdead
    · rw [List.getElem?_set_ne hi]

theorem lookup_erase (h : Sound home t) :
    lookup home (LinearProbe.erase home t key) k = if k = key then none else lookup home t k := by
  have hsound : Sound home (LinearProbe.erase home t key) := h.erase
  refine Option.ext fun w => ?_
  rw [hsound.lookup_eq_some_iff, LinearProbe.erase]
  cases hfound : (probe home t key).2 with
  | false =>
    rw [if_neg Bool.false_ne_true]
    split_ifs with hk
    · subst hk
      refine ⟨fun ⟨i, hi⟩ => ?_, fun hw => nomatch hw⟩
      exact absurd ⟨w, hi⟩ (h.probe_eq_false_iff.mp hfound i)
    · rw [h.lookup_eq_some_iff]
  | true =>
    rw [if_pos rfl]
    obtain ⟨w', hw'⟩ := (of_probe_eq_true hfound).1
    have hj := (List.getElem?_eq_some_iff.mp hw').1
    split_ifs with hk
    · subst hk
      refine ⟨fun ⟨i, hi⟩ => ?_, fun hw => nomatch hw⟩
      obtain ⟨hne, hlive⟩ := liveAt_set_dead.mp ⟨w, hi⟩
      exact absurd (h.unique _ _ _ hlive ⟨w', hw'⟩) hne
    · rw [h.lookup_eq_some_iff]
      refine exists_congr fun i => ?_
      by_cases hi : (probe home t key).1 = i
      · subst hi
        rw [List.getElem?_set_self hj, hw']
        refine ⟨fun heq => (by cases Option.some.inj heq), fun heq => ?_⟩
        rw [Option.some.injEq, Cell.live.injEq] at heq
        exact absurd heq.1.symm hk
      · rw [List.getElem?_set_ne hi]

end Sound

/-! ### Keys -/

omit [DecidableEq K] in
/-- No key twice, as a property of the list of keys. -/
theorem nodup_keys_iff : ((entries t).map Prod.fst).Nodup ↔
    ∀ i j k, LiveAt t i k → LiveAt t j k → i = j := by
  rw [List.Nodup, List.pairwise_map, entries, List.pairwise_filterMap, List.pairwise_iff_getElem]
  constructor
  · intro h i j k hi hj
    have hneq : ∀ a b, a < b → LiveAt t a k → ¬ LiveAt t b k := by
      rintro a b hab ⟨v, hv⟩ ⟨w, hw⟩
      obtain ⟨ha, hva⟩ := List.getElem?_eq_some_iff.mp hv
      obtain ⟨hb, hwb⟩ := List.getElem?_eq_some_iff.mp hw
      exact h a b ha hb hab (k, v) (Cell.pair?_eq_some.mpr hva) (k, w)
        (Cell.pair?_eq_some.mpr hwb) rfl
    rcases lt_trichotomy i j with hlt | heq | hgt
    · exact absurd hj (hneq i j hlt hi)
    · exact heq
    · exact absurd hi (hneq j i hgt hj)
  · rintro h i j hi hj hij ⟨k, v⟩ hv ⟨k', w⟩ hw rfl
    have hvi : LiveAt t i k := ⟨v, by
      rw [List.getElem?_eq_getElem hi, Cell.pair?_eq_some.mp hv]⟩
    have hwj : LiveAt t j k := ⟨w, by
      rw [List.getElem?_eq_getElem hj, Cell.pair?_eq_some.mp hw]⟩
    exact hij.ne (h i j k hvi hwj)

/-! ### Counting cells -/

/-- Cells that are not empty. -/
def used (t : List (Cell K V)) : ℕ := t.countP fun c => !c.isEmpty

/-- Live cells. -/
def live (t : List (Cell K V)) : ℕ := t.countP Cell.isLive

omit [DecidableEq K] in
theorem live_le_used (t : List (Cell K V)) : live t ≤ used t :=
  List.countP_mono_left fun c _ hc => by rw [Cell.isEmpty_of_isLive hc]; rfl

omit [DecidableEq K] in
theorem used_eq (t : List (Cell K V)) : used t = live t + t.countP Cell.isDead := by
  induction t with
  | nil => rfl
  | cons c t ih =>
    simp only [used, live, List.countP_cons] at ih ⊢
    cases c <;> simp [Cell.isDead] <;> omega

omit [DecidableEq K] in
/-- A table that has no cell empty that is not empty in another uses at least as many. -/
theorem used_le {t' : List (Cell K V)} (hlen : t.length = t'.length)
    (h : ∀ i, (t.getD i .empty).isEmpty = false → (t'.getD i .empty).isEmpty = false) :
    used t ≤ used t' := by
  induction t generalizing t' with
  | nil => exact Nat.zero_le _
  | cons c t ih =>
    cases t' with
    | nil => cases hlen
    | cons c' t' =>
      have hhead := h 0
      have htail := ih (Nat.succ.inj hlen) fun i => h (i + 1)
      simp only [used, List.countP_cons, List.getD_cons_zero] at hhead htail ⊢
      cases hc : c.isEmpty
      · rw [hhead hc]
        simpa using htail
      · simp only [Bool.not_true, Bool.false_eq_true, if_false]
        omega

omit [DecidableEq K] in
theorem length_entries (t : List (Cell K V)) : (entries t).length = live t := by
  rw [entries, live, List.length_filterMap_eq_countP]
  exact List.countP_congr fun c _ => by cases c <;> simp [Cell.pair?, Cell.isLive]

omit [DecidableEq K] in
theorem hasRoom_of_live_lt (h : live t < t.length) : HasRoom t := by
  by_contra hno
  rw [HasRoom] at hno
  push Not at hno
  refine h.ne (List.countP_eq_length.mpr fun c hc => ?_)
  obtain ⟨i, hi⟩ := List.mem_iff_getElem?.mp hc
  have hlive := hno i (List.getElem?_eq_some_iff.mp hi).1
  rw [List.getD_eq_getElem?_getD, hi, Option.getD_some] at hlive
  simpa using hlive

omit [DecidableEq K] in
private theorem countP_set_add (p : Cell K V → Bool) (h : i < t.length) (c : Cell K V) :
    (t.set i c).countP p + (if p (t.getD i .empty) then 1 else 0) =
      t.countP p + if p c then 1 else 0 := by
  have hget : t.getD i .empty = t[i] := by
    rw [List.getD_eq_getElem?_getD, List.getElem?_eq_getElem h, Option.getD_some]
  rw [hget, List.countP_set h]
  have hpos : p t[i] = true → 0 < t.countP p := fun hp =>
    List.countP_pos_iff.mpr ⟨_, List.getElem_mem h, hp⟩
  split_ifs with hp hc <;> simp_all

omit [DecidableEq K] in
theorem used_set (h : i < t.length) (c : Cell K V) :
    used (t.set i c) + (if (t.getD i .empty).isEmpty then 0 else 1) =
      used t + if c.isEmpty then 0 else 1 := by
  have hcount := countP_set_add (fun c => !c.isEmpty) h c
  rw [used, used]
  cases hold : (t.getD i .empty).isEmpty <;> cases hnew : c.isEmpty <;>
    simpa only [hold, hnew, Bool.not_true, Bool.not_false, if_true, Bool.false_eq_true, if_false]
      using hcount

omit [DecidableEq K] in
theorem live_set (h : i < t.length) (c : Cell K V) :
    live (t.set i c) + (if (t.getD i .empty).isLive then 1 else 0) =
      live t + if c.isLive then 1 else 0 :=
  countP_set_add Cell.isLive h c

/-- Insertion of a new key makes one more cell live, and uses at most one more. -/
theorem count_insert (home : K → ℕ) (key : K) (v : V) (hroom : HasRoom t) :
    used (insert home t key v) ≤ used t + (if (probe home t key).2 then 0 else 1) ∧
      live (insert home t key v) = live t + if (probe home t key).2 then 0 else 1 := by
  rw [insert]
  have hcases : (probe home t key).1 < t.length ∧
      (t.getD (probe home t key).1 .empty).isLive = (probe home t key).2 := by
    cases hfound : (probe home t key).2 with
    | true =>
      obtain ⟨hlive, -⟩ := of_probe_eq_true hfound
      obtain ⟨w, hw⟩ := hlive.getD
      exact ⟨hlive.lt, by rw [hw]; rfl⟩
    | false =>
      obtain ⟨hlt, hlive, -⟩ := of_probe_eq_false hfound hroom
      exact ⟨hlt, hlive⟩
  obtain ⟨hlt, hlive⟩ := hcases
  have hused := used_set hlt (.live key v)
  have hcount := live_set hlt (.live key v)
  have hfull : (probe home t key).2 = true →
      (t.getD (probe home t key).1 .empty).isEmpty = false := fun hfound =>
    Cell.isEmpty_of_isLive (hlive.trans hfound)
  rw [hlive] at hcount
  simp only [Cell.isEmpty_live, Cell.isLive_live, Bool.false_eq_true, if_true, if_false]
    at hused hcount
  cases hfound : (probe home t key).2 with
  | true =>
    rw [hfound] at hcount
    rw [hfull hfound] at hused
    simp only [if_true, Bool.false_eq_true, if_false] at hused hcount ⊢
    omega
  | false =>
    rw [hfound] at hcount
    simp only [Bool.false_eq_true, if_false] at hcount ⊢
    split_ifs at hused <;> omega

/-- Removal uses no cell more or less. -/
theorem count_erase (home : K → ℕ) (t : List (Cell K V)) (key : K) : used (erase home t key) = used t ∧
    live (erase home t key) + (if (probe home t key).2 then 1 else 0) = live t := by
  rw [erase]
  split_ifs with hfound
  · obtain ⟨hlive, -⟩ := of_probe_eq_true hfound
    obtain ⟨w, hw⟩ := hlive.getD
    have hused := used_set hlive.lt .dead
    have hcount := live_set hlive.lt .dead
    rw [hw] at hused hcount
    simp only [Cell.isEmpty_live, Cell.isEmpty_dead, Cell.isLive_live, Cell.isLive_dead,
      Bool.false_eq_true, if_true, if_false] at hused hcount
    omega
  · exact ⟨rfl, rfl⟩

@[simp] theorem length_insert : (insert home t key v).length = t.length := List.length_set

@[simp] theorem length_erase : (erase home t key).length = t.length := by
  rw [erase]
  split_ifs <;> simp

/-! ### Tombstones and weights -/

/-- Insertion into a tombstone leaves one less. -/
theorem dead_insert (home : K → ℕ) (key : K) (v : V) (hroom : HasRoom t) :
    (insert home t key v).countP Cell.isDead +
        (if (t.getD (probe home t key).1 .empty).isDead then 1 else 0) = t.countP Cell.isDead := by
  have hlt : (probe home t key).1 < t.length := by
    cases hfound : (probe home t key).2 with
    | true => exact (of_probe_eq_true hfound).1.lt
    | false => exact (of_probe_eq_false hfound hroom).1
  exact countP_set_add Cell.isDead hlt (.live key v)

/-- Removal of a key leaves one more. -/
theorem dead_erase (home : K → ℕ) (t : List (Cell K V)) (key : K) :
    (erase home t key).countP Cell.isDead =
      t.countP Cell.isDead + if (probe home t key).2 then 1 else 0 := by
  obtain ⟨hused, hlive⟩ := count_erase home t key
  have hbefore := used_eq t
  have hafter := used_eq (erase home t key)
  omega

/-- What the pairs of a table weigh together. -/
def weight (g : K × V → ℕ) (t : List (Cell K V)) : ℕ := ((entries t).map g).sum

omit [DecidableEq K] in
theorem weight_congr {g g' : K × V → ℕ} (h : ∀ e ∈ entries t, g e = g' e) :
    weight g t = weight g' t := by
  rw [weight, weight, List.map_congr_left h]

omit [DecidableEq K] in
private theorem weight_cons (g : K × V → ℕ) (c : Cell K V) (t : List (Cell K V)) :
    weight g (c :: t) = c.pair?.elim 0 g + weight g t := by
  cases c with
  | empty => exact (Nat.zero_add _).symm
  | dead => exact (Nat.zero_add _).symm
  | live k v => rfl

omit [DecidableEq K] in
private theorem weight_set (g : K × V → ℕ) (h : i < t.length) (c : Cell K V) :
    weight g (t.set i c) + (t.getD i .empty).pair?.elim 0 g = weight g t + c.pair?.elim 0 g := by
  induction t generalizing i with
  | nil => cases h
  | cons b t ih =>
    cases i with
    | zero =>
      rw [List.set_cons_zero, List.getD_cons_zero, weight_cons, weight_cons]
      omega
    | succ i =>
      have hrest := ih (Nat.lt_of_succ_lt_succ h)
      rw [List.set_cons_succ, List.getD_cons_succ, weight_cons, weight_cons]
      omega

private theorem lookup_elim (home : K → ℕ) (g : K × V → ℕ) (key : K) :
    ((lookup home t key).elim 0 fun w => g (key, w)) =
      if (probe home t key).2 then (t.getD (probe home t key).1 .empty).pair?.elim 0 g else 0 := by
  rw [lookup]
  split_ifs with hfound
  · obtain ⟨w, hw⟩ := (of_probe_eq_true hfound).1.getD
    rw [hw]
    rfl
  · rfl

/-- **Insertion** puts the weight of the new pair in the place of the old one's. -/
theorem weight_insert (home : K → ℕ) (g : K × V → ℕ) (key : K) (v : V) (hroom : HasRoom t) :
    weight g (insert home t key v) + ((lookup home t key).elim 0 fun w => g (key, w)) =
      weight g t + g (key, v) := by
  rw [lookup_elim]
  cases hfound : (probe home t key).2 with
  | true => exact weight_set g (of_probe_eq_true hfound).1.lt (.live key v)
  | false =>
    obtain ⟨hlt, hlive, -⟩ := of_probe_eq_false hfound hroom
    have hset := weight_set g hlt (.live key v)
    have hnone : (t.getD (probe home t key).1 .empty).pair?.elim 0 g = 0 := by
      cases hcell : t.getD (probe home t key).1 .empty with
      | empty => rfl
      | dead => rfl
      | live k w =>
        rw [hcell] at hlive
        cases hlive
    rw [hnone] at hset
    exact hset

/-- **Removal** takes the weight of the pair away. -/
theorem weight_erase (home : K → ℕ) (g : K × V → ℕ) (t : List (Cell K V)) (key : K) :
    weight g (erase home t key) + ((lookup home t key).elim 0 fun w => g (key, w)) = weight g t := by
  rw [lookup_elim, erase]
  split_ifs with hfound
  · exact weight_set g (of_probe_eq_true hfound).1.lt .dead
  · rfl

/-! ### Rebuilding -/

/-- The first empty cell on a path. -/
def firstEmpty (t : List (Cell K V)) (path : List ℕ) : ℕ :=
  (path.find? fun i => (t.getD i .empty).isEmpty).getD 0

variable (home) in
/-- Put a pair into the first empty cell from its home on. -/
def place (t : List (Cell K V)) (e : K × V) : List (Cell K V) :=
  t.set (firstEmpty t (walk t.length (home e.1 % t.length))) (.live e.1 e.2)

variable (home) in
/-- A fresh table of `n` cells that holds the pairs. -/
def rebuild (n : ℕ) (es : List (K × V)) : List (Cell K V) :=
  es.foldl (place home) (List.replicate n .empty)

/-- The pair is in some cell. -/
def Has (t : List (Cell K V)) (k : K) (v : V) : Prop := ∃ i : ℕ, t[i]? = some (Cell.live k v)

omit [DecidableEq K] in
theorem has_set (hj : j < t.length) (hfree : (t.getD j .empty).isLive = false) :
    Has (t.set j (.live key v)) k w ↔ (k = key ∧ w = v) ∨ Has t k w := by
  have hcell : ∀ c, t[j]? = some c → c.isLive = false := fun c hc => by
    rw [List.getD_eq_getElem?_getD, hc] at hfree
    exact hfree
  constructor
  · rintro ⟨i, hi⟩
    by_cases hij : j = i
    · subst hij
      rw [List.getElem?_set_self hj, Option.some.injEq, Cell.live.injEq] at hi
      exact .inl ⟨hi.1.symm, hi.2.symm⟩
    · rw [List.getElem?_set_ne hij] at hi
      exact .inr ⟨i, hi⟩
  · rintro (⟨rfl, rfl⟩ | ⟨i, hi⟩)
    · exact ⟨j, List.getElem?_set_self hj⟩
    · refine ⟨i, ?_⟩
      rw [List.getElem?_set_ne, hi]
      rintro rfl
      exact nomatch hcell _ hi

omit [DecidableEq K] in
/-- The first empty cell is met. -/
theorem firstEmpty_spec {path : List ℕ} (h : ∃ i ∈ path, (t.getD i .empty).isEmpty = true) :
    Met t path (firstEmpty t path) ∧ (t.getD (firstEmpty t path) .empty).isEmpty = true := by
  obtain ⟨i, hi⟩ := Option.isSome_iff_exists.mp (List.find?_isSome.mpr h)
  obtain ⟨hempty, before, after, hpath, hfull⟩ := List.find?_eq_some_iff_append.mp hi
  rw [firstEmpty, hi, Option.getD_some]
  exact ⟨⟨before, after, hpath, fun j hj => by simpa using hfull j hj⟩, hempty⟩

omit [DecidableEq K] in
theorem exists_empty (h : used t < t.length) :
    ∃ i < t.length, (t.getD i .empty).isEmpty = true := by
  by_contra hno
  push Not at hno
  refine h.ne (List.countP_eq_length.mpr fun c hc => ?_)
  obtain ⟨i, hi⟩ := List.mem_iff_getElem?.mp hc
  have hfull := hno i (List.getElem?_eq_some_iff.mp hi).1
  rw [List.getD_eq_getElem?_getD, hi, Option.getD_some] at hfull
  simpa using hfull

omit [DecidableEq K] in
/-- **Placing** a pair whose key is not there yet. -/
theorem Sound.place (h : Sound home t) {e : K × V} (habsent : ∀ i, ¬ LiveAt t i e.1)
    (hlt : used t < t.length) :
    Sound home (place home t e) ∧ used (place home t e) = used t + 1 ∧
      live (place home t e) = live t + 1 ∧
      ∀ k w, Has (place home t e) k w ↔ (k, w) = e ∨ Has t k w := by
  obtain ⟨i, hi, hempty⟩ := exists_empty hlt
  have hstart : home e.1 % t.length < t.length := Nat.mod_lt _ (by omega)
  obtain ⟨hmet, hfirst⟩ := firstEmpty_spec ⟨i, (mem_walk hstart).mpr hi, hempty⟩
  have hj := (mem_walk hstart).mp hmet.mem
  have hdead : (t.getD (firstEmpty t (walk t.length (home e.1 % t.length))) .empty).isLive = false := by
    rw [Bool.eq_false_iff]
    intro hlive
    rw [Cell.isEmpty_of_isLive hlive] at hfirst
    cases hfirst
  have hused := used_set hj (.live e.1 e.2)
  have hcount := live_set hj (.live e.1 e.2)
  rw [hfirst] at hused
  rw [hdead] at hcount
  refine ⟨h.set_live hj (fun i _ => habsent i) hmet, by simpa [LinearProbe.place] using hused,
    by simpa [LinearProbe.place] using hcount, fun k w => ?_⟩
  · rw [LinearProbe.place, has_set hj hdead, Prod.ext_iff]

omit [DecidableEq K] in
private theorem foldl_place (es : List (K × V)) (h : Sound home t)
    (hnodup : (es.map Prod.fst).Nodup) (habsent : ∀ e ∈ es, ∀ i, ¬ LiveAt t i e.1)
    (hlt : used t + es.length ≤ t.length) :
    Sound home (es.foldl (LinearProbe.place home) t) ∧
      used (es.foldl (LinearProbe.place home) t) = used t + es.length ∧
      live (es.foldl (LinearProbe.place home) t) = live t + es.length ∧
      (es.foldl (LinearProbe.place home) t).length = t.length ∧
      ∀ k w, Has (es.foldl (LinearProbe.place home) t) k w ↔ (k, w) ∈ es ∨ Has t k w := by
  induction es generalizing t with
  | nil => exact ⟨h, rfl, rfl, rfl, by simp⟩
  | cons e es ih =>
    rw [List.map_cons, List.nodup_cons] at hnodup
    rw [List.length_cons] at hlt
    obtain ⟨hsound, hused, hlive, hhas⟩ := h.place (habsent e List.mem_cons_self) (by omega)
    have hlen : (place home t e).length = t.length := List.length_set
    obtain ⟨h₁, h₂, h₃, h₄, h₅⟩ := ih hsound hnodup.2
      (by
        rintro e' he' i ⟨w, hi⟩
        rcases (hhas _ _).mp ⟨i, hi⟩ with heq | ⟨j, hj⟩
        · exact hnodup.1 (List.mem_map.mpr ⟨e', he', by rw [← heq]⟩)
        · exact habsent e' (List.mem_cons_of_mem _ he') j ⟨w, hj⟩)
      (by omega)
    refine ⟨h₁, ?_, ?_, h₄.trans hlen, fun k w => ?_⟩
    · rw [List.foldl_cons, h₂, hused, List.length_cons]
      omega
    · rw [List.foldl_cons, h₃, hlive, List.length_cons]
      omega
    · rw [List.foldl_cons, h₅, hhas, List.mem_cons, or_left_comm, or_assoc]

omit [DecidableEq K] in
/-- **A rebuilt table** is sound and holds the pairs. -/
theorem rebuild_spec {es : List (K × V)} (hnodup : (es.map Prod.fst).Nodup) (hlen : es.length ≤ n) :
    Sound home (rebuild home n es) ∧ used (rebuild home n es) = es.length ∧
      live (rebuild home n es) = es.length ∧ (rebuild home n es).length = n ∧
      ∀ k w, Has (rebuild home n es) k w ↔ (k, w) ∈ es := by
  have hnone : ∀ i (k : K), ¬ LiveAt (List.replicate n (Cell.empty : Cell K V)) i k := by
    rintro i k ⟨w, hw⟩
    have := List.eq_of_mem_replicate (List.mem_of_getElem? hw)
    cases this
  have hsound : Sound home (List.replicate n (Cell.empty : Cell K V)) :=
    ⟨fun i _ k hi => absurd hi (hnone i k), fun i k hi => absurd hi (hnone i k)⟩
  have hused : used (List.replicate n (Cell.empty : Cell K V)) = 0 := by
    simp [used, List.countP_replicate, Cell.isEmpty]
  have hlive : live (List.replicate n (Cell.empty : Cell K V)) = 0 := by
    simp [live, List.countP_replicate, Cell.isLive]
  obtain ⟨h₁, h₂, h₃, h₄, h₅⟩ := foldl_place es hsound hnodup (fun e _ i => hnone i e.1)
    (by rw [hused, List.length_replicate]; omega)
  refine ⟨h₁, by rw [rebuild, h₂, hused, Nat.zero_add], by rw [rebuild, h₃, hlive, Nat.zero_add],
    by rw [rebuild, h₄, List.length_replicate], fun k w => ?_⟩
  rw [rebuild, h₅]
  exact or_iff_left fun ⟨i, hi⟩ => hnone i k ⟨w, hi⟩

/-- Rebuilding a table for more cells keeps what it holds. -/
theorem Sound.lookup_rebuild (h : Sound home t) (hlen : live t ≤ n) (key : K) :
    lookup home (rebuild home n (entries t)) key = lookup home t key := by
  have hfits : (entries t).length ≤ n := by rwa [length_entries]
  have hspec : Sound home (rebuild home n (entries t)) ∧ _ :=
    rebuild_spec (nodup_keys_iff.mpr h.unique) hfits
  obtain ⟨hsound, -, -, -, hhas⟩ := hspec
  refine Option.ext fun w => ?_
  rw [hsound.lookup_eq_some_iff, h.lookup_eq_some_iff]
  exact (hhas key w).trans mem_entries

omit [DecidableEq K] in
/-- A rebuilt table weighs what the pairs do, and has no tombstones. -/
theorem weight_rebuild {es : List (K × V)} (g : K × V → ℕ) (hnodup : (es.map Prod.fst).Nodup)
    (hlen : es.length ≤ n) :
    weight g (rebuild home n es) = (es.map g).sum ∧
      (rebuild home n es).countP Cell.isDead = 0 := by
  obtain ⟨hsound, hused, hlive, -, hhas⟩ :
      Sound home (rebuild home n es) ∧ _ := rebuild_spec hnodup hlen
  have hentries : (entries (rebuild home n es)).Nodup :=
    List.Nodup.of_map _ (nodup_keys_iff.mpr hsound.unique)
  have hperm : (entries (rebuild home n es)).Perm es :=
    (List.perm_ext_iff_of_nodup hentries (List.Nodup.of_map _ hnodup)).mpr fun e => by
      rw [mem_entries]
      exact hhas e.1 e.2
  refine ⟨(hperm.map g).sum_nat, ?_⟩
  have hsplit := used_eq (rebuild home n es)
  omega

end Map

end LinearProbe
