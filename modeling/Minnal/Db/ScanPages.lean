import Minnal.Db.BatchScans

/-!
# Pages of a scan

A caller reads a range page by page: each page comes with the first key behind it, which is where
the next page begins, until there is none. Keys may be written and deleted between the calls.

A page is what `SortedMap.pageAt` reads from the store's live pairs (`Stored.scanPageBatch_eq`), so
following the cursor visits each key that stays live exactly once and goes on for no longer than
there are new keys to be met (`Paginated`). The one limit it fails for is the **largest** one, for
which the limit of the probe, one more, is zero: the page is empty, and there is no next cursor
(`scanPageBatch_usizeMax`).
-/

set_option linter.dupNamespace false

namespace Minnal

open ByteCodec LastWrite ValueLog SortedMap StepRun
open List (mem_map mem_cons_self map_take)

variable {stop : Option Key} {limit : UInt64}

namespace KVStore

variable (c : Crates)

/-- A key below the end of a scan. -/
def below (stop : Option Key) (key : Key) : Prop := ∀ e ∈ stop, key < e

/-- Follow the cursor, one store state for each call, until there is none: the pages, and whether
the end was reached. -/
def followPages (g : Grouping) (stop : Option Key) (limit : UInt64) :
    Option Key → List KVStore → Except KVError (List (List KeyValue) × Bool)
  | _, [] => .ok ([], false)
  | cursor, s :: stores =>
    match scanPageBatch c s s s g cursor stop limit with
    | .error e => .error e
    | .ok (page, none) => .ok ([page], true)
    | .ok (page, some next) =>
      (followPages g stop limit (some next) stores).map fun r => (page :: r.1, r.2)

/-- **What following the cursor promises**, over the states the store is in at the calls. -/
structure Paginated (g : Grouping) (stop : Option Key) (limit : UInt64) (stores : List KVStore)
    (pages : List (List KeyValue)) (done : Bool) : Prop where
  follows : followPages c g stop limit none stores = .ok (pages, done)
  /-- In strictly ascending order, so none twice. -/
  ascending : Ascending Prod.fst pages.flatten
  /-- A visited key was live at a call, with that value. -/
  visited : ∀ key v, (key, v) ∈ pages.flatten →
    below stop key ∧ ∃ s ∈ stores, s.get c key = .ok (some v)
  /-- A key that is live at every call until the end is visited. -/
  complete : done = true → ∀ key, below stop key →
    (∀ s ∈ stores.take pages.length, ∃ v, s.get c key = .ok (some v)) →
    ∃ v, (key, v) ∈ pages.flatten
  /-- As long as the end is not reached, there are as many live keys as calls. -/
  progress : done = false → ∃ keys : List Key, keys.Pairwise (· < ·) ∧
    keys.length = stores.length ∧
    ∀ key ∈ keys, below stop key ∧ ∃ s ∈ stores, ∃ v, s.get c key = .ok (some v)

variable {c} {s : KVStore}

/-! ### One page -/

theorem Carried.nothing (s : KVStore) : Carried c (Removes []) s s :=
  (Carried.refl s).congr (by simp [Removes])

theorem inRange_iff {start : Key} {key : Key} :
    inRange start stop key = true ↔ start ≤ key ∧ below stop key := by
  simp only [inRange, below, Bool.and_eq_true, decide_eq_true_eq, Option.all_eq_true,
    Option.mem_def]

/-- Without a collection in between, the scanned keys come with their values. -/
theorem Stored.readEntries_self (h : s.Stored c) (g : Grouping) {rows : List (Key × ℕ × ℕ)}
    (hrows : ∀ row ∈ rows, live (s.lsm.winner c row.1) = some row.2) :
    ∃ pairs : List KeyValue, readEntries c s s g rows = .ok pairs ∧
      pairs.map Prod.fst = rows.map Prod.fst ∧ ∀ e ∈ pairs, s.get c e.1 = .ok (some e.2) := by
  obtain ⟨value, hvalue, heq⟩ := h.readEntries_eq g (Carried.nothing s) (fun _ => rfl) hrows
  have hlost : s.lost c [] = fun _ => false := by
    funext key
    simp [lost, Removes]
  simp only [hlost, Bool.not_false, List.filter_true, List.filter_false, List.append_nil] at heq
  refine ⟨_, heq, ?_, fun e he => ?_⟩
  · rw [List.map_map]
    exact List.map_id _
  · obtain ⟨key, hkey, rfl⟩ := mem_map.mp he
    exact hvalue key hkey

/-- The live pairs of a store below the end, in key order. -/
theorem Stored.exists_pairs (h : s.Stored c) (stop : Option Key) :
    ∃ pairs : List KeyValue, Ascending Prod.fst pairs ∧
      ∀ key v, (key, v) ∈ pairs ↔ below stop key ∧ s.get c key = .ok (some v) := by
  obtain ⟨rows, hasc, hmem, -⟩ := LSMTree.rangeEntries_spec h.sound [] stop
  obtain ⟨hkeys, hlive⟩ := h.keys_of_rows hasc hmem
  obtain ⟨pairs, -, hfst, hvalues⟩ := h.readEntries_self .inOrder fun row hrow =>
    ((hmem _ _).mp hrow).2
  rw [← hfst] at hkeys hlive
  refine ⟨pairs, List.pairwise_map.mp hkeys, fun key v => ⟨fun hin => ?_, fun hin => ?_⟩⟩
  · have hkey := (hlive key).mp (List.mem_map_of_mem hin)
    exact ⟨(inRange_iff.mp hkey.1).2, hvalues _ hin⟩
  · obtain ⟨⟨key', v'⟩, hin', rfl⟩ := mem_map.mp
      ((hlive key).mpr ⟨inRange_iff.mpr ⟨nil_le key, hin.1⟩, v, hin.2⟩)
    have hsame := Except.ok.inj ((hvalues _ hin').symm.trans hin.2)
    rwa [← Option.some.inj hsame]

/-- Pairs are determined by their keys. -/
theorem pairs_eq_of_keys_eq {xs ys : List KeyValue} (hkeys : xs.map Prod.fst = ys.map Prod.fst)
    (hxs : ∀ e ∈ xs, s.get c e.1 = .ok (some e.2)) (hys : ∀ e ∈ ys, s.get c e.1 = .ok (some e.2)) :
    xs = ys := by
  refine List.ext_getElem (by simpa using congrArg List.length hkeys) fun i hi hi' => ?_
  have hkey : xs[i].1 = ys[i].1 := by
    have hat := congrArg (·[i]?) hkeys
    simpa [hi, hi'] using hat
  have hx := hxs _ (List.getElem_mem hi)
  rw [hkey, hys _ (List.getElem_mem hi')] at hx
  exact Prod.ext hkey (Option.some.inj (Except.ok.inj hx)).symm

/-- The probe asks for one key more than the page. -/
theorem probe_toNat (hlimit : limit ≠ usizeMax) :
    (max limit 1 + 1).toNat = (max limit 1).toNat + 1 := by
  have hmax : (max limit 1).toNat < 2 ^ 64 - 1 := by
    have hne : limit.toNat ≠ 2 ^ 64 - 1 := fun h => hlimit (UInt64.toNat_inj.mp h)
    have hlt := limit.toNat_lt
    change (if limit ≤ 1 then 1 else limit).toNat < 2 ^ 64 - 1
    split_ifs
    · decide
    · omega
  rw [UInt64.toNat_add]
  exact Nat.mod_eq_of_lt (Nat.lt_sub_iff_add_lt.mp hmax)

/-- **One page.** Unless the limit is the largest one, a call reads a page of the live pairs. -/
theorem Stored.scanPageBatch_eq (h : s.Stored c) (g : Grouping) (hlimit : limit ≠ usizeMax)
    {pairs : List KeyValue} (hpairs : Ascending Prod.fst pairs)
    (hlive : ∀ key v, (key, v) ∈ pairs ↔ below stop key ∧ s.get c key = .ok (some v))
    (cursor : Option Key) :
    scanPageBatch c s s s g cursor stop limit =
      .ok (pageAt Prod.fst (max limit 1).toNat cursor pairs) := by
  obtain ⟨rows, hasc, hmem, htake⟩ := LSMTree.rangeEntries_spec h.sound (cursor.getD []) stop
  obtain ⟨hkeys, hkeysLive⟩ := h.keys_of_rows hasc hmem
  obtain ⟨n, hn⟩ : ∃ n, (max limit 1).toNat = n := ⟨_, rfl⟩
  have hprobe : (max limit 1 + 1).toNat = n + 1 := hn ▸ probe_toNat hlimit
  obtain ⟨all, hall, hrow⟩ := htake (max limit 1 + 1).toNat
  have hscan : s.lsm.rangePointersBounded c (cursor.getD []) stop (max limit 1 + 1).toNat =
      .ok (rows.take (n + 1)) := by
    rw [LSMTree.rangePointersBounded, hall, Except.map, hrow, hprobe]
  -- the rows from the cursor on are those of the pairs from the cursor on
  have hfrom : (fromCursor Prod.fst cursor pairs).map Prod.fst = rows.map Prod.fst := by
    have hasc' : Ascending id ((fromCursor Prod.fst cursor pairs).map Prod.fst) :=
      List.pairwise_map.mpr (hpairs.filter _)
    refine hasc'.ext hkeys fun key => ?_
    rw [hkeysLive, inRange_iff, mem_map]
    have hcursor : cursor.getD [] ≤ key ↔ ∀ k ∈ cursor, k ≤ key := by
      rcases cursor with _ | k
      · simpa using nil_le key
      · simp
    rw [hcursor]
    constructor
    · rintro ⟨⟨k, v⟩, hin, rfl⟩
      obtain ⟨hin, hle⟩ := mem_fromCursor.mp hin
      exact ⟨⟨hle, ((hlive k v).mp hin).1⟩, v, ((hlive k v).mp hin).2⟩
    · rintro ⟨⟨hle, hbelow⟩, v, hv⟩
      exact ⟨(key, v), mem_fromCursor.mpr ⟨(hlive key v).mpr ⟨hbelow, hv⟩, hle⟩, rfl⟩
  have hsub : (rows.take n).Sublist rows := List.take_sublist _ _
  obtain ⟨page, hpage, hpageKeys, hvalues⟩ := h.readEntries_self g fun row hrow =>
    ((hmem _ _).mp (hsub.subset hrow)).2
  have hpageEq : page = (fromCursor Prod.fst cursor pairs).take n := by
    refine pairs_eq_of_keys_eq (c := c) (s := s) ?_ hvalues fun e he => ?_
    · rw [hpageKeys, map_take, map_take, hfrom]
    · exact ((hlive _ _).mp (mem_fromCursor.mp (List.mem_of_mem_take he)).1).2
  have hnext : (rows.take (n + 1))[n]?.map Prod.fst =
      (fromCursor Prod.fst cursor pairs)[n]?.map Prod.fst := by
    rw [List.getElem?_take_of_lt (Nat.lt_succ_self n), ← List.getElem?_map, ← List.getElem?_map,
      hfrom]
  have htaken : (rows.take (n + 1)).take n = rows.take n := by
    rw [List.take_take, min_eq_left n.le_succ]
  simp only [scanPageBatch, hn, hscan, htaken, hpage, hnext, Except.map]
  rw [pageAt, hpageEq]

theorem page_pos (limit : UInt64) : 0 < (max limit 1).toNat := by
  change 0 < (if limit ≤ 1 then 1 else limit).toNat
  split_ifs with h
  · decide
  · exact Nat.zero_lt_of_lt (UInt64.lt_iff_toNat_lt.mp (UInt64.not_le.mp h))

/-- With the largest limit the probe asks for nothing. -/
theorem Stored.scanPageBatch_usizeMax (h : s.Stored c) (g : Grouping) (cursor stop : Option Key) :
    scanPageBatch c s s s g cursor stop usizeMax = .ok ([], none) := by
  obtain ⟨rows, -, -, htake⟩ := LSMTree.rangeEntries_spec h.sound (cursor.getD []) stop
  obtain ⟨all, hall, hrow⟩ := htake 0
  have hprobe : (max usizeMax 1 + 1).toNat = 0 := by decide
  have hscan : s.lsm.rangePointersBounded c (cursor.getD []) stop 0 = .ok [] := by
    rw [LSMTree.rangePointersBounded, hall, Except.map, hrow, List.take_zero]
  have hnone : ∀ row ∈ ([] : List (Key × ℕ × ℕ)), live (s.lsm.winner c row.1) = some row.2 := by
    simp
  obtain ⟨pairs, hpairs, hkeys, -⟩ := h.readEntries_self g hnone
  obtain rfl : pairs = [] := by simpa using hkeys
  simp only [scanPageBatch, hprobe, hscan, List.take_nil, hpairs, Except.map, List.getElem?_nil,
    Option.map_none]

/-! ### Runs of calls -/

/-- Following the cursor over stores is following it over their live pairs. -/
theorem followPages_eq (g : Grouping) (hlimit : limit ≠ usizeMax) {pairs : KVStore → List KeyValue}
    {stores : List KVStore} (hstores : ∀ s ∈ stores, s.Stored c)
    (hpairs : ∀ s ∈ stores, Ascending Prod.fst (pairs s) ∧
      ∀ key v, (key, v) ∈ pairs s ↔ below stop key ∧ s.get c key = .ok (some v))
    (cursor : Option Key) :
    followPages c g stop limit cursor stores =
      .ok (follow Prod.fst (max limit 1).toNat cursor (stores.map pairs)) := by
  induction stores generalizing cursor with
  | nil => rfl
  | cons s stores ih =>
    obtain ⟨hasc, hlive⟩ := hpairs s mem_cons_self
    have hpage := (hstores s mem_cons_self).scanPageBatch_eq g hlimit hasc hlive cursor
    have hrest := ih (fun t ht => hstores t (List.mem_cons_of_mem _ ht))
      fun t ht => hpairs t (List.mem_cons_of_mem _ ht)
    rw [followPages, hpage, List.map_cons, follow]
    rcases hnext : (pageAt Prod.fst (max limit 1).toNat cursor (pairs s)).2 with _ | next
    · rw [← Prod.mk.eta (p := pageAt Prod.fst (max limit 1).toNat cursor (pairs s)), hnext]
    · rw [← Prod.mk.eta (p := pageAt Prod.fst (max limit 1).toNat cursor (pairs s)), hnext]
      simp only [hrest, Except.map]

/-- Following the cursor does what it promises, unless the limit is the largest one. -/
theorem exists_paginated (g : Grouping) (stop : Option Key) (hlimit : limit ≠ usizeMax)
    {stores : List KVStore} (hstores : ∀ s ∈ stores, s.Stored c) :
    ∃ pages done, Paginated c g stop limit stores pages done := by
  choose! pairs hasc hlive using fun (s : KVStore) (h : s.Stored c) => h.exists_pairs stop
  have hpairs : ∀ s ∈ stores, Ascending Prod.fst (pairs s) ∧
      ∀ key v, (key, v) ∈ pairs s ↔ below stop key ∧ s.get c key = .ok (some v) :=
    fun s hs => ⟨hasc s (hstores s hs), hlive s (hstores s hs)⟩
  have hlists : ∀ l ∈ stores.map pairs, Ascending Prod.fst l := by
    intro l hl
    obtain ⟨s, hs, rfl⟩ := mem_map.mp hl
    exact (hpairs s hs).1
  have hpos := page_pos limit
  refine ⟨_, _, followPages_eq g hlimit hstores hpairs none, ascending_follow hlists hpos none,
    fun key v hin => ?_, fun hdone key hbelow hstays => ?_, fun hdone => ?_⟩
  · obtain ⟨-, l, hl, hin⟩ := mem_follow hlists hpos hin
    obtain ⟨s, hs, rfl⟩ := mem_map.mp hl
    obtain ⟨hbelow, hv⟩ := ((hpairs s hs).2 key v).mp hin
    exact ⟨hbelow, s, hs, hv⟩
  · obtain ⟨⟨key', v⟩, hin, rfl⟩ := follow_complete (k := key) hlists hpos hdone (by simp) (by
      rw [← map_take]
      intro l hl
      obtain ⟨s, hs, rfl⟩ := mem_map.mp hl
      obtain ⟨v, hv⟩ := hstays s hs
      exact ⟨(key, v), ((hpairs s (List.mem_of_mem_take hs)).2 key v).mpr ⟨hbelow, hv⟩, rfl⟩)
    exact ⟨v, hin⟩
  · obtain ⟨keys, hkeys, hlen, hall⟩ := follow_unfinished hlists hpos hdone
    refine ⟨keys, hkeys, by rw [hlen, List.length_map], fun key hkey => ?_⟩
    obtain ⟨-, l, hl, ⟨key', v⟩, hin, rfl⟩ := hall key hkey
    obtain ⟨s, hs, rfl⟩ := mem_map.mp hl
    obtain ⟨hbelow, hv⟩ := ((hpairs s hs).2 key' v).mp hin
    exact ⟨hbelow, s, hs, v, hv⟩

theorem followPages_usizeMax (h : s.Stored c) (g : Grouping) (stop : Option Key)
    (stores : List KVStore) :
    followPages c g stop usizeMax none (s :: stores) = .ok ([[]], true) := by
  rw [followPages, h.scanPageBatch_usizeMax]

/-- A key that cannot be read is not there. -/
theorem Stored.get_eq_none_iff (h : s.Stored c) (key : Key) :
    s.get c key = .ok none ↔ ¬ ∃ v, s.get c key = .ok (some v) := by
  rw [h.get_eq]
  rcases hp : s.pointer c key with _ | p
  · simp
  · obtain ⟨v, hv⟩ := h.readValue hp
    simp [hv, Except.map]

/-- **Pagination.** Follow the cursor from the first page on, while the store goes through any states
from call to call: the pages keep their promises if and only if the limit is not the largest one
or there is nothing to read. And over a store that stays as it is, finitely many calls read
exactly the live keys, in order and with their values, under the same condition. -/
theorem scanPages_complete_iff (c : Crates) (g : Grouping) (stop : Option Key) (limit : UInt64) :
    (∀ s stores, (∀ t ∈ s :: stores, t.Stored c) →
      ((∃ pages done, Paginated c g stop limit (s :: stores) pages done) ↔
        (limit ≠ usizeMax ∨ ∀ key, below stop key → s.get c key = .ok none))) ∧
    ∀ s, s.Stored c →
      ((∃ calls pages, followPages c g stop limit none (List.replicate calls s) = .ok (pages, true) ∧
          Ascending Prod.fst pages.flatten ∧
          ∀ key v, (key, v) ∈ pages.flatten ↔ below stop key ∧ s.get c key = .ok (some v)) ↔
        (limit ≠ usizeMax ∨ ∀ key, below stop key → s.get c key = .ok none)) := by
  refine ⟨fun s stores hstores => ⟨?_, ?_⟩, fun s h => ⟨?_, ?_⟩⟩
  · rintro ⟨pages, done, hpages⟩
    by_cases hlimit : limit = usizeMax
    · subst hlimit
      have h := hstores s mem_cons_self
      obtain ⟨rfl, rfl⟩ := Prod.mk.inj
        (Except.ok.inj (hpages.follows.symm.trans (followPages_usizeMax h g stop stores)))
      refine .inr fun key hbelow => (h.get_eq_none_iff key).mpr fun hlive => ?_
      obtain ⟨v, hin⟩ := hpages.complete rfl key hbelow (by simpa using hlive)
      simp at hin
    · exact .inl hlimit
  · intro hcond
    by_cases hlimit : limit = usizeMax
    · subst hlimit
      have h := hstores s mem_cons_self
      have hnone := hcond.resolve_left (not_not.mpr rfl)
      refine ⟨[[]], true, followPages_usizeMax h g stop stores, by simp, by simp, ?_, by simp⟩
      intro _ key hbelow hlive
      exact absurd (hlive s (by simp)) ((h.get_eq_none_iff key).mp (hnone key hbelow))
    · exact exists_paginated g stop hlimit hstores
  · rintro ⟨calls, pages, hfollow, -, hmem⟩
    by_cases hlimit : limit = usizeMax
    · subst hlimit
      refine .inr fun key hbelow => (h.get_eq_none_iff key).mpr ?_
      rintro ⟨v, hv⟩
      have hin := (hmem key v).mpr ⟨hbelow, hv⟩
      rcases calls with _ | calls
      · cases hfollow
      · rw [List.replicate_succ, followPages_usizeMax h] at hfollow
        obtain ⟨rfl, -⟩ := Prod.mk.inj (Except.ok.inj hfollow)
        simp at hin
    · exact .inl hlimit
  · intro hcond
    by_cases hlimit : limit = usizeMax
    · subst hlimit
      have hnone := hcond.resolve_left (not_not.mpr rfl)
      refine ⟨1, [[]], followPages_usizeMax h g stop [], by simp, fun key v => ?_⟩
      simp only [List.flatten_cons, List.flatten_nil, List.append_nil, List.not_mem_nil, false_iff]
      rintro ⟨hbelow, hv⟩
      exact (h.get_eq_none_iff key).mp (hnone key hbelow) ⟨v, hv⟩
    · obtain ⟨pairs, hasc, hlive⟩ := h.exists_pairs stop
      obtain ⟨hdone, hflat⟩ :=
        follow_replicate hasc (page_pos limit) none (Nat.lt_succ_self pairs.length)
      rw [fromCursor_none] at hflat
      have hstores : ∀ t ∈ List.replicate (pairs.length + 1) s, t.Stored c := fun t ht =>
        List.eq_of_mem_replicate ht ▸ h
      have hpairs : ∀ t ∈ List.replicate (pairs.length + 1) s, Ascending Prod.fst pairs ∧
          ∀ key v, (key, v) ∈ pairs ↔ below stop key ∧ t.get c key = .ok (some v) := by
        intro t ht
        rw [List.eq_of_mem_replicate ht]
        exact ⟨hasc, hlive⟩
      have hfollow := followPages_eq g hlimit hstores hpairs none
      rw [List.map_replicate] at hfollow
      refine ⟨_, _, hfollow.trans (congrArg Except.ok (Prod.ext rfl hdone)), ?_, ?_⟩
      · rw [hflat]
        exact hasc
      · rw [hflat]
        exact hlive

/-- A store of two keys. -/
def twoKeys : KVStore :=
  (run (step .real) oneBucket [.putToStorageSeq [0x61] [1] 1 0, .putToStorageSeq [0x62] [2] 2 0]).get
    (by decide +kernel)

theorem stored_twoKeys : twoKeys.Stored .real :=
  stored_run (@stored_empty .real .oneBucket (by decide) 65536 newLog rfl) (by decide +kernel)
    (Option.some_get _).symm

/-- Pages of one key each, the second read after the first key was deleted. -/
theorem scanPages_complete_iff_twoKeys :
    (∃ pages done, Paginated .real .inOrder none 0
      [twoKeys, (step .real twoKeys (.deleteFromStorageSeq [0x61] 3)).get (by decide +kernel)]
      pages done) ∧
    ∃ calls pages, followPages .real .inOrder none 0 none (List.replicate calls twoKeys) =
        .ok (pages, true) ∧ Ascending Prod.fst pages.flatten ∧
      ∀ key v, (key, v) ∈ pages.flatten ↔ below none key ∧ twoKeys.get .real key = .ok (some v) := by
  obtain ⟨hruns, hstays⟩ := scanPages_complete_iff .real .inOrder none 0
  refine ⟨(hruns _ _ ?_).mpr (.inl (by decide)), (hstays _ stored_twoKeys).mpr (.inl (by decide))⟩
  intro t ht
  rcases List.mem_cons.mp ht with rfl | ht
  · exact stored_twoKeys
  · rw [List.mem_singleton.mp ht]
    exact stored_twoKeys.step (by decide +kernel) (Option.some_get _).symm

/-- With the largest limit the first call ends the scan and has visited nothing. -/
theorem scanPageBatch_usizeMax_misses :
    twoKeys.Stored .real ∧ twoKeys.get .real [0x61] = .ok (some [1]) ∧
      scanPageBatch .real twoKeys twoKeys twoKeys .inOrder none none usizeMax = .ok ([], none) ∧
      ¬ ∃ pages done, Paginated .real .inOrder none usizeMax [twoKeys] pages done := by
  have hget : twoKeys.get .real [0x61] = .ok (some [1]) := by decide +kernel
  refine ⟨stored_twoKeys, hget, stored_twoKeys.scanPageBatch_usizeMax .inOrder none none, ?_⟩
  rintro ⟨pages, done, hpages⟩
  obtain ⟨rfl, rfl⟩ := Prod.mk.inj (Except.ok.inj
    (hpages.follows.symm.trans (followPages_usizeMax stored_twoKeys .inOrder none [])))
  obtain ⟨v, hin⟩ := hpages.complete rfl [0x61] (by simp [below]) (by simp [hget])
  simp at hin

end KVStore

end Minnal
