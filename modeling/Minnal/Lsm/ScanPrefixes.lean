import Minnal.Library.RunMerge
import Minnal.Lsm.MergeReads
import Minnal.Lsm.Scan

/-!
# Scanning many clusters at once

`scanPrefixes` reads all keys whose first 4 bytes are one of a set of ids. It is built for
large sets and shares little with `scanPrefix`: one cursor per file jumps from id to id, the
sorted ids are dealt out in groups, each group's Level-1 entries arrive as one sorted run per
bucket and are merged by comparing 16-byte heads, and only then are the newer layers, folded
into a map as usual, laid over them.

The result is that of the point lookup all the same. The cursor visits exactly the entries
whose id is asked for (`forEachEntryInPrefixes_spec`), merging runs keeps the order of equal
keys (`RunMerge.StableSort`), groups of ascending ids follow one another in key order, and the
final overlay takes the higher sequence, the newer layer on a tie.
-/

set_option linter.dupNamespace false

namespace Minnal

open ByteCodec FrameWalk SortedMap LastWrite RunMerge SStableEntry
open List (mem_map mem_cons mem_cons_self pairwise_cons mem_append flatMap_def cons_ne_nil)
open Option (any_eq_true any_some none_or)

/-! ### Ids -/

/-- A set of 4-byte ids, in the order in which it is iterated. -/
structure PrefixIds where
  ids : List ℕ
  nodup : ids.Nodup
  lt : ∀ id ∈ ids, id < 2 ^ 32

/-- The id of a key, none for a key of fewer than 4 bytes. -/
def prefixId (key : Key) : Option ℕ :=
  if key.length < 4 then none else some (beNat (key.take 4))

/-- Whether the key's id is one of `ids`. -/
def inPrefixes (ids : List ℕ) (key : Key) : Bool := (prefixId key).any fun id => decide (id ∈ ids)

variable {key : Key} {id : ℕ}

theorem prefixId_eq_some (hid : id < 2 ^ 32) : prefixId key = some id ↔ beBytes 4 id <+: key := by
  rw [prefixId, List.prefix_iff_eq_take, length_beBytes]
  split_ifs with hlen
  · have hne : beBytes 4 id ≠ key.take 4 := by
      intro h
      have hlen' := congrArg List.length h
      rw [length_beBytes, List.length_take] at hlen'
      omega
    simp [hne]
  · rw [Option.some.injEq]
    have htake : (key.take 4).length = 4 := List.length_take_of_le (not_lt.mp hlen)
    constructor
    · rintro rfl
      have h := beBytes_beNat (key.take 4)
      rwa [htake] at h
    · intro h
      rw [← h, beNat_beBytes_of_lt (by omega)]

theorem prefixId_lt (h : prefixId key = some id) : id < 2 ^ 32 := by
  rw [prefixId] at h
  split_ifs at h with hlen
  obtain rfl := Option.some.inj h
  have hlt := beNat_lt (key.take 4)
  rw [List.length_take_of_le (not_lt.mp hlen)] at hlt
  omega

variable {n : ℕ}

/-- A key with an id is below a bound exactly when its id is. -/
theorem lt_beBytes_of_prefixId (h : prefixId key = some id) (hn : n < 2 ^ 32) :
    key < beBytes 4 n ↔ id < n := by
  rw [prefixId] at h
  split_ifs at h with hlen
  obtain rfl := Option.some.inj h
  exact lt_beBytes_iff (by omega) (not_lt.mp hlen)

variable {a b : Key}

/-- Ids do not decrease with the keys. -/
theorem prefixId_le (hab : a ≤ b) {i j : ℕ} (hi : prefixId a = some i) (hj : prefixId b = some j) :
    i ≤ j := by
  by_contra hlt
  have hb := (lt_beBytes_of_prefixId hj (prefixId_lt hi)).mpr (not_le.mp hlt)
  exact absurd ((lt_beBytes_of_prefixId hi (prefixId_lt hi)).mp (hab.trans_lt hb)) (lt_irrefl i)

/-! ### The cursor -/

section Cursor

variable {β : Type*} (c : Crates) (file : Bytes) (visit : β → SStableEntry → β)

/-- Where the cursor continues for the next id: at its hint, if that lies ahead and is a valid
place to start. -/
def seekPrefix (offset : ℕ) (pending : List (ℕ × ℕ)) : ℕ :=
  seekCandidate c file offset (pending.map fun x => (beBytes 4 x.1, x.2))

/-- Read forward. `wanted` is the id last sought, `pending` the ids not passed yet, each with
its hint. An id that lies between two requested ones makes the cursor seek again. -/
def prefixesFrom : ℕ → ℕ → ℕ → List (ℕ × ℕ) → β → Except LSMError β
  | 0, _, _, _, b => .ok b
  | fuel + 1, offset, wanted, pending, b =>
    match nextBuffered c file offset with
    | .error err => .error err
    | .ok none => .ok b
    | .ok (some (entry, offset')) =>
      match prefixId entry.key with
      | none => prefixesFrom fuel offset' wanted pending b
      | some id =>
        if id < wanted then prefixesFrom fuel offset' wanted pending b
        else
          match pending.dropWhile fun x => decide (x.1 < id) with
          | [] => .ok b
          | (next, start) :: left =>
            if next = id then
              prefixesFrom fuel offset' wanted ((next, start) :: left) (visit b entry)
            else
              prefixesFrom fuel (seekPrefix c file offset' ((next, start) :: left)) next
                ((next, start) :: left) b

/-- Visit the entries of a sorted file whose id is one of the sorted `pending` ids, each with
its hint. -/
def forEachEntryInPrefixes (pending : List (ℕ × ℕ)) (b : β) : Except LSMError β :=
  match pending with
  | [] => .ok b
  | (wanted, start) :: left =>
    prefixesFrom c file visit (file.length + 1)
      (seekPrefix c file sstableDataStart ((wanted, start) :: left)) wanted
      ((wanted, start) :: left) b

end Cursor

variable {pending : List (ℕ × ℕ)} {k : Key}

/-- Ids below one that is no longer ahead can be dropped. -/
private theorem inPrefixes_dropWhile (h : ∀ j, prefixId k = some j → id ≤ j) :
    inPrefixes ((pending.dropWhile fun x => decide (x.1 < id)).map Prod.fst) k =
      inPrefixes (pending.map Prod.fst) k := by
  rw [inPrefixes, inPrefixes]
  rcases hk : prefixId k with _ | j
  · rfl
  have hj : id ≤ j := h j hk
  have hsplit := List.takeWhile_append_dropWhile (p := fun x : ℕ × ℕ => decide (x.1 < id))
    (l := pending)
  have hbefore : ∀ x ∈ pending.takeWhile fun x => decide (x.1 < id), x.1 ≠ j := by
    intro x hx
    have hlt : x.1 < id := by simpa using List.mem_takeWhile_imp hx
    omega
  simp only [any_some, decide_eq_decide, mem_map]
  constructor
  · rintro ⟨x, hx, hxj⟩
    exact ⟨x, (List.dropWhile_sublist _).subset hx, hxj⟩
  · rintro ⟨x, hx, hxj⟩
    rw [← hsplit, mem_append] at hx
    exact ⟨x, hx.resolve_left fun hx => hbefore x hx hxj, hxj⟩

variable {c : Crates} {file : Bytes} {β : Type*} {es : List SStableEntry} {fuel : ℕ}

/-- From a boundary, the cursor visits exactly the entries ahead whose id is pending. -/
theorem prefixesFrom_spec (visit : β → SStableEntry → β) (hes : Ascending SStableEntry.key es)
    {rest : List SStableEntry} {offset wanted : ℕ} (h : FramesAt c file offset rest)
    (hsuffix : rest <:+ es) (hfuel : rest.length < fuel)
    (hsorted : pending.Pairwise fun x y => x.1 < y.1) (hlt : ∀ x ∈ pending, x.1 < 2 ^ 32)
    (hhint : ∀ x ∈ pending, HintFor c file es (beBytes 4 x.1) x.2)
    (hwanted : ∀ x ∈ pending, wanted ≤ x.1) (b : β) :
    prefixesFrom c file visit fuel offset wanted pending b =
      .ok ((rest.filter fun e => inPrefixes (pending.map Prod.fst) e.key).foldl visit b) := by
  induction fuel generalizing rest offset wanted pending b with
  | zero => omega
  | succ fuel ih =>
    rcases rest with _ | ⟨e, rest⟩
    · simp [prefixesFrom, (h.next_nil fun _ => []).2.2]
    have hrest : rest <:+ es := (List.suffix_cons e rest).trans hsuffix
    have hasc : Ascending SStableEntry.key (e :: rest) := hes.sublist hsuffix.sublist
    have hlen : rest.length < fuel := by
      rw [List.length_cons] at hfuel
      omega
    simp only [prefixesFrom, h.nextBuffered_cons]
    rcases hid : prefixId e.key with _ | id
    · have hskip : inPrefixes (pending.map Prod.fst) e.key = false := by simp [inPrefixes, hid]
      rw [List.filter_cons_of_neg (by simp [hskip])]
      exact ih h.tail hrest hlen hsorted hlt hhint hwanted b
    simp only
    split_ifs with hbelow
    · have hskip : inPrefixes (pending.map Prod.fst) e.key = false := by
        simp only [inPrefixes, hid, any_some, decide_eq_false_iff_not, mem_map]
        rintro ⟨x, hx, hxid⟩
        have hle := hwanted x hx
        omega
      rw [List.filter_cons_of_neg (by simp [hskip])]
      exact ih h.tail hrest hlen hsorted hlt hhint hwanted b
    -- what is dropped lies below the id just read, and ids do not decrease from here on
    have hahead : ∀ d ∈ e :: rest, ∀ j, prefixId d.key = some j → id ≤ j := by
      intro d hd j hj
      have hle : e.key ≤ d.key := by
        rcases mem_cons.mp hd with rfl | hd
        · exact le_rfl
        · exact ((ascending_cons.mp hasc).1 d hd).le
      exact prefixId_le hle hid hj
    generalize hleft : (pending.dropWhile fun x => decide (x.1 < id)) = left
    have hsame : ((e :: rest).filter fun d => inPrefixes (pending.map Prod.fst) d.key) =
        (e :: rest).filter fun d => inPrefixes (left.map Prod.fst) d.key := by
      refine List.filter_congr fun d hd => ?_
      rw [← hleft, inPrefixes_dropWhile (hahead d hd)]
    have hsub : left.Sublist pending := hleft ▸ List.dropWhile_sublist _
    rw [hsame]
    rcases left with _ | ⟨⟨next, start⟩, left⟩
    · simp [inPrefixes]
    have hsorted' := hsorted.sublist hsub
    have hlt' : ∀ x ∈ (next, start) :: left, x.1 < 2 ^ 32 := fun x hx => hlt x (hsub.subset hx)
    have hhint' : ∀ x ∈ (next, start) :: left, HintFor c file es (beBytes 4 x.1) x.2 :=
      fun x hx => hhint x (hsub.subset hx)
    have hnext : ∀ x ∈ (next, start) :: left, next ≤ x.1 := by
      intro x hx
      rcases mem_cons.mp hx with rfl | hx
      · exact le_rfl
      · exact ((pairwise_cons.mp hsorted').1 x hx).le
    simp only
    split_ifs with hnextid
    · have hin : inPrefixes (((next, start) :: left).map Prod.fst) e.key = true := by
        simp [inPrefixes, hid, hnextid]
      rw [List.filter_cons_of_pos (by simpa using hin), List.foldl_cons]
      exact ih h.tail hrest hlen hsorted' hlt' hhint' (fun x hx => hwanted x (hsub.subset hx)) _
    · -- seeking for the next id skips entries below it only
      have hidnext : id < next := by
        have hhead := List.head?_dropWhile_not (fun x : ℕ × ℕ => decide (x.1 < id)) pending
        rw [hleft] at hhead
        simp only [List.head?_cons, decide_eq_false_iff_not] at hhead
        omega
      have hout : ∀ d : SStableEntry, (∀ j, prefixId d.key = some j → j < next) →
          inPrefixes (((next, start) :: left).map Prod.fst) d.key = false := by
        intro d hd
        rw [inPrefixes]
        rcases hj : prefixId d.key with _ | j
        · rfl
        simp only [any_some, decide_eq_false_iff_not, mem_map]
        rintro ⟨x, hx, hxj⟩
        have hle := hnext x hx
        have hlow := hd j hj
        omega
      obtain ⟨skipped, rest', rfl, hskipped, hframes⟩ := h.tail.seekCandidate_cons hes hrest
        (hhint' _ mem_cons_self) (left.map fun x => (beBytes 4 x.1, x.2))
      have hskip : ∀ d ∈ skipped,
          inPrefixes (((next, start) :: left).map Prod.fst) d.key = false := by
        refine fun d hd => hout d fun j hj => ?_
        exact (lt_beBytes_of_prefixId hj (hlt' _ mem_cons_self)).mp (hskipped d hd)
      have he : inPrefixes (((next, start) :: left).map Prod.fst) e.key = false :=
        hout e fun j hj => (Option.some.inj (hid.symm.trans hj)) ▸ hidnext
      have hnone : skipped.filter
          (fun d => inPrefixes (((next, start) :: left).map Prod.fst) d.key) = [] :=
        List.filter_eq_nil_iff.mpr fun d hd => Bool.eq_false_iff.mp (hskip d hd)
      rw [List.filter_cons_of_neg (a := e) (Bool.eq_false_iff.mp he), List.filter_append, hnone, List.nil_append]
      have hlen' : rest'.length < fuel := by
        rw [List.length_append] at hlen
        omega
      exact ih hframes ((List.suffix_append _ _).trans hrest) hlen' hsorted' hlt' hhint' hnext b

/-- **The cursor.** On a file of sorted entries with sound hints it visits, in order, exactly
the entries whose id is asked for. -/
theorem forEachEntryInPrefixes_spec (visit : β → SStableEntry → β) (hfile : HoldsEntries c file es)
    (hes : Ascending SStableEntry.key es) (hsorted : pending.Pairwise fun x y => x.1 < y.1)
    (hlt : ∀ x ∈ pending, x.1 < 2 ^ 32)
    (hhint : ∀ x ∈ pending, HintFor c file es (beBytes 4 x.1) x.2) (b : β) :
    forEachEntryInPrefixes c file visit pending b =
      .ok ((es.filter fun e => inPrefixes (pending.map Prod.fst) e.key).foldl visit b) := by
  rcases pending with _ | ⟨⟨wanted, start⟩, left⟩
  · simp [forEachEntryInPrefixes, inPrefixes]
  have hwanted : ∀ x ∈ (wanted, start) :: left, wanted ≤ x.1 := by
    intro x hx
    rcases mem_cons.mp hx with rfl | hx
    · exact le_rfl
    · exact ((pairwise_cons.mp hsorted).1 x hx).le
  obtain ⟨skipped, rest, rfl, hskipped, hframes⟩ := FramesAt.seekCandidate_cons hes hfile
    (List.suffix_refl es) (hhint _ mem_cons_self) (left.map fun x => (beBytes 4 x.1, x.2))
  have hlen : rest.length < file.length + 1 := by
    have hle := hframes.length_le
    omega
  have hnone : skipped.filter
      (fun d => inPrefixes (((wanted, start) :: left).map Prod.fst) d.key) = [] := by
    refine List.filter_eq_nil_iff.mpr fun d hd => ?_
    rw [inPrefixes]
    rcases hj : prefixId d.key with _ | j
    · simp
    have hlow : j < wanted :=
      (lt_beBytes_of_prefixId hj (hlt _ mem_cons_self)).mp (hskipped d hd)
    simp only [any_some, decide_eq_true_eq, mem_map]
    rintro ⟨x, hx, hxj⟩
    have hle := hwanted x hx
    omega
  rw [List.filter_append, hnone, List.nil_append]
  exact prefixesFrom_spec visit hes hframes (List.suffix_append _ _) hlen hsorted hlt hhint
    hwanted b

/-! ### Merging runs -/

/-- A key's first 16 bytes as a big-endian integer, zero-padded. -/
def keyHead (key : Key) : ℕ := beNat (padTake 16 key)

/-- Entries are ordered by the heads of their keys, then by the keys. -/
def scanOrder (e : ScanEntry) : ℕ ×ₗ Key := toLex (keyHead e.1, e.1)

/-- Most runs that are merged directly. -/
def maxMergedRuns : ℕ := 64

/-- Keep the newest of each key's entries; `last` is the entry kept last. -/
def keepNewestFrom (last : ScanEntry) : List ScanEntry → List ScanEntry
  | [] => [last]
  | e :: es =>
    if scanOrder e = scanOrder last then
      keepNewestFrom (if seqNewerOrEq e.2.2 last.2.2 then (last.1, e.2) else last) es
    else last :: keepNewestFrom e es

def keepNewest : List ScanEntry → List ScanEntry
  | [] => []
  | e :: es => keepNewestFrom e es

/-- Merge a group's Level-1 entries into key order, one entry per key. -/
def mergeL1Runs (l1 : List ScanEntry) : List ScanEntry :=
  let runs := splitRuns scanOrder l1
  if runs.length ≤ maxMergedRuns then keepNewest (mergeRuns scanOrder l1.length runs)
  else keepNewest (l1.insertionSort fun a b => scanOrder a ≤ scanOrder b)

/-- A pointer to report, if there is one. -/
def pointerRow (key : Key) (value : Option ℕ) : List (Key × ℕ) := (value.map fun v => (key, v)).toList

/-- Lay the newer layers over the Level-1 entries and drop tombstones. -/
def resolveScanLayers : List ScanEntry → ScanMap → List (Key × ℕ)
  | l1, [] => l1.flatMap fun e => pointerRow e.1 e.2.1
  | l1, (key, val, seq) :: newer =>
    let below := (l1.takeWhile fun e => decide (e.1 < key)).flatMap fun e => pointerRow e.1 e.2.1
    match l1.dropWhile fun e => decide (e.1 < key) with
    | [] => below ++ pointerRow key val ++ resolveScanLayers [] newer
    | e :: older =>
      if e.1 = key then
        below ++ pointerRow key (if seqNewer e.2.2 seq then e.2.1 else val) ++
          resolveScanLayers older newer
      else below ++ pointerRow key val ++ resolveScanLayers (e :: older) newer

/-! ### What merging and overlaying give -/

theorem keyHead_lt (h : keyHead a < keyHead b) : a < b := by
  have hlen : (padTake 16 a).length = (padTake 16 b).length := by simp
  exact lt_of_padTake_lt ((beNat_lt_beNat_iff hlen).mp h)

variable {d e : ScanEntry}

/-- Comparing heads first is comparing keys. -/
theorem scanOrder_le_iff : scanOrder d ≤ scanOrder e ↔ d.1 ≤ e.1 := by
  rw [scanOrder, scanOrder, Prod.Lex.toLex_le_toLex]
  constructor
  · rintro (hlt | ⟨-, hle⟩)
    · exact (keyHead_lt hlt).le
    · exact hle
  · intro hle
    rcases lt_trichotomy (keyHead d.1) (keyHead e.1) with hlt | heq | hgt
    · exact .inl hlt
    · exact .inr ⟨heq, hle⟩
    · exact absurd (keyHead_lt hgt) hle.not_gt

theorem scanOrder_eq_iff : scanOrder d = scanOrder e ↔ d.1 = e.1 := by
  rw [le_antisymm_iff, le_antisymm_iff, scanOrder_le_iff, scanOrder_le_iff]

variable {m : ScanMap}

/-- In a sorted map a copy is an entry. -/
theorem mapCopy_eq_some (hm : Ascending Prod.fst m) {x : Copy} :
    mapCopy m k = some x ↔ (k, x) ∈ m := by
  rw [mapCopy, Option.map_eq_some_iff]
  constructor
  · rintro ⟨e, he, rfl⟩
    obtain ⟨hmem, rfl⟩ := mem_of_findBy_eq_some he
    exact hmem
  · intro hmem
    exact ⟨(k, x), (findBy_eq_some_iff hm).mpr ⟨hmem, rfl⟩, rfl⟩

theorem mapCopy_eq_none : mapCopy m k = none ↔ ∀ e ∈ m, e.1 ≠ k := by
  rw [mapCopy, Option.map_eq_none_iff, findBy_eq_none]

theorem mapCopy_append (l m : ScanMap) (k : Key) :
    mapCopy (l ++ m) k = (mapCopy l k).or (mapCopy m k) := by
  rw [mapCopy, findBy_append, mapCopy, mapCopy]
  cases findBy Prod.fst k l <;> rfl

/-- Keeping the newest of each key leaves a sorted map with the copies that folding gives. -/
private theorem keepNewestFrom_spec {last : ScanEntry} {es : List ScanEntry}
    (hsorted : (last :: es).Pairwise fun a b => a.1 ≤ b.1) :
    Ascending Prod.fst (keepNewestFrom last es) ∧
      (∀ e ∈ keepNewestFrom last es, last.1 ≤ e.1) ∧
      ∀ k, scanCopy (keepNewestFrom last es) k = scanCopy (last :: es) k := by
  induction es generalizing last with
  | nil => exact ⟨List.pairwise_singleton _ _, by simp [keepNewestFrom], fun _ => rfl⟩
  | cons e es ih =>
    obtain ⟨hlast, hes⟩ := pairwise_cons.mp hsorted
    rw [keepNewestFrom]
    by_cases hsame : scanOrder e = scanOrder last
    · have hkey : e.1 = last.1 := scanOrder_eq_iff.mp hsame
      rw [if_pos hsame]
      generalize hkept : (if seqNewerOrEq e.2.2 last.2.2 then (last.1, e.2) else last) = kept
      have hkept1 : kept.1 = last.1 := by
        rw [← hkept]
        split_ifs <;> rfl
      have hsorted' : (kept :: es).Pairwise fun a b => a.1 ≤ b.1 := by
        refine pairwise_cons.mpr ⟨fun d hd => ?_, (pairwise_cons.mp hes).2⟩
        rw [hkept1]
        exact hlast d (List.mem_cons_of_mem _ hd)
      obtain ⟨hasc, hge, hcopy⟩ := ih hsorted'
      refine ⟨hasc, fun d hd => hkept1 ▸ hge d hd, fun k => ?_⟩
      rw [hcopy, scanCopy_cons, scanCopy_cons, scanCopy_cons, newer_assoc, hkept1, hkey]
      refine congrArg (newer _) ?_
      split_ifs with hk
      · rw [newer_some_some, ← hkept]
        simp only [seqNewerOrEq, decide_eq_true_eq]
        by_cases hle : last.2.2 ≤ e.2.2
        · rw [if_pos hle, if_neg hle.not_gt]
        · rw [if_neg hle, if_pos (not_le.mp hle)]
      · rfl
    · have hlt : last.1 < e.1 :=
        lt_of_le_of_ne (hlast e mem_cons_self) fun h => hsame (scanOrder_eq_iff.mpr h.symm)
      obtain ⟨hasc, hge, hcopy⟩ := ih hes
      rw [if_neg hsame]
      refine ⟨ascending_cons.mpr ⟨fun d hd => hlt.trans_le (hge d hd), hasc⟩, ?_, fun k => ?_⟩
      · intro d hd
        rcases mem_cons.mp hd with rfl | hd
        · exact le_rfl
        · exact hlt.le.trans (hge d hd)
      · rw [scanCopy_cons, hcopy, scanCopy_cons last]

private theorem keepNewest_spec {es : List ScanEntry} (hsorted : es.Pairwise fun a b => a.1 ≤ b.1) :
    Ascending Prod.fst (keepNewest es) ∧ ∀ k, mapCopy (keepNewest es) k = scanCopy es k := by
  rcases es with _ | ⟨e, es⟩
  · exact ⟨ascending_nil, fun k => rfl⟩
  · obtain ⟨hasc, -, hcopy⟩ := keepNewestFrom_spec hsorted
    exact ⟨hasc, fun k => (scanCopy_of_ascending hasc k).symm.trans (hcopy k)⟩

variable {l : List ScanEntry}

private theorem scanCopy_stableSort {out : List ScanEntry} (h : StableSort scanOrder l out)
    (k : Key) : scanCopy out k = scanCopy l k := by
  have hkey : ∀ e : ScanEntry, decide (e.1 = k) = true ↔ scanOrder e = scanOrder (k, none, 0) := by
    intro e
    rw [decide_eq_true_iff, scanOrder_eq_iff]
  rw [scanCopy, scanCopy, h.filter_eq_of_iff hkey]

/-- **Merging runs** gives a sorted map with the copies that folding the entries gives. -/
theorem mergeL1Runs_spec (l1 : List ScanEntry) :
    Ascending Prod.fst (mergeL1Runs l1) ∧ ∀ k, mapCopy (mergeL1Runs l1) k = scanCopy l1 k := by
  have hkeep : ∀ {out : List ScanEntry}, StableSort scanOrder l1 out →
      Ascending Prod.fst (keepNewest out) ∧ ∀ k, mapCopy (keepNewest out) k = scanCopy l1 k := by
    intro out hout
    obtain ⟨hasc, hcopy⟩ := keepNewest_spec (hout.sorted.imp scanOrder_le_iff.mp)
    exact ⟨hasc, fun k => (hcopy k).trans (scanCopy_stableSort hout k)⟩
  rw [mergeL1Runs]
  split_ifs
  · exact hkeep (stableSort_mergeRuns l1)
  · exact hkeep (stableSort_insertionSort l1)

variable {value : Option ℕ}

theorem mem_pointerRow {p : ℕ} : (k, p) ∈ pointerRow key value ↔ k = key ∧ value = some p := by
  cases value <;> simp [pointerRow, eq_comm]

/-- Rows of a sorted list of entries. -/
private theorem flatMap_pointerRow (hl : Ascending Prod.fst l) :
    Ascending Prod.fst (l.flatMap fun e => pointerRow e.1 e.2.1) ∧
      ∀ k p, (k, p) ∈ (l.flatMap fun e => pointerRow e.1 e.2.1) ↔
        ∃ s, mapCopy l k = some (some p, s) := by
  constructor
  · refine List.pairwise_flatMap.mpr ⟨fun e _ => ?_, hl.imp fun {d e} hde x hx y hy => ?_⟩
    · cases e.2.1 <;> simp [pointerRow]
    · obtain ⟨k, p⟩ := x
      obtain ⟨k', p'⟩ := y
      rw [(mem_pointerRow.mp hx).1, (mem_pointerRow.mp hy).1]
      exact hde
  · intro k p
    simp only [List.mem_flatMap, mem_pointerRow, mapCopy_eq_some hl]
    constructor
    · rintro ⟨⟨k', v, s⟩, he, rfl, rfl⟩
      exact ⟨s, he⟩
    · rintro ⟨s, he⟩
      exact ⟨_, he, rfl, rfl⟩

/-- One step of the overlay: the rows below a key, its own and those above it. -/
private theorem overlay_step {below above : List (Key × ℕ)} {copy : Key → Candidate}
    (hbelow : Ascending Prod.fst below) (habove : Ascending Prod.fst above)
    (hlow : ∀ k p, (k, p) ∈ below ↔ k < key ∧ ∃ s, copy k = some (some p, s))
    (hkey : ∃ s, copy key = some (value, s))
    (hhigh : ∀ k p, (k, p) ∈ above ↔ key < k ∧ ∃ s, copy k = some (some p, s)) :
    Ascending Prod.fst (below ++ pointerRow key value ++ above) ∧
      ∀ k p, (k, p) ∈ below ++ pointerRow key value ++ above ↔
        ∃ s, copy k = some (some p, s) := by
  obtain ⟨seq, hseq⟩ := hkey
  have hrow : Ascending Prod.fst (pointerRow key value) := by
    cases value <;> simp [pointerRow, Ascending]
  constructor
  · rw [List.append_assoc]
    refine List.pairwise_append.mpr ⟨hbelow, List.pairwise_append.mpr ⟨hrow, habove, ?_⟩, ?_⟩
    · rintro ⟨k, p⟩ hk ⟨k', p'⟩ hk'
      rw [(mem_pointerRow.mp hk).1]
      exact ((hhigh k' p').mp hk').1
    · rintro ⟨k, p⟩ hk ⟨k', p'⟩ hk'
      have hlt : k < key := ((hlow k p).mp hk).1
      rcases mem_append.mp hk' with hk' | hk'
      · rwa [(mem_pointerRow.mp hk').1]
      · exact hlt.trans ((hhigh k' p').mp hk').1
  · intro k p
    rw [mem_append, mem_append, hlow, hhigh, mem_pointerRow]
    constructor
    · rintro ((⟨-, h⟩ | ⟨rfl, rfl⟩) | ⟨-, h⟩)
      · exact h
      · exact ⟨seq, hseq⟩
      · exact h
    · intro h
      rcases lt_trichotomy k key with hlt | rfl | hgt
      · exact .inl (.inl ⟨hlt, h⟩)
      · obtain ⟨s, hs⟩ := h
        rw [hseq] at hs
        exact .inl (.inr ⟨rfl, congrArg Prod.fst (Option.some.inj hs)⟩)
      · exact .inr ⟨hgt, h⟩

/-- **The overlay.** The rows are in key order, one for each key whose newest copy, the newer
layers winning ties, is a value. -/
theorem resolveScanLayers_spec {l1 : List ScanEntry} (hl1 : Ascending Prod.fst l1)
    (hm : Ascending Prod.fst m) :
    Ascending Prod.fst (resolveScanLayers l1 m) ∧
      ∀ k p, (k, p) ∈ resolveScanLayers l1 m ↔
        ∃ s, newer (mapCopy m k) (mapCopy l1 k) = some (some p, s) := by
  induction m generalizing l1 with
  | nil =>
    have hnil : resolveScanLayers l1 [] = l1.flatMap fun e => pointerRow e.1 e.2.1 := by
      rw [resolveScanLayers.eq_def]
    rw [hnil]
    exact flatMap_pointerRow hl1
  | cons e m ih =>
    obtain ⟨key, val, seq⟩ := e
    obtain ⟨hgt, hm'⟩ := ascending_cons.mp hm
    have hgt : ∀ d ∈ m, key < d.1 := hgt
    have hsplit := List.takeWhile_append_dropWhile
      (p := fun e : ScanEntry => decide (e.1 < key)) (l := l1)
    rw [resolveScanLayers]
    generalize hlo : (l1.takeWhile fun e => decide (e.1 < key)) = lo at hsplit ⊢
    generalize hhi : (l1.dropWhile fun e => decide (e.1 < key)) = hi at hsplit ⊢
    subst hsplit
    obtain ⟨hloasc, hhiasc, hlohi⟩ := List.pairwise_append.mp hl1
    have hlolt : ∀ d ∈ lo, d.1 < key := by
      intro d hd
      rw [← hlo] at hd
      simpa using List.mem_takeWhile_imp hd
    have hhead := List.head?_dropWhile_not (fun e : ScanEntry => decide (e.1 < key)) (lo ++ hi)
    rw [hhi] at hhead
    have hhige : ∀ d ∈ hi, key ≤ d.1 := by
      intro d hd
      rcases hi with _ | ⟨e, hi⟩
      · cases hd
      have hkey : key ≤ e.1 := by simpa using hhead
      rcases mem_cons.mp hd with rfl | hd
      · exact hkey
      · exact hkey.trans ((ascending_cons.mp hhiasc).1 d hd).le
    have hcons : ∀ k, key < k → mapCopy ((key, val, seq) :: m) k = mapCopy m k := by
      intro k hk
      rw [mapCopy, mapCopy, findBy_cons, if_neg hk.ne]
    have hlonone : ∀ k, key ≤ k → mapCopy lo k = none := fun k hk =>
      mapCopy_eq_none.mpr fun d hd => ((hlolt d hd).trans_le hk).ne
    have hrows := flatMap_pointerRow hloasc
    have hlow : ∀ k p, (k, p) ∈ (lo.flatMap fun e => pointerRow e.1 e.2.1) ↔ k < key ∧
        ∃ s, newer (mapCopy ((key, val, seq) :: m) k) (mapCopy (lo ++ hi) k) =
          some (some p, s) := by
      intro k p
      rw [hrows.2]
      by_cases hk : k < key
      · have hnewer : mapCopy ((key, val, seq) :: m) k = none := by
          refine mapCopy_eq_none.mpr fun d hd => ?_
          rcases mem_cons.mp hd with rfl | hd
          · exact hk.ne'
          · exact (hk.trans (hgt d hd)).ne'
        have hhinone : mapCopy hi k = none :=
          mapCopy_eq_none.mpr fun d hd => (hk.trans_le (hhige d hd)).ne'
        rw [hnewer, mapCopy_append, hhinone, Option.or_none, none_newer]
        exact (and_iff_right hk).symm
      · rw [hlonone k (not_lt.mp hk)]
        simp [hk]
    -- what is left of Level 1 once the key's own entry, if any, is used up
    have hdone : ∀ {older : List ScanEntry} {value : Option ℕ}, Ascending Prod.fst older →
        (∀ d ∈ older, key < d.1) → (∀ k, key < k → mapCopy older k = mapCopy hi k) →
        (∃ s, newer (some (val, seq)) (mapCopy hi key) = some (value, s)) →
        Ascending Prod.fst ((lo.flatMap fun e => pointerRow e.1 e.2.1) ++ pointerRow key value ++
            resolveScanLayers older m) ∧
          ∀ k p, (k, p) ∈ (lo.flatMap fun e => pointerRow e.1 e.2.1) ++ pointerRow key value ++
              resolveScanLayers older m ↔
            ∃ s, newer (mapCopy ((key, val, seq) :: m) k) (mapCopy (lo ++ hi) k) =
              some (some p, s) := by
      intro older value holder habove hsame hvalue
      obtain ⟨hasc, hmem⟩ := ih holder hm'
      refine overlay_step hrows.1 hasc hlow ?_ fun k p => ?_
      · rw [mapCopy_append, hlonone key le_rfl, none_or, mapCopy, findBy_cons, if_pos rfl]
        exact hvalue
      · rw [hmem]
        by_cases hk : key < k
        · rw [hcons k hk, mapCopy_append, hlonone k hk.le, none_or, hsame k hk]
          exact (and_iff_right hk).symm
        · have hmnone : mapCopy m k = none :=
            mapCopy_eq_none.mpr fun d hd => ((not_lt.mp hk).trans_lt (hgt d hd)).ne'
          have honone : mapCopy older k = none :=
            mapCopy_eq_none.mpr fun d hd => ((not_lt.mp hk).trans_lt (habove d hd)).ne'
          simp [hk, hmnone, honone]
    rcases hi with _ | ⟨e, older⟩
    · exact hdone ascending_nil (by simp) (fun _ _ => rfl) ⟨seq, rfl⟩
    obtain ⟨hgte, holder⟩ := ascending_cons.mp hhiasc
    simp only
    by_cases hkey : e.1 = key
    · rw [if_pos hkey]
      subst hkey
      refine hdone holder hgte (fun k hk => ?_) ?_
      · rw [mapCopy, mapCopy, findBy_cons, if_neg hk.ne]
      · rw [mapCopy, findBy_cons, if_pos rfl, Option.map_some, newer_some_some]
        simp only [seqNewer, decide_eq_true_eq]
        split_ifs
        · exact ⟨e.2.2, rfl⟩
        · exact ⟨seq, rfl⟩
    · rw [if_neg hkey]
      have hlt : key < e.1 := lt_of_le_of_ne (hhige e mem_cons_self) (Ne.symm hkey)
      have hnone : mapCopy (e :: older) key = none := by
        refine mapCopy_eq_none.mpr fun d hd => ?_
        rcases mem_cons.mp hd with rfl | hd
        · exact hlt.ne'
        · exact (hlt.trans (hgte d hd)).ne'
      refine hdone hhiasc (fun d hd => ?_) (fun _ _ => rfl) ⟨seq, by rw [hnone, newer_none]⟩
      exact lt_of_le_of_ne (hhige d hd) fun h => mapCopy_eq_none.mp hnone d hd h.symm

/-- **The packed merge is the fold.** Merging the Level-1 runs and laying the newer layers over
them gives, in key order, the live pairs of one map into which all Level-1 entries are folded in
the order they were read, and the newer entries after them. -/
theorem packed_merge_eq_fold (l1 : List ScanEntry) {newer : ScanMap}
    (hnewer : Ascending Prod.fst newer) :
    Ascending Prod.fst (resolveScanLayers (mergeL1Runs l1) newer) ∧
      resolveScanLayers (mergeL1Runs l1) newer =
        (newer.foldl foldNewest (l1.foldl foldNewest [])).flatMap fun e =>
          pointerRow e.1 e.2.1 := by
  obtain ⟨hmerged, hmergedCopy⟩ := mergeL1Runs_spec l1
  obtain ⟨hrows, hmem⟩ := resolveScanLayers_spec hmerged hnewer
  obtain ⟨hbase, hbaseCopy⟩ := foldl_foldNewest (m := []) ascending_nil l1
  obtain ⟨hmap, hmapCopy⟩ := foldl_foldNewest hbase newer
  obtain ⟨hfold, hfoldMem⟩ := flatMap_pointerRow hmap
  refine ⟨hrows, hrows.eq_of_mem_iff hfold fun ⟨k, p⟩ => ?_⟩
  have hempty : mapCopy [] k = none := rfl
  rw [hmem, hfoldMem, hmergedCopy, hmapCopy, hbaseCopy, scanCopy_of_ascending hnewer, hempty,
    newer_none]

/-- A key of two runs that a newer tombstone hides, and one whose copies tie. -/
theorem packed_merge_eq_fold_tie :
    Ascending Prod.fst ([([1], none, 5), ([2], some 9, 2)] : ScanMap) ∧
      resolveScanLayers (mergeL1Runs [([1], some 7, 3), ([2], some 8, 2), ([1], some 6, 3)])
          [([1], none, 5), ([2], some 9, 2)] =
        (([([1], none, 5), ([2], some 9, 2)] : ScanMap).foldl foldNewest
          (([([1], some 7, 3), ([2], some 8, 2), ([1], some 6, 3)] : List ScanEntry).foldl
            foldNewest [])).flatMap fun e => pointerRow e.1 e.2.1 := by
  have hnewer : Ascending Prod.fst ([([1], none, 5), ([2], some 9, 2)] : ScanMap) := by
    rw [Ascending]
    decide
  exact ⟨hnewer, (packed_merge_eq_fold _ hnewer).2⟩

/-! ### The scan -/

/-- Split into groups of `n`; `fuel` is the length. -/
def chunks {α : Type*} (n : ℕ) : ℕ → List α → List (List α)
  | 0, _ => []
  | _ + 1, [] => []
  | fuel + 1, a :: l => (a :: l).take n :: chunks n fuel ((a :: l).drop n)

def Bucket.forEachL1EntryInPrefixes (c : Crates) (b : Bucket) (sortedIds : List ℕ) :
    Except LSMError (List ScanEntry) :=
  forEachEntryInPrefixes c b.sstableFile (fun results entry => results ++ [entry.scanEntry])
    (sortedIds.map fun id => (id, (b.sstableIndex.map (·.blockStart (beBytes 4 id))).getD 0)) []

/-- One bucket's Level-0 files, oldest first; a file outside the span of ids is skipped. -/
def scanL0InPrefixes (c : Crates) (spanStart : Key) (spanEnd : Option Key) (sortedIds : List ℕ) :
    List L0FileEntry → List ScanEntry → Except LSMError (List ScanEntry)
  | [], results => .ok results
  | f :: files, results =>
    if f.summary.any fun s => decide (s.maxKey < spanStart) ||
        spanEnd.any fun e => decide (e ≤ s.minKey) then
      scanL0InPrefixes c spanStart spanEnd sortedIds files results
    else
      match forEachEntryInPrefixes c f.file (fun results entry => results ++ [entry.scanEntry])
          (sortedIds.map fun id => (id, f.scanStart (beBytes 4 id))) results with
      | .error err => .error err
      | .ok results => scanL0InPrefixes c spanStart spanEnd sortedIds files results

namespace LSMTree

/-- The Level-1 part: groups of ids, each read from every overlapping bucket. -/
def scanL1InPrefixes (c : Crates) (t : LSMTree) (l1Buckets sortedIds : List ℕ) :
    Except LSMError (List ScanEntry) :=
  if l1Buckets.isEmpty then .ok []
  else
    let groupLen := (sortedIds.length + l1Buckets.length - 1) / l1Buckets.length
    ((chunks groupLen sortedIds.length sortedIds).mapM fun group =>
      (l1Buckets.mapM fun b => (t.buckets b).forEachL1EntryInPrefixes c group).map fun runs =>
        mergeL1Runs runs.flatten).map List.flatten

/-- All live keys whose id is one of a set, with their pointers, in key order. -/
def scanPrefixes (c : Crates) (t : LSMTree) (prefixIds : PrefixIds) :
    Except LSMError (List (Key × ℕ)) :=
  match prefixIds.ids.insertionSort (· ≤ ·) with
  | [] => .ok []
  | first :: rest =>
    let active := prefixIds.ids.flatMap fun id =>
      (t.memtable.iterRawFrom (beBytes 4 id)).takeWhile fun r => prefixId r.key == some id
    let last := (first :: rest).getLast (List.cons_ne_nil first rest)
    let spanStart := beBytes 4 first
    let spanEnd := if last + 1 < 2 ^ 32 then some (beBytes 4 (last + 1)) else none
    let l1Buckets := (List.range t.config.numBuckets).filter fun b =>
      (t.buckets b).l1Overlaps spanStart spanEnd
    match t.scanL1InPrefixes c l1Buckets (first :: rest) with
    | .error err => .error err
    | .ok l1 =>
      let l0Buckets := (List.range t.config.numBuckets).filter fun b =>
        !(t.buckets b).captureL0.isEmpty
      (l0Buckets.mapM fun b => scanL0InPrefixes c spanStart spanEnd (first :: rest)
        (t.buckets b).captureL0 []).map fun l0 =>
          resolveScanLayers l1 (foldMemtables (inPrefixes prefixIds.ids) t.readOnlyMemtables active
            (l0.flatten.foldl foldNewest []))

end LSMTree

/-! ### The whole scan -/

theorem flatten_chunks {α : Type*} (hn : 0 < n) {l : List α} (hfuel : l.length ≤ fuel) :
    (chunks n fuel l).flatten = l := by
  induction fuel generalizing l with
  | zero =>
    rw [List.length_eq_zero_iff.mp (Nat.le_zero.mp hfuel)]
    rfl
  | succ fuel ih =>
    rcases l with _ | ⟨a, l⟩
    · rfl
    have hlen : ((a :: l).drop n).length ≤ fuel := by
      rw [List.length_drop]
      omega
    rw [chunks, List.flatten_cons, ih hlen, List.take_append_drop]

private theorem foldl_append_scanEntry (es : List SStableEntry) (acc : List ScanEntry) :
    es.foldl (fun results entry => results ++ [entry.scanEntry]) acc =
      acc ++ es.map scanEntry := by
  induction es generalizing acc with
  | nil => simp
  | cons e es ih =>
    rw [List.foldl_cons, ih]
    simp

variable {sortedIds : List ℕ}

/-- A file read through the cursor. -/
private theorem scanIds_spec (hfile : FileSound c file) (hsorted : sortedIds.Pairwise (· < ·))
    (hlt : ∀ id ∈ sortedIds, id < 2 ^ 32) (hint : Key → ℕ)
    (hhint : ∀ k, HintFor c file (entriesOf c file) k (hint k)) (results : List ScanEntry) :
    forEachEntryInPrefixes c file (fun results entry => results ++ [entry.scanEntry])
        (sortedIds.map fun id => (id, hint (beBytes 4 id))) results =
      .ok (results ++ ((entriesOf c file).filter fun e => inPrefixes sortedIds e.key).map
        scanEntry) := by
  have hids : (sortedIds.map fun id => (id, hint (beBytes 4 id))).map Prod.fst = sortedIds := by
    simp [Function.comp_def]
  rw [forEachEntryInPrefixes_spec _ hfile.holds hfile.sorted.ascending
    (List.pairwise_map.mpr hsorted), foldl_append_scanEntry, hids]
  · intro x hx
    obtain ⟨id, hid, rfl⟩ := mem_map.mp hx
    exact hlt id hid
  · intro x hx
    obtain ⟨id, -, rfl⟩ := mem_map.mp hx
    exact hhint _

/-- A key with one of the ids lies in their span. -/
theorem inRange_span {first last : ℕ} {ids : List ℕ} (hfirst : ∀ id ∈ ids, first ≤ id)
    (hlast : ∀ id ∈ ids, id ≤ last) (hk : inPrefixes ids k = true) :
    inRange (beBytes 4 first) (if last + 1 < 2 ^ 32 then some (beBytes 4 (last + 1)) else none) k =
      true := by
  obtain ⟨id, hid, hmem⟩ := (any_eq_true ..).mp hk
  have hmem : id ∈ ids := of_decide_eq_true hmem
  have hlow : beBytes 4 first ≤ k := by
    refine not_lt.mp fun hlt => ?_
    have h := (lt_beBytes_of_prefixId hid ((hfirst id hmem).trans_lt (prefixId_lt hid))).mp hlt
    exact absurd (hfirst id hmem) (not_le.mpr h)
  rw [inRange, Bool.and_eq_true, decide_eq_true_iff]
  refine ⟨hlow, ?_⟩
  split_ifs with hend
  · rw [Option.all_some, decide_eq_true_iff, lt_beBytes_of_prefixId hid hend]
    exact Nat.lt_succ_of_le (hlast id hmem)
  · rfl

/-- **Level 0 through the cursor.** Files that are skipped hold none of the ids. -/
theorem scanL0InPrefixes_spec {numBuckets bucket : ℕ} {spanStart : Key} {spanEnd : Option Key}
    (hsorted : sortedIds.Pairwise (· < ·)) (hlt : ∀ id ∈ sortedIds, id < 2 ^ 32)
    (hspan : ∀ k, inPrefixes sortedIds k = true → inRange spanStart spanEnd k = true)
    {files : List L0FileEntry} (hfiles : ∀ f ∈ files, f.Sound c numBuckets bucket)
    (results : List ScanEntry) :
    scanL0InPrefixes c spanStart spanEnd sortedIds files results =
      .ok (results ++ files.flatMap fun f => ((entriesOf c f.file).filter fun e =>
        inPrefixes sortedIds e.key).map scanEntry) := by
  induction files generalizing results with
  | nil => simp [scanL0InPrefixes]
  | cons f files ih =>
    have hf := hfiles f mem_cons_self
    have hrest := ih fun g hg => hfiles g (List.mem_cons_of_mem _ hg)
    rw [scanL0InPrefixes]
    split_ifs with hskip
    · obtain ⟨s, hs, hout⟩ := (any_eq_true ..).mp hskip
      have hnone : (entriesOf c f.file).filter (fun e => inPrefixes sortedIds e.key) = [] := by
        refine List.filter_eq_nil_iff.mpr fun e he hin => ?_
        obtain ⟨hlo, hhi⟩ := (hf.described s hs).range e he
        have hrange := hspan e.key hin
        simp only [inRange, Bool.and_eq_true, decide_eq_true_eq, Option.all_eq_true] at hrange
        rcases (Bool.or_eq_true _ _).mp hout with hbelow | habove
        · exact absurd (of_decide_eq_true hbelow) (hrange.1.trans hhi).not_gt
        · obtain ⟨stop, hstop, hle⟩ := (any_eq_true ..).mp habove
          exact absurd (hrange.2 stop hstop) ((of_decide_eq_true hle).trans hlo).not_gt
      rw [hrest, List.flatMap_cons, hnone, List.map_nil, List.nil_append]
    · simp only [scanIds_spec hf.sound hsorted hlt f.scanStart hf.hintFor]
      rw [hrest, List.flatMap_cons, List.append_assoc]

namespace LSMTree

variable {c : Crates} {t : LSMTree}

/-- **Level 1 in groups.** The groups' results follow one another in key order, and together
hold the Level-1 copy of every key asked for whose bucket is read. -/
theorem scanL1InPrefixes_spec (h : t.Sound c) (l1Buckets : List ℕ) (hbuckets : l1Buckets.Nodup)
    (hne : sortedIds ≠ []) (hsorted : sortedIds.Pairwise (· < ·))
    (hlt : ∀ id ∈ sortedIds, id < 2 ^ 32) :
    ∃ l1, t.scanL1InPrefixes c l1Buckets sortedIds = .ok l1 ∧ Ascending Prod.fst l1 ∧
      ∀ k, mapCopy l1 k = if inPrefixes sortedIds k = true ∧ t.bucketOf c k ∈ l1Buckets then
        (t.buckets (t.bucketOf c k)).level1Copy c k else none := by
  rw [scanL1InPrefixes]
  rcases l1Buckets with _ | ⟨b₀, bs⟩
  · exact ⟨[], rfl, ascending_nil, fun k => by simp [mapCopy]⟩
  rw [if_neg (by simp)]
  generalize hbs : b₀ :: bs = l1Buckets at hbuckets
  have hpos : 0 < l1Buckets.length := by simp [← hbs]
  have hidpos : 0 < sortedIds.length := List.length_pos_iff.mpr hne
  have hgroup : 0 < (sortedIds.length + l1Buckets.length - 1) / l1Buckets.length :=
    Nat.div_pos (by omega) hpos
  simp only
  generalize hgroups : chunks ((sortedIds.length + l1Buckets.length - 1) / l1Buckets.length)
    sortedIds.length sortedIds = groups
  have hflat : groups.flatten = sortedIds := hgroups ▸ flatten_chunks hgroup le_rfl
  have hpair := List.pairwise_flatten.mp (hflat.symm ▸ hsorted)
  have hltg : ∀ g ∈ groups, ∀ id ∈ g, id < 2 ^ 32 := fun g hg id hid =>
    hlt id (hflat ▸ List.mem_flatten.mpr ⟨g, hg, hid⟩)
  -- what one group finds
  have hone : ∀ g ∈ groups, ((l1Buckets.mapM fun b =>
      (t.buckets b).forEachL1EntryInPrefixes c g).map fun runs => mergeL1Runs runs.flatten) =
      .ok (mergeL1Runs (l1Buckets.flatMap fun b => ((entriesOf c (t.buckets b).sstableFile).filter
        fun e => inPrefixes g e.key).map scanEntry)) := by
    intro g hg
    have hscan : ∀ b ∈ l1Buckets, (t.buckets b).forEachL1EntryInPrefixes c g =
        .ok (((entriesOf c (t.buckets b).sstableFile).filter
          fun e => inPrefixes g e.key).map scanEntry) := by
      intro b _
      exact scanIds_spec (h.bucket b).level1.sound (hpair.1 g hg) (hltg g hg) _
        (h.bucket b).hintFor_level1 []
    rw [mapM_ok hscan, flatMap_def]
    rfl
  have hcopy : ∀ g ∈ groups, ∀ k, mapCopy (mergeL1Runs (l1Buckets.flatMap fun b =>
      ((entriesOf c (t.buckets b).sstableFile).filter fun e => inPrefixes g e.key).map
        scanEntry)) k =
      if inPrefixes g k = true ∧ t.bucketOf c k ∈ l1Buckets then
        (t.buckets (t.bucketOf c k)).level1Copy c k else none := by
    intro g hg k
    have hother : ∀ d ∈ l1Buckets, d ≠ t.bucketOf c k → ∀ e ∈
        ((entriesOf c (t.buckets d).sstableFile).filter fun e => inPrefixes g e.key).map
          scanEntry, e.1 ≠ k := by
      intro d _ hd e he hek
      obtain ⟨x, hx, rfl⟩ := mem_map.mp he
      have hek : x.key = k := hek
      exact hd (hek ▸ (h.bucket d).placed x (List.mem_filter.mp hx).1).symm
    rw [(mergeL1Runs_spec _).2, scanCopy_flatMap hbuckets hother,
      scanCopy_entries (h.bucket _).level1.sound.sorted.ascending (q := inPrefixes g)
        fun _ _ => rfl]
    by_cases hin : t.bucketOf c k ∈ l1Buckets
    · simp [hin, Bucket.level1Copy]
    · simp [hin]
  have hin : ∀ k, inPrefixes sortedIds k = true ↔ ∃ g ∈ groups, inPrefixes g k = true := by
    intro k
    simp only [inPrefixes, any_eq_true, decide_eq_true_eq, ← hflat, List.mem_flatten]
    constructor
    · rintro ⟨id, hid, g, hg, hmem⟩
      exact ⟨g, hg, id, hid, hmem⟩
    · rintro ⟨g, hg, id, hid, hmem⟩
      exact ⟨id, hid, g, hg, hmem⟩
  rw [mapM_ok hone]
  have hids : ∀ g ∈ groups, ∀ e ∈ mergeL1Runs (l1Buckets.flatMap fun b =>
      ((entriesOf c (t.buckets b).sstableFile).filter fun e => inPrefixes g e.key).map
        scanEntry), ∃ id ∈ g, prefixId e.1 = some id := by
    intro g hg e he
    have hsome := (mapCopy_eq_some (mergeL1Runs_spec _).1).mpr he
    rw [hcopy g hg] at hsome
    split_ifs at hsome with hcond
    obtain ⟨id, hid, hmem⟩ := (any_eq_true ..).mp hcond.1
    exact ⟨id, of_decide_eq_true hmem, hid⟩
  have hasc : Ascending Prod.fst (groups.map fun g => mergeL1Runs (l1Buckets.flatMap fun b =>
      ((entriesOf c (t.buckets b).sstableFile).filter fun e => inPrefixes g e.key).map
        scanEntry)).flatten := by
    refine List.pairwise_flatten.mpr ⟨?_, List.pairwise_map.mpr ?_⟩
    · intro l hl
      obtain ⟨g, -, rfl⟩ := mem_map.mp hl
      exact (mergeL1Runs_spec _).1
    · refine hpair.2.imp_of_mem fun {g g'} hg hg' hlt x hx y hy => ?_
      obtain ⟨i, hi, hix⟩ := hids g hg x hx
      obtain ⟨j, hj, hjy⟩ := hids g' hg' y hy
      refine not_le.mp fun hle => ?_
      exact absurd (prefixId_le hle hjy hix) (not_le.mpr (hlt i hi j hj))
  refine ⟨_, rfl, hasc, fun k => Option.ext fun x => ?_⟩
  rw [mapCopy_eq_some hasc]
  simp only [List.mem_flatten, mem_map]
  constructor
  · rintro ⟨l, ⟨g, hg, rfl⟩, hmem⟩
    have hx := (mapCopy_eq_some (mergeL1Runs_spec _).1).mpr hmem
    rw [hcopy g hg] at hx
    split_ifs at hx with hcond
    rw [if_pos ⟨(hin k).mpr ⟨g, hg, hcond.1⟩, hcond.2⟩, hx]
  · intro hx
    split_ifs at hx with hcond
    obtain ⟨g, hg, hgk⟩ := (hin k).mp hcond.1
    refine ⟨_, ⟨g, hg, rfl⟩, (mapCopy_eq_some (mergeL1Runs_spec _).1).mp ?_⟩
    rw [hcopy g hg, if_pos ⟨hgk, hcond.2⟩, hx]

/-- The active records with one of the ids. -/
private theorem scanCopy_active (sl : SkipList) (prefixIds : PrefixIds) (k : Key) :
    scanCopy ((prefixIds.ids.flatMap fun id => (sl.iterRawFrom (beBytes 4 id)).takeWhile
      fun r => prefixId r.key == some id).map KeyValueRecord.scanEntry) k =
      if inPrefixes prefixIds.ids k then sl.copy k else none := by
  have hone : ∀ id ∈ prefixIds.ids, ((sl.iterRawFrom (beBytes 4 id)).takeWhile
      fun r => prefixId r.key == some id) =
      sl.records.filter fun r => (beBytes 4 id).isPrefixOf r.key := by
    intro id hid
    have htest : (fun r : KeyValueRecord => prefixId r.key == some id) =
        fun r => (beBytes 4 id).isPrefixOf r.key := by
      funext r
      rw [Bool.eq_iff_iff, beq_iff_eq, List.isPrefixOf_iff_prefix,
        prefixId_eq_some (prefixIds.lt id hid)]
    rw [htest, sl.takeWhile_iterRawFrom]
  have hmap : (prefixIds.ids.flatMap fun id => (sl.iterRawFrom (beBytes 4 id)).takeWhile
      fun r => prefixId r.key == some id).map KeyValueRecord.scanEntry =
      prefixIds.ids.flatMap fun id => (sl.records.filter fun r =>
        (beBytes 4 id).isPrefixOf r.key).map KeyValueRecord.scanEntry := by
    rw [List.map_flatMap, flatMap_def, flatMap_def]
    exact congrArg List.flatten (List.map_congr_left fun id hid => by rw [hone id hid])
  have hid : ∀ id ∈ prefixIds.ids, ∀ e ∈ (sl.records.filter fun r =>
      (beBytes 4 id).isPrefixOf r.key).map KeyValueRecord.scanEntry, prefixId e.1 = some id := by
    intro id hid e he
    obtain ⟨r, hr, rfl⟩ := mem_map.mp he
    exact (prefixId_eq_some (prefixIds.lt id hid)).mpr
      (List.isPrefixOf_iff_prefix.mp (List.mem_filter.mp hr).2)
  rw [hmap, inPrefixes]
  rcases hk : prefixId k with _ | j
  · refine scanCopy_eq_none fun e he hek => ?_
    obtain ⟨id, hmem, he⟩ := List.mem_flatMap.mp he
    have hsome := hid id hmem e he
    rw [hek, hk] at hsome
    cases hsome
  · have hother : ∀ d ∈ prefixIds.ids, d ≠ j → ∀ e ∈ (sl.records.filter fun r =>
        (beBytes 4 d).isPrefixOf r.key).map KeyValueRecord.scanEntry, e.1 ≠ k := by
      intro d hd hdj e he hek
      have hsome := hid d hd e he
      rw [hek, hk] at hsome
      exact hdj (Option.some.inj hsome).symm
    have hpre : (beBytes 4 j).isPrefixOf k = true :=
      List.isPrefixOf_iff_prefix.mpr ((prefixId_eq_some (prefixId_lt hk)).mp hk)
    rw [scanCopy_flatMap prefixIds.nodup hother, sl.scanCopy_filter, if_pos hpre]
    simp

/-- What the captured Level-0 files of all buckets hold of the ids. -/
private theorem scanCopy_l0Buckets (h : t.Sound c) (ids : List ℕ) (k : Key) :
    scanCopy (((List.range t.config.numBuckets).filter fun b =>
      !(t.buckets b).captureL0.isEmpty).flatMap fun b => (t.buckets b).captureL0.flatMap fun f =>
        ((entriesOf c f.file).filter fun e => inPrefixes ids e.key).map
          scanEntry) k =
      if inPrefixes ids k then
        resolve ((t.buckets (t.bucketOf c k)).liveFiles.map (·.copy c k)) else none := by
  have hother : ∀ d ∈ (List.range t.config.numBuckets).filter (fun b =>
      !(t.buckets b).captureL0.isEmpty), d ≠ t.bucketOf c k → ∀ e ∈
      (t.buckets d).captureL0.flatMap (fun f => ((entriesOf c f.file).filter fun e =>
        inPrefixes ids e.key).map scanEntry), e.1 ≠ k := by
    intro d _ hd e he hek
    obtain ⟨f, hf, he⟩ := List.mem_flatMap.mp he
    obtain ⟨x, hx, rfl⟩ := mem_map.mp he
    have hek : x.key = k := hek
    exact hd (hek ▸ ((h.bucket d).captureL0 f hf).placed x (List.mem_filter.mp hx).1).symm
  rw [scanCopy_flatMap (List.nodup_range.filter _) hother,
    (h.bucket (t.bucketOf c k)).scanCopy_captureL0 (q := inPrefixes ids) (fun _ _ => rfl) k]
  have hb : t.bucketOf c k < t.config.numBuckets := getBucketForKey_lt c k t.config.numBuckets_pos
  by_cases hin : (t.buckets (t.bucketOf c k)).captureL0 = []
  · -- a bucket without captured files has none that count
    have hfiles : (t.buckets (t.bucketOf c k)).liveFiles = [] := by
      rw [← (h.bucket _).reverse_captureL0, hin, List.reverse_nil]
    simp [hin, hfiles]
  · simp [hb, hin]

/-- **Many ids.** The rows are in key order, and a key is among them exactly when its id is
asked for and it has a live winner. -/
theorem scanPrefixes_spec (h : t.Sound c) (prefixIds : PrefixIds) :
    ∃ rows, t.scanPrefixes c prefixIds = .ok rows ∧ Ascending Prod.fst rows ∧
      ∀ k ptr, (k, ptr) ∈ rows ↔ inPrefixes prefixIds.ids k = true ∧
        ∃ seq, live (t.winner c k) = some (ptr, seq) := by
  have hperm := List.perm_insertionSort (· ≤ ·) prefixIds.ids
  have hle : (prefixIds.ids.insertionSort (· ≤ ·)).Pairwise (· ≤ ·) :=
    List.pairwise_insertionSort _ _
  have hsorted : (prefixIds.ids.insertionSort (· ≤ ·)).Pairwise (· < ·) :=
    (hle.and (hperm.nodup_iff.mpr prefixIds.nodup)).imp fun ⟨hle, hne⟩ => lt_of_le_of_ne hle hne
  rw [scanPrefixes]
  generalize prefixIds.ids.insertionSort (· ≤ ·) = sortedIds at hperm hle hsorted ⊢
  have hlt : ∀ id ∈ sortedIds, id < 2 ^ 32 := fun id hid => prefixIds.lt id (hperm.subset hid)
  have hsame : ∀ k, inPrefixes sortedIds k = inPrefixes prefixIds.ids k := by
    intro k
    simp only [inPrefixes, hperm.mem_iff]
  rcases sortedIds with _ | ⟨first, rest⟩
  · refine ⟨[], rfl, ascending_nil, fun k ptr => ?_⟩
    rw [← hsame]
    simp [inPrefixes]
  simp only
  have hlastle : ∀ id ∈ first :: rest,
      id ≤ (first :: rest).getLast (cons_ne_nil first rest) :=
    fun id hid => hle.rel_getLast hid
  generalize (first :: rest).getLast (cons_ne_nil first rest) = last at hlastle
  have hfirst : ∀ id ∈ first :: rest, first ≤ id := by
    intro id hid
    rcases mem_cons.mp hid with rfl | hid
    · exact le_rfl
    · exact (pairwise_cons.mp hle).1 id hid
  have hspan : ∀ k, inPrefixes (first :: rest) k = true → inRange (beBytes 4 first)
      (if last + 1 < 2 ^ 32 then some (beBytes 4 (last + 1)) else none) k = true :=
    fun k hk => inRange_span hfirst hlastle hk
  have hne : first :: rest ≠ [] := cons_ne_nil first rest
  generalize (if last + 1 < 2 ^ 32 then some (beBytes 4 (last + 1)) else none) = spanEnd at hspan ⊢
  generalize beBytes 4 first = spanStart at hspan ⊢
  generalize first :: rest = sortedIds at hperm hsorted hlt hsame hne hspan ⊢
  obtain ⟨l1, hl1, hasc1, hcopy1⟩ := scanL1InPrefixes_spec h
    ((List.range t.config.numBuckets).filter fun b => (t.buckets b).l1Overlaps spanStart spanEnd)
    (List.nodup_range.filter _) hne hsorted hlt
  have hscan0 : ∀ b ∈ (List.range t.config.numBuckets).filter (fun b =>
      !(t.buckets b).captureL0.isEmpty), scanL0InPrefixes c spanStart spanEnd sortedIds
      (t.buckets b).captureL0 [] = .ok ((t.buckets b).captureL0.flatMap fun f =>
        ((entriesOf c f.file).filter fun e => inPrefixes sortedIds e.key).map
          scanEntry) := fun b _ =>
    scanL0InPrefixes_spec hsorted hlt hspan (h.bucket b).captureL0 []
  simp only [hl1, mapM_ok hscan0, Except.map]
  rw [← flatMap_def]
  obtain ⟨hasc0, hcopy0⟩ := foldl_foldNewest (m := []) ascending_nil
    (((List.range t.config.numBuckets).filter fun b =>
      !(t.buckets b).captureL0.isEmpty).flatMap fun b => (t.buckets b).captureL0.flatMap fun f =>
        ((entriesOf c f.file).filter fun e => inPrefixes sortedIds e.key).map
          scanEntry)
  obtain ⟨hascm, hcopym⟩ := foldMemtables_spec t.readOnlyMemtables
    (scanCopy_active t.memtable prefixIds) hasc0
  obtain ⟨hrows, hmem⟩ := resolveScanLayers_spec hasc1 hascm
  refine ⟨_, rfl, hrows, fun k ptr => ?_⟩
  have hnil : mapCopy [] k = none := rfl
  rw [hmem, hcopym, hcopy0, scanCopy_l0Buckets h, hcopy1, hsame, hnil, newer_none,
    winner_eq_fold c t k]
  by_cases hk : inPrefixes prefixIds.ids k = true
  · -- a bucket whose Level 1 is not read holds nothing of the span
    have hlevel1 : (if inPrefixes prefixIds.ids k = true ∧ t.bucketOf c k ∈
        (List.range t.config.numBuckets).filter (fun b =>
          (t.buckets b).l1Overlaps spanStart spanEnd) then
        (t.buckets (t.bucketOf c k)).level1Copy c k else none) =
        (t.buckets (t.bucketOf c k)).level1Copy c k := by
      split_ifs with hread
      · rfl
      have hb : t.bucketOf c k < t.config.numBuckets :=
        getBucketForKey_lt c k t.config.numBuckets_pos
      have hover : (t.buckets (t.bucketOf c k)).l1Overlaps spanStart spanEnd = false := by
        simpa [hk, hb] using hread
      exact ((h.bucket _).level1Copy_eq_none hover (hspan k ((hsame k).trans hk))).symm
    have hlayers : newer (newer (t.memtable.copy k)
        (newer (resolve (t.readOnlyMemtables.reverse.map (·.copy k)))
          (resolve ((t.buckets (t.bucketOf c k)).liveFiles.map (·.copy c k)))))
        ((t.buckets (t.bucketOf c k)).level1Copy c k) =
        newer (t.memtable.copy k) (newer (resolve (t.readOnlyMemtables.reverse.map (·.copy k)))
          (resolve ((t.buckets (t.bucketOf c k)).layers c k))) := by
      simp [Bucket.layers, resolve_append, newer_assoc]
    rw [hlevel1, if_pos hk, if_pos hk, hlayers]
    simp only [hk, true_and, live_eq_some]
  · simp [hk]

/-! ### All scans against point reads -/

/-- One step keeps Level 1 free of tombstones. -/
theorem Level1Live.apply (h : t.Sound c) (hl1 : t.Level1Live c) (op : Op) :
    (t.apply c op).1.Level1Live c := by
  have hsame : ∀ u : LSMTree, (∀ b, (u.buckets b).sstableFile = (t.buckets b).sstableFile) →
      u.Level1Live c := by
    intro u hu b e he
    rw [hu] at he
    exact hl1 b e he
  have hdue : t.flushIfDue.buckets = t.buckets := by
    rw [flushIfDue]
    split_ifs <;> rfl
  cases op with
  | insertWithSeq key value seq => exact hsame _ fun b => congrArg (fun f => (f b).sstableFile) hdue
  | deleteWithSeq key seq => exact hsame _ fun b => congrArg (fun f => (f b).sstableFile) hdue
  | flushMemtable => exact hsame _ fun b => rfl
  | flushRoMemtableToLevel0 version env =>
    obtain heq | ⟨stamp, hstamp, heq | ⟨ro, written, -, -, hw, heq⟩⟩ :=
      t.flushRoMemtableToLevel0_cases c version env
    · exact hsame _ fun b => by rw [LSMTree.apply, heq]
    · exact hsame _ fun b => by rw [LSMTree.apply, heq]
    · refine hsame _ fun b => ?_
      rw [LSMTree.apply, heq]
      change ((t.registerLevel0Files written).buckets b).sstableFile = _
      rcases registerLevel0Files_spec h ro.ascending hstamp hw b with ⟨hkeep, -⟩ |
        ⟨f, -, -, -, -, hnew⟩
      · rw [hkeep]
      · rw [hnew]
  | mergeLevel0ToLevel1 bucket =>
    intro b e he
    change e ∈ entriesOf c (Function.update t.buckets bucket _ b).sstableFile at he
    by_cases hb : b = bucket
    · subst hb
      rw [Function.update_self] at he
      obtain hkeep | ⟨m, -, hprep, hpub⟩ := Bucket.mergeSnapshot_cases (h.bucket b)
        (t.buckets b).level0EntriesSnapshot
      · rw [hkeep] at he
        exact hl1 b e he
      · rw [hpub] at he
        exact hprep.live e he
    · rw [Function.update_of_ne hb] at he
      exact hl1 b e he
  | cleanupObsoleteLevel0Files => exact hsame _ fun b => rfl
  | deferOldMemtablesCleanup => exact hsame _ fun b => rfl
  | pinLevel0File bucket stamp readers =>
    refine hsame _ fun b => ?_
    change (Function.update t.buckets bucket _ b).sstableFile = _
    by_cases hb : b = bucket
    · subst hb
      rw [Function.update_self]
    · rw [Function.update_of_ne hb]
  | pinMemtable version readers => exact hsame _ fun b => rfl

/-- So in every run that starts empty Level 1 holds no tombstone. -/
theorem level1Live_run (c : Crates) (config : LSMConfig) (ops : List Op) :
    ((empty c config).run c ops).Level1Live c := by
  have hrun : ∀ (ops : List Op) {t : LSMTree}, t.Sound c → t.Level1Live c →
      (t.run c ops).Level1Live c := by
    intro ops
    induction ops with
    | nil => exact fun _ hl1 => hl1
    | cons op ops ih => exact fun h hl1 => ih (h.apply op) (hl1.apply h op)
  refine hrun ops (sound_empty c config) fun b e he => ?_
  change e ∈ entriesOf c [] at he
  rw [entriesOf_nil] at he
  cases he

/-- **Scans agree with point reads.** Every prefix, every set of ids and every choice of
buckets: the rows are in strictly ascending key order, and a key is among them exactly when it
is in range and the point lookup finds it, with the pointer that finds. For the scan of whole
buckets no tombstone may be in Level 1, where no merge puts one. -/
theorem scans_eq_pointReads (h : t.Sound c) :
    (∀ pre : Bytes, ∃ rows, t.scanPrefix c pre = .ok rows ∧ Ascending Prod.fst rows ∧
      ∀ k ptr seq, (k, ptr, seq) ∈ rows ↔
        pre <+: k ∧ t.getWithSeq c k = .ok (some (ptr, seq))) ∧
    (∀ prefixIds : PrefixIds, ∃ rows, t.scanPrefixes c prefixIds = .ok rows ∧
      Ascending Prod.fst rows ∧ ∀ k ptr, (k, ptr) ∈ rows ↔
        (4 ≤ k.length ∧ beNat (k.take 4) ∈ prefixIds.ids) ∧
          ∃ seq, t.getWithSeq c k = .ok (some (ptr, seq))) ∧
    (t.Level1Live c → ∀ qualifying : ℕ → Bool, ∃ rows, t.keyPointerPairs c qualifying = .ok rows ∧
      Ascending Prod.fst rows ∧ ∀ k ptr, (k, ptr) ∈ rows ↔
        qualifying (t.bucketOf c k) = true ∧ ∃ seq, t.getWithSeq c k = .ok (some (ptr, seq))) := by
  have hget : ∀ k x, t.getWithSeq c k = .ok (some x) ↔ live (t.winner c k) = some x := by
    intro k x
    rw [getWithSeq_eq h, Except.ok.injEq]
  refine ⟨fun pre => ?_, fun prefixIds => ?_, fun hl1 qualifying => ?_⟩
  · obtain ⟨rows, hrows, hasc, hmem⟩ := scanPrefix_spec h pre
    exact ⟨rows, hrows, hasc, fun k ptr seq => by rw [hmem, hget]⟩
  · obtain ⟨rows, hrows, hasc, hmem⟩ := scanPrefixes_spec h prefixIds
    refine ⟨rows, hrows, hasc, fun k ptr => ?_⟩
    have hin : inPrefixes prefixIds.ids k = true ↔
        4 ≤ k.length ∧ beNat (k.take 4) ∈ prefixIds.ids := by
      rw [inPrefixes, prefixId]
      by_cases hlen : k.length < 4
      · simp [hlen]
      · simp [hlen, not_lt.mp hlen]
    simp only [hmem, hin, hget]
  · obtain ⟨rows, hrows, hasc, hmem⟩ := keyPointerPairs_spec h hl1 qualifying
    refine ⟨rows, hrows, hasc, fun k ptr => ?_⟩
    simp only [hmem, hget]

end LSMTree

/-- The three scans of a tree that a run leads to, one key deleted and written again below. -/
theorem scans_eq_pointReads_tombstoneBelow :
    tombstoneBelow.Sound .real ∧ tombstoneBelow.Level1Live .real ∧
      ∃ rows, tombstoneBelow.keyPointerPairs .real (fun _ => true) = .ok rows ∧
        Ascending Prod.fst rows ∧ ∀ k ptr, (k, ptr) ∈ rows ↔ true = true ∧
          ∃ seq, tombstoneBelow.getWithSeq .real k = .ok (some (ptr, seq)) := by
  have hsound : tombstoneBelow.Sound .real := (LSMTree.sound_empty _ _).run _
  have hlive : tombstoneBelow.Level1Live .real := LSMTree.level1Live_run _ _ _
  exact ⟨hsound, hlive, (LSMTree.scans_eq_pointReads hsound).2.2 hlive fun _ => true⟩

/-! ### A tombstone in Level 1 -/

/-- A tombstone of sequence 10 as a file entry. -/
def level1Tombstone : SStableEntry where
  keyPrefix := keyPrefixOf [0x6b]
  value := 0
  key := [0x6b]
  tombstone := true
  seq := 10

/-- A bucket with a Level-1 file that holds it. -/
def bucketWithTombstone : Bucket :=
  match writeMergedSstable .real [level1Tombstone] with
  | .ok m => (Bucket.empty .real).publish m []
  | .error _ => .empty .real

/-- The tree of `tombstoneBelow` with the tombstone in Level 1 instead of Level 0. -/
def tombstoneInLevel1 : LSMTree := tombstoneBelow.setBucket 0 bucketWithTombstone

theorem sound_tombstoneInLevel1 : tombstoneInLevel1.Sound .real := by
  have hbelow : tombstoneBelow.Sound .real := (LSMTree.sound_empty _ _).run _
  have hnum : tombstoneBelow.config.numBuckets = 1 := by decide +kernel
  have hseq : tombstoneBelow.maxLowerSeq = 10 := by decide +kernel
  have hsorted : SortedEntries [level1Tombstone] :=
    ⟨List.pairwise_singleton _ _, by simp [level1Tombstone]⟩
  rw [tombstoneInLevel1, bucketWithTombstone]
  split
  case h_1 m hm =>
    obtain ⟨hlevel1, hentries⟩ := writeMergedSstable_spec hsorted hm
    have hnone : ((Bucket.empty .real).publish m []).level0Files = [] := rfl
    refine hbelow.setBucket ⟨by simp [hnone], by simp [hnone], hlevel1, fun e _ => ?_⟩
      (by simp [hnone]) ⟨by simp [hnone], fun e he => ?_⟩
    · rw [hnum]
      exact Nat.lt_one_iff.mp (getBucketForKey_lt .real e.key one_pos)
    · change e ∈ entriesOf .real m.file at he
      rw [hentries, List.mem_singleton] at he
      rw [he, hseq]
      exact le_rfl
  case h_2 =>
    refine hbelow.setBucket (Bucket.sound_empty _ _ _) (by simp [Bucket.empty]) ⟨?_, ?_⟩
    · simp [Bucket.empty]
    · simp [Bucket.empty]

/-- The point lookup finds the key deleted, the scan of whole buckets returns it: it leaves
tombstones in Level 1 out before it compares sequences. -/
theorem keyPointerPairs_level1Tombstone :
    tombstoneInLevel1.Sound .real ∧ tombstoneInLevel1.getWithSeq .real [0x6b] = .ok none ∧
      tombstoneInLevel1.keyPointerPairs .real (fun _ => true) = .ok [([0x6b], 7)] :=
  ⟨sound_tombstoneInLevel1, by decide +kernel, by decide +kernel⟩

end Minnal
