import Minnal.Library.LinkedTiers
import Minnal.Lsm.Memtable

/-!
# The arenas of the skip list

The skip list keeps its nodes, their links and their keys in three **arenas**. A node owns a
tower: a run of the links arena, one link for each level below its height, the sentinel `head` a
tower of full height. A search goes down the levels, at each as far to the right as the nodes
ahead are below the key, and remembers the node it came down from; a new node is linked in behind
these. Keys are compared by their first 8 bytes, zero-padded, and by all bytes where these are
equal.

The heights are drawn at random. Here they are a **stream**, as yet undrawn, and nothing is
assumed of it: the results hold whatever the heights are.
-/

set_option linter.dupNamespace false

namespace Minnal

open ByteCodec SortedMap LinkedTiers
open List (getD_eq_getElem?_getD takeWhile_append_dropWhile mem_map mem_cons map_congr_left)

/-- The index that names no node. -/
def noneValue : ℕ := u32Max

/-- A cast to `u32`. -/
def asU32 (n : ℕ) : ℕ := n % 2 ^ 32

/-- A node: where its key and its links are, and what it holds. -/
structure SkipNode where
  keyIndexOffset : ℕ
  keyLength : ℕ
  keyPrefix : ℕ
  value : ℕ
  tombstone : Bool
  sequence : ℕ
  height : ℕ
  linksIndexOffset : ℕ
  deriving DecidableEq, Repr, Inhabited

/-- Where a node's key and tower are. -/
def SkipNode.shape (n : SkipNode) : ℕ × ℕ × ℕ × ℕ × ℕ :=
  (n.keyIndexOffset, n.keyLength, n.keyPrefix, n.height, n.linksIndexOffset)

/-- The skip list in its arenas. -/
structure SkipArena where
  nodes : List SkipNode
  links : List ℕ
  keys : Bytes
  head : ℕ
  level : ℕ
  noLiveNodes : ℕ
  noTombstoneNodes : ℕ
  /-- The heights to be drawn, each less one. -/
  rng : ℕ → Fin maxLevel
  maxCapacity : ℕ

/-- The order of two keys; every kernel compares byte by byte. -/
def compareBytesSimd (a b : Bytes) : Ordering :=
  if a < b then .lt else if a = b then .eq else .gt

namespace SkipArena

/-- An empty list: the sentinel, with a full tower of links to nothing. -/
def withCapacity (maxCapacity : ℕ) (rng : ℕ → Fin maxLevel) : SkipArena where
  nodes := [⟨0, 0, 0, 0, true, 0, maxLevel, 0⟩]
  links := List.replicate maxLevel noneValue
  keys := []
  head := 0
  level := 1
  noLiveNodes := 0
  noTombstoneNodes := 0
  rng := rng
  maxCapacity := maxCapacity

variable (s : SkipArena)

def node (i : ℕ) : SkipNode := s.nodes.getD i default

def keySlice (i : ℕ) : Bytes := readAt s.keys (s.node i).keyIndexOffset (s.node i).keyLength

def next (i lvl : ℕ) : ℕ :=
  if (s.node i).height ≤ lvl then noneValue
  else s.links.getD ((s.node i).linksIndexOffset + lvl) noneValue

def setNext (i lvl val : ℕ) : SkipArena :=
  { s with links := s.links.set ((s.node i).linksIndexOffset + lvl) val }

def keyCmpNodeTarget (i : ℕ) (target : Key) (targetPrefix : ℕ) : Ordering :=
  if (s.node i).keyPrefix < targetPrefix then .lt
  else if targetPrefix < (s.node i).keyPrefix then .gt
  else compareBytesSimd (s.keySlice i) target

/-- Whether the node's key is below the target. -/
def below (target : Key) (i : ℕ) : Bool :=
  s.keyCmpNodeTarget i target (keyPrefixOf target) == .lt

/-- Go down `lvl` levels from `x`, at each as far to the right as the keys are below `key`. -/
def walkDown (key : Key) : ℕ → ℕ → (ℕ → ℕ) → ℕ × (ℕ → ℕ)
  | 0, x, update => (x, update)
  | lvl + 1, x, update =>
    let x := walkRight (fun i => s.next i lvl) noneValue (s.below key) s.nodes.length x
    walkDown key lvl x (Function.update update lvl x)

/-- The node of a key, and at each level the last node whose key is below it. -/
def findPath (key : Key) : Option ℕ × (ℕ → ℕ) :=
  let (x, update) := s.walkDown key s.level s.head fun _ => s.head
  let candidate := s.next x 0
  (if candidate ≠ noneValue ∧ s.keySlice candidate = key then some candidate else none, update)

/-- The entry of a key, tombstones included. -/
def entry (key : Key) : Option (ℕ × ℕ × Bool) :=
  (s.findPath key).1.map fun i => ((s.node i).value, (s.node i).sequence, (s.node i).tombstone)

/-- The first node whose key is at least the target. -/
def lowerBound (target : Key) : ℕ := s.next ((s.findPath target).2 0) 0

/-- The entries from a key on, tombstones included. -/
def iterRawFrom (start : Key) : List (Key × ℕ × ℕ × Bool) :=
  (follow (fun i => s.next i 0) noneValue s.nodes.length (s.lowerBound start)).map fun i =>
    (s.keySlice i, (s.node i).value, (s.node i).sequence, (s.node i).tombstone)

/-- The record a node holds. -/
def record (i : ℕ) : KeyValueRecord :=
  ⟨s.keySlice i, (s.node i).value, (s.node i).tombstone, (s.node i).sequence⟩

/-- All records, in key order, but those of an empty key. -/
def collectKeyValueRecords : List KeyValueRecord :=
  ((follow (fun i => s.next i 0) noneValue s.nodes.length (s.next s.head 0)).filter
    fun i => (s.node i).keyLength ≠ 0).map s.record

/-! ### Writes -/

/-- Append a node with its key and its tower, linked to nothing; `none` when an arena is full,
after the links may have grown. -/
def allocateNode (key : Key) (value : ℕ) (tombstone : Bool) (seq height : ℕ) :
    SkipArena × Option ℕ :=
  let linksBase := s.links.length
  if u32Max ≤ linksBase + height then (s, none)
  else
    let keyBase := s.keys.length
    let s := { s with links := s.links ++ List.replicate height noneValue }
    if u32Max ≤ keyBase + key.length then (s, none)
    else
      ({ s with
        keys := s.keys ++ key
        nodes := s.nodes ++ [⟨asU32 keyBase, asU32 key.length, keyPrefixOf key, value, tombstone,
          seq, height, asU32 linksBase⟩] }, some (asU32 s.nodes.length))

/-- Link a node in at one level, behind its predecessor there. -/
def linkAt (new : ℕ) (update : ℕ → ℕ) (s : SkipArena) (lvl : ℕ) : SkipArena :=
  let next := s.next (update lvl) lvl
  (s.setNext new lvl next).setNext (update lvl) lvl new

/-- Allocate a node with a freshly drawn height and link it in at every level it owns. -/
def spliceNewNode (key : Key) (value : ℕ) (tombstone : Bool) (seq : ℕ) (update : ℕ → ℕ) :
    SkipArena × Except InsertError Unit :=
  let nodeLevel := (s.rng 0 : ℕ) + 1
  let s := { s with rng := fun i => s.rng (i + 1) }
  let update := fun lvl => if s.level ≤ lvl ∧ lvl < nodeLevel then s.head else update lvl
  match s.allocateNode key value tombstone seq nodeLevel with
  | (s, none) => (s, .error .capacityExceeded)
  | (s, some new) =>
    let s := (List.range nodeLevel).foldl (linkAt new update) s
    ({ s with level := if s.level < nodeLevel then nodeLevel else s.level }, .ok ())

/-- Change a node in place. -/
def modifyNode (i : ℕ) (f : SkipNode → SkipNode) : SkipArena :=
  { s with nodes := s.nodes.set i (f (s.node i)) }

/-- Insert or update with an explicit sequence; a stale write is dropped. -/
def tryInsertWithSeq (key : Key) (value seq : ℕ) : SkipArena × Except InsertError (Option ℕ) :=
  match s.findPath key with
  | (some i, _) =>
    let old := s.node i
    if seqNewerOrEq seq old.sequence = false then (s, .ok none)
    else
      let s := s.modifyNode i fun n =>
        { n with value := value, tombstone := false, sequence := seq }
      if old.tombstone then
        ({ s with
          noTombstoneNodes := s.noTombstoneNodes - 1
          noLiveNodes := s.noLiveNodes + 1 }, .ok none)
      else (s, .ok (some old.value))
  | (none, update) =>
    match s.spliceNewNode key value false seq update with
    | (s, .error err) => (s, .error err)
    | (s, .ok ()) => ({ s with noLiveNodes := s.noLiveNodes + 1 }, .ok none)

/-- Record a tombstone with an explicit sequence; a stale delete is dropped. -/
def insertTombstoneWithSeq (key : Key) (seq : ℕ) : SkipArena × Except InsertError Unit :=
  match s.findPath key with
  | (some i, _) =>
    let old := s.node i
    if seqNewerOrEq seq old.sequence = false then (s, .ok ())
    else
      let s := s.modifyNode i fun n => { n with tombstone := true, sequence := seq }
      if old.tombstone then (s, .ok ())
      else
        ({ s with
          noLiveNodes := s.noLiveNodes - 1
          noTombstoneNodes := s.noTombstoneNodes + 1 }, .ok ())
  | (none, update) =>
    match s.spliceNewNode key 0 true seq update with
    | (s, .error err) => (s, .error err)
    | (s, .ok ()) => ({ s with noTombstoneNodes := s.noTombstoneNodes + 1 }, .ok ())

/-! ### Layout of the arenas -/

/-- The towers do not overlap, towers and keys lie in their arenas, and an index or an offset fits
a `u32` and is not the one that names nothing. -/
structure Layout : Prop where
  ranges : ∀ i j, i < j → j < s.nodes.length →
    (s.node i).linksIndexOffset + (s.node i).height ≤ (s.node j).linksIndexOffset
  inLinks : ∀ i < s.nodes.length, (s.node i).linksIndexOffset + (s.node i).height ≤ s.links.length
  inKeys : ∀ i < s.nodes.length, (s.node i).keyIndexOffset + (s.node i).keyLength ≤ s.keys.length
  sentinel : (s.node 0).height = maxLevel
  head : s.head = 0
  nodes_pos : 0 < s.nodes.length
  nodes_lt : s.nodes.length + maxLevel ≤ s.links.length + 1
  links_lt : s.links.length < u32Max
  keys_lt : s.keys.length < u32Max

variable {s}

theorem layout_withCapacity (maxCapacity : ℕ) (rng : ℕ → Fin maxLevel) :
    (withCapacity maxCapacity rng).Layout := by
  refine ⟨fun i j hij hj => ?_, ?_, ?_, rfl, rfl, ?_, ?_, ?_, ?_⟩
  · have hj' : j < 1 := hj
    omega
  all_goals simp [withCapacity, node, maxLevel, u32Max]

variable {i : ℕ}

theorem node_of_le (hi : s.nodes.length ≤ i) : s.node i = default :=
  List.getD_eq_default _ _ hi

theorem next_of_le (hi : s.nodes.length ≤ i) (lvl : ℕ) : s.next i lvl = noneValue := by
  rw [next, node_of_le hi]
  exact if_pos (Nat.zero_le lvl)

theorem Layout.lt_noneValue (h : s.Layout) (hi : i ≤ s.nodes.length) : i < noneValue := by
  have hnodes := h.nodes_lt
  have hlinks := h.links_lt
  rw [noneValue]
  rw [maxLevel] at hnodes
  omega

variable {l m : ℕ}

/-- Two places of towers are one only if node and level are. -/
theorem Layout.place_inj (h : s.Layout) {j : ℕ} (hi : i < s.nodes.length) (hj : j < s.nodes.length)
    (hl : l < (s.node i).height) (hm : m < (s.node j).height)
    (heq : (s.node i).linksIndexOffset + l = (s.node j).linksIndexOffset + m) : i = j ∧ l = m := by
  obtain hlt | rfl | hgt := lt_trichotomy i j
  · have := h.ranges i j hlt hj
    omega
  · exact ⟨rfl, by omega⟩
  · have := h.ranges j i hgt hi
    omega

/-- Setting a link changes this link. -/
theorem Layout.next_setNext (h : s.Layout) (hi : i < s.nodes.length) (hl : l < (s.node i).height)
    (val j m : ℕ) : (s.setNext i l val).next j m = if j = i ∧ m = l then val else s.next j m := by
  have hnode : (s.setNext i l val).node j = s.node j := rfl
  rw [next, next, hnode]
  by_cases hm : (s.node j).height ≤ m
  · have hne : ¬ (j = i ∧ m = l) := by
      rintro ⟨rfl, rfl⟩
      omega
    rw [if_pos hm, if_pos hm, if_neg hne]
  · rw [if_neg hm, if_neg hm]
    have hj : j < s.nodes.length := by
      by_contra hge
      rw [node_of_le (by omega)] at hm
      exact hm (Nat.zero_le m)
    have hplace : (s.node i).linksIndexOffset + l < s.links.length := by
      have := h.inLinks i hi
      omega
    by_cases heq : j = i ∧ m = l
    · obtain ⟨rfl, rfl⟩ := heq
      rw [if_pos ⟨rfl, rfl⟩, setNext, getD_eq_getElem?_getD, List.getElem?_set_self hplace,
        Option.getD_some]
    · have hne : (s.node i).linksIndexOffset + l ≠ (s.node j).linksIndexOffset + m := by
        intro hsame
        obtain ⟨rfl, rfl⟩ := h.place_inj hi hj hl (by omega) hsame
        exact heq ⟨rfl, rfl⟩
      rw [if_neg heq, setNext, getD_eq_getElem?_getD, List.getElem?_set_ne hne,
        ← getD_eq_getElem?_getD]

/-! ### The tiers -/

/-- The nodes of a level: those whose tower reaches it. -/
def tier (s : SkipArena) (base : List ℕ) (lvl : ℕ) : List ℕ :=
  base.filter fun i => lvl < (s.node i).height

/-- `base` are the nodes in the order of their keys, and each level links its part of them. -/
structure Tiers (s : SkipArena) (base : List ℕ) : Prop where
  linked : ∀ lvl < maxLevel, Linked (fun i => s.next i lvl) noneValue s.head (s.tier base lvl)
  sorted : base.Pairwise fun i j => s.keySlice i < s.keySlice j
  range : ∀ i ∈ base, 0 < i ∧ i < s.nodes.length
  length : base.length + 1 = s.nodes.length
  height : ∀ i ∈ base, 0 < (s.node i).height ∧ (s.node i).height ≤ s.level
  keyPrefix : ∀ i ∈ base, (s.node i).keyPrefix = keyPrefixOf (s.keySlice i)
  level : 0 < s.level ∧ s.level ≤ maxLevel

theorem tiers_withCapacity (maxCapacity : ℕ) (rng : ℕ → Fin maxLevel) :
    (withCapacity maxCapacity rng).Tiers [] := by
  refine ⟨fun lvl _ => ?_, .nil, by simp, rfl, by simp, by simp, by simp [withCapacity, maxLevel]⟩
  simp [tier, Linked, next, node, withCapacity]

variable {base : List ℕ}

theorem Tiers.nodup (h : s.Tiers base) : base.Nodup :=
  h.sorted.imp fun hlt heq => absurd (heq ▸ hlt) (lt_irrefl _)

theorem Tiers.tier_zero (h : s.Tiers base) : s.tier base 0 = base :=
  List.filter_eq_self.mpr fun i hi => decide_eq_true (h.height i hi).1

variable {lvl : ℕ}

theorem Tiers.tier_eq_nil (h : s.Tiers base) (hlvl : s.level ≤ lvl) : s.tier base lvl = [] := by
  refine List.filter_eq_nil_iff.mpr fun i hi => ?_
  have := (h.height i hi).2
  simp only [decide_eq_true_eq]
  omega

theorem tier_succ_subset (s : SkipArena) (base : List ℕ) (lvl : ℕ) :
    s.tier base (lvl + 1) ⊆ s.tier base lvl := by
  intro i hi
  obtain ⟨hmem, hlt⟩ := List.mem_filter.mp hi
  exact List.mem_filter.mpr ⟨hmem, decide_eq_true (by simp only [decide_eq_true_eq] at hlt; omega)⟩

/-- **Comparing keys**: the prefixes decide only where they agree with the order of the keys. -/
theorem Tiers.below_iff (h : s.Tiers base) (hi : i ∈ base) (key : Key) :
    s.below key i = true ↔ s.keySlice i < key := by
  have hlt : ∀ {a b : Key}, keyPrefixOf a < keyPrefixOf b → a < b := by
    intro a b hab
    refine lt_of_padTake_lt (w := 8) ((beNat_lt_beNat_iff ?_).mp hab)
    rw [length_padTake, length_padTake]
  rw [below, keyCmpNodeTarget, h.keyPrefix i hi]
  split_ifs with hless hmore
  · simp [hlt hless]
  · simp [(hlt hmore).not_gt]
  · rw [compareBytesSimd]
    split_ifs with hkey heq
    · simp [hkey]
    · simp [hkey]
    · simp [hkey]

theorem Tiers.belowFirst (h : s.Tiers base) (key : Key) : BelowFirst (s.below key) base := by
  refine h.sorted.imp_of_mem fun hi hj hlt hbelow => ?_
  rw [h.below_iff hi]
  exact hlt.trans ((h.below_iff hj key).mp hbelow)

theorem Tiers.belowFirst_tier (h : s.Tiers base) (key : Key) (lvl : ℕ) :
    BelowFirst (s.below key) (s.tier base lvl) :=
  (h.belowFirst key).sublist List.filter_sublist

theorem Tiers.length_tier (h : s.Tiers base) (lvl : ℕ) :
    (s.tier base lvl).length ≤ s.nodes.length := by
  have hle : (s.tier base lvl).length ≤ base.length := List.length_filter_le _ _
  have := h.length
  omega

/-! ### Searching -/

/-- Going down the levels, the search stops at each at the last node below the key. -/
theorem Tiers.walkDown_spec (h : s.Tiers base) (key : Key) (hlvl : lvl ≤ maxLevel) (update : ℕ → ℕ) :
    s.walkDown key lvl (pred (s.below key) s.head (s.tier base lvl)) update =
      (pred (s.below key) s.head (s.tier base 0),
        fun m => if m < lvl then pred (s.below key) s.head (s.tier base m) else update m) := by
  induction lvl generalizing update with
  | zero => simp [walkDown]
  | succ lvl ih =>
    have hstep := (h.linked lvl (by omega)).pred_walkRight (h.belowFirst_tier key lvl)
      (tier_succ_subset s base lvl) (h.length_tier lvl)
    rw [walkDown, hstep, ih (by omega)]
    refine congrArg (Prod.mk _) (funext fun m => ?_)
    obtain hlt | rfl | hgt := lt_trichotomy m lvl
    · rw [if_pos hlt, if_pos (by omega)]
    · rw [if_neg (lt_irrefl m), if_pos (by omega), Function.update_self]
    · rw [if_neg (by omega), if_neg (by omega), Function.update_of_ne hgt.ne']

/-- At every level the predecessor of the key. -/
theorem Tiers.findPath_snd (h : s.Tiers base) (key : Key) (m : ℕ) :
    (s.findPath key).2 m = pred (s.below key) s.head (s.tier base m) := by
  have hstart : pred (s.below key) s.head (s.tier base s.level) = s.head := by
    rw [h.tier_eq_nil le_rfl]
    rfl
  have hspec := h.walkDown_spec key h.level.2 fun _ => s.head
  rw [hstart] at hspec
  have hupdate : (s.findPath key).2 = (s.walkDown key s.level s.head fun _ => s.head).2 := rfl
  rw [hupdate, hspec]
  by_cases hm : m < s.level
  · exact if_pos hm
  · rw [h.tier_eq_nil (not_lt.mp hm)]
    exact if_neg hm

theorem Tiers.findPath_fst (h : s.Tiers base) (key : Key) :
    (s.findPath key).1 = (base.dropWhile (s.below key)).head?.filter fun i =>
      decide (s.keySlice i = key) := by
  have hstart : pred (s.below key) s.head (s.tier base s.level) = s.head := by
    rw [h.tier_eq_nil le_rfl]
    rfl
  have hspec := h.walkDown_spec key h.level.2 fun _ => s.head
  rw [hstart] at hspec
  have hfst : (s.findPath key).1 =
      (if s.next (s.walkDown key s.level s.head fun _ => s.head).1 0 ≠ noneValue ∧
          s.keySlice (s.next (s.walkDown key s.level s.head fun _ => s.head).1 0) = key
        then some (s.next (s.walkDown key s.level s.head fun _ => s.head).1 0) else none) := rfl
  have hnext := (h.linked 0 (by decide)).next_pred (s.below key)
  rw [hfst, hspec]
  simp only [h.tier_zero] at hnext ⊢
  cases hdrop : base.dropWhile (s.below key) with
  | nil =>
    rw [hdrop] at hnext
    have hend : s.next (pred (s.below key) s.head base) 0 = noneValue := hnext
    simp [hend]
  | cons i l =>
    rw [hdrop] at hnext
    obtain ⟨hi, hne, -⟩ := linked_cons.mp hnext
    by_cases hkey : s.keySlice i = key <;> simp [hi, hne, hkey, Option.filter]

variable {key : Key}

/-- A node that is found stands between the keys below and the keys above its own. -/
theorem Tiers.findPath_some (h : s.Tiers base) (hfound : (s.findPath key).1 = some i) :
    s.keySlice i = key ∧ ∃ rest, base = base.takeWhile (s.below key) ++ i :: rest := by
  rw [h.findPath_fst] at hfound
  obtain ⟨hhead, hkey⟩ := Option.filter_eq_some_iff.mp hfound
  refine ⟨of_decide_eq_true hkey, ?_⟩
  obtain ⟨rest, hrest⟩ := List.head?_eq_some_iff.mp hhead
  refine ⟨rest, ?_⟩
  rw [← hrest, takeWhile_append_dropWhile]

/-- Where no node is found, the nodes not below the key are above it. -/
theorem Tiers.findPath_none (h : s.Tiers base) (hfound : (s.findPath key).1 = none) :
    ∀ i ∈ base.dropWhile (s.below key), key < s.keySlice i := by
  rw [h.findPath_fst] at hfound
  cases hdrop : base.dropWhile (s.below key) with
  | nil => simp
  | cons j l =>
    rw [hdrop] at hfound
    have hsub : (j :: l).Sublist base := hdrop ▸ List.dropWhile_sublist _
    have hne : s.keySlice j ≠ key := by
      intro heq
      simp [Option.filter, heq] at hfound
    have hbelow : ¬ s.below key j = true := by
      intro hbelow
      have hhead := List.head?_dropWhile_not (s.below key) base
      simp only [hdrop, List.head?_cons, hbelow] at hhead
      cases hhead
    have hj : key < s.keySlice j := by
      rw [h.below_iff (hsub.subset List.mem_cons_self)] at hbelow
      exact lt_of_le_of_ne (not_lt.mp hbelow) (Ne.symm hne)
    have hsorted := List.pairwise_cons.mp (h.sorted.sublist hsub)
    intro i hi
    obtain rfl | hi := mem_cons.mp hi
    · exact hj
    · exact hj.trans (hsorted.1 i hi)

theorem Tiers.lt_of_mem_takeWhile (h : s.Tiers base) (hi : i ∈ base.takeWhile (s.below key)) :
    s.keySlice i < key :=
  (h.below_iff ((List.takeWhile_sublist _).subset hi) key).mp (List.mem_takeWhile_imp hi)

/-! ### Reading -/

/-- The arenas hold these records. -/
def Holds (s : SkipArena) (records : List KeyValueRecord) : Prop :=
  ∃ base, s.Layout ∧ s.Tiers base ∧ base.map s.record = records

variable {records : List KeyValueRecord}

theorem Tiers.ascending (h : s.Tiers base) : Ascending KeyValueRecord.key (base.map s.record) :=
  List.pairwise_map.mpr h.sorted

theorem Holds.ascending (h : s.Holds records) : Ascending KeyValueRecord.key records := by
  obtain ⟨base, -, htiers, rfl⟩ := h
  exact htiers.ascending

/-- **Lookup.** The entry of a key is that of its record. -/
theorem Holds.entry_eq (h : s.Holds records) (key : Key) :
    s.entry key = (findBy KeyValueRecord.key key records).map fun r =>
      (r.value, r.seq, r.tombstone) := by
  obtain ⟨base, -, htiers, rfl⟩ := h
  rw [entry]
  cases hfound : (s.findPath key).1 with
  | none =>
    have habsent : findBy KeyValueRecord.key key (base.map s.record) = none := by
      refine findBy_eq_none.mpr fun r hr => ?_
      obtain ⟨i, hi, rfl⟩ := mem_map.mp hr
      rw [← takeWhile_append_dropWhile (p := s.below key) (l := base)] at hi
      obtain hi | hi := List.mem_append.mp hi
      · exact (htiers.lt_of_mem_takeWhile hi).ne
      · exact (htiers.findPath_none hfound i hi).ne'
    rw [habsent]
    rfl
  | some i =>
    obtain ⟨hkey, rest, hbase⟩ := htiers.findPath_some hfound
    have hmem : i ∈ base := by
      rw [hbase]
      simp
    have hfind : findBy KeyValueRecord.key key (base.map s.record) = some (s.record i) :=
      (findBy_eq_some_iff htiers.ascending).mpr ⟨List.mem_map_of_mem hmem, hkey⟩
    rw [hfind]
    rfl

/-- **Iteration** from a key yields the records from it on. -/
theorem Holds.iterRawFrom_eq (h : s.Holds records) (start : Key) :
    s.iterRawFrom start = (records.filter fun r => decide (start ≤ r.key)).map fun r =>
      (r.key, r.value, r.seq, r.tombstone) := by
  obtain ⟨base, -, htiers, rfl⟩ := h
  have hnext := (htiers.linked 0 (by decide)).next_pred (s.below start)
  rw [htiers.tier_zero] at hnext
  have hlower : s.lowerBound start = s.next (pred (s.below start) s.head base) 0 := by
    rw [lowerBound, htiers.findPath_snd, htiers.tier_zero]
  have hlen : (base.dropWhile (s.below start)).length ≤ s.nodes.length := by
    have := (List.dropWhile_sublist (s.below start) (l := base)).length_le
    have := htiers.length
    omega
  have hfilter : base.dropWhile (s.below start) =
      base.filter fun i => decide (start ≤ (s.record i).key) := by
    rw [(htiers.belowFirst start).dropWhile_eq]
    refine List.filter_congr fun i hi => ?_
    have hiff := htiers.below_iff hi start
    rw [Bool.eq_iff_iff, Bool.not_eq_true', Bool.eq_false_iff, ne_eq, hiff, decide_eq_true_eq,
      not_lt]
    rfl
  rw [iterRawFrom, hlower, hnext.follow_eq hlen, hfilter, List.filter_map, List.map_map]
  rfl

theorem Layout.length_keySlice (h : s.Layout) (hi : i < s.nodes.length) :
    (s.keySlice i).length = (s.node i).keyLength := by
  have := h.inKeys i hi
  rw [keySlice, length_readAt]
  omega

/-- **The dump** leaves out the record of the empty key, and no other. -/
theorem Holds.collectKeyValueRecords_eq (h : s.Holds records) :
    s.collectKeyValueRecords = records.filter fun r => r.key.length ≠ 0 := by
  obtain ⟨base, hlayout, htiers, rfl⟩ := h
  have hlinked := htiers.linked 0 (by decide)
  rw [htiers.tier_zero] at hlinked
  have hlen : base.length ≤ s.nodes.length := by
    have := htiers.length
    omega
  rw [collectKeyValueRecords, hlinked.follow_eq hlen, List.filter_map]
  refine congrArg (List.map s.record) (List.filter_congr fun i hi => ?_)
  have hlength := hlayout.length_keySlice (htiers.range i hi).2
  simp only [Function.comp_apply, record, hlength]

/-! ### Writes in place -/

/-- The towers and the keys are the same; the links arena may have grown. -/
structure SameTowers (s s' : SkipArena) : Prop where
  shape : ∀ i, (s'.node i).shape = (s.node i).shape
  length : s'.nodes.length = s.nodes.length
  links : s.links <+: s'.links
  links_lt : s'.links.length < u32Max
  keys : s'.keys = s.keys
  head : s'.head = s.head
  level : s'.level = s.level

namespace SameTowers

variable {s' : SkipArena}

theorem keySlice (h : SameTowers s s') (i : ℕ) : s'.keySlice i = s.keySlice i := by
  have hshape := h.shape i
  simp only [SkipNode.shape, Prod.mk.injEq] at hshape
  rw [SkipArena.keySlice, SkipArena.keySlice, h.keys, hshape.1, hshape.2.1]

theorem height (h : SameTowers s s') (i : ℕ) : (s'.node i).height = (s.node i).height :=
  congrArg (fun x => x.2.2.2.1) (h.shape i)

theorem next (h : SameTowers s s') (hlayout : s.Layout) (i lvl : ℕ) :
    s'.next i lvl = s.next i lvl := by
  have hshape := h.shape i
  simp only [SkipNode.shape, Prod.mk.injEq] at hshape
  obtain ⟨-, -, -, hheight, hoffset⟩ := hshape
  rw [SkipArena.next, SkipArena.next, hheight, hoffset]
  split_ifs with hlvl
  · rfl
  · by_cases hi : i < s.nodes.length
    · have hplace := hlayout.inLinks i hi
      have hlt : (s.node i).linksIndexOffset + lvl < s.links.length := by omega
      obtain ⟨extra, hextra⟩ := h.links
      rw [getD_eq_getElem?_getD, getD_eq_getElem?_getD, ← hextra,
        List.getElem?_append_left hlt]
    · rw [node_of_le (by omega)] at hlvl
      exact absurd (Nat.zero_le lvl) hlvl

theorem layout (h : SameTowers s s') (hlayout : s.Layout) : s'.Layout := by
  have hshape : ∀ i, (s'.node i).keyIndexOffset = (s.node i).keyIndexOffset ∧
      (s'.node i).keyLength = (s.node i).keyLength ∧ (s'.node i).keyPrefix = (s.node i).keyPrefix ∧
      (s'.node i).height = (s.node i).height ∧
      (s'.node i).linksIndexOffset = (s.node i).linksIndexOffset := fun i => by
    simpa only [SkipNode.shape, Prod.mk.injEq] using h.shape i
  have hlinks := h.links.length_le
  refine ⟨fun i j hij hj => ?_, fun i hi => ?_, fun i hi => ?_, ?_, ?_, ?_, ?_, h.links_lt, ?_⟩
  · rw [(hshape i).2.2.2.2, (hshape i).2.2.2.1, (hshape j).2.2.2.2]
    exact hlayout.ranges i j hij (h.length ▸ hj)
  · rw [(hshape i).2.2.2.2, (hshape i).2.2.2.1]
    exact (hlayout.inLinks i (h.length ▸ hi)).trans hlinks
  · rw [(hshape i).1, (hshape i).2.1, h.keys]
    exact hlayout.inKeys i (h.length ▸ hi)
  · rw [h.height, hlayout.sentinel]
  · rw [h.head, hlayout.head]
  · rw [h.length]
    exact hlayout.nodes_pos
  · rw [h.length]
    have := hlayout.nodes_lt
    omega
  · rw [h.keys]
    exact hlayout.keys_lt

theorem tiers (h : SameTowers s s') (hlayout : s.Layout) (htiers : s.Tiers base) :
    s'.Tiers base := by
  have htier : ∀ lvl, s'.tier base lvl = s.tier base lvl := fun lvl => by
    simp only [tier, h.height]
  refine ⟨fun lvl hlvl => ?_, ?_, ?_, ?_, ?_, ?_, ?_⟩
  · rw [htier, h.head]
    exact (htiers.linked lvl hlvl).congr fun i _ => h.next hlayout i lvl
  · simp only [h.keySlice]
    exact htiers.sorted
  · rw [h.length]
    exact htiers.range
  · rw [h.length]
    exact htiers.length
  · simp only [h.height, h.level]
    exact htiers.height
  · intro i hi
    rw [h.keySlice, ← htiers.keyPrefix i hi]
    exact congrArg (fun x => x.2.2.1) (h.shape i)
  · rw [h.level]
    exact htiers.level

end SameTowers

theorem node_modifyNode (hi : i < s.nodes.length) (f : SkipNode → SkipNode) (j : ℕ) :
    (s.modifyNode i f).node j = if j = i then f (s.node i) else s.node j := by
  rw [node, modifyNode, getD_eq_getElem?_getD]
  split_ifs with hj
  · rw [hj, List.getElem?_set_self hi, Option.getD_some]
  · rw [List.getElem?_set_ne (Ne.symm hj), ← getD_eq_getElem?_getD]
    rfl

theorem sameTowers_modifyNode (hlayout : s.Layout) (hi : i < s.nodes.length)
    {f : SkipNode → SkipNode} (hf : (f (s.node i)).shape = (s.node i).shape) :
    SameTowers s (s.modifyNode i f) := by
  refine ⟨fun j => ?_, List.length_set, List.prefix_rfl, hlayout.links_lt, rfl, rfl, rfl⟩
  rw [node_modifyNode hi]
  split_ifs with hj
  · rw [hj, hf]
  · rfl

/-- A record that is found, and what becomes of the records when its node is changed. -/
theorem Holds.found (h : s.Holds records) (hfound : (s.findPath key).1 = some i) :
    ∃ front back, records = front ++ s.record i :: back ∧ (∀ r ∈ front, r.key < key) ∧
      (s.record i).key = key ∧ ∀ f, (f (s.node i)).shape = (s.node i).shape →
        (s.modifyNode i f).Holds (front ++ ⟨key, (f (s.node i)).value, (f (s.node i)).tombstone,
          (f (s.node i)).sequence⟩ :: back) := by
  obtain ⟨base, hlayout, htiers, rfl⟩ := h
  obtain ⟨hkey, rest, hbase⟩ := htiers.findPath_some hfound
  have hmem : i ∈ base := by
    rw [hbase]
    simp
  have hi := (htiers.range i hmem).2
  refine ⟨(base.takeWhile (s.below key)).map s.record, rest.map s.record, ?_, ?_, hkey, ?_⟩
  · conv_lhs => rw [hbase]
    rw [List.map_append, List.map_cons]
  · intro r hr
    obtain ⟨j, hj, rfl⟩ := mem_map.mp hr
    exact htiers.lt_of_mem_takeWhile hj
  · intro f hf
    have hsame := sameTowers_modifyNode hlayout hi hf
    refine ⟨base, hsame.layout hlayout, hsame.tiers hlayout htiers, ?_⟩
    have hself : (s.modifyNode i f).record i = ⟨key, (f (s.node i)).value,
        (f (s.node i)).tombstone, (f (s.node i)).sequence⟩ := by
      rw [record, hsame.keySlice, hkey, node_modifyNode hi, if_pos rfl]
    have hother : ∀ j, j ≠ i → (s.modifyNode i f).record j = s.record j := by
      intro j hj
      rw [record, record, hsame.keySlice, node_modifyNode hi, if_neg hj]
    have hnodup := htiers.nodup
    rw [hbase] at hnodup
    have hnot := (List.nodup_cons.mp (List.nodup_middle.mp hnodup)).1
    rw [List.mem_append, not_or] at hnot
    conv_lhs => rw [hbase]
    rw [List.map_append, List.map_cons, hself]
    refine congrArg₂ _ (map_congr_left fun j hj => hother j ?_)
      (congrArg _ (map_congr_left fun j hj => hother j ?_))
    · rintro rfl
      exact hnot.1 hj
    · rintro rfl
      exact hnot.2 hj

/-! ### New nodes -/

/-- What a successful allocation leaves. -/
def extended (s : SkipArena) (key : Key) (value : ℕ) (tombstone : Bool) (seq height : ℕ) :
    SkipArena :=
  { s with
    links := s.links ++ List.replicate height noneValue
    keys := s.keys ++ key
    nodes := s.nodes ++ [⟨s.keys.length, key.length, keyPrefixOf key, value, tombstone, seq, height,
      s.links.length⟩] }

/-- An allocation appends a node, or finds an arena full. -/
theorem allocateNode_cases (hlayout : s.Layout) (key : Key) (value : ℕ) (tombstone : Bool)
    (seq height : ℕ) :
    (∃ s', s.allocateNode key value tombstone seq height = (s', none) ∧ SameTowers s s' ∧
      s'.nodes = s.nodes ∧ s'.noLiveNodes = s.noLiveNodes ∧
        s'.noTombstoneNodes = s.noTombstoneNodes) ∨
    (s.allocateNode key value tombstone seq height =
        (s.extended key value tombstone seq height, some s.nodes.length) ∧
      s.links.length + height < u32Max ∧ s.keys.length + key.length < u32Max) := by
  rw [allocateNode]
  by_cases hlinks : u32Max ≤ s.links.length + height
  · refine .inl ⟨s, by simp only [hlinks, if_true], ?_, rfl, rfl, rfl⟩
    exact ⟨fun _ => rfl, rfl, List.prefix_rfl, hlayout.links_lt, rfl, rfl, rfl⟩
  · by_cases hkeys : u32Max ≤ s.keys.length + key.length
    · refine .inl ⟨{ s with links := s.links ++ List.replicate height noneValue },
        by simp only [hlinks, hkeys, if_false, if_true], ?_, rfl, rfl, rfl⟩
      refine ⟨fun _ => rfl, rfl, List.prefix_append _ _, ?_, rfl, rfl, rfl⟩
      rw [List.length_append, List.length_replicate]
      omega
    · have hu32 : ∀ {n : ℕ}, n < u32Max → asU32 n = n := fun hn => by
        rw [u32Max] at hn
        exact Nat.mod_eq_of_lt (by omega)
      have hnodes : s.nodes.length < u32Max := hlayout.lt_noneValue le_rfl
      refine .inr ⟨?_, by omega, by omega⟩
      simp only [hlinks, hkeys, if_false, hu32 hnodes, hu32 (show s.keys.length < u32Max by omega),
        hu32 (show key.length < u32Max by omega), hu32 hlayout.links_lt]
      rfl

section Extended

variable (key : Key) (value : ℕ) (tombstone : Bool) (seq height : ℕ)

theorem node_extended_self :
    (s.extended key value tombstone seq height).node s.nodes.length =
      ⟨s.keys.length, key.length, keyPrefixOf key, value, tombstone, seq, height,
        s.links.length⟩ := by
  rw [node, extended, getD_eq_getElem?_getD, List.getElem?_concat_length, Option.getD_some]

theorem node_extended (hi : i ≠ s.nodes.length) :
    (s.extended key value tombstone seq height).node i = s.node i := by
  rw [node, node, extended, getD_eq_getElem?_getD, getD_eq_getElem?_getD]
  obtain hlt | hgt := lt_or_gt_of_ne hi
  · rw [List.getElem?_append_left hlt]
  · rw [List.getElem?_eq_none hgt.le, List.getElem?_eq_none]
    simpa using hgt

theorem keySlice_extended_self :
    (s.extended key value tombstone seq height).keySlice s.nodes.length = key := by
  rw [keySlice, node_extended_self]
  simpa [extended] using readAt_append s.keys key []

theorem Layout.keySlice_extended (h : s.Layout) (hi : i < s.nodes.length) :
    (s.extended key value tombstone seq height).keySlice i = s.keySlice i := by
  rw [keySlice, keySlice, node_extended _ _ _ _ _ hi.ne]
  exact readAt_of_grows (List.prefix_append _ _) (h.inKeys i hi)

theorem Layout.next_extended (h : s.Layout) (hi : i ≠ s.nodes.length) (lvl : ℕ) :
    (s.extended key value tombstone seq height).next i lvl = s.next i lvl := by
  rw [next, next, node_extended _ _ _ _ _ hi]
  split_ifs with hlvl
  · rfl
  · have hlt : i < s.nodes.length := by
      by_contra hge
      rw [node_of_le (by omega)] at hlvl
      exact hlvl (Nat.zero_le lvl)
    have hplace := h.inLinks i hlt
    rw [getD_eq_getElem?_getD, getD_eq_getElem?_getD, extended,
      List.getElem?_append_left (by omega)]

theorem Layout.extended (h : s.Layout) (hheight : 0 < height)
    (hlinks : s.links.length + height < u32Max) (hkeys : s.keys.length + key.length < u32Max) :
    (s.extended key value tombstone seq height).Layout := by
  have hlen : (s.extended key value tombstone seq height).nodes.length = s.nodes.length + 1 := by
    simp [SkipArena.extended]
  have hlinksLen : (s.extended key value tombstone seq height).links.length =
      s.links.length + height := by simp [SkipArena.extended]
  have hkeysLen : (s.extended key value tombstone seq height).keys.length =
      s.keys.length + key.length := by simp [SkipArena.extended]
  have hold : ∀ {i : ℕ}, i < s.nodes.length →
      (s.extended key value tombstone seq height).node i = s.node i :=
    fun hi => node_extended _ _ _ _ _ hi.ne
  refine ⟨fun i j hij hj => ?_, fun i hi => ?_, fun i hi => ?_, ?_, h.head, ?_, ?_, ?_, ?_⟩
  · rw [hlen] at hj
    obtain hj | rfl : j < s.nodes.length ∨ j = s.nodes.length := by omega
    · rw [hold hj, hold (hij.trans hj)]
      exact h.ranges i j hij hj
    · rw [hold hij, node_extended_self]
      exact h.inLinks i hij
  · rw [hlen] at hi
    rw [hlinksLen]
    obtain hi | rfl : i < s.nodes.length ∨ i = s.nodes.length := by omega
    · rw [hold hi]
      exact (h.inLinks i hi).trans (Nat.le_add_right _ _)
    · rw [node_extended_self]
  · rw [hlen] at hi
    rw [hkeysLen]
    obtain hi | rfl : i < s.nodes.length ∨ i = s.nodes.length := by omega
    · rw [hold hi]
      exact (h.inKeys i hi).trans (Nat.le_add_right _ _)
    · rw [node_extended_self]
  · rw [hold h.nodes_pos, h.sentinel]
  · omega
  · have := h.nodes_lt
    omega
  · omega
  · omega

end Extended

/-- Only links are different. -/
structure Relinked (s s' : SkipArena) : Prop where
  eq : s' = { s with links := s'.links }
  length : s'.links.length = s.links.length

theorem Relinked.refl (s : SkipArena) : Relinked s s := ⟨rfl, rfl⟩

variable {s' : SkipArena}

theorem Relinked.trans {s'' : SkipArena} (h : Relinked s s') (h' : Relinked s' s'') :
    Relinked s s'' :=
  ⟨h'.eq.trans (congrArg (fun t : SkipArena => { t with links := s''.links }) h.eq),
    h'.length.trans h.length⟩

theorem Relinked.node (h : Relinked s s') (i : ℕ) : s'.node i = s.node i := by
  rw [h.eq]
  rfl

theorem Relinked.layout (h : Relinked s s') (hlayout : s.Layout) : s'.Layout := by
  have hlen := h.length
  rw [h.eq] at hlen ⊢
  exact ⟨hlayout.ranges, fun i hi => (hlayout.inLinks i hi).trans hlen.ge, hlayout.inKeys,
    hlayout.sentinel, hlayout.head, hlayout.nodes_pos, hlen ▸ hlayout.nodes_lt,
    hlen ▸ hlayout.links_lt, hlayout.keys_lt⟩

/-- A place for the links of a new node behind `prev` at a level. -/
structure Place (s : SkipArena) (new prev lvl : ℕ) : Prop where
  new_lt : new < s.nodes.length
  new_height : lvl < (s.node new).height
  prev_lt : prev < s.nodes.length
  prev_height : lvl < (s.node prev).height
  ne : prev ≠ new

variable {new : ℕ} {update : ℕ → ℕ}

theorem Layout.linkAt (h : s.Layout) (hplace : s.Place new (update lvl) lvl) :
    Relinked s (linkAt new update s lvl) ∧ ∀ j m, (SkipArena.linkAt new update s lvl).next j m =
      if m = lvl ∧ j = update lvl then new
      else if m = lvl ∧ j = new then s.next (update lvl) lvl else s.next j m := by
  have hset : Relinked s (s.setNext new lvl (s.next (update lvl) lvl)) :=
    ⟨rfl, by simp [setNext]⟩
  have hlayout := hset.layout h
  have hprev := hplace.prev_height
  rw [← hset.node] at hprev
  refine ⟨⟨rfl, by simp [SkipArena.linkAt, setNext]⟩, fun j m => ?_⟩
  rw [SkipArena.linkAt, hlayout.next_setNext hplace.prev_lt hprev,
    h.next_setNext hplace.new_lt hplace.new_height]
  simp only [and_comm]

/-- Linking in level by level. -/
theorem Layout.linkAll (h : s.Layout) {height : ℕ}
    (hplace : ∀ lvl < height, s.Place new (update lvl) lvl) :
    Relinked s ((List.range height).foldl (SkipArena.linkAt new update) s) ∧
      ∀ j m, ((List.range height).foldl (SkipArena.linkAt new update) s).next j m =
        if m < height ∧ j = update m then new
        else if m < height ∧ j = new then s.next (update m) m else s.next j m := by
  induction height with
  | zero => exact ⟨.refl s, by simp⟩
  | succ k ih =>
    obtain ⟨hrelinked, hnext⟩ := ih fun lvl hlvl => hplace lvl (by omega)
    rw [List.range_succ, List.foldl_append, List.foldl_cons, List.foldl_nil]
    generalize (List.range k).foldl (SkipArena.linkAt new update) s = t at *
    have hk := hplace k (by omega)
    have hplace' : t.Place new (update k) k := by
      refine ⟨?_, ?_, ?_, ?_, hk.ne⟩
      · rw [hrelinked.eq]
        exact hk.new_lt
      · rw [hrelinked.node]
        exact hk.new_height
      · rw [hrelinked.eq]
        exact hk.prev_lt
      · rw [hrelinked.node]
        exact hk.prev_height
    obtain ⟨hrelinked', hnext'⟩ := (hrelinked.layout h).linkAt hplace'
    refine ⟨hrelinked.trans hrelinked', fun j m => ?_⟩
    rw [hnext', hnext, hnext]
    obtain hlt | rfl | hgt := lt_trichotomy m k
    · simp [hlt, hlt.ne, show m < k + 1 by omega]
    · simp
    · simp [hgt.not_gt, hgt.ne', show ¬ m < k + 1 by omega]

theorem Tiers.tier_takeWhile (h : s.Tiers base) (key : Key) (lvl : ℕ) :
    s.tier (base.takeWhile (s.below key)) lvl = (s.tier base lvl).takeWhile (s.below key) := by
  rw [(h.belowFirst key).takeWhile_eq, (h.belowFirst_tier key lvl).takeWhile_eq, tier, tier,
    List.filter_filter, List.filter_filter]
  simp only [Bool.and_comm]

theorem Tiers.tier_dropWhile (h : s.Tiers base) (key : Key) (lvl : ℕ) :
    s.tier (base.dropWhile (s.below key)) lvl = (s.tier base lvl).dropWhile (s.below key) := by
  rw [(h.belowFirst key).dropWhile_eq, (h.belowFirst_tier key lvl).dropWhile_eq, tier, tier,
    List.filter_filter, List.filter_filter]
  simp only [Bool.and_comm]

/-- Where a search for an absent key comes down. -/
theorem Tiers.prev_spec (h : s.Tiers base) (hlayout : s.Layout) (key : Key) (hm : m < maxLevel) :
    pred (s.below key) s.head (s.tier base m) < s.nodes.length ∧
      m < (s.node (pred (s.below key) s.head (s.tier base m))).height := by
  obtain heq | ⟨hmem, -⟩ := pred_eq_or (s.below key) s.head (s.tier base m)
  · rw [heq, hlayout.head, hlayout.sentinel]
    exact ⟨hlayout.nodes_pos, hm⟩
  · obtain ⟨hmem, hlt⟩ := List.mem_filter.mp hmem
    exact ⟨(h.range _ hmem).2, of_decide_eq_true hlt⟩

variable {t : SkipArena}

/-- **A node more.** The tiers with a new node behind its predecessors. -/
theorem Tiers.insert (h : s.Tiers base) (hlayout : s.Layout) {height : ℕ}
    (hfound : (s.findPath key).1 = none) (hheight : 0 < height ∧ height ≤ maxLevel)
    (hlen : t.nodes.length = s.nodes.length + 1) (hhead : t.head = s.head)
    (hlevel : t.level = max s.level height) (hnode : ∀ i < s.nodes.length, t.node i = s.node i)
    (hself : (t.node s.nodes.length).height = height ∧
      (t.node s.nodes.length).keyPrefix = keyPrefixOf key)
    (hkey : ∀ i < s.nodes.length, t.keySlice i = s.keySlice i)
    (hkeySelf : t.keySlice s.nodes.length = key) (hnext : ∀ j m, t.next j m =
      if m < height ∧ j = pred (s.below key) s.head (s.tier base m) then s.nodes.length
      else if m < height ∧ j = s.nodes.length then
        s.next (pred (s.below key) s.head (s.tier base m)) m
      else s.next j m) :
    t.Tiers (base.takeWhile (s.below key) ++
      s.nodes.length :: base.dropWhile (s.below key)) := by
  have hbase := takeWhile_append_dropWhile (p := s.below key) (l := base)
  have hlt : ∀ i ∈ base, i < s.nodes.length := fun i hi => (h.range i hi).2
  have hfront : ∀ i ∈ base.takeWhile (s.below key), i ∈ base :=
    fun i hi => (List.takeWhile_sublist _).subset hi
  have hback : ∀ i ∈ base.dropWhile (s.below key), i ∈ base :=
    fun i hi => (List.dropWhile_sublist _).subset hi
  have hmem : ∀ {P : ℕ → Prop}, (∀ i ∈ base, P i) → P s.nodes.length →
      ∀ i ∈ base.takeWhile (s.below key) ++
        s.nodes.length :: base.dropWhile (s.below key), P i := by
    intro P hold hnew i hi
    obtain hi | hi := List.mem_append.mp hi
    · exact hold i (hfront i hi)
    · obtain rfl | hi := mem_cons.mp hi
      · exact hnew
      · exact hold i (hback i hi)
  refine ⟨fun lvl hlvl => ?_, ?_, hmem ?_ ?_, ?_, hmem ?_ ?_, hmem ?_ ?_, ?_⟩
  · obtain ⟨hprev, -⟩ := h.prev_spec hlayout key hlvl
    have htier : ∀ l : List ℕ, (∀ i ∈ l, i ∈ base) → t.tier l lvl = s.tier l lvl := by
      intro l hl
      refine List.filter_congr fun i hi => ?_
      rw [hnode i (hlt i (hl i hi))]
    have hsplit : t.tier (base.takeWhile (s.below key) ++
        s.nodes.length :: base.dropWhile (s.below key)) lvl =
          (s.tier base lvl).takeWhile (s.below key) ++
            (t.tier [s.nodes.length] lvl ++ (s.tier base lvl).dropWhile (s.below key)) := by
      rw [← h.tier_takeWhile, ← h.tier_dropWhile, ← htier _ hfront, ← htier _ hback, tier, tier,
        tier, tier, List.append_cons, List.filter_append, List.filter_append, List.append_assoc]
    have hsub : ∀ i ∈ s.tier base lvl, i ∈ base := fun i hi => (List.mem_filter.mp hi).1
    have hlinked := h.linked lvl hlvl
    rw [hsplit, hhead]
    by_cases hreach : lvl < height
    · have hself' : t.tier [s.nodes.length] lvl = [s.nodes.length] := by
        simp [tier, hself.1, hreach]
      rw [hself', List.singleton_append]
      rw [← takeWhile_append_dropWhile (p := s.below key) (l := s.tier base lvl)] at hlinked
      refine hlinked.insert ?_ ?_ (hlayout.lt_noneValue le_rfl).ne ?_ ?_ ?_
      · rw [takeWhile_append_dropWhile]
        refine List.nodup_cons.mpr ⟨fun hmem => ?_, h.nodup.filter _⟩
        rw [hlayout.head] at hmem
        exact lt_irrefl 0 (h.range 0 (hsub 0 hmem)).1
      · rw [takeWhile_append_dropWhile, hlayout.head, mem_cons, not_or]
        exact ⟨hlayout.nodes_pos.ne', fun hmem => lt_irrefl _ (hlt _ (hsub _ hmem))⟩
      · exact (hnext _ lvl).trans (if_pos ⟨hreach, rfl⟩)
      · refine (hnext _ lvl).trans ((if_neg fun hand => ?_).trans (if_pos ⟨hreach, rfl⟩))
        exact hprev.ne' hand.2
      · intro y hy hynew
        exact (hnext y lvl).trans ((if_neg fun hand => hy hand.2).trans
          (if_neg fun hand => hynew hand.2))
    · have hself' : t.tier [s.nodes.length] lvl = [] := by
        simp [tier, hself.1, hreach]
      rw [hself', List.nil_append, takeWhile_append_dropWhile]
      refine hlinked.congr fun i _ => ?_
      exact (hnext i lvl).trans ((if_neg fun hand => hreach hand.1).trans
        (if_neg fun hand => hreach hand.1))
  · have hkey' : ∀ i ∈ base, t.keySlice i = s.keySlice i := fun i hi => hkey i (hlt i hi)
    refine List.pairwise_append.mpr ⟨?_, List.pairwise_cons.mpr ⟨?_, ?_⟩, ?_⟩
    · refine (h.sorted.sublist (List.takeWhile_sublist _)).imp_of_mem fun hi hj hij => ?_
      rwa [hkey' _ (hfront _ hi), hkey' _ (hfront _ hj)]
    · intro i hi
      rw [hkeySelf, hkey' i (hback i hi)]
      exact h.findPath_none hfound i hi
    · refine (h.sorted.sublist (List.dropWhile_sublist _)).imp_of_mem fun hi hj hij => ?_
      rwa [hkey' _ (hback _ hi), hkey' _ (hback _ hj)]
    · intro i hi j hj
      have hbelow := h.lt_of_mem_takeWhile hi
      rw [hkey' i (hfront i hi)]
      obtain rfl | hj := mem_cons.mp hj
      · rwa [hkeySelf]
      · rw [hkey' j (hback j hj)]
        exact hbelow.trans (h.findPath_none hfound j hj)
  · intro i hi
    have := h.range i hi
    omega
  · have := hlayout.nodes_pos
    omega
  · have hcount := congrArg List.length hbase
    rw [List.length_append] at hcount
    rw [List.length_append, List.length_cons, hlen, ← h.length]
    omega
  · intro i hi
    rw [hnode i (hlt i hi), hlevel]
    have := h.height i hi
    omega
  · rw [hself.1, hlevel]
    omega
  · intro i hi
    rw [hnode i (hlt i hi), hkey i (hlt i hi)]
    exact h.keyPrefix i hi
  · rw [hself.2, hkeySelf]
  · rw [hlevel]
    have := h.level
    omega

/-- A linked node leaves towers that lie as before, a level that reaches its height, and its own
record beside the others. -/
theorem Tiers.splice (h : s.Tiers base) (hlayout : s.Layout) {value : ℕ} {tombstone : Bool}
    {seq height : ℕ} (hfound : (s.findPath key).1 = none) (hheight : 0 < height ∧ height ≤ maxLevel)
    (hlinks : s.links.length + height < u32Max) (hkeys : s.keys.length + key.length < u32Max)
    {u : SkipArena} (hu : u = (List.range height).foldl
      (linkAt s.nodes.length fun m => pred (s.below key) s.head (s.tier base m))
      (s.extended key value tombstone seq height))
    (ht : t = { u with level := if u.level < height then height else u.level }) :
    t.Layout ∧ t.Tiers (base.takeWhile (s.below key) ++
        s.nodes.length :: base.dropWhile (s.below key)) ∧
      (∀ i < s.nodes.length, t.record i = s.record i) ∧
      t.record s.nodes.length = ⟨key, value, tombstone, seq⟩ ∧
      t.noLiveNodes = s.noLiveNodes ∧ t.noTombstoneNodes = s.noTombstoneNodes := by
  have hext := hlayout.extended key value tombstone seq height hheight.1 hlinks hkeys
  have hlen : (s.extended key value tombstone seq height).nodes.length = s.nodes.length + 1 := by
    simp [extended]
  have hself := node_extended_self (s := s) key value tombstone seq height
  have hplace : ∀ m < height, (s.extended key value tombstone seq height).Place s.nodes.length
      (pred (s.below key) s.head (s.tier base m)) m := by
    intro m hm
    obtain ⟨hlt, hreach⟩ := h.prev_spec hlayout key (hm.trans_le hheight.2)
    refine ⟨by omega, ?_, by omega, ?_, hlt.ne⟩
    · rw [hself]
      exact hm
    · rw [node_extended _ _ _ _ _ hlt.ne]
      exact hreach
  obtain ⟨hrelinked, hnext⟩ := hext.linkAll hplace
  rw [← hu] at hrelinked hnext
  have hlayoutU := hrelinked.layout hext
  have hnodes : t.nodes = (s.extended key value tombstone seq height).nodes := by
    rw [ht, hrelinked.eq]
  have hkeysT : t.keys = (s.extended key value tombstone seq height).keys := by
    rw [ht, hrelinked.eq]
  have hnode : ∀ i, t.node i = (s.extended key value tombstone seq height).node i := fun i => by
    rw [node, node, hnodes]
  have hkeySlice : ∀ i, t.keySlice i = (s.extended key value tombstone seq height).keySlice i :=
    fun i => by rw [keySlice, keySlice, hnode, hkeysT]
  have hold : ∀ i < s.nodes.length, t.node i = s.node i := fun i hi => by
    rw [hnode, node_extended _ _ _ _ _ hi.ne]
  have hkeyOld : ∀ i < s.nodes.length, t.keySlice i = s.keySlice i := fun i hi => by
    rw [hkeySlice, hlayout.keySlice_extended _ _ _ _ _ hi]
  have hkeySelf : t.keySlice s.nodes.length = key := by
    rw [hkeySlice, keySlice_extended_self]
  have hnextT : ∀ j m, t.next j m = u.next j m := fun j m => by rw [ht]; rfl
  refine ⟨?_, ?_, fun i hi => ?_, ?_, ?_, ?_⟩
  · rw [ht]
    exact ⟨hlayoutU.ranges, hlayoutU.inLinks, hlayoutU.inKeys, hlayoutU.sentinel, hlayoutU.head,
      hlayoutU.nodes_pos, hlayoutU.nodes_lt, hlayoutU.links_lt, hlayoutU.keys_lt⟩
  · refine h.insert hlayout hfound hheight ?_ ?_ ?_ hold ?_ hkeyOld hkeySelf fun j m => ?_
    · rw [hnodes, hlen]
    · rw [ht, hrelinked.eq]
      rfl
    · have hlevel : u.level = s.level := by
        rw [hrelinked.eq]
        rfl
      rw [ht]
      simp only [hlevel]
      split_ifs with hless
      · exact (max_eq_right hless.le).symm
      · exact (max_eq_left (not_lt.mp hless)).symm
    · rw [hnode, hself]
      exact ⟨rfl, rfl⟩
    · rw [hnextT, hnext]
      refine if_congr Iff.rfl rfl (ite_congr rfl (fun hand => ?_) fun hand => ?_)
      · obtain ⟨hlt, -⟩ := h.prev_spec hlayout key (hand.1.trans_le hheight.2)
        exact hlayout.next_extended _ _ _ _ _ hlt.ne m
      · by_cases hj : j = s.nodes.length
        · have hm : height ≤ m := not_lt.mp fun hm => hand ⟨hm, hj⟩
          rw [hj, next_of_le le_rfl, next, hself]
          exact if_pos hm
        · exact hlayout.next_extended _ _ _ _ _ hj m
  · rw [record, record, hkeyOld i hi, hold i hi]
  · rw [record, hkeySelf, hnode, hself]
  · rw [ht, hrelinked.eq]
    rfl
  · rw [ht, hrelinked.eq]
    rfl

/-- **A new node** puts its record in its place, or an arena is full and nothing changes. -/
theorem Holds.splice (h : s.Holds records) (hfound : (s.findPath key).1 = none) (value : ℕ)
    (tombstone : Bool) (seq : ℕ) :
    ∃ s' res, s.spliceNewNode key value tombstone seq (s.findPath key).2 = (s', res) ∧
      s'.noLiveNodes = s.noLiveNodes ∧ s'.noTombstoneNodes = s.noTombstoneNodes ∧
      ((∃ err, res = .error err ∧ s'.Holds records) ∨ res = .ok () ∧ ∃ front back,
        records = front ++ back ∧ (∀ r ∈ front, r.key < key) ∧ (∀ r ∈ back, key < r.key) ∧
          s'.Holds (front ++ ⟨key, value, tombstone, seq⟩ :: back)) := by
  obtain ⟨base, hlayout, htiers, rfl⟩ := h
  have hdrawn : SameTowers s { s with rng := fun i => s.rng (i + 1) } :=
    ⟨fun _ => rfl, rfl, List.prefix_rfl, hlayout.links_lt, rfl, rfl, rfl⟩
  have hlayout' := hdrawn.layout hlayout
  have hupdate : (fun lvl => if s.level ≤ lvl ∧ lvl < (s.rng 0 : ℕ) + 1 then s.head
      else (s.findPath key).2 lvl) = fun m => pred (s.below key) s.head (s.tier base m) := by
    funext m
    rw [htiers.findPath_snd]
    split_ifs with hm
    · rw [htiers.tier_eq_nil hm.1]
      rfl
    · rfl
  have hheight : 0 < (s.rng 0 : ℕ) + 1 ∧ (s.rng 0 : ℕ) + 1 ≤ maxLevel := ⟨by omega, (s.rng 0).2⟩
  rw [spliceNewNode]
  simp only [hupdate]
  obtain ⟨s', halloc, hsame, hnodes, hlive, htomb⟩ | ⟨halloc, hlinks, hkeys⟩ :=
    allocateNode_cases hlayout' key value tombstone seq ((s.rng 0 : ℕ) + 1)
  · refine ⟨s', .error .capacityExceeded, by rw [halloc], hlive, htomb, .inl ⟨_, rfl, ?_⟩⟩
    refine ⟨base, hsame.layout hlayout', hsame.tiers hlayout' (hdrawn.tiers hlayout htiers), ?_⟩
    refine map_congr_left fun i _ => ?_
    have hnode : s'.node i = s.node i := by rw [node, node, hnodes]
    rw [record, record, hsame.keySlice, hnode]
    rfl
  · rw [halloc]
    have htiers' := hdrawn.tiers hlayout htiers
    have hfound' : (({ s with rng := fun i => s.rng (i + 1) } : SkipArena).findPath key).1 =
        none := by
      rw [htiers'.findPath_fst]
      rw [htiers.findPath_fst] at hfound
      exact hfound
    obtain ⟨hlayoutT, htiersT, hold, hnew, hlive, htomb⟩ :=
      htiers'.splice hlayout' hfound' hheight hlinks hkeys rfl rfl
    refine ⟨_, _, rfl, hlive, htomb, .inr ⟨rfl, (base.takeWhile (s.below key)).map s.record,
      (base.dropWhile (s.below key)).map s.record, ?_, ?_, ?_, ⟨_, hlayoutT, htiersT, ?_⟩⟩⟩
    · rw [← List.map_append, takeWhile_append_dropWhile]
    · intro r hr
      obtain ⟨i, hi, rfl⟩ := mem_map.mp hr
      exact htiers.lt_of_mem_takeWhile hi
    · intro r hr
      obtain ⟨i, hi, rfl⟩ := mem_map.mp hr
      exact htiers.findPath_none hfound i hi
    · have hrange : ∀ i ∈ base, i < s.nodes.length := fun i hi => (htiers.range i hi).2
      rw [List.map_append, List.map_cons]
      refine congrArg₂ _ (map_congr_left fun i hi => ?_)
        (congrArg₂ List.cons hnew (map_congr_left fun i hi => ?_))
      · exact hold i (hrange i ((List.takeWhile_sublist _).subset hi))
      · exact hold i (hrange i ((List.dropWhile_sublist _).subset hi))

end SkipArena

end Minnal
