import Minnal.Wal.Recoverable

/-!
# The log across a power loss

At any moment the directory of a log is a **chain** of sealed segments, fsynced and ending in
their end markers, followed by at most one more file: a segment being created, or the active one.
`Holds` says so, together with what the log is supposed to hold (its `Ledger`): the records of
the segments are the ledger's, but for some at the end that a power loss took and that were never
committed, and the positions saved progress names lie on record boundaries or well behind the
last record of their segment.

The one theorem about power losses is `Holds.powerLoss`: what is found afterwards is
`Recoverable`, a directory of the shape a reopen expects, with the same ledger.
-/

set_option linter.dupNamespace false

namespace Minnal

open ByteCodec CrashDisk

variable {id limit : ℕ} {bodies : List (List UInt8)} {r : ℕ × List UInt8}
  {segments : List (List (List UInt8))} {d : Disk} {l : Ledger}

namespace SegmentedLog

/-! ### The records of a chain of segments -/

/-- A segment's records at their positions. -/
def segmentRecords (id : ℕ) (bodies : List (List UInt8)) : List (ℕ × List UInt8) :=
  (recordsFrom segmentHeaderLen bodies).map fun r => (position id r.1, r.2)

/-- The records of segments numbered from 0. -/
def recordsOf (segments : List (List (List UInt8))) : List (ℕ × List UInt8) :=
  segments.zipIdx.flatMap fun x => segmentRecords x.2 x.1

@[simp] theorem recordsOf_nil : recordsOf [] = [] := rfl

theorem recordsOf_concat (segments : List (List (List UInt8))) (bodies : List (List UInt8)) :
    recordsOf (segments ++ [bodies]) = recordsOf segments ++ segmentRecords segments.length bodies := by
  simp [recordsOf, List.zipIdx_append]

@[simp] theorem segmentRecords_nil (id : ℕ) : segmentRecords id [] = [] := rfl

variable {k : LogKind}

theorem mem_segmentRecords :
    r ∈ segmentRecords id bodies ↔
      ∃ i, bodies[i]? = some r.2 ∧ r.1 = position id (endOf k (bodies.take i)) := by
  rw [segmentRecords, List.mem_map]
  constructor
  · rintro ⟨x, hx, rfl⟩
    obtain ⟨i, hi⟩ := List.mem_iff_getElem?.mp hx
    rw [getElem?_recordsFrom (k := k), Option.map_eq_some_iff] at hi
    obtain ⟨body, hget, rfl⟩ := hi
    exact ⟨i, hget, rfl⟩
  · rintro ⟨i, hget, hpos⟩
    refine ⟨(endOf k (bodies.take i), r.2), List.mem_of_getElem? (i := i) ?_, ?_⟩
    · rw [getElem?_recordsFrom (k := k), hget]
      rfl
    · rw [← hpos]

theorem mem_recordsOf :
    r ∈ recordsOf segments ↔ ∃ id bodies, segments[id]? = some bodies ∧ r ∈ segmentRecords id bodies := by
  simp only [recordsOf, List.mem_flatMap, List.mem_zipIdx_iff_getElem?, Prod.exists]
  constructor
  · rintro ⟨bodies, id, hget, hmem⟩
    exact ⟨id, bodies, hget, hmem⟩
  · rintro ⟨id, bodies, hget, hmem⟩
    exact ⟨bodies, id, hget, hmem⟩

theorem recordsFrom_append (pos : ℕ) (bodies more : List (List UInt8)) :
    recordsFrom pos (bodies ++ more) =
      recordsFrom pos bodies ++ recordsFrom (pos + (encode k bodies).length) more := by
  induction bodies generalizing pos with
  | nil => rfl
  | cons body bodies ih => simp [recordsFrom, ih, Nat.add_assoc]

/-- Records that are cut off a segment lie where the kept ones end or behind. -/
theorem segmentRecords_append (id : ℕ) (bodies gone : List (List UInt8)) :
    ∃ lost, segmentRecords id (bodies ++ gone) = segmentRecords id bodies ++ lost ∧
      ∀ r ∈ lost, position id (endOf k bodies) ≤ r.1 := by
  refine ⟨(recordsFrom (endOf k bodies) gone).map fun r => (position id r.1, r.2), ?_, ?_⟩
  · rw [segmentRecords, recordsFrom_append (k := k), List.map_append]
    rfl
  · intro r hr
    obtain ⟨x, hx, rfl⟩ := List.mem_map.mp hr
    obtain ⟨i, hi⟩ := List.mem_iff_getElem?.mp hx
    rw [getElem?_recordsFrom (k := k), Option.map_eq_some_iff] at hi
    obtain ⟨body, -, rfl⟩ := hi
    simp only [position]
    omega

theorem segmentRecords_concat (id : ℕ) (bodies : List (List UInt8)) (body : List UInt8) :
    segmentRecords id (bodies ++ [body]) =
      segmentRecords id bodies ++ [(position id (endOf k bodies), body)] := by
  rw [segmentRecords, recordsFrom_append (k := k), List.map_append]
  rfl

theorem lt_of_mem_segmentRecords (hr : r ∈ segmentRecords id bodies) :
    position id segmentHeaderLen ≤ r.1 ∧ r.1 < position id (endOf k bodies) := by
  obtain ⟨i, hget, hpos⟩ := (mem_segmentRecords (k := k)).mp hr
  obtain ⟨hi, -⟩ := List.getElem?_eq_some_iff.mp hget
  have hnext : bodies.take (i + 1) = bodies.take i ++ [bodies[i]] := (List.take_concat_get' ..).symm
  have hle := endOf_take_le (k := k) bodies (i + 1)
  rw [hnext, endOf_concat, frameHeaderLen] at hle
  rw [hpos, position, position, position]
  simp only [endOf] at hle ⊢
  omega

/-! ### Sealed segments -/

/-- A segment that is sealed with these records, and durable. -/
structure SealedFile (k : LogKind) (tidy : Bool) (id : ℕ) (bodies : List (List UInt8))
    (f : File) : Prop where
  id_lt : id < 2 ^ 32
  synced : f.older = []
  named : f.named = true
  fits : ∀ body ∈ bodies, Fits body
  small : endOf k bodies + endMarkerLen < 2 ^ 32
  bytes : written k id bodies ++ endMarkerBytes <+: f.data
  tidy_zeros : tidy = true → id + 1 < 2 ^ 32 ∧ ZerosFrom (endOf k bodies + endMarkerLen) f.data

/-- Sealed segments numbered from 0. -/
inductive SealedChain (k : LogKind) (tidy : Bool) : List (List (List UInt8)) → Disk → Prop
  | nil : SealedChain k tidy [] []
  | concat {segments : List (List (List UInt8))} {d : Disk} {bodies : List (List UInt8)} {f : File}
      (chain : SealedChain k tidy segments d) (file : SealedFile k tidy segments.length bodies f) :
      SealedChain k tidy (segments ++ [bodies]) (d ++ [(segments.length, f)])

namespace SealedChain

variable {tidy : Bool} {segments : List (List (List UInt8))} {d : Disk}

theorem length_eq (h : SealedChain k tidy segments d) : d.length = segments.length := by
  induction h with
  | nil => rfl
  | concat chain file ih => simp [ih]

/-- The files are numbered in order. -/
theorem ids (h : SealedChain k tidy segments d) : d.map Prod.fst = List.range segments.length := by
  induction h with
  | nil => rfl
  | concat chain file ih => simp [ih, List.range_succ]

theorem ne_of_mem (h : SealedChain k tidy segments d) : ∀ x ∈ d, x.1 ≠ segments.length := by
  intro x hx heq
  have hmem : x.1 ∈ d.map Prod.fst := List.mem_map_of_mem hx
  rw [h.ids, List.mem_range] at hmem
  omega

theorem durable (h : SealedChain k tidy segments d) : ∀ x ∈ d, x.2.older = [] ∧ x.2.named = true := by
  induction h with
  | nil => simp
  | concat chain file ih =>
    intro x hx
    rcases List.mem_append.mp hx with hx | hx
    · exact ih x hx
    · rw [List.mem_singleton.mp hx]
      exact ⟨file.synced, file.named⟩

theorem small (h : SealedChain k tidy segments d) :
    ∀ bodies ∈ segments, endOf k bodies + endMarkerLen < 2 ^ 32 := by
  induction h with
  | nil => simp
  | concat chain file ih =>
    intro bodies hmem
    rcases List.mem_append.mp hmem with hmem | hmem
    · exact ih bodies hmem
    · rw [List.mem_singleton.mp hmem]
      exact file.small

end SealedChain

/-- Where the records of a chain end. -/
def chainEnd (k : LogKind) (segments : List (List (List UInt8))) : ℕ :=
  position (segments.length - 1) (endOf k (segments.getLastD []))

@[simp] theorem chainEnd_concat (segments : List (List (List UInt8)))
    (bodies : List (List UInt8)) :
    chainEnd k (segments ++ [bodies]) = position segments.length (endOf k bodies) := by
  simp [chainEnd]

theorem chainEnd_le {tidy : Bool} (h : SealedChain k tidy segments d) :
    chainEnd k segments ≤ position segments.length segmentHeaderLen := by
  cases h with
  | nil => exact le_rfl
  | @concat segments d bodies f chain file =>
    rw [chainEnd_concat, List.length_append, List.length_singleton]
    have hsmall := file.small
    rw [endMarkerLen] at hsmall
    exact (position_lt_position _ (Nat.lt_succ_self _) (by omega)).le

/-- Records lie below where the last segment's records end. -/
theorem lt_of_mem_recordsOf (hsmall : ∀ b ∈ segments, endOf k b + endMarkerLen < 2 ^ 32)
    (hr : r ∈ recordsOf (segments ++ [bodies])) :
    r.1 < position segments.length (endOf k bodies) := by
  rw [recordsOf_concat, List.mem_append] at hr
  rcases hr with hr | hr
  · obtain ⟨id, b, hget, hmem⟩ := mem_recordsOf.mp hr
    obtain ⟨hid, rfl⟩ := List.getElem?_eq_some_iff.mp hget
    have hb := hsmall _ (List.getElem_mem hid)
    rw [endMarkerLen] at hb
    exact (lt_of_mem_segmentRecords (k := k) hmem).2.trans
      (position_lt_position _ hid (by omega))
  · exact (lt_of_mem_segmentRecords hr).2

/-! ### What a log is supposed to hold -/

/-- The records of a log, the position below which they are committed, and the positions the
saved progress names. -/
structure Ledger where
  records : List (ℕ × List UInt8)
  committed : ℕ
  named : List ℕ

/-- A named position is a boundary of its segment, or lies well behind its last record. -/
def Placed (k : LogKind) (segments : List (List (List UInt8))) (pos : ℕ) : Prop :=
  ∃ bodies, segments[segmentOf pos]? = some bodies ∧
    ((∃ i, max (byteOf pos) segmentHeaderLen = endOf k (bodies.take i)) ∨
      endOf k bodies + 9 ≤ byteOf pos)

/-- The ledger's records are those of the segments, but for some that are lost: never committed,
and at or behind `limit`. -/
structure Accounts (k : LogKind) (l : Ledger) (segments : List (List (List UInt8)))
    (limit : ℕ) : Prop where
  placed : ∀ x ∈ l.named, Placed k segments x
  split : ∃ lost, l.records = recordsOf segments ++ lost ∧
    ∀ r ∈ lost, l.committed ≤ r.1 ∧ limit ≤ r.1

theorem Placed.concat {x : ℕ} (h : Placed k segments x) (bodies : List (List UInt8)) :
    Placed k (segments ++ [bodies]) x := by
  obtain ⟨b, hget, hb⟩ := h
  obtain ⟨hlt, -⟩ := List.getElem?_eq_some_iff.mp hget
  exact ⟨b, by rw [List.getElem?_append_left hlt, hget], hb⟩

/-- Named positions when records are lost at the end of the last segment. -/
theorem Placed.cut {found : List (List UInt8)} {x : ℕ} (h : Placed k (segments ++ [bodies]) x)
    (hfits : ∀ body ∈ bodies, Fits body) (hfound : found <+: bodies) :
    Placed k (segments ++ [found]) x := by
  obtain ⟨b, hget, hb⟩ := h
  rcases lt_trichotomy (segmentOf x) segments.length with hlt | heq | hgt
  · rw [List.getElem?_append_left hlt] at hget
    exact ⟨b, by rw [List.getElem?_append_left hlt, hget], hb⟩
  · rw [heq, List.getElem?_concat_length, Option.some.injEq] at hget
    obtain rfl := hget
    refine ⟨found, by rw [heq, List.getElem?_concat_length], ?_⟩
    have htake : found = bodies.take found.length := List.prefix_iff_eq_take.mp hfound
    rcases hb with ⟨i, hi⟩ | hgap
    · rcases Nat.lt_or_ge found.length (min i bodies.length) with hlt | hge
      · right
        rw [lt_min_iff] at hlt
        have hfar := endOf_take_add (k := k) hfits hlt.1 hlt.2
        rw [← htake, ← hi, endOf, segmentHeaderLen] at hfar
        rw [endOf, segmentHeaderLen]
        omega
      · left
        refine ⟨i, hi.trans ?_⟩
        have hmin : bodies.take i = bodies.take (min i found.length) := by
          rw [List.take_eq_take_iff]
          omega
        rw [hmin, ← List.take_take, ← htake]
    · right
      exact (Nat.add_le_add_right (endOf_mono hfound) 9).trans hgap
  · rw [List.getElem?_eq_none (by simpa using hgt)] at hget
    cases hget

/-! ### Directories of a log -/

/-- A file with nothing in it, not even a header. -/
def Blank (c : List UInt8) : Prop := c = [] ∨ ∃ len, c = List.replicate (segmentHeaderLen + len) 0

/-- A segment that is being created. -/
structure Fresh (k : LogKind) (id : ℕ) (f : File) : Prop where
  id_lt : id < 2 ^ 32
  contents : ∀ c ∈ f.contents, Blank c ∨ ∃ len, c = headerBytes k id ++ List.replicate len 0

/-- **The directory of a log**, at any moment: sealed segments, then perhaps a segment that is
being created, or the active one. -/
inductive Holds (k : LogKind) (tidy : Bool) (l : Ledger) : Disk → Prop
  | allSealed {segments : List (List (List UInt8))} {d : Disk}
      (chain : SealedChain k tidy segments d) (accounts : Accounts k l segments (chainEnd k segments)) :
      Holds k tidy l d
  | fresh {segments : List (List (List UInt8))} {d : Disk} {f : File}
      (chain : SealedChain k tidy segments d) (new : Fresh k segments.length f)
      (accounts : Accounts k l segments (position segments.length segmentHeaderLen)) :
      Holds k tidy l (d ++ [(segments.length, f)])
  | live {segments : List (List (List UInt8))} {bodies : List (List UInt8)} {d : Disk} {f : File}
      {m : ℕ} (chain : SealedChain k tidy segments d) (named : f.named = true)
      (live : Live k segments.length bodies m f.contents)
      (tame : tidy = true → Tame k segments.length bodies f.contents)
      (accounts : Accounts k l (segments ++ [bodies]) (position segments.length (endOf k bodies)))
      (durable : ∀ r ∈ l.records, r.1 < l.committed →
        r.1 < position segments.length (endOf k (bodies.take m))) :
      Holds k tidy l (d ++ [(segments.length, f)])

/-- **What a reopen finds**: sealed segments, then perhaps a blank one, or one whose records end
before any end marker. -/
inductive Recoverable (k : LogKind) (tidy : Bool) (l : Ledger) : List (ℕ × List UInt8) → Prop
  | allSealed {segments : List (List (List UInt8))} {d : Disk}
      (chain : SealedChain k tidy segments d) (accounts : Accounts k l segments (chainEnd k segments)) :
      Recoverable k tidy l (files d)
  | fresh {segments : List (List (List UInt8))} {d : Disk} {image : List UInt8}
      (chain : SealedChain k tidy segments d) (id_lt : segments.length < 2 ^ 32)
      (blank : Blank image)
      (accounts : Accounts k l segments (position segments.length segmentHeaderLen)) :
      Recoverable k tidy l (files d ++ [(segments.length, image)])
  | live {segments : List (List (List UInt8))} {bodies : List (List UInt8)} {d : Disk}
      {after : List UInt8} {stop : WalkStop} (chain : SealedChain k tidy segments d)
      (id_lt : segments.length < 2 ^ 32) (fits : ∀ body ∈ bodies, Fits body)
      (small : endOf k bodies + endMarkerLen < 2 ^ 32)
      (stops : nextFrame k after = .error stop) (unsealed : stop ≠ .sealed)
      (accounts : Accounts k l (segments ++ [bodies]) (position segments.length (endOf k bodies))) :
      Recoverable k tidy l
        (files d ++ [(segments.length, written k segments.length bodies ++ after)])

/-! ### Power loss -/

theorem Accounts.mono {less : ℕ} (h : Accounts k l segments limit) (hle : less ≤ limit) :
    Accounts k l segments less where
  placed := h.placed
  split := by
    obtain ⟨lost, hrecords, hlost⟩ := h.split
    exact ⟨lost, hrecords, fun r hr => ⟨(hlost r hr).1, hle.trans (hlost r hr).2⟩⟩

/-- Committed records are in the segments. -/
theorem Accounts.lt_of_committed (h : Accounts k l (segments ++ [bodies]) limit)
    (hsmall : ∀ b ∈ segments, endOf k b + endMarkerLen < 2 ^ 32) :
    ∀ r ∈ l.records, r.1 < l.committed → r.1 < position segments.length (endOf k bodies) := by
  intro r hr hlt
  obtain ⟨lost, hrecords, hlost⟩ := h.split
  rw [hrecords, List.mem_append] at hr
  rcases hr with hr | hr
  · exact lt_of_mem_recordsOf hsmall hr
  · exact absurd hlt (not_lt.mpr (hlost r hr).1)

theorem Accounts.freshSegment (h : Accounts k l segments limit) :
    Accounts k l (segments ++ [[]]) limit where
  placed := fun x hx => (h.placed x hx).concat []
  split := by
    rw [recordsOf_concat, segmentRecords_nil, List.append_nil]
    exact h.split

/-- Records are lost at the end of the last segment, none of them committed. -/
theorem Accounts.cut {found : List (List UInt8)} {m : ℕ}
    (h : Accounts k l (segments ++ [bodies]) (position segments.length (endOf k bodies)))
    (hfits : ∀ body ∈ bodies, Fits body) (hfound : found <+: bodies)
    (hkept : bodies.take m <+: found) (hdurable : ∀ r ∈ l.records, r.1 < l.committed →
      r.1 < position segments.length (endOf k (bodies.take m))) :
    Accounts k l (segments ++ [found]) (position segments.length (endOf k found)) where
  placed := fun x hx => (h.placed x hx).cut hfits hfound
  split := by
    obtain ⟨lost, hrecords, hlost⟩ := h.split
    obtain ⟨gone, rfl⟩ := hfound
    obtain ⟨more, hmore, hbehind⟩ := segmentRecords_append (k := k) segments.length found gone
    refine ⟨more ++ lost, ?_, fun r hr => ?_⟩
    · rw [hrecords, recordsOf_concat, recordsOf_concat, hmore, List.append_assoc, List.append_assoc,
        List.append_assoc]
    rcases List.mem_append.mp hr with hr | hr
    · have hle := hbehind r hr
      refine ⟨?_, hle⟩
      by_contra hlt
      have hmem : r ∈ l.records := by
        rw [hrecords, recordsOf_concat, hmore]
        simp [hr]
      have hpos := hdurable r hmem (by omega)
      have hmono := endOf_mono (k := k) hkept
      simp only [position] at hle hpos
      omega
    · obtain ⟨hcommitted, hlimit⟩ := hlost r hr
      have hmono := endOf_mono (k := k) (List.prefix_append found gone)
      refine ⟨hcommitted, le_trans ?_ hlimit⟩
      simp only [position]
      omega

/-- A file that begins with `p` and is zeros from there on. -/
theorem eq_append_replicate {p c : List UInt8} (hlen : p.length ≤ c.length)
    (hbytes : ∀ i < p.length, c.getD i 0 = p.getD i 0) (hzeros : ZerosFrom p.length c) :
    c = p ++ List.replicate (c.length - p.length) 0 := by
  obtain ⟨r, rfl⟩ := isPrefix_of_getD hlen hbytes
  have hdrop := hzeros.drop_eq
  rw [List.drop_left] at hdrop
  rw [← hdrop]

theorem Blank.zeros {c : List UInt8} (h : Blank c) : ZerosFrom 0 c := by
  rcases h with rfl | ⟨len, rfl⟩
  · exact fun i _ => rfl
  · exact zerosFrom_append (p := []) fun b hb => List.eq_of_mem_replicate hb

/-- A segment whose creation a power loss cut short: blank, or complete. -/
theorem Fresh.image {f : File} (h : Fresh k id f) {image : List UInt8}
    (hsurv : f.survives segmentHeaderLen image = true) :
    Blank image ∨ ∃ len, image = headerBytes k id ++ List.replicate len 0 := by
  obtain ⟨⟨c, hc, hlen⟩, hbytes, head, hhead, hpiece⟩ := File.of_survives hsurv
  have hheader : (headerBytes k id).length = segmentHeaderLen := length_headerBytes id
  rcases Nat.lt_or_ge image.length segmentHeaderLen with hshort | hlong
  · -- only the empty content is shorter than a header
    left
    left
    rcases h.contents c hc with (rfl | ⟨len, rfl⟩) | ⟨len, rfl⟩
    · exact List.length_eq_zero_iff.mp hlen.symm
    · simp at hlen
      omega
    · simp [hheader] at hlen
      omega
  have hzeros : ZerosFrom segmentHeaderLen image := by
    intro i hi
    rcases Nat.lt_or_ge i image.length with hlt | hge
    · obtain ⟨c', hc', heq⟩ := hbytes i hlt
      rw [← heq]
      rcases h.contents c' hc' with hblank | ⟨len, rfl⟩
      · exact hblank.zeros i (Nat.zero_le i)
      · exact zerosFrom_append (fun b hb => List.eq_of_mem_replicate hb) i (hheader.trans_le hi)
    · exact List.getD_eq_default _ _ hge
  rcases h.contents head hhead with hblank | ⟨len, rfl⟩
  · left
    right
    refine ⟨image.length - segmentHeaderLen, ?_⟩
    have hall : ZerosFrom 0 image := by
      intro i _
      rcases Nat.lt_or_ge i segmentHeaderLen with hi | hi
      · rw [← hpiece i hi (by omega)]
        exact hblank.zeros i (Nat.zero_le i)
      · exact hzeros i hi
    have hdrop := hall.drop_eq
    rw [List.drop_zero, Nat.sub_zero] at hdrop
    rw [Nat.add_sub_cancel' hlong]
    exact hdrop
  · right
    refine ⟨image.length - segmentHeaderLen, ?_⟩
    rw [← hheader]
    refine eq_append_replicate (hheader.trans_le hlong) (fun i hi => ?_) (hheader ▸ hzeros)
    rw [← hpiece i (hheader ▸ hi) (by omega), List.getD_append _ _ _ _ hi]

/-- The frames found in the last file are whole in one of its contents. -/
theorem whole_of_undamaged {f : File} {before : List (ℕ × List UInt8)} {image : List UInt8}
    (hd : ∀ x ∈ d, x.1 ≠ id) (h : undamaged k (d ++ [(id, f)]) (before ++ [(id, image)]) = true) :
    ∀ r ∈ (walkSegment k image segmentHeaderLen image.length).records,
      ∃ c ∈ f.contents, frameAt k c r = true := by
  intro r hr
  rw [undamaged, List.all_eq_true] at h
  have hlast := h (id, image) (by simp)
  rw [List.all_eq_true] at hlast
  obtain ⟨y, hy, hat⟩ := List.any_eq_true.mp (hlast r hr)
  rw [Bool.and_eq_true, decide_eq_true_eq, List.any_eq_true] at hat
  rcases List.mem_append.mp hy with hy | hy
  · exact absurd hat.1 (hd y hy)
  · rw [List.mem_singleton.mp hy] at hat
    exact hat.2

/-- **Power loss.** What is left of the directory of a log can be reopened, with nothing lost
that was committed. -/
theorem Holds.powerLoss {tidy : Bool} (h : Holds k tidy l d) {images : List (ℕ × List UInt8)}
    (hsurv : survivors segmentHeaderLen d images = true) (hwhole : undamaged k d images = true) :
    Recoverable k tidy l images := by
  cases h with
  | @allSealed segments d chain accounts =>
    have hsurv' : survivors segmentHeaderLen (d ++ []) images = true := by rwa [List.append_nil]
    obtain ⟨left, rfl, hleft⟩ := survivors_append chain.durable hsurv'
    obtain rfl : left = [] := List.isEmpty_iff.mp hleft
    rw [List.append_nil]
    exact .allSealed chain accounts
  | @fresh segments d f chain new accounts =>
    obtain ⟨left, rfl, hleft⟩ := survivors_append chain.durable hsurv
    obtain ⟨rfl, -⟩ | ⟨image, rfl, himage⟩ := survivors_singleton hleft
    · rw [List.append_nil]
      exact .allSealed chain (accounts.mono (chainEnd_le chain))
    · rcases new.image himage with hblank | ⟨len, rfl⟩
      · exact .fresh chain new.id_lt hblank accounts
      · have hbytes : headerBytes k segments.length ++ List.replicate len 0 =
            written k segments.length [] ++ List.replicate len 0 := by simp [written]
        rw [hbytes]
        refine .live chain new.id_lt (by simp) (by rw [endOf_nil]; decide) (nextFrame_replicate len) ?_
          accounts.freshSegment
        split_ifs <;> simp
  | @live segments bodies d f m chain named live tame accounts durable =>
    obtain ⟨left, rfl, hleft⟩ := survivors_append chain.durable hsurv
    obtain ⟨-, hnot⟩ | ⟨image, rfl, himage⟩ := survivors_singleton hleft
    · rw [named] at hnot
      cases hnot
    have hframes := whole_of_undamaged chain.ne_of_mem hwhole
    obtain ⟨found, after, stop, hfound, hkept, rfl, hstop⟩ := live.walk_image himage hframes
    have haccounts := accounts.cut live.fits hfound hkept durable
    have hfits : ∀ body ∈ found, Fits body := fun body hb => live.fits body (hfound.subset hb)
    have hsmall : endOf k found + endMarkerLen < 2 ^ 32 :=
      (Nat.add_le_add_right (endOf_mono hfound) _).trans_lt live.small
    by_cases hsealed : stop = .sealed
    · -- the end marker reached the disk: a chain of sealed segments
      rw [hsealed] at hstop
      have hfile : SealedFile k tidy segments.length found
          (.durable (written k segments.length found ++ after)) :=
        { id_lt := live.id_lt
          synced := rfl
          named := rfl
          fits := hfits
          small := hsmall
          bytes := (List.prefix_append_right_inj _).mpr (isPrefix_of_sealed hstop)
          tidy_zeros := fun ht => ((tame ht).sealed_image himage hfound rfl hstop).2 }
      have hfiles : files d ++ [(segments.length, written k segments.length found ++ after)] =
          files (d ++
            [(segments.length, File.durable (written k segments.length found ++ after))]) := by
        rw [files_append]
        rfl
      rw [hfiles]
      refine .allSealed (chain.concat hfile) ?_
      rwa [chainEnd_concat]
    · exact .live chain live.id_lt hfits hsmall hstop hsealed haccounts

end SegmentedLog

end Minnal
