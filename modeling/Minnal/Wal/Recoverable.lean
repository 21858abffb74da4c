import Minnal.Wal.SegmentedLog

/-!
# What a power loss leaves of a segment

The last segment of a log may have had many contents since its last fsync, and a power loss
mixes them byte by byte. Two facts about **all** these contents make the mixture readable: they
share a beginning (the header and the records that are durable), and none of them has a **stray**
frame, one that starts where a record of the segment starts or ends without being that record
(`NoStray`). A walk of the mixture then finds a prefix of the records, the durable ones among
them (`Live.walk_image`).

A log whose appends never fail leaves only zeros past its records, and its end marker is only
ever written where the records end (`Tame`). This is what makes a reopen succeed, and what makes
the space behind a sealed segment's end marker read as unwritten.
-/

set_option linter.dupNamespace false

namespace Minnal

open ByteCodec CrashDisk
open List (append_assoc drop_left take_length getElem_mem)

variable {id byte pos : ℕ} {bodies found contents fewer : List (List UInt8)}
  {c body rest : List UInt8}

namespace SegmentedLog

/-! ### Positions -/

theorem segmentOf_position (h : byte < 2 ^ 32) : segmentOf (position id byte) = id := by
  rw [segmentOf, position]
  omega

theorem byteOf_position (h : byte < 2 ^ 32) : byteOf (position id byte) = byte := by
  rw [byteOf, position]
  omega

theorem position_eq (pos : ℕ) : position (segmentOf pos) (byteOf pos) = pos := by
  rw [position, segmentOf, byteOf]
  omega

theorem byteOf_lt (pos : ℕ) : byteOf pos < 2 ^ 32 := by
  rw [byteOf]
  omega

theorem position_lt_position {jd : ℕ} (other : ℕ) (hlt : id < jd) (h : byte < 2 ^ 32) :
    position id byte < position jd other := by
  rw [position, position]
  omega

theorem position_le_position (id : ℕ) {byte' : ℕ} (h : byte ≤ byte') :
    position id byte ≤ position id byte' :=
  Nat.add_le_add_left h _

variable (k : LogKind)

/-! ### Record boundaries -/

/-- Where the frames of these records end in their segment. -/
def endOf (bodies : List (List UInt8)) : ℕ := segmentHeaderLen + (encode k bodies).length

/-- No frame starts where a record starts or ends, other than that record. -/
def NoStray (bodies : List (List UInt8)) (c : List UInt8) : Prop :=
  ∀ i body after, nextFrame k (c.drop (endOf k (bodies.take i))) = .ok (body, after) →
    bodies[i]? = some body

/-- A segment's beginning: its header and its records. -/
def written (id : ℕ) (bodies : List (List UInt8)) : List UInt8 :=
  headerBytes k id ++ encode k bodies

variable {k}

@[simp] theorem endOf_nil : endOf k [] = segmentHeaderLen := rfl

theorem endOf_concat (bodies : List (List UInt8)) (body : List UInt8) :
    endOf k (bodies ++ [body]) = endOf k bodies + (frameHeaderLen + body.length) := by
  simp [endOf, Nat.add_assoc]

@[simp] theorem length_written (id : ℕ) (bodies : List (List UInt8)) :
    (written k id bodies).length = endOf k bodies := by
  simp [written, endOf]

theorem written_concat (id : ℕ) (bodies : List (List UInt8)) (body : List UInt8) :
    written k id (bodies ++ [body]) = written k id bodies ++ frameBytes k body := by
  simp [written]

variable {more : List (List UInt8)}

theorem written_isPrefix (id : ℕ) (h : bodies <+: more) :
    written k id bodies <+: written k id more := by
  obtain ⟨rest, rfl⟩ := h
  refine ⟨encode k rest, ?_⟩
  simp [written]

theorem endOf_mono (h : bodies <+: more) : endOf k bodies ≤ endOf k more := by
  have hlen := (written_isPrefix (k := k) 0 h).length_le
  rwa [length_written, length_written] at hlen

theorem endOf_take_le (bodies : List (List UInt8)) (i : ℕ) :
    endOf k (bodies.take i) ≤ endOf k bodies :=
  endOf_mono (List.take_prefix i bodies)

/-- What lies behind a boundary, of a file that begins with the records. -/
theorem drop_boundary (i : ℕ) (after : List UInt8) :
    (written k id bodies ++ after).drop (endOf k (bodies.take i)) =
      encode k (bodies.drop i) ++ after := by
  have hsplit : written k id bodies = written k id (bodies.take i) ++ encode k (bodies.drop i) := by
    rw [written, written, append_assoc, ← encode_append, List.take_append_drop]
  rw [hsplit, append_assoc, ← length_written id, drop_left]

/-- Records are at least nine bytes apart. -/
theorem endOf_take_add (hfits : ∀ body ∈ bodies, Fits body) {i j : ℕ} (hij : i < j)
    (hi : i < bodies.length) : endOf k (bodies.take i) + 9 ≤ endOf k (bodies.take j) := by
  have hnext : bodies.take (i + 1) = bodies.take i ++ [bodies[i]] := (List.take_concat_get' ..).symm
  have hle : endOf k (bodies.take (i + 1)) ≤ endOf k (bodies.take j) :=
    endOf_mono (List.take_prefix_take_left (by omega))
  have hpos := (hfits _ (getElem_mem hi)).1
  rw [hnext, endOf_concat, frameHeaderLen] at hle
  omega

/-! ### Files without stray frames -/

variable {after : List UInt8}

/-- Where a file has its records and then no frame, it has no stray one. -/
theorem noStray_written (hfits : ∀ body ∈ bodies, Fits body) (hafter : NoFrame k after) :
    NoStray k bodies (written k id bodies ++ after) := by
  intro i body rest hnext
  rw [drop_boundary] at hnext
  rcases Nat.lt_or_ge i bodies.length with hi | hi
  · rw [List.drop_eq_getElem_cons hi, encode_cons, append_assoc,
      nextFrame_frameBytes (hfits _ (getElem_mem hi))] at hnext
    have hpair := Except.ok.inj hnext
    rw [Prod.mk.injEq] at hpair
    rw [List.getElem?_eq_getElem hi, hpair.1]
  · rw [List.drop_of_length_le hi, encode_nil, List.nil_append] at hnext
    exact absurd hnext (hafter body rest)

/-- One more record: the files have no frame where it ends. -/
theorem NoStray.concat (h : NoStray k bodies c)
    (hnew : NoFrame k (c.drop (endOf k (bodies ++ [body])))) : NoStray k (bodies ++ [body]) c := by
  intro i found after hnext
  rcases lt_trichotomy i bodies.length with hi | rfl | hi
  · rw [List.take_append_of_le_length hi.le] at hnext
    rw [List.getElem?_append_left hi]
    exact h i found after hnext
  · rw [List.take_left] at hnext
    have hnone := h bodies.length found after (by rwa [take_length])
    simp at hnone
  · rw [List.take_of_length_le (by simpa using hi)] at hnext
    exact absurd hnext (hnew found after)

/-- A walk that finds only frames that files without stray frames have at that place finds a
prefix of the records. -/
theorem isPrefix_of_frames (hcontents : ∀ c ∈ contents, NoStray k bodies c)
    (hframes : ∀ i body, found[i]? = some body →
      ∃ c ∈ contents, ∃ after, nextFrame k (c.drop (endOf k (found.take i))) = .ok (body, after)) :
    found <+: bodies := by
  have hall : ∀ n ≤ found.length, found.take n <+: bodies := by
    intro n
    induction n with
    | zero => exact fun _ => by simp
    | succ n ih =>
      intro hn
      have hpre := ih (by omega)
      have hlen : (found.take n).length = n := List.length_take_of_le (by omega)
      have htake : found.take n = bodies.take n := by
        rw [List.prefix_iff_eq_take.mp hpre, hlen]
      have hget : found[n]? = some found[n] := List.getElem?_eq_getElem (by omega)
      obtain ⟨c, hc, after, hnext⟩ := hframes n _ hget
      rw [htake] at hnext
      have hbody := hcontents c hc n _ after hnext
      rw [← List.take_concat_get' found n (by omega), htake]
      obtain ⟨hn', heq⟩ := List.getElem?_eq_some_iff.mp hbody
      rw [← heq, List.take_concat_get' bodies n hn']
      exact List.take_prefix _ _
  simpa using hall found.length le_rfl

variable {stop : WalkStop}

/-- A walk does not stop before the end of the records the bytes begin with. -/
theorem isPrefix_of_written {durable : List (List UInt8)} (hwalk : Walks k rest found stop)
    (hfound : found <+: bodies) (hdurable : durable <+: bodies) (hfits : ∀ body ∈ bodies, Fits body)
    (hbegin : encode k durable <+: rest) : durable <+: found := by
  rcases List.prefix_or_prefix_of_prefix hfound hdurable with hle | hle
  · obtain ⟨more, rfl⟩ := hle
    rcases more with _ | ⟨body, more⟩
    · simp
    obtain ⟨-, after, rfl, hstop⟩ := hwalk
    obtain ⟨tail, htail⟩ := hbegin
    have hfit : Fits body := hfits body (hdurable.subset (by simp))
    rw [encode_append, encode_cons, append_assoc, append_assoc] at htail
    rw [← List.append_cancel_left htail, nextFrame_frameBytes hfit] at hstop
    cases hstop
  · exact hle

/-- The records of a walk and where they start. -/
theorem getElem?_recordsFrom (pos : ℕ) (bodies : List (List UInt8)) (i : ℕ) :
    (recordsFrom pos bodies)[i]? =
      bodies[i]?.map fun body => (pos + (encode k (bodies.take i)).length, body) := by
  induction bodies generalizing pos i with
  | nil => rfl
  | cons body bodies ih =>
    cases i with
    | zero => simp [recordsFrom]
    | succ i =>
      rw [recordsFrom, List.getElem?_cons_succ, ih, List.getElem?_cons_succ]
      refine congrArg (fun g => Option.map g _) (funext fun b => ?_)
      simp [Nat.add_assoc]

/-! ### Zeros and end markers -/

/-- All zeros from a byte on. -/
def ZerosFrom (pos : ℕ) (c : List UInt8) : Prop := ∀ i, pos ≤ i → c.getD i 0 = 0

/-- No mixture of the contents has an end marker here: at one of its bytes none of them does. -/
def NoEnd (pos : ℕ) (contents : List (List UInt8)) : Prop :=
  ∃ j < endMarkerLen, ∀ c ∈ contents, c.getD (pos + j) 0 ≠ 0xFF

theorem getD_drop (c : List UInt8) (pos i : ℕ) : (c.drop pos).getD i 0 = c.getD (pos + i) 0 := by
  simp [List.getD_eq_getElem?_getD, List.getElem?_drop]

theorem ZerosFrom.drop_eq (h : ZerosFrom pos c) :
    c.drop pos = List.replicate (c.length - pos) 0 := by
  refine List.ext_getElem (by simp) fun i hi hi' => ?_
  have hzero := h (pos + i) (by omega)
  rw [← getD_drop, getD_eq_of_lt hi] at hzero
  rw [hzero, List.getElem_replicate]

theorem ZerosFrom.mono {pos' : ℕ} (h : ZerosFrom pos c) (hle : pos ≤ pos') : ZerosFrom pos' c :=
  fun i hi => h i (hle.trans hi)

theorem zerosFrom_append {p r : List UInt8} (h : ∀ b ∈ r, b = 0) : ZerosFrom p.length (p ++ r) := by
  intro i hi
  rw [List.getD_append_right _ _ _ _ hi, List.getD_eq_getElem?_getD]
  rcases hget : r[i - p.length]? with _ | b
  · rfl
  · exact h b (List.mem_of_getElem? hget)

/-- The first bytes of zeros spell the length 0. -/
theorem nextFrame_replicate (n : ℕ) :
    nextFrame k (List.replicate n 0) =
      .error (if n = 0 ∨ 4 ≤ n then .unwritten else .torn n) := by
  rcases Nat.eq_zero_or_pos n with rfl | hpos
  · rfl
  have hne : List.replicate n (0 : UInt8) ≠ [] := by simpa using hpos.ne'
  rcases Nat.lt_or_ge n 4 with hlt | hge
  · rw [nextFrame, if_neg hne, if_pos (by simpa [endMarkerLen] using hlt), if_neg (by omega),
      List.length_replicate]
  · have htake : (List.replicate n (0 : UInt8)).take 4 = List.replicate 4 0 := by
      rw [List.take_replicate, min_eq_left hge]
    rw [if_pos (Or.inr hge)]
    exact nextFrame_zero hne (by simpa using hge) (by rw [htake]; rfl)

theorem noFrame_replicate (n : ℕ) : NoFrame k (List.replicate n 0) := by
  intro body after hnext
  rw [nextFrame_replicate] at hnext
  cases hnext

theorem ZerosFrom.noFrame (h : ZerosFrom pos c) : NoFrame k (c.drop pos) := by
  rw [h.drop_eq]
  exact noFrame_replicate _

theorem noFrame_of_error (h : nextFrame k rest = .error stop) : NoFrame k rest := by
  intro body after hnext
  rw [h] at hnext
  cases hnext

/-- Four bytes `0xFF` are the end marker. -/
theorem isPrefix_endMarker (h : ∀ j < endMarkerLen, rest.getD j 0 = 0xFF) :
    endMarkerBytes <+: rest := by
  have hlen : endMarkerBytes.length ≤ rest.length := by
    by_contra hlt
    rw [length_endMarkerBytes] at hlt
    have hff := h 3 (by decide)
    rw [List.getD_eq_default _ _ (by rw [endMarkerLen] at hlt; omega)] at hff
    cases hff
  refine isPrefix_of_getD hlen fun i hi => ?_
  rw [length_endMarkerBytes] at hi
  rw [h i hi]
  have hall : ∀ j < endMarkerLen, endMarkerBytes.getD j 0 = 0xFF := by decide
  rw [hall i hi]

/-- Where a walk stops at an end marker, there is one. -/
theorem isPrefix_of_sealed (h : nextFrame k rest = .error .sealed) : endMarkerBytes <+: rest := by
  rw [nextFrame] at h
  split_ifs at h with hnil hshort
  · cases h
  · cases h
  simp only at h
  split_ifs at h with hzero hend
  · cases h
  · have hlen4 : (rest.take 4).length = 4 := by
      rw [List.length_take]
      rw [endMarkerLen] at hshort
      omega
    have htake : rest.take 4 = endMarkerBytes := by
      rw [endMarkerBytes, ← hend]
      conv_lhs => rw [← leBytes_leNat (rest.take 4), hlen4]
    rw [← htake]
    exact List.take_prefix 4 rest
  · cases h
  · cases h

theorem exists_ne_of_not_sealed (h : nextFrame k rest ≠ .error .sealed) :
    ∃ j < endMarkerLen, rest.getD j 0 ≠ 0xFF := by
  by_contra hall
  push Not at hall
  obtain ⟨after, rfl⟩ := isPrefix_endMarker hall
  exact h (nextFrame_endMarker after)

theorem NoEnd.subset (h : NoEnd pos contents) (hsub : fewer ⊆ contents) : NoEnd pos fewer := by
  obtain ⟨j, hj, hne⟩ := h
  exact ⟨j, hj, fun c hc => hne c (hsub hc)⟩

/-- One more content that has the bytes of one of the others. -/
theorem NoEnd.cons (h : NoEnd pos contents) {c' : List UInt8} (hc : c ∈ contents)
    (heq : ∀ j < endMarkerLen, c'.getD (pos + j) 0 = c.getD (pos + j) 0) :
    NoEnd pos (c' :: contents) := by
  obtain ⟨j, hj, hne⟩ := h
  refine ⟨j, hj, List.forall_mem_cons.mpr ⟨?_, hne⟩⟩
  rw [heq j hj]
  exact hne c hc

/-- Where all contents are zeros or one of them has the beginning of a frame. -/
theorem noEnd_frame (hfits : Fits body) (h : ∀ c ∈ contents, ∀ j < endMarkerLen,
      c.getD (pos + j) 0 = 0 ∨ c.getD (pos + j) 0 = (frameBytes k body).getD j 0) :
    NoEnd pos contents := by
  have hnext : nextFrame k (frameBytes k body) ≠ .error .sealed := by
    have hok := nextFrame_frameBytes (k := k) hfits []
    rw [List.append_nil] at hok
    rw [hok]
    exact fun heq => nomatch heq
  obtain ⟨j, hj, hne⟩ := exists_ne_of_not_sealed hnext
  refine ⟨j, hj, fun c hc => ?_⟩
  rcases h c hc j hj with hzero | hbyte
  · rw [hzero]
    decide
  · rwa [hbyte]

/-! ### The last segment -/

/-- What holds of all contents the last segment has had since its last fsync, when `bodies` are
its records and the first `m` of them are durable. -/
structure Live (k : LogKind) (id : ℕ) (bodies : List (List UInt8)) (m : ℕ)
    (contents : List (List UInt8)) : Prop where
  id_lt : id < 2 ^ 32
  fits : ∀ body ∈ bodies, Fits body
  small : endOf k bodies + endMarkerLen < 2 ^ 32
  durable : ∀ c ∈ contents, written k id (bodies.take m) <+: c
  noStray : ∀ c ∈ contents, NoStray k bodies c

/-- What more holds when no append has failed: an end marker only ever follows the last record,
in a segment that has a successor, and has only zeros behind it. -/
structure Tame (k : LogKind) (id : ℕ) (bodies : List (List UInt8))
    (contents : List (List UInt8)) : Prop where
  inner : ∀ i < bodies.length, NoEnd (endOf k (bodies.take i)) contents
  last : NoEnd (endOf k bodies) contents ∨
    (id + 1 < 2 ^ 32 ∧ ∀ c ∈ contents, ZerosFrom (endOf k bodies + endMarkerLen) c)

variable {m : ℕ}

theorem Live.subset (h : Live k id bodies m contents) (hsub : fewer ⊆ contents) :
    Live k id bodies m fewer :=
  { h with
    durable := fun c hc => h.durable c (hsub hc)
    noStray := fun c hc => h.noStray c (hsub hc) }

theorem Tame.subset (h : Tame k id bodies contents) (hsub : fewer ⊆ contents) :
    Tame k id bodies fewer where
  inner := fun i hi => (h.inner i hi).subset hsub
  last := h.last.imp (fun hno => hno.subset hsub) fun hzero =>
    ⟨hzero.1, fun c hc => hzero.2 c (hsub hc)⟩

/-- Contents that all begin with the records have no end marker inside them. -/
theorem tame_of_isPrefix (hfits : ∀ body ∈ bodies, Fits body)
    (hbegin : ∀ c ∈ contents, written k id bodies <+: c) (hlast : NoEnd (endOf k bodies) contents ∨
      (id + 1 < 2 ^ 32 ∧ ∀ c ∈ contents, ZerosFrom (endOf k bodies + endMarkerLen) c)) :
    Tame k id bodies contents := by
  refine ⟨fun i hi => noEnd_frame (k := k) (hfits _ (getElem_mem hi)) ?_, hlast⟩
  intro c hc j hj
  obtain ⟨after, rfl⟩ := hbegin c hc
  right
  have hlen : j < (frameBytes k bodies[i]).length := by
    rw [length_frameBytes, frameHeaderLen]
    rw [endMarkerLen] at hj
    omega
  rw [← getD_drop, drop_boundary, List.drop_eq_getElem_cons hi, encode_cons, append_assoc,
    List.getD_append _ _ _ _ hlen]

/-- Contents that are the records followed by no frame. -/
theorem live_written (hid : id < 2 ^ 32) (hfits : ∀ body ∈ bodies, Fits body)
    (hsmall : endOf k bodies + endMarkerLen < 2 ^ 32)
    (h : ∀ c ∈ contents, ∃ after, c = written k id bodies ++ after ∧ NoFrame k after) :
    Live k id bodies bodies.length contents where
  id_lt := hid
  fits := hfits
  small := hsmall
  durable := fun c hc => by
    obtain ⟨after, rfl, -⟩ := h c hc
    rw [take_length]
    exact List.prefix_append _ _
  noStray := fun c hc => by
    obtain ⟨after, rfl, hno⟩ := h c hc
    exact noStray_written hfits hno

/-- A whole frame at a boundary. -/
theorem exists_of_frameAt (h : frameAt k c (pos, body) = true) :
    ∃ after, nextFrame k (c.drop pos) = .ok (body, after) := by
  rw [frameAt] at h
  split at h
  · rename_i found after hnext
    exact ⟨after, by rw [hnext, of_decide_eq_true h]⟩
  · cases h

variable {head : ℕ} {f : File} {image : List UInt8}

/-- **The last segment after a power loss.** A walk finds a prefix of its records with all that
were durable. -/
theorem Live.walk_image (h : Live k id bodies m f.contents) (hsurv : f.survives head image = true)
    (hwhole : ∀ r ∈ (walkSegment k image segmentHeaderLen image.length).records,
      ∃ c ∈ f.contents, frameAt k c r = true) :
    ∃ found after stop, found <+: bodies ∧ bodies.take m <+: found ∧
      image = written k id found ++ after ∧ nextFrame k after = .error stop := by
  obtain ⟨rest, hrest⟩ : written k id (bodies.take m) <+: image :=
    File.isPrefix_survives hsurv h.durable
  rw [written, append_assoc] at hrest
  obtain ⟨found, stop, hwalk⟩ := exists_walks (k := k) (encode k (bodies.take m) ++ rest)
  have hdrop : (image.take image.length).drop segmentHeaderLen = encode k (bodies.take m) ++ rest := by
    rw [take_length, ← hrest, ← length_headerBytes (k := k) id, drop_left]
  have hrecords : (walkSegment k image segmentHeaderLen image.length).records =
      recordsFrom segmentHeaderLen found := by
    rw [walkSegment_eq (hdrop ▸ hwalk)]
  have hfound : found <+: bodies := by
    refine isPrefix_of_frames h.noStray fun i body hget => ?_
    have hmem : (endOf k (found.take i), body) ∈
        (walkSegment k image segmentHeaderLen image.length).records := by
      refine List.mem_of_getElem? (i := i) ?_
      rw [hrecords, getElem?_recordsFrom (k := k), hget]
      rfl
    obtain ⟨c, hc, hat⟩ := hwhole _ hmem
    obtain ⟨after, hnext⟩ := exists_of_frameAt hat
    exact ⟨c, hc, after, hnext⟩
  have hdurable := isPrefix_of_written hwalk hfound (List.take_prefix m bodies) h.fits
    (List.prefix_append _ _)
  obtain ⟨-, after, hafter, hstop⟩ := hwalk
  refine ⟨found, after, stop, hfound, hdurable, ?_, hstop⟩
  rw [← hrest, hafter, written, append_assoc]

/-- An end marker found after a power loss follows the last record and has zeros behind it. -/
theorem Tame.sealed_image (h : Tame k id bodies f.contents) (hsurv : f.survives head image = true)
    (hfound : found <+: bodies) (himage : image = written k id found ++ after)
    (hstop : nextFrame k after = .error .sealed) :
    found = bodies ∧ id + 1 < 2 ^ 32 ∧ ZerosFrom (endOf k found + endMarkerLen) image := by
  obtain ⟨-, hbytes, -⟩ := File.of_survives hsurv
  obtain ⟨junk, rfl⟩ := isPrefix_of_sealed hstop
  have hff : ∀ j < endMarkerLen, image.getD (endOf k found + j) 0 = 0xFF := by
    intro j hj
    have hall : ∀ j < endMarkerLen, endMarkerBytes.getD j 0 = 0xFF := by decide
    rw [himage, ← length_written id, ← getD_drop, drop_left,
      List.getD_append _ _ _ _ (by rwa [length_endMarkerBytes]), hall j hj]
  have hlen : endOf k found + endMarkerLen ≤ image.length := by
    rw [himage]
    simp
  -- one of the contents has each of the marker's bytes, so no boundary without it is here
  have hcontent : ¬ NoEnd (endOf k found) f.contents := by
    rintro ⟨j, hj, hne⟩
    obtain ⟨c, hc, heq⟩ := hbytes (endOf k found + j) (by omega)
    exact hne c hc (heq.trans (hff j hj))
  have heq : found = bodies := by
    by_contra hne
    have hlt : found.length < bodies.length :=
      lt_of_le_of_ne hfound.length_le fun hl => hne (hfound.eq_of_length hl)
    have hinner := h.inner found.length hlt
    rw [← List.prefix_iff_eq_take.mp hfound] at hinner
    exact hcontent hinner
  refine ⟨heq, ?_⟩
  rcases h.last with hno | ⟨hid, hzeros⟩
  · exact absurd (heq ▸ hno) hcontent
  · refine ⟨hid, fun i hi => ?_⟩
    rcases Nat.lt_or_ge i image.length with hlt | hge
    · obtain ⟨c, hc, hci⟩ := hbytes i hlt
      rw [← hci]
      exact hzeros c hc i (heq ▸ hi)
    · exact List.getD_eq_default _ _ hge

end SegmentedLog

end Minnal
