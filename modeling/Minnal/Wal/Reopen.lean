import Minnal.Wal.Rotation

/-!
# Opening the log

What `openLog` returns on the directory a power loss left, and what its system calls do to it.

Sealed segments are read from the cut on (`walkAllSealed_eq`). The only one whose reading can
fail is the one the cut lies in: a cut behind the segment's end marker is a position whose
records a power loss took, and what is there must read as unwritten space. One to three bytes
before the end of the file do not, and are taken for a torn frame: a **short gap**. The last
segment is read in full and made ready for appends (`readLast_spec`), and a log whose saved
progress names a position further on gets a new segment (`passFurthest_spec`).
-/

set_option linter.dupNamespace false

namespace Minnal

open ByteCodec CrashDisk
open List (append_assoc append_nil length_append nil_append getLast?_concat filter_append take_zero)

variable {id cut size : ℕ} {bodies : List (List UInt8)} {f : File} {images : List (ℕ × List UInt8)}
  {first : List (List (List UInt8))} {r : LastRead}

namespace SegmentedLog

variable {k : LogKind} {tidy : Bool} {l : Ledger} {segments : List (List (List UInt8))} {d : Disk}

/-! ### Headers -/

theorem checkHeader_headerBytes (hid : id < 2 ^ 32) (rest : List UInt8) :
    checkHeader k (headerBytes k id ++ rest) id = .ok () := by
  have hlen := k.format.length_magic
  have hmagic : readAt (headerBytes k id ++ rest) 0 4 = k.format.magic := by
    simp [readAt, headerBytes, hlen, append_assoc]
  have hversion : readAt (headerBytes k id ++ rest) 4 4 = leBytes 4 k.format.version := by
    have h := readAt_append k.format.magic (leBytes 4 k.format.version) (leBytes 8 id ++ rest)
    rw [hlen, length_leBytes] at h
    rwa [headerBytes, append_assoc, append_assoc]
  have hseg : readAt (headerBytes k id ++ rest) 8 8 = leBytes 8 id := by
    have h := readAt_append (k.format.magic ++ leBytes 4 k.format.version) (leBytes 8 id) rest
    rw [length_append, hlen, length_leBytes, length_leBytes] at h
    rwa [headerBytes, append_assoc]
  have hlt : id < 256 ^ 8 := hid.trans (by decide)
  have hver : k.format.version < 256 ^ 4 := k.format.version_lt.trans_eq (by decide)
  rw [checkHeader]
  simp only [hmagic, hversion, hseg, leNat_leBytes_of_lt hlt, leNat_leBytes_of_lt hver, ne_eq,
    not_true_eq_false, if_false]

theorem headerIsBlank_headerBytes (id : ℕ) (rest : List UInt8) :
    headerIsBlank (headerBytes k id ++ rest) = false := by
  have htake : readAt (headerBytes k id ++ rest) 0 segmentHeaderLen = headerBytes k id := by
    rw [readAt, List.drop_zero, ← length_headerBytes (k := k) id, List.take_left]
  rw [headerIsBlank, htake]
  by_contra hall
  rw [Bool.not_eq_false, List.all_eq_true] at hall
  refine k.format.magic_ne (List.eq_replicate_iff.mpr ⟨k.format.length_magic, fun b hb => ?_⟩)
  exact beq_iff_eq.mp (hall b (by simp [headerBytes, hb]))

theorem headerIsBlank_of_blank {c : List UInt8} (h : Blank c) :
    c.length < segmentHeaderLen ∨ headerIsBlank c = true := by
  rcases h with rfl | ⟨len, rfl⟩
  · exact .inl (by decide)
  · right
    rw [headerIsBlank, List.all_eq_true]
    intro b hb
    rw [readAt, List.drop_zero] at hb
    exact beq_iff_eq.mpr (List.eq_of_mem_replicate (List.mem_of_mem_take hb))

/-! ### Reading one segment -/

section Segment

variable {id : ℕ} {bodies : List (List UInt8)} {after : List UInt8} {stop : WalkStop}

/-- A walk from a boundary. -/
theorem walkSegment_written (hfits : ∀ body ∈ bodies, Fits body)
    (hstop : nextFrame k after = .error stop) (i : ℕ) :
    walkSegment k (written k id bodies ++ after) (endOf k (bodies.take i))
        (written k id bodies ++ after).length =
      ⟨recordsFrom (endOf k (bodies.take i)) (bodies.drop i), endOf k bodies, stop⟩ := by
  have hend : endOf k (bodies.take i) + (encode k (bodies.drop i)).length = endOf k bodies := by
    rw [endOf, endOf, Nat.add_assoc, ← length_append, ← encode_append, List.take_append_drop]
  rw [← hend]
  refine walkSegment_eq ⟨fun body hb => hfits body (List.mem_of_mem_drop hb), after, ?_, hstop⟩
  rw [List.take_length, drop_boundary]

/-- A walk of the whole segment. -/
theorem walkSegment_all (hfits : ∀ body ∈ bodies, Fits body)
    (hstop : nextFrame k after = .error stop) :
    walkSegment k (written k id bodies ++ after) segmentHeaderLen
        (written k id bodies ++ after).length =
      ⟨recordsFrom segmentHeaderLen bodies, endOf k bodies, stop⟩ :=
  walkSegment_written hfits hstop 0

/-- The records of a segment from a boundary on. -/
theorem visitFromCut_boundary {i : ℕ} (hid : id = segmentOf cut)
    (hi : max (byteOf cut) segmentHeaderLen = endOf k (bodies.take i)) :
    visitFromCut cut id (recordsFrom (endOf k (bodies.take i)) (bodies.drop i)) =
      (segmentRecords id bodies).filter fun r => decide (cut ≤ r.1) := by
  have hsplit : segmentRecords id bodies = segmentRecords id (bodies.take i) ++
      (recordsFrom (endOf k (bodies.take i)) (bodies.drop i)).map
        fun r => (position id r.1, r.2) := by
    conv_lhs => rw [← List.take_append_drop i bodies]
    rw [segmentRecords, segmentRecords, recordsFrom_append (k := k), List.map_append]
    rfl
  have hnone : ((segmentRecords id (bodies.take i)).filter fun r => decide (cut ≤ r.1)) = [] := by
    refine List.filter_eq_nil_iff.mpr fun r hr => ?_
    obtain ⟨hge, hlt⟩ := lt_of_mem_segmentRecords (k := k) hr
    have hcut := position_eq cut
    rw [← hid] at hcut
    rw [← hi] at hlt
    rw [decide_eq_true_eq, not_le]
    simp only [position] at hge hlt hcut
    omega
  rw [hsplit, filter_append, hnone, nil_append]
  rfl

theorem filter_of_segment_lt (hlt : id < segmentOf cut) (hsmall : endOf k bodies < 2 ^ 32) :
    ((segmentRecords id bodies).filter fun r => decide (cut ≤ r.1)) = [] := by
  refine List.filter_eq_nil_iff.mpr fun r hr => ?_
  have hpos := (lt_of_mem_segmentRecords (k := k) hr).2.trans
    (position_lt_position (byteOf cut) hlt hsmall)
  rw [position_eq] at hpos
  rw [decide_eq_true_eq, not_le]
  exact hpos

end Segment

/-! ### Sealed segments -/

/-- The cut lies behind the last record of this segment, one to three bytes before the end of
its file. -/
def shortGap (k : LogKind) (cut : ℕ) (x : ℕ × List UInt8) : Bool :=
  decide (x.1 = segmentOf cut) &&
    decide ((walkSegment k x.2 segmentHeaderLen x.2.length).pos < byteOf cut) &&
    decide (byteOf cut < x.2.length) && decide (x.2.length < byteOf cut + endMarkerLen)

/-- Where reading may start in a sealed segment: at a boundary, or in the zeros behind it. -/
def StartsWell (k : LogKind) (tidy : Bool) (cut id : ℕ) (bodies : List (List UInt8)) : Prop :=
  id = segmentOf cut → (∃ i, max (byteOf cut) segmentHeaderLen = endOf k (bodies.take i)) ∨
    (tidy = true ∧ endOf k bodies + 9 ≤ byteOf cut)

section Sealed

variable {id cut : ℕ} {bodies : List (List UInt8)} {f : File}

theorem SealedFile.eq_written (h : SealedFile k tidy id bodies f) :
    ∃ junk, f.data = written k id bodies ++ (endMarkerBytes ++ junk) := by
  obtain ⟨junk, hjunk⟩ := h.bytes
  exact ⟨junk, by rw [← hjunk, append_assoc]⟩

theorem SealedFile.le_length (h : SealedFile k tidy id bodies f) :
    endOf k bodies + endMarkerLen ≤ f.data.length := by
  have hlen := h.bytes.length_le
  rwa [length_append, length_written, length_endMarkerBytes] at hlen

theorem SealedFile.header (h : SealedFile k tidy id bodies f) :
    checkHeader k f.data id = .ok () := by
  obtain ⟨junk, hjunk⟩ := h.eq_written
  rw [hjunk, written, append_assoc]
  exact checkHeader_headerBytes h.id_lt _

/-- The walk of a sealed segment. -/
theorem SealedFile.walk (h : SealedFile k tidy id bodies f) (i : ℕ) :
    walkSegment k f.data (endOf k (bodies.take i)) f.data.length =
      ⟨recordsFrom (endOf k (bodies.take i)) (bodies.drop i), endOf k bodies, .sealed⟩ := by
  obtain ⟨junk, hjunk⟩ := h.eq_written
  rw [hjunk]
  exact walkSegment_written h.fits (nextFrame_endMarker junk) i

/-- The end marker is found by a walk up to anywhere behind it. -/
theorem SealedFile.sealedAtOrBelow_eq (h : SealedFile k tidy id bodies f) {start : ℕ}
    (hstart : endOf k bodies ≤ start) : sealedAtOrBelow k f.data start = some (endOf k bodies) := by
  obtain ⟨junk, hjunk⟩ := h.eq_written
  have hlen := h.le_length
  set limit := min (start + endMarkerLen) f.data.length with hlimit
  have hle : (written k id bodies ++ endMarkerBytes).length ≤ limit := by
    simp only [length_append, length_written, length_endMarkerBytes]
    omega
  have htake : f.data.take limit = written k id bodies ++ (endMarkerBytes ++
      junk.take (limit - (written k id bodies ++ endMarkerBytes).length)) := by
    rw [hjunk, ← append_assoc, List.take_append, List.take_of_length_le hle, append_assoc]
  have hwalk : walkSegment k f.data segmentHeaderLen limit =
      ⟨recordsFrom segmentHeaderLen bodies, endOf k bodies, .sealed⟩ := by
    refine walkSegment_eq ⟨h.fits, _, ?_, nextFrame_endMarker (junk.take
      (limit - (written k id bodies ++ endMarkerBytes).length))⟩
    have hdrop : ∀ after, (written k id bodies ++ after).drop segmentHeaderLen =
        encode k bodies ++ after := fun after => drop_boundary 0 after
    rw [htake]
    exact hdrop _
  rw [sealedAtOrBelow]
  simp only [← hlimit, hwalk, hstart, and_self, if_true]

theorem shortGap_sealed (h : SealedFile k tidy id bodies f) (cut : ℕ) :
    shortGap k cut (id, f.data) = true ↔ id = segmentOf cut ∧ endOf k bodies < byteOf cut ∧
      byteOf cut < f.data.length ∧ f.data.length < byteOf cut + endMarkerLen := by
  have hwalk := h.walk 0
  rw [take_zero, endOf_nil] at hwalk
  simp [shortGap, hwalk, and_assoc]

/-- **Reading a sealed segment** fails only in a short gap. -/
theorem walkSealed_eq (h : SealedFile k tidy id bodies f) (hcut : StartsWell k tidy cut id bodies) :
    walkSealed k cut id f.data = if shortGap k cut (id, f.data) then
        .error (.damaged id (byteOf cut))
      else .ok ((segmentRecords id bodies).filter fun r => decide (cut ≤ r.1)) := by
  have hlen := h.le_length
  have hheader : ¬ f.data.length < segmentHeaderLen := by
    rw [endOf] at hlen
    omega
  have hsmall := h.small
  rw [endMarkerLen] at hsmall
  have hgap := shortGap_sealed h cut
  rw [walkSealed, if_neg hheader]
  simp only [h.header]
  rcases lt_trichotomy id (segmentOf cut) with hlt | heq | hgt
  · have hno : ¬ shortGap k cut (id, f.data) = true := fun hs => hlt.ne (hgap.mp hs).1
    rw [if_pos hlt, if_neg hno, filter_of_segment_lt (k := k) hlt (by omega)]
  · rw [if_neg heq.not_lt, startIn, if_pos heq]
    rcases hcut heq with ⟨i, hi⟩ | ⟨ht, hfar⟩
    · have hle := endOf_take_le (k := k) bodies i
      have hno : ¬ shortGap k cut (id, f.data) = true := by
        intro hs
        have hpast := (hgap.mp hs).2.1
        omega
      rw [hi]
      simp only [h.walk i]
      rw [if_neg hno, visitFromCut_boundary heq hi]
    · -- behind the end marker
      have hstart : max (byteOf cut) segmentHeaderLen = byteOf cut := by
        rw [endOf] at hfar
        omega
      have hzeros := ((h.tidy_zeros ht).2.mono (show _ ≤ byteOf cut by
        rw [endMarkerLen]
        omega)).drop_eq
      have hwalk : walkSegment k f.data (byteOf cut) f.data.length =
          ⟨[], byteOf cut, if f.data.length - byteOf cut = 0 ∨ 4 ≤ f.data.length - byteOf cut
            then .unwritten else .torn (f.data.length - byteOf cut)⟩ := by
        have hwalks : Walks k ((f.data.take f.data.length).drop (byteOf cut)) [] _ :=
          ⟨by simp, _, by rw [List.take_length, hzeros]; rfl, nextFrame_replicate _⟩
        exact walkSegment_eq hwalks
      have hnone : ((segmentRecords id bodies).filter fun r => decide (cut ≤ r.1)) = [] := by
        refine List.filter_eq_nil_iff.mpr fun r hr => ?_
        have hpos := (lt_of_mem_segmentRecords (k := k) hr).2
        have hcutpos := position_eq cut
        rw [← heq] at hcutpos
        rw [decide_eq_true_eq, not_le]
        simp only [position] at hpos hcutpos
        omega
      rw [hstart]
      simp only [hwalk, hnone]
      by_cases hs : shortGap k cut (id, f.data) = true
      · obtain ⟨-, -, hin, hshort⟩ := hgap.mp hs
        rw [endMarkerLen] at hshort
        rw [if_pos hs, if_neg (by omega)]
      · have hno : ¬ (id = segmentOf cut ∧ endOf k bodies < byteOf cut ∧
            byteOf cut < f.data.length ∧ f.data.length < byteOf cut + endMarkerLen) :=
          fun hall => hs (hgap.mpr hall)
        rw [endMarkerLen] at hno
        have hpast : segmentHeaderLen < byteOf cut := by
          rw [endOf] at hfar
          omega
        have hmarker := h.sealedAtOrBelow_eq (show endOf k bodies ≤ byteOf cut by omega)
        rw [if_neg hs, if_pos (by omega)]
        simp only [hmarker, Option.isSome_some, hpast, and_self, if_true]
        rfl
  · have hno : ¬ shortGap k cut (id, f.data) = true := fun hs => hgt.ne' (hgap.mp hs).1
    have hwalk := h.walk 0
    rw [take_zero, endOf_nil] at hwalk
    rw [if_neg hgt.not_gt, startIn, if_neg hgt.ne', if_neg hno]
    simp only [hwalk]
    rfl

end Sealed

/-- The read of the chain: its records from the cut on, unless the cut lies in a short gap. -/
theorem walkAllSealed_eq (chain : SealedChain k tidy segments d)
    (hcut : ∀ id bodies, segments[id]? = some bodies → StartsWell k tidy cut id bodies) :
    ((files d).any (shortGap k cut) = false → walkAllSealed k cut (files d) =
        .ok ((recordsOf segments).filter fun r => decide (cut ≤ r.1))) ∧
      ((files d).any (shortGap k cut) = true → ∃ e, walkAllSealed k cut (files d) = .error e) := by
  have happend : ∀ (xs ys : List (ℕ × List UInt8)), walkAllSealed k cut (xs ++ ys) =
      (walkAllSealed k cut xs).bind fun visited =>
        (walkAllSealed k cut ys).map fun more => visited ++ more := by
    intro xs ys
    induction xs with
    | nil =>
      rw [nil_append, walkAllSealed]
      cases walkAllSealed k cut ys <;> rfl
    | cons x xs ih =>
      obtain ⟨id, file⟩ := x
      rw [List.cons_append, walkAllSealed, walkAllSealed, ih]
      cases walkSealed k cut id file with
      | error e => rfl
      | ok visited =>
        cases walkAllSealed k cut xs with
        | error e => rfl
        | ok more =>
          cases walkAllSealed k cut ys with
          | error e => rfl
          | ok rest => simp [Except.map, Except.bind]
  induction chain with
  | nil => exact ⟨fun _ => rfl, fun h => by cases h⟩
  | @concat segments d bodies f chain file ih =>
    have hlast := hcut segments.length bodies (by simp)
    obtain ⟨hok, herror⟩ := ih fun id b hget => hcut id b (by
      obtain ⟨hlt, -⟩ := List.getElem?_eq_some_iff.mp hget
      rw [List.getElem?_append_left hlt, hget])
    have hfiles : files (d ++ [(segments.length, f)]) = files d ++ [(segments.length, f.data)] := by
      rw [files_append]
      rfl
    have hone : walkAllSealed k cut [(segments.length, f.data)] =
        (walkSealed k cut segments.length f.data).map fun visited => visited ++ [] := by
      rw [walkAllSealed]
      cases walkSealed k cut segments.length f.data <;> rfl
    rw [hfiles, List.any_append, happend, hone, walkSealed_eq file hlast, recordsOf_concat,
      filter_append]
    have hany : [(segments.length, f.data)].any (shortGap k cut) =
        shortGap k cut (segments.length, f.data) := by simp
    rw [hany]
    by_cases hbefore : (files d).any (shortGap k cut) = true
    · obtain ⟨e, he⟩ := herror hbefore
      rw [hbefore, he]
      refine ⟨fun h => ?_, fun _ => ⟨e, rfl⟩⟩
      rw [Bool.true_or] at h
      cases h
    · rw [Bool.not_eq_true] at hbefore
      rw [hok hbefore, hbefore, Bool.false_or]
      refine ⟨fun hno => ?_, fun hs => ?_⟩
      · rw [if_neg (by rw [hno]; exact Bool.false_ne_true)]
        simp [Except.map, Except.bind]
      · rw [if_pos hs]
        exact ⟨_, rfl⟩

/-! ### The last segment -/

/-- An open log on its disk: a chain of sealed segments and the active one. -/
structure LogAt (k : LogKind) (tidy : Bool) (d : Disk) (log : Log)
    (segments : List (List (List UInt8))) (bodies : List (List UInt8)) (m : ℕ) (sealed : Disk)
    (f : File) : Prop where
  disk : d = sealed ++ [(segments.length, f)]
  chain : SealedChain k tidy segments sealed
  active : ActiveFile k tidy segments.length bodies m f
  segmentId : log.segmentId = segments.length
  pos : log.pos = endOf k bodies
  le_size : minSegmentSize ≤ log.segmentSize
  size_lt : log.segmentSize < 2 ^ 32

/-- While a tail is being zeroed: all contents are the records and something at one of whose
first bytes no end marker can be. -/
theorem holds_trimmed (chain : SealedChain k tidy segments d) (hid : segments.length < 2 ^ 32)
    (hfits : ∀ body ∈ bodies, Fits body) (hsmall : endOf k bodies + endMarkerLen < 2 ^ 32)
    (hnamed : f.named = true) (accounts : ∀ limit, Accounts k l (segments ++ [bodies]) limit)
    {j : ℕ} (hj : j < endMarkerLen)
    (h : ∀ c ∈ f.contents, ∃ after, c = written k segments.length bodies ++ after ∧
      NoFrame k after ∧ after.getD j 0 ≠ 0xFF) : Holds k tidy l (d ++ [(segments.length, f)]) := by
  have hlive := live_written hid hfits hsmall fun c hc => by
    obtain ⟨after, hafter, hno, -⟩ := h c hc
    exact ⟨after, hafter, hno⟩
  refine .live chain hnamed hlive (fun _ => tame_of_isPrefix hfits (fun c hc => ?_) (.inl ?_))
    (accounts _) ?_
  · obtain ⟨after, rfl, -⟩ := h c hc
    exact List.prefix_append _ _
  · refine ⟨j, hj, fun c hc => ?_⟩
    obtain ⟨after, rfl, -, hbyte⟩ := h c hc
    rwa [← getD_drop, ← length_written segments.length, List.drop_left]
  · rw [List.take_length]
    exact (accounts 0).lt_of_committed chain.small

/-- **Zeroing a tail**, and the fsync after it. -/
theorem zeroPast_holds {after : List UInt8} {stop : WalkStop}
    (chain : SealedChain k tidy segments d) (hid : segments.length < 2 ^ 32)
    (hfits : ∀ body ∈ bodies, Fits body) (hsmall : endOf k bodies + endMarkerLen < 2 ^ 32)
    (hstop : nextFrame k after = .error stop) (hunsealed : stop ≠ .sealed)
    (accounts : ∀ limit, Accounts k l (segments ++ [bodies]) limit) (size : ℕ) :
    let base := d ++ [(segments.length, File.durable (written k segments.length bodies ++ after))]
    let steps := zeroPast segments.length (endOf k bodies)
      (written k segments.length bodies ++ after).length size ++ [Step.sync segments.length]
    Throughout (Holds k tidy l) base steps ∧
      ∃ f, applyAll base steps = d ++ [(segments.length, f)] ∧
        ActiveFile k tidy segments.length bodies bodies.length f := by
  have hne := chain.ne_of_mem
  obtain ⟨j, hj, hbyte⟩ : ∃ j < endMarkerLen, after.getD j 0 ≠ 0xFF := by
    refine exists_ne_of_not_sealed (k := k) fun hsealed => hunsealed ?_
    rw [hstop] at hsealed
    exact Except.error.inj hsealed
  have hzero : ∀ n, (List.replicate n (0 : UInt8)).getD j 0 ≠ 0xFF := by
    intro n
    have hz : ZerosFrom 0 ([] ++ List.replicate n (0 : UInt8)) :=
      zerosFrom_append (p := []) fun b hb => List.eq_of_mem_replicate hb
    rw [nil_append] at hz
    rw [hz j (Nat.zero_le j)]
    decide
  set w := written k segments.length bodies with hw
  have hlen : w.length = endOf k bodies := length_written segments.length bodies
  -- one content more, the records and zeros
  have hmore : ∀ {f : File} {n : ℕ}, (∀ c ∈ f.contents, ∃ after, c = w ++ after ∧ NoFrame k after ∧
      after.getD j 0 ≠ 0xFF) → ∀ c ∈ (f.change (w ++ List.replicate n 0)).contents,
        ∃ after, c = w ++ after ∧ NoFrame k after ∧ after.getD j 0 ≠ 0xFF := by
    intro f n h
    exact List.forall_mem_cons.mpr ⟨⟨_, rfl, noFrame_replicate n, hzero n⟩, h⟩
  have hfirst : ∀ c ∈ (File.durable (w ++ after)).contents, ∃ after, c = w ++ after ∧
      NoFrame k after ∧ after.getD j 0 ≠ 0xFF := by
    intro c hc
    exact ⟨after, List.mem_singleton.mp hc, noFrame_of_error hstop, hbyte⟩
  have hholds : ∀ {f : File}, f.named = true → (∀ c ∈ f.contents, ∃ after, c = w ++ after ∧
      NoFrame k after ∧ after.getD j 0 ≠ 0xFF) → Holds k tidy l (d ++ [(segments.length, f)]) :=
    fun hnamed h => holds_trimmed chain hid hfits hsmall hnamed accounts hj h
  have hresize : ∀ n, endOf k bodies ≤ n →
      resize w n = w ++ List.replicate (n - endOf k bodies) 0 := by
    intro n hn
    rw [resize_of_le (hlen.trans_le hn), hlen]
  -- the last two calls, on a file that ends at the tail
  have hlast : ∀ {f : File}, f.named = true → f.data = w → (∀ c ∈ f.contents, ∃ after,
      c = w ++ after ∧ NoFrame k after ∧ after.getD j 0 ≠ 0xFF) → ∀ n, endOf k bodies ≤ n →
      Throughout (Holds k tidy l) (d ++ [(segments.length, f)])
          [.setLen segments.length n, .sync segments.length] ∧
        ∃ g, applyAll (d ++ [(segments.length, f)])
            [.setLen segments.length n, .sync segments.length] = d ++ [(segments.length, g)] ∧
          ActiveFile k tidy segments.length bodies bodies.length g := by
    intro f hnamed hdata hcontents n hn
    have hactive : ActiveFile k tidy segments.length bodies bodies.length
        { f.change (resize f.data n) with older := [] } :=
      .zeros hid hfits hsmall hnamed rfl (by rw [hdata, hresize n hn]; rfl)
    refine ⟨throughout_cons (hholds hnamed hcontents) ?_, _, ?_, hactive⟩
    · rw [setLen_last hne, hdata, hresize n hn]
      refine throughout_cons (hholds hnamed (hmore hcontents)) ?_
      rw [sync_last hne]
      refine throughout_nil (hholds hnamed fun c hc => ⟨_, List.mem_singleton.mp hc,
        noFrame_replicate _, hzero _⟩)
    · rw [applyAll_cons, setLen_last hne, applyAll_cons, sync_last hne, applyAll_nil]
  intro base steps
  have hmax : endOf k bodies ≤ max (w ++ after).length size := by
    rw [length_append, hlen]
    exact (Nat.le_add_right _ _).trans (le_max_left _ _)
  rcases Nat.lt_or_ge (endOf k bodies) (w ++ after).length with hlt | hge
  · have hsteps : steps = .setLen segments.length (endOf k bodies) ::
        [.setLen segments.length (max (w ++ after).length size), .sync segments.length] := by
      simp only [steps, zeroPast, if_pos hlt, List.cons_append, nil_append]
    have hcut : resize (w ++ after) (endOf k bodies) = w := by
      rw [← hlen, resize_append]
    have happly : apply base (.setLen segments.length (endOf k bodies)) =
        d ++ [(segments.length, (File.durable (w ++ after)).change w)] := by
      simp only [base]
      rw [setLen_last hne]
      exact congrArg (fun c => d ++ [(segments.length, (File.durable (w ++ after)).change c)]) hcut
    have hcontents := hmore hfirst (n := 0)
    rw [List.replicate_zero, append_nil] at hcontents
    obtain ⟨hthrough, g, hg, hactive⟩ := hlast (f := (File.durable (w ++ after)).change w) rfl rfl
      hcontents _ hmax
    rw [hsteps]
    refine ⟨throughout_cons (hholds rfl hfirst) ?_, g, ?_, hactive⟩
    · rw [happly]
      exact hthrough
    · rw [applyAll_cons, happly]
      exact hg
  · have hnil : after = [] := by
      rw [length_append, hlen] at hge
      exact List.length_eq_zero_iff.mp (by omega)
    have hsteps : steps =
        [.setLen segments.length (max (w ++ after).length size), .sync segments.length] := by
      simp only [steps, zeroPast, if_neg hge.not_gt, nil_append, List.cons_append]
    rw [hsteps]
    exact hlast rfl (by rw [hnil, append_nil]; rfl) hfirst _ hmax

/-- A segment is created, and fsynced once more. -/
theorem create_sync_holds (chain : SealedChain k tidy segments d) (hid : segments.length < 2 ^ 32)
    (hplaced : ∀ x ∈ l.named, Placed k segments x) (hrecords : l.records = recordsOf segments)
    {base : Disk}
    (hbase : base = d ∨ ∃ g, base = d ++ [(segments.length, g)] ∧ Fresh k segments.length g)
    (hsize : segmentHeaderLen ≤ size) :
    Throughout (Holds k tidy l) base
        (createSegment k segments.length size ++ [Step.sync segments.length]) ∧
      applyAll base (createSegment k segments.length size ++ [Step.sync segments.length]) =
        d ++ [(segments.length, File.durable
          (headerBytes k segments.length ++ List.replicate (size - segmentHeaderLen) 0))] := by
  obtain ⟨hthrough, hfinal⟩ :=
    createSegment_holds chain hid (accounts_of_eq hplaced hrecords) hbase hsize
  have hlast := hthrough.last
  rw [hfinal] at hlast
  have hsync := sync_last (f := .durable (headerBytes k segments.length ++
    List.replicate (size - segmentHeaderLen) 0)) chain.ne_of_mem
  constructor
  · refine hthrough.append ?_
    rw [hfinal]
    refine throughout_cons hlast ?_
    rw [hsync]
    exact throughout_nil hlast
  · rw [applyAll_append, hfinal, applyAll_cons, hsync, applyAll_nil]
    rfl

theorem Placed.lt {x : ℕ} (h : Placed k segments x) : x < position segments.length 0 := by
  obtain ⟨bodies, hget, -⟩ := h
  obtain ⟨hlt, -⟩ := List.getElem?_eq_some_iff.mp hget
  have hpos := position_lt_position 0 hlt (byteOf_lt x)
  rwa [position_eq] at hpos

theorem Placed.startsWell {more : List (List (List UInt8))} {x : ℕ}
    (h : Placed k (segments ++ more) x) (ht : tidy = true) :
    ∀ id bodies, segments[id]? = some bodies → StartsWell k tidy x id bodies := by
  intro id bodies hget hid
  obtain ⟨found, hfound, hplace⟩ := h
  obtain ⟨hlt, -⟩ := List.getElem?_eq_some_iff.mp hget
  rw [← hid, List.getElem?_append_left hlt, hget, Option.some.injEq] at hfound
  rw [hfound]
  exact hplace.imp_right fun hgap => ⟨ht, hgap⟩

theorem startsWell_zero (id : ℕ) (bodies : List (List UInt8)) : StartsWell k tidy 0 id bodies :=
  fun _ => .inl ⟨0, by rw [take_zero, endOf_nil]; rfl⟩

/-- The last segment id there is has been used, and saved progress lies behind its records. -/
def noIdLeft (k : LogKind) (furthest : ℕ) (images : List (ℕ × List UInt8)) : Bool :=
  images.getLast?.any fun x => decide (x.1 + 1 = 2 ^ 32) &&
    decide (position x.1 (walkSegment k x.2 segmentHeaderLen x.2.length).pos < furthest)

/-- What reading the last segment leaves: a log with these segments, ready for appends. -/
structure ReadOut (k : LogKind) (tidy : Bool) (l : Ledger) (images : List (ℕ × List UInt8))
    (first : List (List (List UInt8))) (cut : ℕ) (steps : List Step) (r : LastRead)
    (segments : List (List (List UInt8))) (bodies : List (List UInt8)) (sealed : Disk)
    (f : File) : Prop where
  chain : SealedChain k tidy segments sealed
  active : ActiveFile k tidy segments.length bodies bodies.length f
  final : applyAll (restart images) (steps ++ [Step.sync r.segmentId]) =
    sealed ++ [(segments.length, f)]
  segmentId : r.segmentId = segments.length
  pos : r.pos = endOf k bodies
  visited : ((recordsOf first).filter fun x => decide (cut ≤ x.1)) ++ r.visited =
    (recordsOf (segments ++ [bodies])).filter fun x => decide (cut ≤ x.1)
  accounts : Accounts k l (segments ++ [bodies]) r.recordsEnd
  below : ∀ x ∈ recordsOf (segments ++ [bodies]), x.1 < r.recordsEnd
  through : ∀ l' : Ledger, l'.named = l.named → l'.records = recordsOf (segments ++ [bodies]) →
    Throughout (Holds k tidy l') (restart images) (steps ++ [Step.sync r.segmentId])
  noId : tidy = true → ∀ x, x ∈ l.named ∨ x = 0 → noIdLeft k x images =
    decide (segments.length + 1 = 2 ^ 32 ∧ position segments.length (endOf k bodies) < x)

theorem checkSegmentId_ok (h : id < 2 ^ 32) : checkSegmentId id = .ok () :=
  if_neg h.not_ge

theorem checkSegmentId_error (h : 2 ^ 32 ≤ id) : checkSegmentId id = .error .segmentIdsExhausted :=
  if_pos h

theorem le_walkFrom_pos (fuel pos : ℕ) (rest : List UInt8) : pos ≤ (walkFrom k fuel pos rest).pos := by
  induction fuel generalizing pos rest with
  | zero => exact le_rfl
  | succ fuel ih =>
    rw [walkFrom]
    split
    · exact le_rfl
    · rename_i body rest' _
      have hle := ih (pos + frameHeaderLen + body.length) rest'
      simp only
      omega

/-- Reading the last segment where a new one is created: no position named lies in it. -/
theorem ReadOut.created (chain : SealedChain k tidy segments d) (hid : segments.length < 2 ^ 32)
    (accounts : Accounts k l segments r.recordsEnd)
    (below : ∀ x ∈ recordsOf segments, x.1 < r.recordsEnd) (hbase : restart images = d ∨
      ∃ g, restart images = d ++ [(segments.length, g)] ∧ Fresh k segments.length g)
    (hsize : segmentHeaderLen ≤ size) (hsegment : r.segmentId = segments.length)
    (hpos : r.pos = segmentHeaderLen)
    (hvisited : ((recordsOf first).filter fun x => decide (cut ≤ x.1)) ++ r.visited =
      (recordsOf segments).filter fun x => decide (cut ≤ x.1))
    (hnoId : tidy = true → ∀ x, x < position segments.length segmentHeaderLen →
      noIdLeft k x images = false) :
    ReadOut k tidy l images first cut (createSegment k segments.length size) r segments [] d
      (.durable (headerBytes k segments.length ++ List.replicate (size - segmentHeaderLen) 0)) where
  chain := chain
  active := .new hid _
  final := by
    rw [hsegment]
    exact (create_sync_holds (l := ⟨recordsOf segments, 0, l.named⟩) chain hid accounts.placed rfl
      hbase hsize).2
  segmentId := hsegment
  pos := hpos
  visited := by
    rw [hvisited, recordsOf_concat, segmentRecords_nil, append_nil]
  accounts := accounts.freshSegment
  below := by
    rw [recordsOf_concat, segmentRecords_nil, append_nil]
    exact below
  through := by
    intro l' hnamed hrecords
    rw [recordsOf_concat, segmentRecords_nil, append_nil] at hrecords
    rw [hsegment]
    exact (create_sync_holds chain hid (hnamed ▸ accounts.placed) hrecords hbase hsize).1
  noId := by
    intro ht x hx
    have hlt : x < position segments.length segmentHeaderLen := by
      rcases hx with hx | rfl
      · exact (accounts.placed x hx).lt.trans_le (position_le_position _ (Nat.zero_le _))
      · exact Nat.lt_of_lt_of_le (by decide) (Nat.le_add_left segmentHeaderLen _)
    rw [hnoId ht x hlt, eq_comm, decide_eq_false_iff_not, endOf_nil]
    omega

/-- **Reading the last segment** fails only when no segment id is left. -/
theorem readLast_spec (h : Recoverable k tidy l images) (size cut : ℕ)
    (hsize : segmentHeaderLen ≤ size) :
    ∃ first before, SealedChain k tidy first before ∧ images.dropLast = files before ∧
      (∀ x ∈ l.named, tidy = true → ∀ id bodies, first[id]? = some bodies →
        StartsWell k tidy x id bodies) ∧
      ((tidy = false ∧ ∃ steps e, readLast k size cut images.getLast? = (steps, .error e)) ∨
        ∃ steps r segments bodies sealed f, readLast k size cut images.getLast? = (steps, .ok r) ∧
          ReadOut k tidy l images first cut steps r segments bodies sealed f) := by
  cases h with
  | @allSealed segments d chain accounts =>
    have hrestart := restart_files chain.durable
    cases chain with
    | nil =>
      refine ⟨[], [], .nil, rfl, by simp, .inr ⟨_, ⟨0, segmentHeaderLen, [], segmentHeaderLen, 0⟩, _,
        _, _, _, rfl, .created .nil (by decide) accounts (by simp) (.inl rfl) hsize rfl rfl rfl ?_⟩⟩
      exact fun _ _ _ => rfl
    | @concat segments d bodies f chain file =>
      have hlen := file.le_length
      have hfiles : files (d ++ [(segments.length, f)]) = files d ++ [(segments.length, f.data)] := by
        rw [files_append]
        rfl
      have hwalk := file.walk 0
      rw [take_zero, endOf_nil, List.drop_zero] at hwalk
      obtain ⟨junk, hjunk⟩ := file.eq_written
      have hblank : headerIsBlank f.data = false := by
        rw [hjunk, written, append_assoc]
        exact headerIsBlank_headerBytes _ _
      have hshort : ¬ f.data.length < segmentHeaderLen := by
        rw [endOf] at hlen
        omega
      refine ⟨segments, d, chain, ?_, fun x hx ht => (accounts.placed x hx).startsWell ht, ?_⟩
      · rw [hfiles, List.dropLast_concat]
      rw [hfiles, getLast?_concat]
      simp only [readLast, hshort, hblank, Bool.false_eq_true, or_self, if_false, file.header, hwalk]
      rcases Nat.lt_or_ge (segments.length + 1) (2 ^ 32) with hid | hid
      · right
        have hlen' : (segments ++ [bodies]).length = segments.length + 1 := by simp
        rw [checkSegmentId_ok hid]
        rw [chainEnd_concat] at accounts
        rw [← hlen'] at hid ⊢
        refine ⟨_, _, _, _, _, _, rfl, .created (chain.concat file) hid accounts
          (fun x hx => lt_of_mem_recordsOf chain.small hx) (.inl (hfiles ▸ hrestart)) hsize rfl rfl
          ?_ fun ht x _ => ?_⟩
        · rw [recordsOf_concat, filter_append]
          rfl
        · have hnot : ¬ segments.length + 1 = 2 ^ 32 := by omega
          rw [noIdLeft, getLast?_concat, Option.any_some, decide_eq_false hnot, Bool.false_and]
      · left
        refine ⟨?_, ?_⟩
        · by_contra hne
          have htidy := (file.tidy_zeros (by simpa using hne)).1
          omega
        · rw [checkSegmentId_error hid]
          exact ⟨_, _, rfl⟩
  | @fresh segments d image chain id_lt blank accounts =>
    have hfresh : Fresh k segments.length (.durable image) :=
      ⟨id_lt, fun c hc => .inl (by rw [List.mem_singleton.mp hc]; exact blank)⟩
    have hrestart : restart (files d ++ [(segments.length, image)]) =
        d ++ [(segments.length, File.durable image)] := by
      rw [restart_append, restart_files chain.durable]
      rfl
    refine ⟨segments, d, chain, List.dropLast_concat, fun x hx ht => ?_, .inr ?_⟩
    · exact ((accounts.placed x hx).concat []).startsWell ht
    rw [getLast?_concat]
    simp only [readLast, headerIsBlank_of_blank blank, if_true, checkSegmentId_ok id_lt]
    refine ⟨_, _, _, _, _, _, rfl, .created chain id_lt accounts (fun x hx => ?_)
      (.inr ⟨_, hrestart, hfresh⟩) hsize rfl rfl (by simp) fun _ x hx => ?_⟩
    · have hmem : x ∈ recordsOf (segments ++ [[]]) := by
        rwa [recordsOf_concat, segmentRecords_nil, append_nil]
      exact lt_of_mem_recordsOf (k := k) chain.small hmem
    · have hle : segmentHeaderLen ≤
          (walkSegment k image segmentHeaderLen image.length).pos := le_walkFrom_pos ..
      rw [noIdLeft, getLast?_concat, Option.any_some, Bool.and_eq_false_iff]
      right
      rw [decide_eq_false_iff_not, not_lt]
      simp only [position] at hx ⊢
      omega
  | @live segments bodies d after stop chain id_lt fits small stops unsealed accounts =>
    have hrestart : restart (files d ++ [(segments.length, written k segments.length bodies ++ after)]) =
        d ++ [(segments.length, File.durable (written k segments.length bodies ++ after))] := by
      rw [restart_append, restart_files chain.durable]
      rfl
    have hheader : checkHeader k (written k segments.length bodies ++ after) segments.length =
        .ok () := by
      rw [written, append_assoc]
      exact checkHeader_headerBytes id_lt _
    have hblank : headerIsBlank (written k segments.length bodies ++ after) = false := by
      rw [written, append_assoc]
      exact headerIsBlank_headerBytes _ _
    have hshort : ¬ (written k segments.length bodies ++ after).length < segmentHeaderLen := by
      rw [length_append, length_written, endOf]
      omega
    have hwalk : walkSegment k (written k segments.length bodies ++ after) segmentHeaderLen
        (written k segments.length bodies ++ after).length = _ := walkSegment_all fits stops
    refine ⟨segments, d, chain, List.dropLast_concat, fun x hx ht =>
      (accounts.placed x hx).startsWell ht, .inr ?_⟩
    rw [getLast?_concat]
    simp only [readLast, hshort, hblank, Bool.false_eq_true, or_self, if_false, hheader, hwalk]
    have hread : ∀ torn, ∃ sealed f, ReadOut k tidy l
        (files d ++ [(segments.length, written k segments.length bodies ++ after)]) segments cut
        (zeroPast segments.length (endOf k bodies)
          (written k segments.length bodies ++ after).length size)
        ⟨segments.length, endOf k bodies, visitFromCut cut segments.length
          (recordsFrom segmentHeaderLen bodies), position segments.length (endOf k bodies), torn⟩
        segments bodies sealed f := by
      intro torn
      obtain ⟨-, f, hfinal, hactive⟩ := zeroPast_holds (l := ⟨recordsOf (segments ++ [bodies]), 0,
        l.named⟩) chain id_lt fits small stops unsealed
        (fun _ => accounts_of_eq accounts.placed rfl) size
      refine ⟨d, f, chain, hactive, ?_, rfl, rfl, ?_, accounts,
        fun x hx => lt_of_mem_recordsOf chain.small hx, fun l' hnamed hrec => ?_, fun _ x _ => ?_⟩
      · rw [hrestart]
        exact hfinal
      · rw [recordsOf_concat, filter_append]
        rfl
      · rw [hrestart]
        exact (zeroPast_holds chain id_lt fits small stops unsealed
          (fun _ => accounts_of_eq (hnamed ▸ accounts.placed) hrec) size).1
      · rw [noIdLeft, getLast?_concat, Option.any_some, hwalk, Bool.decide_and]
    cases stop with
    | «sealed» => exact absurd rfl unsealed
    | unwritten =>
      obtain ⟨sealed, f, hout⟩ := hread 0
      exact ⟨_, _, _, _, _, _, rfl, hout⟩
    | torn bytes =>
      obtain ⟨sealed, f, hout⟩ := hread bytes
      exact ⟨_, _, _, _, _, _, rfl, hout⟩

/-! ### The open -/

theorem Recoverable.ids (h : Recoverable k tidy l images) :
    images.map Prod.fst = List.range images.length := by
  have hchain : ∀ {segments : List (List (List UInt8))} {d : Disk}, SealedChain k tidy segments d →
      (files d).map Prod.fst = List.range segments.length ∧ (files d).length = segments.length := by
    intro segments d chain
    refine ⟨?_, by rw [files, List.length_map, chain.length_eq]⟩
    rw [← chain.ids, files, List.map_map]
    rfl
  cases h with
  | allSealed chain accounts =>
    obtain ⟨hids, hlen⟩ := hchain chain
    rw [hids, hlen]
  | fresh chain id_lt blank accounts =>
    obtain ⟨hids, hlen⟩ := hchain chain
    simp [hids, hlen, List.range_succ]
  | live chain id_lt fits small stops unsealed accounts =>
    obtain ⟨hids, hlen⟩ := hchain chain
    simp [hids, hlen, List.range_succ]

/-- Files numbered from 0 are in order, and none is missing. -/
theorem checkSegments_ok (hids : images.map Prod.fst = List.range images.length) (cut : Option ℕ) :
    (images.insertionSort fun a b => a.1 ≤ b.1) = images ∧ checkSegments cut images = .ok () := by
  have hget : ∀ i (hi : i < images.length), (images[i]).1 = i := by
    intro i hi
    have hmap : (images.map Prod.fst)[i]? = some i := by
      rw [hids, List.getElem?_range hi]
    rw [List.getElem?_map, List.getElem?_eq_getElem hi] at hmap
    exact Option.some.inj hmap
  constructor
  · refine List.Pairwise.insertionSort_eq ?_
    rw [List.pairwise_iff_getElem]
    intro i j hi hj hij
    rw [hget i hi, hget j hj]
    exact hij.le
  · have hnone : ((images.zip images.tail).find? fun w => decide (w.2.1 ≠ w.1.1 + 1)) = none := by
      rw [List.find?_eq_none]
      intro w hw
      obtain ⟨i, hi, rfl⟩ := List.mem_iff_getElem.mp hw
      have hlen : i < images.length ∧ i + 1 < images.length := by
        simp only [List.length_zip, List.length_tail] at hi
        omega
      simp [List.getElem_zip, List.getElem_tail, hget _ hlen.1, hget _ hlen.2]
    unfold checkSegments
    rw [hnone]
    cases images with
    | nil => cases cut <;> rfl
    | cons x images =>
      have hzero := hget 0 (by simp)
      rw [List.getElem_cons_zero] at hzero
      cases cut with
      | none => simp only [List.head?_cons, hzero, Nat.lt_irrefl, if_false]
      | some cut => simp only [List.head?_cons, hzero, Nat.not_lt_zero, if_false]

/-- Whether the progress saved stops an open: the cut lies in a short gap of a segment that is
not the last, or a segment would have to be started and no id is left. -/
def stuck (k : LogKind) (saved : Option Progress) (images : List (ℕ × List UInt8)) : Bool :=
  images.dropLast.any (shortGap k (saved.elim 0 Progress.cut)) ||
    noIdLeft k (saved.elim 0 Progress.furthest) images

/-- The positions the progress names. -/
def namedBy (saved : Option Progress) : List ℕ := saved.elim [] Progress.named

/-- What an open that returns leaves: the records that were found, all committed ones among
them, in a log whose tail is at or above every position the progress names. -/
structure Reopened (k : LogKind) (tidy : Bool) (l : Ledger) (images : List (ℕ × List UInt8))
    (cut : ℕ) (steps : List Step) (o : Opened) (segments : List (List (List UInt8)))
    (bodies : List (List UInt8)) (sealed : Disk) (f : File) : Prop where
  at_ : LogAt k tidy (applyAll (restart images) steps) o.log segments bodies bodies.length sealed f
  kept : l.records.filter (fun r => decide (r.1 < o.recordsEnd)) = recordsOf (segments ++ [bodies])
  isPrefix : recordsOf (segments ++ [bodies]) <+: l.records
  committed : ∀ r ∈ l.records, r.1 < l.committed → r ∈ recordsOf (segments ++ [bodies])
  visited : o.visited = (recordsOf (segments ++ [bodies])).filter fun r => decide (cut ≤ r.1)
  placed : ∀ x ∈ l.named, Placed k (segments ++ [bodies]) x
  le_tail : ∀ x ∈ l.named, x ≤ o.log.tail
  through : ∀ l' : Ledger, l'.named = l.named → l'.records = recordsOf (segments ++ [bodies]) →
    Throughout (Holds k tidy l') (restart images) steps

/-- The records found are the ledger's below where they end. -/
theorem Accounts.kept {limit : ℕ} (h : Accounts k l segments limit)
    (hbelow : ∀ r ∈ recordsOf segments, r.1 < limit) :
    l.records.filter (fun r => decide (r.1 < limit)) = recordsOf segments ∧
      recordsOf segments <+: l.records ∧
      ∀ r ∈ l.records, r.1 < l.committed → r ∈ recordsOf segments := by
  obtain ⟨lost, hrecords, hlost⟩ := h.split
  refine ⟨?_, ⟨lost, hrecords.symm⟩, fun r hr hlt => ?_⟩
  · rw [hrecords, filter_append,
      List.filter_eq_self.mpr fun r hr => decide_eq_true (hbelow r hr),
      List.filter_eq_nil_iff.mpr fun r hr => by simpa using (hlost r hr).2, append_nil]
  · rw [hrecords, List.mem_append] at hr
    rcases hr with hr | hr
    · exact hr
    · exact absurd hlt (not_lt.mpr (hlost r hr).1)

theorem Progress.furthest_mem (p : Progress) : p.furthest ∈ p.named := by
  have hfold : ∀ (xs : List ℕ) (a : ℕ), xs.foldl max a = a ∨ xs.foldl max a ∈ xs := by
    intro xs
    induction xs with
    | nil => exact fun a => .inl rfl
    | cons x xs ih =>
      intro a
      rcases ih (max a x) with heq | hmem
      · rcases le_total a x with hle | hle
        · exact .inr (by rw [List.foldl_cons, heq, max_eq_right hle]; exact List.mem_cons_self)
        · exact .inl (by rw [List.foldl_cons, heq, max_eq_left hle])
      · exact .inr (List.mem_cons_of_mem _ hmem)
  rcases hfold (p.safe.map Prod.snd) p.cut with heq | hmem
  · rw [Progress.furthest, heq]
    exact List.mem_cons_self
  · exact List.mem_cons_of_mem _ hmem

/-- The furthest position named bounds the others, and is one of them (or 0). -/
theorem furthest_spec (saved : Option Progress) :
    (∀ x ∈ namedBy saved, x ≤ saved.elim 0 Progress.furthest) ∧
      (saved.elim 0 Progress.furthest ∈ namedBy saved ∨ saved.elim 0 Progress.furthest = 0) := by
  cases saved with
  | none => exact ⟨by simp [namedBy], .inr rfl⟩
  | some p => exact ⟨p.le_furthest, .inl p.furthest_mem⟩

theorem openFrom_eq (saved : Option Progress) :
    (Progress.openFrom saved).cut.getD 0 = saved.elim 0 Progress.cut ∧
      (Progress.openFrom saved).furthest = saved.elim 0 Progress.furthest := by
  cases saved <;> exact ⟨rfl, rfl⟩

/-- A log whose progress names no position behind its tail stays as it was read. -/
theorem ReadOut.stays (torn : ℕ) {steps : List Step} {sealed : Disk}
    (h : ReadOut k tidy l images first cut steps r segments bodies sealed f)
    (hsize : minSegmentSize ≤ size) (hlt : size < 2 ^ 32)
    (hnamed : ∀ x ∈ l.named, x ≤ position segments.length (endOf k bodies)) :
    Reopened k tidy l images cut (steps ++ [Step.sync r.segmentId])
      ⟨⟨size, r.segmentId, r.pos⟩,
        ((recordsOf first).filter fun x => decide (cut ≤ x.1)) ++ r.visited, r.recordsEnd, torn⟩
      segments bodies sealed f := by
  obtain ⟨hkept, hprefix, hcommitted⟩ := h.accounts.kept h.below
  refine ⟨⟨h.final, h.chain, h.active, h.segmentId, h.pos, hsize, hlt⟩, hkept, hprefix, hcommitted,
    h.visited, h.accounts.placed, fun x hx => ?_, h.through⟩
  rw [Log.tail, h.segmentId, h.pos]
  exact hnamed x hx

/-- A log whose progress names a position behind its tail gets a new segment. -/
theorem ReadOut.moves (torn : ℕ) {steps : List Step} {sealed : Disk}
    (h : ReadOut k tidy l images first cut steps r segments bodies sealed f)
    (hsize : minSegmentSize ≤ size) (hlt : size < 2 ^ 32) (hid : segments.length + 1 < 2 ^ 32) :
    ∃ sealed' f', Reopened k tidy l images cut (steps ++ [Step.sync r.segmentId] ++
        ([Step.write r.segmentId r.pos endMarkerBytes, .sync r.segmentId] ++
          createSegment k (r.segmentId + 1) size))
      ⟨⟨size, r.segmentId + 1, segmentHeaderLen⟩,
        ((recordsOf first).filter fun x => decide (cut ≤ x.1)) ++ r.visited, r.recordsEnd, torn⟩
      (segments ++ [bodies]) [] sealed' f' := by
  obtain ⟨hkept, hprefix, hcommitted⟩ := h.accounts.kept h.below
  have hheader : segmentHeaderLen ≤ size := le_trans (by decide) hsize
  have hlen : (segments ++ [bodies]).length = segments.length + 1 := by simp
  have hsame : recordsOf (segments ++ [bodies] ++ [[]]) = recordsOf (segments ++ [bodies]) := by
    rw [recordsOf_concat _ [], segmentRecords_nil, append_nil]
  have hrotating : ∀ l' : Ledger, l'.named = l.named →
      l'.records = recordsOf (segments ++ [bodies]) → _ := fun l' hnamed hrecords =>
    h.active.rotating (l := l') h.chain hid
      (fun _ _ => accounts_of_eq (hnamed ▸ h.accounts.placed) hrecords)
      (by
        rw [List.take_length, hrecords]
        exact fun r hr _ => lt_of_mem_recordsOf h.chain.small hr)
      hheader (.inl rfl)
  obtain ⟨-, g, hchain, hfinal⟩ := hrotating ⟨recordsOf (segments ++ [bodies]), 0, l.named⟩ rfl rfl
  have hfirst := h.final
  have hthrough := h.through
  rw [h.segmentId] at hfirst hthrough
  rw [h.segmentId, h.pos]
  refine ⟨_, .durable (headerBytes k (segments.length + 1) ++
      List.replicate (size - segmentHeaderLen) 0), ⟨?_, hchain, ?_, hlen.symm, rfl, hsize, hlt⟩,
    ?_, ?_, ?_, ?_, fun x hx => ?_, fun x hx => ?_, fun l' hnamed hrecords => ?_⟩
  · rw [applyAll_append, hfirst, hlen]
    exact hfinal
  · rw [hlen]
    exact .new hid _
  · rw [hsame]
    exact hkept
  · rw [hsame]
    exact hprefix
  · rw [hsame]
    exact hcommitted
  · rw [hsame]
    exact h.visited
  · exact (h.accounts.placed x hx).concat []
  · have hbelow := (h.accounts.placed x hx).lt
    rw [hlen] at hbelow
    exact (hbelow.trans_le (position_le_position _ (Nat.zero_le _))).le
  · rw [hsame] at hrecords
    refine (hthrough l' hnamed hrecords).append ?_
    rw [hfirst]
    exact (hrotating l' hnamed hrecords).1

/-- **Opening** the log fails only where the saved progress stops it, and leaves a log that
holds the records found. -/
theorem openLog_cases (h : Recoverable k tidy l images) {saved : Option Progress}
    (hnamed : l.named = namedBy saved) (huntidy : tidy = false → saved = none) (hlt : size < 2 ^ 32) :
    (∃ steps e, openLog k images size (Progress.openFrom saved) = (steps, .error e) ∧
        (tidy = true → stuck k saved images = true)) ∨
      ∃ steps o segments bodies sealed f,
        openLog k images size (Progress.openFrom saved) = (steps, .ok o) ∧
          (tidy = true → stuck k saved images = false) ∧
          Reopened k tidy l images (saved.elim 0 Progress.cut) steps o segments bodies sealed f := by
  obtain ⟨hsort, hcheck⟩ := checkSegments_ok h.ids (Progress.openFrom saved).cut
  obtain ⟨hcut, hfurthest⟩ := openFrom_eq saved
  have hmin : minSegmentSize ≤ max size minSegmentSize := le_max_right _ _
  have hmax : max size minSegmentSize < 2 ^ 32 := max_lt hlt (by decide)
  obtain ⟨first, before, hchain, hbefore, hstarts, hread⟩ :=
    readLast_spec h (max size minSegmentSize) (saved.elim 0 Progress.cut) (le_trans (by decide) hmin)
  have hstart : ∀ id bodies, first[id]? = some bodies →
      StartsWell k tidy (saved.elim 0 Progress.cut) id bodies := by
    cases saved with
    | none => exact fun id bodies _ => startsWell_zero id bodies
    | some p =>
      have ht : tidy = true := by
        by_contra hne
        exact nomatch huntidy (by simpa using hne)
      exact hstarts p.cut (by rw [hnamed]; exact List.mem_cons_self) ht
  obtain ⟨hok, herror⟩ := walkAllSealed_eq hchain hstart
  rw [openLog]
  simp only [hsort, hcheck, hcut, hfurthest, hbefore]
  by_cases hgap : (files before).any (shortGap k (saved.elim 0 Progress.cut)) = true
  · obtain ⟨e, he⟩ := herror hgap
    rw [he]
    exact .inl ⟨_, _, rfl, fun _ => by rw [stuck, hbefore, hgap, Bool.true_or]⟩
  rw [Bool.not_eq_true] at hgap
  rw [hok hgap]
  simp only
  have hstuck : stuck k saved images = noIdLeft k (saved.elim 0 Progress.furthest) images := by
    rw [stuck, hbefore, hgap, Bool.false_or]
  rw [hstuck]
  rcases hread with ⟨hfalse, steps, e, hread⟩ | ⟨steps, r, segments, bodies, sealed, f, hread, hout⟩
  · rw [hread]
    exact .inl ⟨_, _, rfl, fun ht => absurd (ht.symm.trans hfalse) (by decide)⟩
  rw [hread]
  simp only
  obtain ⟨hbound, hmem⟩ := furthest_spec saved
  rw [← hnamed] at hbound hmem
  have hnot : ¬ r.segmentId < segmentOf (saved.elim 0 Progress.furthest) := by
    rw [hout.segmentId, not_lt]
    rcases hmem with hmem | hzero
    · obtain ⟨b, hget, -⟩ := hout.accounts.placed _ hmem
      obtain ⟨hid, -⟩ := List.getElem?_eq_some_iff.mp hget
      rw [length_append, List.length_singleton] at hid
      omega
    · rw [hzero]
      exact Nat.zero_le _
  rw [passFurthest, if_neg hnot]
  by_cases hbehind : position r.segmentId r.pos < saved.elim 0 Progress.furthest
  · rw [if_pos hbehind]
    rw [hout.segmentId, hout.pos] at hbehind
    rcases Nat.lt_or_ge (r.segmentId + 1) (2 ^ 32) with hid | hid
    · rw [checkSegmentId_ok hid]
      rw [hout.segmentId] at hid
      obtain ⟨sealed', f', hmoved⟩ := hout.moves r.tornBytesDropped hmin hmax hid
      refine .inr ⟨_, _, _, _, _, _, rfl, fun ht => ?_, hmoved⟩
      rw [hout.noId ht _ hmem, decide_eq_false_iff_not]
      omega
    · rw [checkSegmentId_error hid]
      refine .inl ⟨_, _, rfl, fun ht => ?_⟩
      have hlast := hout.active.live.id_lt
      rw [hout.segmentId] at hid
      rw [hout.noId ht _ hmem, decide_eq_true_eq]
      exact ⟨by omega, hbehind⟩
  · rw [if_neg hbehind]
    rw [hout.segmentId, hout.pos] at hbehind
    have hstays := hout.stays r.tornBytesDropped hmin hmax fun x hx =>
      (hbound x hx).trans (not_lt.mp hbehind)
    refine .inr ⟨_, _, segments, bodies, sealed, f, rfl, fun ht => ?_, ?_⟩
    · rw [hout.noId ht _ hmem, decide_eq_false_iff_not]
      exact fun hall => hbehind hall.2
    · rw [append_nil]
      exact hstays

end SegmentedLog

end Minnal
