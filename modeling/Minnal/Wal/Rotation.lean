import Minnal.Wal.PowerLoss

/-!
# Writing to the last segment

Every system call on the last segment keeps the directory one that a power loss may hit
(`Holds`): creating a segment, cutting and extending it at its tail, writing a frame, sealing.
Each result here says so for a short list of calls, with a power loss between any two of them
(`Throughout`), and says what the directory is afterwards.

The state in which a log is open is an `ActiveFile`: the segment begins with its records, and
while no append has failed it has only zeros behind them, in all its contents since the last
fsync.
-/

set_option linter.dupNamespace false

namespace Minnal

open ByteCodec CrashDisk
open List (prefix_append mem_singleton mem_cons take_length append_assoc)

variable {m size : ℕ} {bodies : List (List UInt8)} {f : File}

namespace SegmentedLog

/-- The active segment of an open log; the first `m` of its records are durable. -/
structure ActiveFile (k : LogKind) (tidy : Bool) (id : ℕ) (bodies : List (List UInt8)) (m : ℕ)
    (f : File) : Prop where
  m_le : m ≤ bodies.length
  named : f.named = true
  live : Live k id bodies m f.contents
  begins : written k id bodies <+: f.data
  tidy_inner : tidy = true → ∀ i < bodies.length, NoEnd (endOf k (bodies.take i)) f.contents
  tidy_zeros : tidy = true → ∀ c ∈ f.contents, ZerosFrom (endOf k bodies) c

variable {k : LogKind} {tidy : Bool} {l : Ledger} {segments : List (List (List UInt8))} {d : Disk}

theorem mem_contents (f : File) : f.data ∈ f.contents := List.mem_cons_self

theorem contents_change (f : File) (c : List UInt8) : (f.change c).contents = c :: f.contents := rfl

variable {contents : List (List UInt8)}

theorem noEnd_of_zeros {pos : ℕ} (h : ∀ c ∈ contents, ZerosFrom pos c) : NoEnd pos contents := by
  refine ⟨0, by decide, fun c hc => ?_⟩
  rw [h c hc (pos + 0) (by omega)]
  decide

variable {id : ℕ} {c : List UInt8}

theorem Live.cons (h : Live k id bodies m contents) (hbegin : written k id (bodies.take m) <+: c)
    (hno : NoStray k bodies c) : Live k id bodies m (c :: contents) :=
  { h with
    durable := List.forall_mem_cons.mpr ⟨hbegin, h.durable⟩
    noStray := List.forall_mem_cons.mpr ⟨hno, h.noStray⟩ }

/-- When all the ledger's records are in the segments. -/
theorem accounts_of_eq {limit : ℕ} (hplaced : ∀ x ∈ l.named, Placed k segments x)
    (hrecords : l.records = recordsOf segments) : Accounts k l segments limit :=
  ⟨hplaced, [], by rw [hrecords, List.append_nil], by simp⟩

namespace ActiveFile

variable {id m : ℕ} {bodies : List (List UInt8)} {f : File}

theorem tame (h : ActiveFile k tidy id bodies m f) (ht : tidy = true) :
    Tame k id bodies f.contents :=
  ⟨h.tidy_inner ht, .inl (noEnd_of_zeros (h.tidy_zeros ht))⟩

/-- While the log is open, a power loss may hit. -/
theorem holds (h : ActiveFile k tidy segments.length bodies m f)
    (chain : SealedChain k tidy segments d)
    (accounts : Accounts k l (segments ++ [bodies]) (position segments.length (endOf k bodies)))
    (durable : ∀ r ∈ l.records, r.1 < l.committed →
      r.1 < position segments.length (endOf k (bodies.take m))) :
    Holds k tidy l (d ++ [(segments.length, f)]) :=
  .live chain h.named h.live h.tame accounts durable

theorem eq_written (h : ActiveFile k tidy id bodies m f) :
    ∃ rest, f.data = written k id bodies ++ rest := by
  obtain ⟨rest, hrest⟩ := h.begins
  exact ⟨rest, hrest.symm⟩

/-- A write at the tail. -/
theorem writeAt_tail (h : ActiveFile k tidy id bodies m f) (bytes : List UInt8) :
    writeAt f.data (endOf k bodies) bytes =
      written k id bodies ++ (bytes ++ f.data.drop (endOf k bodies + bytes.length)) := by
  obtain ⟨rest, hrest⟩ := h.eq_written
  rw [hrest, ← length_written id, writeAt_append, ← List.drop_drop, List.drop_left]

/-- The segment once it is fsynced. -/
theorem sync (h : ActiveFile k tidy id bodies m f) :
    ActiveFile k tidy id bodies bodies.length { f with older := [] } := by
  have hsub : File.contents { f with older := [] } ⊆ f.contents := by
    intro c hc
    rw [mem_singleton.mp hc]
    exact mem_contents f
  refine ⟨le_rfl, h.named, { h.live.subset hsub with durable := fun c hc => ?_ }, h.begins,
    fun ht i hi => (h.tidy_inner ht i hi).subset hsub, fun ht c hc => h.tidy_zeros ht c (hsub hc)⟩
  rw [mem_singleton.mp hc, take_length]
  exact h.begins

/-- A segment with its records and zeros, as it is on the disk. -/
theorem zeros (hid : id < 2 ^ 32) (hfits : ∀ body ∈ bodies, Fits body)
    (hsmall : endOf k bodies + endMarkerLen < 2 ^ 32) {g : File} {len : ℕ} (hnamed : g.named = true)
    (hsynced : g.older = []) (hdata : g.data = written k id bodies ++ List.replicate len 0) :
    ActiveFile k tidy id bodies bodies.length g := by
  have hcontents : ∀ c ∈ g.contents, c = written k id bodies ++ List.replicate len 0 := by
    intro c hc
    rw [File.contents, hsynced, hdata] at hc
    exact mem_singleton.mp hc
  have hzeros : ∀ c ∈ g.contents, ZerosFrom (endOf k bodies) c := by
    intro c hc
    rw [hcontents c hc, ← length_written id]
    exact zerosFrom_append fun b hb => List.eq_of_mem_replicate hb
  have hbegin : ∀ c ∈ g.contents, written k id bodies <+: c := fun c hc =>
    hcontents c hc ▸ prefix_append _ _
  exact ⟨le_rfl, hnamed,
    live_written hid hfits hsmall fun c hc => ⟨_, hcontents c hc, noFrame_replicate len⟩,
    hbegin _ (mem_contents g),
    fun _ => (tame_of_isPrefix hfits hbegin (.inl (noEnd_of_zeros hzeros))).inner, fun _ => hzeros⟩

/-- A segment with only its header. -/
theorem new (hid : id < 2 ^ 32) (len : ℕ) :
    ActiveFile k tidy id [] 0 (.durable (headerBytes k id ++ List.replicate len 0)) := by
  have hdata : headerBytes k id ++ List.replicate len 0 = written k id [] ++ List.replicate len 0 := by
    simp [written]
  exact zeros hid (by simp) (by rw [endOf_nil]; decide) rfl rfl hdata

/-- **A frame at the tail**, when nothing spells a frame where it ends. -/
theorem append (h : ActiveFile k tidy id bodies m f) {body : List UInt8} (hfits : Fits body)
    (hsmall : endOf k (bodies ++ [body]) + endMarkerLen < 2 ^ 32)
    (hclean : ∀ c ∈ f.contents, NoFrame k (c.drop (endOf k (bodies ++ [body])))) :
    ActiveFile k tidy id (bodies ++ [body]) m
      (f.change (writeAt f.data (endOf k bodies) (frameBytes k body))) := by
  have htake : (bodies ++ [body]).take m = bodies.take m := List.take_append_of_le_length h.m_le
  have hlive : Live k id (bodies ++ [body]) m f.contents :=
    { id_lt := h.live.id_lt
      fits := by simpa [or_imp, forall_and] using ⟨h.live.fits, hfits⟩
      small := hsmall
      durable := by rw [htake]; exact h.live.durable
      noStray := fun c hc => (h.live.noStray c hc).concat (hclean c hc) }
  have hend : endOf k (bodies ++ [body]) = endOf k bodies + (frameBytes k body).length := by
    rw [endOf_concat, length_frameBytes]
  have hnew : writeAt f.data (endOf k bodies) (frameBytes k body) =
      written k id (bodies ++ [body]) ++ f.data.drop (endOf k (bodies ++ [body])) := by
    rw [h.writeAt_tail, written_concat, append_assoc, hend]
  have hno : NoStray k (bodies ++ [body])
      (writeAt f.data (endOf k bodies) (frameBytes k body)) := by
    rw [hnew]
    exact noStray_written hlive.fits (hclean _ (mem_contents f))
  have hbegin : written k id (bodies ++ [body]) <+:
      writeAt f.data (endOf k bodies) (frameBytes k body) := by
    rw [hnew]
    exact prefix_append _ _
  refine ⟨?_, h.named, ?_, hbegin, fun ht i hi => ?_, fun ht c hc => ?_⟩
  · rw [List.length_append]
    exact h.m_le.trans (Nat.le_add_right _ _)
  · exact hlive.cons ((written_isPrefix id (List.take_prefix _ _)).trans hbegin) hno
  · rw [contents_change]
    rcases Nat.lt_or_ge i bodies.length with hlt | hge
    · -- an earlier boundary: the new content has the same bytes there
      rw [List.take_append_of_le_length hlt.le]
      refine (h.tidy_inner ht i hlt).cons (mem_contents f) fun j hj => ?_
      have hfar := endOf_take_add (k := k) h.live.fits hlt hlt
      rw [take_length] at hfar
      rw [endMarkerLen] at hj
      have hin : endOf k (bodies.take i) + j < (written k id bodies).length := by
        rw [length_written]
        omega
      have hpre : written k id bodies <+: writeAt f.data (endOf k bodies) (frameBytes k body) :=
        (written_isPrefix id (prefix_append _ _)).trans hbegin
      rw [getD_of_isPrefixOf hpre hin, getD_of_isPrefixOf h.begins hin]
    · obtain rfl : i = bodies.length := by
        rw [List.length_append, List.length_singleton] at hi
        omega
      rw [List.take_left]
      refine noEnd_frame (k := k) hfits fun c hc j hj => ?_
      rcases mem_cons.mp hc with rfl | hc
      · right
        have hlen : j < (frameBytes k body).length := by
          rw [length_frameBytes, frameHeaderLen]
          rw [endMarkerLen] at hj
          omega
        rw [← getD_drop, h.writeAt_tail, ← length_written id, List.drop_left,
          List.getD_append _ _ _ _ hlen]
      · exact .inl (h.tidy_zeros ht c hc _ (Nat.le_add_right _ _))
  · rw [contents_change] at hc
    rcases mem_cons.mp hc with rfl | hc
    · rw [hnew, ← length_written id]
      refine zerosFrom_append fun b hb => ?_
      have hzeros := (h.tidy_zeros ht _ (mem_contents f)).mono (hend ▸ Nat.le_add_right _ _ :
        endOf k bodies ≤ endOf k (bodies ++ [body]))
      rw [length_written, hzeros.drop_eq] at hb
      exact List.eq_of_mem_replicate hb
    · exact (h.tidy_zeros ht c hc).mono (hend ▸ Nat.le_add_right _ _)

/-- **Part of a frame at the tail**, when it and what lies behind spell no frame. -/
theorem writePart (h : ActiveFile k false id bodies m f) {bytes : List UInt8}
    (hclean : NoFrame k (bytes ++ f.data.drop (endOf k bodies + bytes.length))) :
    ActiveFile k false id bodies m (f.change (writeAt f.data (endOf k bodies) bytes)) := by
  have hbegin : written k id bodies <+: writeAt f.data (endOf k bodies) bytes := by
    rw [h.writeAt_tail]
    exact prefix_append _ _
  refine ⟨h.m_le, h.named, ?_, hbegin, fun ht => (nomatch ht), fun ht => (nomatch ht)⟩
  refine h.live.cons ((written_isPrefix id (List.take_prefix _ _)).trans hbegin) ?_
  rw [h.writeAt_tail]
  exact noStray_written h.live.fits hclean

/-- **Sealing**: the end marker at the tail, and an fsync. -/
theorem sealing (h : ActiveFile k tidy segments.length bodies m f)
    (chain : SealedChain k tidy segments d) (hid : segments.length + 1 < 2 ^ 32)
    (accounts : Accounts k l (segments ++ [bodies]) (position segments.length (endOf k bodies)))
    (durable : ∀ r ∈ l.records, r.1 < l.committed →
      r.1 < position segments.length (endOf k (bodies.take m))) :
    Throughout (Holds k tidy l) (d ++ [(segments.length, f)])
        [Step.write segments.length (endOf k bodies) endMarkerBytes, .sync segments.length] ∧
      ∃ g, applyAll (d ++ [(segments.length, f)])
          [Step.write segments.length (endOf k bodies) endMarkerBytes, .sync segments.length] =
        d ++ [(segments.length, g)] ∧ SealedFile k tidy segments.length bodies g := by
  have hne := chain.ne_of_mem
  have hdata := h.writeAt_tail endMarkerBytes
  rw [length_endMarkerBytes] at hdata
  set c := writeAt f.data (endOf k bodies) endMarkerBytes with hc
  have hbegin : written k segments.length bodies <+: c := hdata ▸ prefix_append _ _
  have hzeros : tidy = true → ∀ c' ∈ c :: f.contents, ZerosFrom (endOf k bodies + endMarkerLen) c' := by
    intro ht c' hc'
    rcases mem_cons.mp hc' with rfl | hc'
    · have hrest := ((h.tidy_zeros ht _ (mem_contents f)).mono
        (Nat.le_add_right _ endMarkerLen)).drop_eq
      have hlen : (written k segments.length bodies ++ endMarkerBytes).length =
          endOf k bodies + endMarkerLen := by simp
      rw [hdata, ← append_assoc, ← hlen]
      refine zerosFrom_append fun b hb => ?_
      rw [hlen, hrest] at hb
      exact List.eq_of_mem_replicate hb
    · exact (h.tidy_zeros ht c' hc').mono (Nat.le_add_right _ _)
  have hlive : Live k segments.length bodies m (f.change c).contents := by
    refine h.live.cons ((written_isPrefix _ (List.take_prefix _ _)).trans hbegin) ?_
    rw [hdata]
    exact noStray_written h.live.fits (noFrame_of_error (nextFrame_endMarker _))
  have htame : tidy = true → Tame k segments.length bodies (f.change c).contents := by
    intro ht
    refine ⟨fun i hi => (h.tidy_inner ht i hi).cons (mem_contents f) fun j hj => ?_,
      .inr ⟨hid, hzeros ht⟩⟩
    have hfar := endOf_take_add (k := k) h.live.fits hi hi
    rw [take_length] at hfar
    rw [endMarkerLen] at hj
    have hin : endOf k (bodies.take i) + j < (written k segments.length bodies).length := by
      rw [length_written]
      omega
    change c.getD _ 0 = f.data.getD _ 0
    rw [getD_of_isPrefixOf hbegin hin, getD_of_isPrefixOf h.begins hin]
  have hfile : SealedFile k tidy segments.length bodies { f.change c with older := [] } :=
    { id_lt := h.live.id_lt
      synced := rfl
      named := h.named
      fits := h.live.fits
      small := h.live.small
      bytes := by
        change written k segments.length bodies ++ endMarkerBytes <+: c
        rw [hdata, ← append_assoc]
        exact prefix_append _ _
      tidy_zeros := fun ht => ⟨hid, hzeros ht c List.mem_cons_self⟩ }
  refine ⟨?_, { f.change c with older := [] }, ?_, hfile⟩
  · refine throughout_cons (h.holds chain accounts durable) ?_
    rw [write_last hne]
    refine throughout_cons (.live chain h.named hlive htame accounts durable) ?_
    rw [sync_last hne]
    refine throughout_nil (.allSealed (chain.concat hfile) ?_)
    rwa [chainEnd_concat]
  · rw [applyAll_cons, applyAll_cons, write_last hne, sync_last hne, applyAll_nil]

end ActiveFile

/-! ### Creating a segment -/

theorem fresh_cons (h : Fresh k id f)
    (hc : Blank c ∨ ∃ len, c = headerBytes k id ++ List.replicate len 0) :
    Fresh k id (f.change c) :=
  ⟨h.id_lt, List.forall_mem_cons.mpr ⟨hc, h.contents⟩⟩

/-- **A new segment**, where there was none or one whose creation was cut short. -/
theorem createSegment_holds (chain : SealedChain k tidy segments d) (hid : segments.length < 2 ^ 32)
    (accounts : Accounts k l segments (position segments.length segmentHeaderLen)) {base : Disk}
    (hbase : base = d ∨ ∃ g, base = d ++ [(segments.length, g)] ∧ Fresh k segments.length g)
    (hsize : segmentHeaderLen ≤ size) :
    Throughout (Holds k tidy l) base (createSegment k segments.length size) ∧
      applyAll base (createSegment k segments.length size) =
        d ++ [(segments.length, File.durable
          (headerBytes k segments.length ++ List.replicate (size - segmentHeaderLen) 0))] := by
  have hne := chain.ne_of_mem
  have hheader : (headerBytes k segments.length).length = segmentHeaderLen := length_headerBytes _
  have hfirst : Holds k tidy l base := by
    rcases hbase with rfl | ⟨g, rfl, hg⟩
    · exact .allSealed chain (accounts.mono (chainEnd_le chain))
    · exact .fresh chain hg accounts
  obtain ⟨g₀, happly, hdata₀, hfresh₀⟩ : ∃ g₀, apply base (.create segments.length) =
      d ++ [(segments.length, g₀)] ∧ g₀.data = [] ∧ Fresh k segments.length g₀ := by
    rcases hbase with rfl | ⟨g, rfl, hg⟩
    · refine ⟨_, create_new hne, rfl, hid, fun c hc => .inl (.inl ?_)⟩
      exact mem_singleton.mp hc
    · exact ⟨_, create_last hne, rfl, fresh_cons hg (.inl (.inl rfl))⟩
  have hwrite : writeAt g₀.data 0 (headerBytes k segments.length) = headerBytes k segments.length := by
    rw [hdata₀]
    simp [writeAt]
  have hresize : resize (headerBytes k segments.length) size =
      headerBytes k segments.length ++ List.replicate (size - segmentHeaderLen) 0 := by
    rw [resize_of_le (hheader.trans_le hsize), hheader]
  have hfresh₁ := fresh_cons hfresh₀ (c := headerBytes k segments.length)
    (.inr ⟨0, (List.append_nil _).symm⟩)
  have hfresh₂ := fresh_cons hfresh₁ (.inr ⟨size - segmentHeaderLen, hresize⟩)
  have hlast : ∀ named, Fresh k segments.length
      ⟨resize (headerBytes k segments.length) size, [], named⟩ := by
    refine fun named => ⟨hid, fun c hc => .inr ⟨size - segmentHeaderLen, ?_⟩⟩
    rw [mem_singleton.mp hc]
    exact hresize
  constructor
  · refine throughout_cons hfirst ?_
    rw [happly]
    refine throughout_cons (.fresh chain hfresh₀ accounts) ?_
    rw [write_last hne, hwrite]
    refine throughout_cons (.fresh chain hfresh₁ accounts) ?_
    rw [setLen_last hne]
    refine throughout_cons (.fresh chain hfresh₂ accounts) ?_
    rw [sync_last hne]
    refine throughout_cons (.fresh chain (hlast _) accounts) ?_
    rw [syncDir_last fun x hx => (chain.durable x hx).2]
    exact throughout_nil (.fresh chain (hlast true) accounts)
  · rw [createSegment, applyAll_cons, happly, applyAll_cons, write_last hne, hwrite, applyAll_cons,
      setLen_last hne, applyAll_cons, sync_last hne, applyAll_cons,
      syncDir_last fun x hx => (chain.durable x hx).2, applyAll_nil]
    exact congrArg (fun c => d ++ [(segments.length, File.durable c)]) hresize

/-- A segment that was prepared ahead is moved into place. -/
theorem install_holds (chain : SealedChain k tidy segments d) (hid : segments.length < 2 ^ 32)
    (accounts : Accounts k l segments (position segments.length segmentHeaderLen))
    (hsize : segmentHeaderLen ≤ size) :
    Throughout (Holds k tidy l) d [.install segments.length
        (resize (headerBytes k segments.length) size), .syncDir] ∧
      applyAll d [.install segments.length (resize (headerBytes k segments.length) size),
          .syncDir] = d ++ [(segments.length, File.durable (headerBytes k segments.length ++
            List.replicate (size - segmentHeaderLen) 0))] := by
  have hheader : (headerBytes k segments.length).length = segmentHeaderLen := length_headerBytes _
  have hresize : resize (headerBytes k segments.length) size =
      headerBytes k segments.length ++ List.replicate (size - segmentHeaderLen) 0 := by
    rw [resize_of_le (hheader.trans_le hsize), hheader]
  have hfresh : ∀ named, Fresh k segments.length
      ⟨resize (headerBytes k segments.length) size, [], named⟩ := by
    refine fun named => ⟨hid, fun c hc => .inr ⟨size - segmentHeaderLen, ?_⟩⟩
    rw [mem_singleton.mp hc]
    exact hresize
  have hnamed : ∀ x ∈ d, x.2.named = true := fun x hx => (chain.durable x hx).2
  have hinstall : apply d (.install segments.length (resize (headerBytes k segments.length) size)) =
      d ++ [(segments.length, ⟨resize (headerBytes k segments.length) size, [], false⟩)] := rfl
  constructor
  · refine throughout_cons (.allSealed chain (accounts.mono (chainEnd_le chain))) ?_
    rw [hinstall]
    refine throughout_cons (.fresh chain (hfresh false) accounts) ?_
    rw [syncDir_last hnamed]
    exact throughout_nil (.fresh chain (hfresh true) accounts)
  · rw [applyAll_cons, hinstall, applyAll_cons, syncDir_last hnamed, applyAll_nil]
    exact congrArg (fun c => d ++ [(segments.length, File.durable c)]) hresize

variable {creating : List Step}

/-- The next segment is put in place, created now or prepared ahead. -/
theorem creating_holds (chain : SealedChain k tidy segments d) (hid : segments.length < 2 ^ 32)
    (accounts : Accounts k l segments (position segments.length segmentHeaderLen))
    (hsize : segmentHeaderLen ≤ size)
    (hcreating : creating = createSegment k segments.length size ∨ creating =
      [.install segments.length (resize (headerBytes k segments.length) size), .syncDir]) :
    Throughout (Holds k tidy l) d creating ∧ applyAll d creating =
      d ++ [(segments.length, File.durable
        (headerBytes k segments.length ++ List.replicate (size - segmentHeaderLen) 0))] := by
  rcases hcreating with rfl | rfl
  · exact createSegment_holds chain hid accounts (.inl rfl) hsize
  · exact install_holds chain hid accounts hsize

/-- The records of the active segment end below where the next one's start. -/
theorem ActiveFile.position_le (h : ActiveFile k tidy segments.length bodies m f) :
    position segments.length (endOf k bodies) ≤ position (segments.length + 1) segmentHeaderLen := by
  have hsmall := h.live.small
  rw [endMarkerLen] at hsmall
  exact (position_lt_position _ (Nat.lt_succ_self _) (by omega)).le

/-- **Rotation**: the active segment is sealed and the next one is in place. -/
theorem ActiveFile.rotating (h : ActiveFile k tidy segments.length bodies m f)
    (chain : SealedChain k tidy segments d) (hid : segments.length + 1 < 2 ^ 32)
    (accounts : ∀ limit ≤ position (segments.length + 1) segmentHeaderLen,
      Accounts k l (segments ++ [bodies]) limit) (durable : ∀ r ∈ l.records, r.1 < l.committed →
      r.1 < position segments.length (endOf k (bodies.take m))) (hsize : segmentHeaderLen ≤ size)
    (hcreating : creating = createSegment k (segments.length + 1) size ∨ creating =
      [.install (segments.length + 1) (resize (headerBytes k (segments.length + 1)) size),
        .syncDir]) :
    Throughout (Holds k tidy l) (d ++ [(segments.length, f)])
        ([Step.write segments.length (endOf k bodies) endMarkerBytes, .sync segments.length] ++
          creating) ∧
      ∃ g, SealedChain k tidy (segments ++ [bodies]) (d ++ [(segments.length, g)]) ∧
        applyAll (d ++ [(segments.length, f)])
            ([Step.write segments.length (endOf k bodies) endMarkerBytes, .sync segments.length] ++
              creating) =
          (d ++ [(segments.length, g)]) ++ [(segments.length + 1, File.durable
            (headerBytes k (segments.length + 1) ++
              List.replicate (size - segmentHeaderLen) 0))] := by
  obtain ⟨hsealing, g, happly, hfile⟩ := h.sealing chain hid (accounts _ h.position_le) durable
  have hlen : (segments ++ [bodies]).length = segments.length + 1 := by simp
  rw [← hlen] at hcreating hid
  obtain ⟨hthrough, hcreated⟩ := creating_holds (chain.concat hfile) hid
    (accounts _ (by rw [hlen])) hsize hcreating
  refine ⟨hsealing.append ?_, g, chain.concat hfile, ?_⟩
  · rw [happly]
    exact hthrough
  · rw [applyAll_append, happly, ← hlen]
    exact hcreated

end SegmentedLog

end Minnal
