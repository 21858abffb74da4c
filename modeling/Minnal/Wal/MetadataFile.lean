import Minnal.Wal.ProgressFile
import Minnal.Lsm.Archive

/-!
# The main log's metadata file

The main log saves its progress with three **counters** of its own, which stand in the extra bytes
of a progress file. `from_file_bytes` decodes the progress file and then the counters, and so two
encodings are nested: a file that is sound as a progress file may still be damaged as metadata.

`progress_codec_exact` states both codecs at once. The head and the tail are not in the file: they
come back at the position of the first record, for open to set.
-/

set_option linter.dupNamespace false

namespace Minnal

open ByteCodec

namespace SegmentedLog

/-- What the metadata file saves, and the ends of the log. -/
structure WalMetadata where
  head : ℕ
  tail : ℕ
  cut : ℕ
  safe : List (ℕ × ℕ)
  total_gc_runs : UInt64
  total_bytes_reclaimed : UInt64
  last_sequence : UInt64
  deriving DecidableEq

def metadataExtraLen : ℕ := 24

namespace WalMetadata

/-- A log with nothing written and nothing retired. -/
def new : WalMetadata :=
  let first := position 0 segmentHeaderLen
  { head := first, tail := first, cut := first, safe := [], total_gc_runs := 0,
    total_bytes_reclaimed := 0, last_sequence := 0 }

/-- The retirement progress alone. -/
def progress (m : WalMetadata) : Progress := { cut := m.cut, safe := m.safe }

/-- The counters as they are saved. -/
def extra (m : WalMetadata) : List UInt8 :=
  leBytes 8 m.total_gc_runs.toNat ++ leBytes 8 m.total_bytes_reclaimed.toNat ++
    leBytes 8 m.last_sequence.toNat

end WalMetadata

/-- The shared progress format under the main log's magic. -/
def metadataFormat (crc32 : List UInt8 → UInt32) : ProgressFile :=
  { magic := [0x57, 0x41, 0x4c, 0x4d], crc32 := crc32, length_magic := rfl }

namespace WalMetadata

variable (crc32 : List UInt8 → UInt32)

def toFileBytes (m : WalMetadata) : List UInt8 := (metadataFormat crc32).encode m.progress m.extra

/-- Decode and check a metadata file. -/
def fromFileBytes (bytes : List UInt8) : Except DecodeError WalMetadata := do
  let (progress, extra) ← (metadataFormat crc32).decode bytes
  ensure (extra.length = metadataExtraLen) (.extraLength extra.length)
  let word := fun i => readLe extra (i * 8) (i * 8 + 8)
  return { new with
    cut := progress.cut
    safe := progress.safe
    total_gc_runs := .ofNat (← word 0)
    total_bytes_reclaimed := .ofNat (← word 1)
    last_sequence := .ofNat (← word 2) }

/-- Metadata as a file can give it back: the head and the tail are for open to set. -/
def saved (m : WalMetadata) : WalMetadata := { m with head := new.head, tail := new.tail }

/-- The metadata that a progress and three counters make. -/
def ofParts (p : Progress) (extra : List UInt8) : WalMetadata :=
  { new with
    cut := p.cut
    safe := p.safe
    total_gc_runs := .ofNat (leNat (readAt extra 0 8))
    total_bytes_reclaimed := .ofNat (leNat (readAt extra 8 8))
    last_sequence := .ofNat (leNat (readAt extra 16 8)) }

theorem length_extra (m : WalMetadata) : m.extra.length = metadataExtraLen := by
  simp [extra, metadataExtraLen]

/-- Reading the counters never leaves their bytes. -/
theorem fromFileBytes_eq (bytes : List UInt8) :
    fromFileBytes crc32 bytes = (metadataFormat crc32).decode bytes >>= fun r =>
      ensure (r.2.length = metadataExtraLen) (.extraLength r.2.length) >>= fun _ =>
        .ok (ofParts r.1 r.2) := by
  unfold fromFileBytes
  refine congrArg _ (funext fun ⟨p, extra⟩ => ?_)
  refine ProgressFile.ensure_bind_congr fun hlen => ?_
  change extra.length = 24 at hlen
  have hword : ∀ i < 3,
      readLe extra (i * 8) (i * 8 + 8) = .ok (leNat (readAt extra (i * 8) 8)) := by
    intro i hi
    rw [ProgressFile.readLe_eq (by omega) (by omega), Nat.add_sub_cancel_left]
  dsimp only
  rw [hword 0 (by decide), ProgressFile.ok_bind, hword 1 (by decide), ProgressFile.ok_bind,
    hword 2 (by decide)]
  rfl

theorem ofParts_extra (m : WalMetadata) : ofParts m.progress m.extra = m.saved := by
  have hword : ∀ w : UInt64, UInt64.ofNat (leNat (leBytes 8 w.toNat)) = w := fun w => by
    rw [leNat_leBytes_of_lt (UInt64.toNat_lt w), UInt64.ofNat_toNat]
  have hruns : readAt m.extra 0 8 = leBytes 8 m.total_gc_runs.toNat :=
    ProgressFile.readAt_eq [] _ _ (by simp only [extra, List.append_assoc]; rfl) rfl
      (length_leBytes ..)
  have hbytes : readAt m.extra 8 8 = leBytes 8 m.total_bytes_reclaimed.toNat :=
    ProgressFile.readAt_eq (leBytes 8 m.total_gc_runs.toNat) _ _
      (by simp only [extra, List.append_assoc]; rfl) (length_leBytes ..) (length_leBytes ..)
  have hseq : readAt m.extra 16 8 = leBytes 8 m.last_sequence.toNat :=
    ProgressFile.readAt_eq (leBytes 8 m.total_gc_runs.toNat ++
      leBytes 8 m.total_bytes_reclaimed.toNat) _ []
      (by simp only [extra, List.append_assoc, List.append_nil]) (by simp) (length_leBytes ..)
  rw [ofParts, hruns, hbytes, hseq, hword, hword, hword]
  rfl

theorem extra_ofParts (p : Progress) {extra : List UInt8} (h : extra.length = metadataExtraLen) :
    (ofParts p extra).extra = extra := by
  change extra.length = 24 at h
  have hword : ∀ off, off + 8 ≤ extra.length →
      leBytes 8 (UInt64.ofNat (leNat (readAt extra off 8))).toNat = readAt extra off 8 := by
    intro off hoff
    rw [UInt64.toNat_ofNat_of_lt' (ProgressFile.leNat_readAt_lt extra off 8),
      ProgressFile.leBytes_readAt hoff]
  have hend : readAt extra 16 8 = extra.drop 16 := by
    rw [readAt, List.take_of_length_le (by rw [List.length_drop]; omega)]
  unfold WalMetadata.extra ofParts
  rw [hword 0 (by omega), hword 8 (by omega), hword 16 (by omega), hend, List.append_assoc,
    ProgressFile.readAt_append_drop, ProgressFile.readAt_append_drop, List.drop_zero]

/-- **What metadata a file holds.** -/
theorem fromFileBytes_eq_ok_iff {bytes : List UInt8} (hsize : bytes.length < 2 ^ 63)
    {m : WalMetadata} : fromFileBytes crc32 bytes = .ok m ↔
      bytes = toFileBytes crc32 m ∧ m = m.saved ∧ m.progress.Valid ∧ m.safe.length < 2 ^ 32 := by
  rw [fromFileBytes_eq]
  constructor
  · intro h
    rcases hd : (metadataFormat crc32).decode bytes with e | ⟨p, extra⟩
    · rw [hd] at h
      cases h
    · rw [hd, ProgressFile.ok_bind, ProgressFile.ensure_bind_eq_ok] at h
      obtain ⟨hlen, h⟩ := h
      obtain rfl := Except.ok.inj h
      obtain ⟨rfl, hvalid, hn, -⟩ := ((metadataFormat crc32).decode_eq_ok_iff hsize).mp hd
      refine ⟨?_, rfl, hvalid, hn⟩
      rw [toFileBytes, extra_ofParts p hlen]
      rfl
  · rintro ⟨rfl, hsaved, hvalid, hn⟩
    have hdecode := ((metadataFormat crc32).decode_eq_ok_iff hsize).mpr
      ⟨rfl, hvalid, hn, by rw [m.length_extra]; decide⟩
    rw [hdecode, ProgressFile.ok_bind, ProgressFile.ensure_pos m.length_extra,
      ProgressFile.ok_bind, ofParts_extra, ← hsaved]

/-- Metadata decoding never panics either. -/
theorem fromFileBytes_ne_panic {bytes : List UInt8} (hsize : bytes.length < 2 ^ 63) :
    fromFileBytes crc32 bytes ≠ .error .panic := by
  rw [fromFileBytes_eq]
  rcases hd : (metadataFormat crc32).decode bytes with e | ⟨p, extra⟩
  · rintro h
    obtain rfl := Except.error.inj h
    exact (metadataFormat crc32).decode_ne_panic hsize hd
  · rw [ProgressFile.ok_bind]
    unfold ensure
    split <;> nofun

theorem new_valid : new.progress.Valid :=
  { cut_lt := by decide, fits := nofun, sorted := .nil, above := nofun }

end WalMetadata

/-! ### Both codecs -/

open WalMetadata

/-- **The progress file codec is exact**, as long as its 32-bit counts can say how long the table
and the extra bytes are: valid progress comes back, what is accepted encodes to the same bytes, and
everything else is corruption, without a panic. A file cut short or extended and a file whose
checksum is not that of its bytes are not accepted. The main log's metadata comes back but for its
head and tail. -/
theorem progress_codec_exact (f : ProgressFile) (crc32 : List UInt8 → UInt32) :
    (∀ p extra, p.Valid → p.safe.length < 2 ^ 32 → extra.length < 2 ^ 32 →
      f.decode (f.encode p extra) = .ok (p, extra) ∧
      (∀ bytes rest, rest ≠ [] →
        bytes ++ rest = f.encode p extra ∨ bytes = f.encode p extra ++ rest →
        bytes.length < 2 ^ 63 → ∃ damage, f.decode bytes = .error (.corruption damage))) ∧
    (∀ bytes, bytes.length < 2 ^ 63 →
      (∀ p extra, f.decode bytes = .ok (p, extra) → p.Valid ∧ f.encode p extra = bytes) ∧
      ((∀ p extra, f.decode bytes ≠ .ok (p, extra)) →
        ∃ damage, f.decode bytes = .error (.corruption damage)) ∧
      (∀ body crc, bytes = body ++ crc → crc.length = 4 → leNat crc ≠ (f.crc32 body).toNat →
        ∃ damage, f.decode bytes = .error (.corruption damage))) ∧
    (∀ m : WalMetadata, m.progress.Valid → m.safe.length < 2 ^ 32 →
      fromFileBytes crc32 (toFileBytes crc32 m) = .ok m.saved) ∧
    (∀ bytes, bytes.length < 2 ^ 63 →
      (∀ m, fromFileBytes crc32 bytes = .ok m → toFileBytes crc32 m = bytes) ∧
      fromFileBytes crc32 bytes ≠ .error .panic) := by
  have hlen : ∀ (f : ProgressFile) (p : Progress) (extra : List UInt8), p.safe.length < 2 ^ 32 →
      extra.length < 2 ^ 32 → (f.encode p extra).length < 2 ^ 62 := by
    intro f p extra hn hextra
    rw [f.length_encode]
    omega
  refine ⟨fun p extra hp hn hextra => ⟨?_, ?_⟩, fun bytes hsize => ⟨?_, ?_, ?_⟩, ?_,
    fun bytes hsize => ⟨?_, fromFileBytes_ne_panic crc32 hsize⟩⟩
  · exact (f.decode_eq_ok_iff ((hlen f p extra hn hextra).trans (by decide))).mpr
      ⟨rfl, hp, hn, hextra⟩
  · rintro bytes rest hrest hpart hsize
    refine (f.decode_ok_or_corruption hsize).resolve_left ?_
    rintro ⟨q, other, hok⟩
    obtain ⟨rfl, -, hq, hother⟩ := (f.decode_eq_ok_iff hsize).mp hok
    rcases hpart with h | h
    · exact hrest (f.encode_append_eq hq hn hother hextra h)
    · exact hrest (f.encode_append_eq hn hq hextra hother h.symm)
  · intro p extra hok
    obtain ⟨h, hp, -, -⟩ := (f.decode_eq_ok_iff hsize).mp hok
    exact ⟨hp, h.symm⟩
  · intro hno
    refine (f.decode_ok_or_corruption hsize).resolve_left ?_
    rintro ⟨p, extra, hok⟩
    exact hno p extra hok
  · rintro body crc rfl hcrc hsum
    refine (f.decode_ok_or_corruption hsize).resolve_left ?_
    rintro ⟨p, extra, hok⟩
    obtain ⟨h, -⟩ := (f.decode_eq_ok_iff hsize).mp hok
    -- the body and the checksum stand where the encoding has them
    obtain ⟨rfl, rfl⟩ := List.append_inj' h (by rw [hcrc, length_leBytes])
    exact hsum (leNat_leBytes_of_lt (w := 4) (UInt32.toNat_lt _))
  · intro m hm hn
    have hbytes := hlen (metadataFormat crc32) m.progress m.extra hn
      (by rw [m.length_extra]; decide)
    exact (fromFileBytes_eq_ok_iff crc32 (hbytes.trans (by decide))).mpr ⟨rfl, rfl, hm, hn⟩
  · intro m hok
    exact ((fromFileBytes_eq_ok_iff crc32 hsize).mp hok).1.symm

/-- Two namespaces ahead of the cut, and the file of a log with counters. -/
theorem progress_codec_exact_two :
    (metadataFormat crc32fast).decode
        ((metadataFormat crc32fast).encode ⟨40, [(1, 40), (3, 96)]⟩ [7]) =
        .ok (⟨40, [(1, 40), (3, 96)]⟩, [7]) ∧
      fromFileBytes crc32fast
        (toFileBytes crc32fast { new with safe := [(2, 64)], last_sequence := 9 }) =
        .ok { new with safe := [(2, 64)], last_sequence := 9 } := by
  have hexact := progress_codec_exact (metadataFormat crc32fast) crc32fast
  have hvalid : (⟨40, [(1, 40), (3, 96)]⟩ : Progress).Valid :=
    ⟨by decide, by decide, by decide, by decide⟩
  exact ⟨(hexact.1 _ [7] hvalid (by decide) (by decide)).1,
    hexact.2.2.1 { new with safe := [(2, 64)], last_sequence := 9 }
      ⟨by decide, by change ∀ e ∈ [(2, 64)], ProgressFile.EntryFits e; decide, by decide,
        by decide⟩ (by decide)⟩

/-- Extra bytes that a 32-bit count cannot measure do not come back, and neither does the tail of a
log that was written to. -/
theorem progress_codec_counts :
    (new.progress.Valid ∧
      (metadataFormat crc32fast).decode
        ((metadataFormat crc32fast).encode new.progress (List.replicate (2 ^ 32) 0)) ≠
        .ok (new.progress, List.replicate (2 ^ 32) 0)) ∧
    fromFileBytes crc32fast (toFileBytes crc32fast { new with tail := 100 }) ≠
      .ok { new with tail := 100 } := by
  refine ⟨⟨new_valid, fun h => ?_⟩, fun h => ?_⟩
  · have hsize : ((metadataFormat crc32fast).encode new.progress
        (List.replicate (2 ^ 32) 0)).length < 2 ^ 63 := by
      rw [ProgressFile.length_encode, List.length_replicate]
      decide
    obtain ⟨-, -, -, hextra⟩ := ((metadataFormat crc32fast).decode_eq_ok_iff hsize).mp h
    rw [List.length_replicate] at hextra
    exact lt_irrefl _ hextra
  · have hsize : (toFileBytes crc32fast { new with tail := 100 }).length < 2 ^ 63 := by
      rw [toFileBytes, ProgressFile.length_encode, length_extra]
      decide
    obtain ⟨-, hsaved, -⟩ := (fromFileBytes_eq_ok_iff crc32fast hsize).mp h
    exact absurd (congrArg WalMetadata.tail hsaved) (by decide)

end SegmentedLog

end Minnal
