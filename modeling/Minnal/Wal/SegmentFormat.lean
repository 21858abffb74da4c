import Minnal.Library.Bytes

/-!
# The format of a log segment

A segment is a header, frames, an **end marker** once it is sealed, and zeros to the end of the
file. A frame is a length, a checksum and a body. A length of 0 is unwritten space, and the end
marker is a length no frame can have.

`walkSegment` is the one loop that parses frames. It stops at unwritten space, at the end
marker or at a **torn** frame, one that does not fit or whose checksum is wrong. What it finds
depends only on the bytes from where it starts up to its limit, so `Walks` describes it as a
relation on byte strings: the bodies read and how reading stopped.
-/

set_option linter.dupNamespace false

namespace Minnal

open ByteCodec
open List (append_assoc length_take length_append nil_append forall_mem_cons length_drop)

variable {rest : List UInt8} {bodies : List (List UInt8)} {stop : WalkStop}

namespace SegmentedLog

/-- Bytes of the segment header; the first record starts here. -/
def segmentHeaderLen : ℕ := 16

/-- Length and checksum before each body. -/
def frameHeaderLen : ℕ := 8

/-- The length that marks the end of a sealed segment. -/
def endMarker : ℕ := 0xFFFFFFFF

def endMarkerLen : ℕ := 4

/-- Smallest segment size accepted. -/
def minSegmentSize : ℕ := 64

/-- The position of a byte of a segment. -/
def position (segmentId byte : ℕ) : ℕ := segmentId * 2 ^ 32 + byte

/-- The segment a position lies in. -/
def segmentOf (pos : ℕ) : ℕ := pos / 2 ^ 32

/-- A position's byte within its segment. -/
def byteOf (pos : ℕ) : ℕ := pos % 2 ^ 32

/-- What tells one log's segments from another's. -/
structure LogFormat where
  magic : List UInt8
  version : ℕ
  length_magic : magic.length = 4
  magic_ne : magic ≠ List.replicate 4 0
  version_lt : version < 2 ^ 32

/-- The parameters of a log: its format and the checksum. -/
structure LogKind where
  format : LogFormat
  /-- `crc32fast::hash`. -/
  crc32 : List UInt8 → UInt32

variable (k : LogKind)

/-- The header of a segment. -/
def headerBytes (segmentId : ℕ) : List UInt8 :=
  k.format.magic ++ leBytes 4 k.format.version ++ leBytes 8 segmentId

/-- A record as it is stored. -/
def frameBytes (body : List UInt8) : List UInt8 :=
  leBytes 4 body.length ++ leBytes 4 (k.crc32 body).toNat ++ body

/-- The end marker as it is stored. -/
def endMarkerBytes : List UInt8 := leBytes 4 endMarker

/-! ### Parsing -/

/-- How parsing stops. -/
inductive WalkStop where
  | unwritten
  | sealed
  /-- A frame that is incomplete or fails its checksum; it claims so many bytes. -/
  | torn (bytes : ℕ)
  deriving DecidableEq, Repr

/-- Parse one frame from the bytes that are left: its body and what follows it. -/
def nextFrame (rest : List UInt8) : Except WalkStop (List UInt8 × List UInt8) :=
  if rest = [] then .error .unwritten
  else if rest.length < endMarkerLen then .error (.torn rest.length)
  else
    let len := leNat (rest.take 4)
    if len = 0 then .error .unwritten
    else if len = endMarker then .error .sealed
    else if rest.length < frameHeaderLen ∨ rest.length - frameHeaderLen < len then
      .error (.torn rest.length)
    else
      let body := (rest.drop frameHeaderLen).take len
      if (k.crc32 body).toNat = leNat ((rest.drop 4).take 4) then
        .ok (body, rest.drop (frameHeaderLen + len))
      else .error (.torn (frameHeaderLen + len))

/-- What a walk finds: the records with their bytes, where it stopped and how. -/
structure Walked where
  records : List (ℕ × List UInt8)
  pos : ℕ
  stop : WalkStop
  deriving DecidableEq

/-- Parse frames until one is not there; `fuel` bounds the number of frames. -/
def walkFrom : ℕ → ℕ → List UInt8 → Walked
  | 0, pos, _ => ⟨[], pos, .unwritten⟩
  | fuel + 1, pos, rest =>
    match nextFrame k rest with
    | .error stop => ⟨[], pos, stop⟩
    | .ok (body, rest') =>
      let w := walkFrom fuel (pos + frameHeaderLen + body.length) rest'
      { w with records := (pos, body) :: w.records }

/-- Walk the frames of one segment from byte `start` up to byte `limit`. -/
def walkSegment (file : List UInt8) (start limit : ℕ) : Walked :=
  walkFrom k (limit + 1) start ((file.take limit).drop start)

/-- The frames of several records. -/
def encode (bodies : List (List UInt8)) : List UInt8 := bodies.flatMap (frameBytes k)

/-- The records a list of bodies makes from a byte on. -/
def recordsFrom (pos : ℕ) : List (List UInt8) → List (ℕ × List UInt8)
  | [] => []
  | body :: bodies => (pos, body) :: recordsFrom (pos + frameHeaderLen + body.length) bodies

/-- Bodies that make a frame: not empty, and shorter than the end marker's length says. -/
def Fits (body : List UInt8) : Prop := 0 < body.length ∧ body.length < endMarker

/-- The bytes are the frames of `bodies` followed by something where parsing stops. -/
def Walks (rest : List UInt8) (bodies : List (List UInt8)) (stop : WalkStop) : Prop :=
  (∀ body ∈ bodies, Fits body) ∧
    ∃ after, rest = encode k bodies ++ after ∧ nextFrame k after = .error stop

/-! ### Frames -/

variable {k}

@[simp] theorem length_headerBytes (segmentId : ℕ) :
    (headerBytes k segmentId).length = segmentHeaderLen := by
  simp [headerBytes, k.format.length_magic, segmentHeaderLen]

@[simp] theorem length_frameBytes (body : List UInt8) :
    (frameBytes k body).length = frameHeaderLen + body.length := by
  simp only [frameBytes, length_append, length_leBytes, frameHeaderLen]

@[simp] theorem length_endMarkerBytes : endMarkerBytes.length = endMarkerLen :=
  length_leBytes 4 endMarker

@[simp] theorem encode_nil : encode k [] = [] := rfl

@[simp] theorem encode_cons (body : List UInt8) (bodies : List (List UInt8)) :
    encode k (body :: bodies) = frameBytes k body ++ encode k bodies := rfl

@[simp] theorem encode_append (bodies more : List (List UInt8)) :
    encode k (bodies ++ more) = encode k bodies ++ encode k more :=
  List.flatMap_append

@[simp] theorem nextFrame_nil : nextFrame k [] = .error .unwritten := rfl

/-- A frame is parsed back. -/
theorem nextFrame_frameBytes {body : List UInt8} (h : Fits body) (rest : List UInt8) :
    nextFrame k (frameBytes k body ++ rest) = .ok (body, rest) := by
  obtain ⟨hpos, hlt⟩ := h
  have hlt32 : body.length < 256 ^ 4 := hlt.trans (by decide)
  have hlen : (frameBytes k body ++ rest).length = 8 + body.length + rest.length := by
    simp [frameHeaderLen, Nat.add_assoc]
  have htake : (frameBytes k body ++ rest).take 4 = leBytes 4 body.length := by
    simp [frameBytes]
  have hcrc : ((frameBytes k body ++ rest).drop 4).take 4 = leBytes 4 (k.crc32 body).toNat := by
    simp [frameBytes]
  have hbody : ((frameBytes k body ++ rest).drop 8).take body.length = body := by
    have hl : (leBytes 4 body.length ++ leBytes 4 (k.crc32 body).toNat).length = 8 := by simp
    rw [frameBytes, append_assoc, List.drop_left' hl, List.take_left]
  have hrest : (frameBytes k body ++ rest).drop (8 + body.length) = rest := by
    have hl : (frameBytes k body).length = 8 + body.length := length_frameBytes body
    rw [← hl, List.drop_left]
  have hne : frameBytes k body ++ rest ≠ [] := by
    intro hnil
    rw [hnil] at hlen
    simp only [List.length_nil] at hlen
    omega
  rw [nextFrame]
  simp only [if_neg hne, hlen, htake, hcrc, endMarkerLen, frameHeaderLen,
    leNat_leBytes_of_lt hlt32, hbody, hrest,
    leNat_leBytes_of_lt (show (k.crc32 body).toNat < 256 ^ 4 from UInt32.toNat_lt _)]
  rw [if_neg (by omega), if_neg hpos.ne', if_neg hlt.ne, if_neg (by omega), if_pos trivial]

/-- What is parsed is a frame. -/
theorem eq_of_nextFrame {body after : List UInt8} (h : nextFrame k rest = .ok (body, after)) :
    Fits body ∧ rest = frameBytes k body ++ after := by
  rw [nextFrame] at h
  split_ifs at h with hnil hshort
  simp only at h
  split_ifs at h with hzero hend hfit hcrc
  have heq := Except.ok.inj h
  rw [Prod.mk.injEq] at heq
  obtain ⟨hbody, hafter⟩ := heq
  simp only [endMarkerLen, frameHeaderLen] at hshort hfit hbody hafter hcrc
  push Not at hfit
  generalize hlen : leNat (rest.take 4) = len at *
  have hblen : body.length = len := by
    rw [← hbody, length_take, length_drop]
    omega
  have hlen4 : (rest.take 4).length = 4 := by
    rw [length_take]
    omega
  have hcrc4 : ((rest.drop 4).take 4).length = 4 := by
    rw [length_take, length_drop]
    omega
  have h1 : rest.take 4 = leBytes 4 body.length := by
    rw [hblen, ← hlen]
    conv_lhs => rw [← leBytes_leNat (rest.take 4), hlen4]
  have h2 : (rest.drop 4).take 4 = leBytes 4 (k.crc32 body).toNat := by
    rw [← hbody, hcrc]
    conv_lhs => rw [← leBytes_leNat ((rest.drop 4).take 4), hcrc4]
  refine ⟨⟨by omega, ?_⟩, ?_⟩
  · have hmax := leNat_lt (rest.take 4)
    rw [hlen4, hlen] at hmax
    have hne : len ≠ endMarker := hend
    have hval : (256 : ℕ) ^ 4 = endMarker + 1 := by decide
    omega
  · rw [frameBytes, ← h1, ← h2, ← hbody, ← hafter]
    have hd : rest.drop (8 + len) = (rest.drop 8).drop len := by rw [List.drop_drop]
    have h8 : rest.drop 8 = (rest.drop 4).drop 4 := by rw [List.drop_drop]
    rw [append_assoc, hd, List.take_append_drop, append_assoc, h8, List.take_append_drop,
      List.take_append_drop]

/-- No frame is parsed from these bytes. -/
def NoFrame (k : LogKind) (rest : List UInt8) : Prop :=
  ∀ body after, nextFrame k rest ≠ .ok (body, after)

theorem exists_stop_of_noFrame (h : NoFrame k rest) : ∃ stop, nextFrame k rest = .error stop := by
  rcases hnext : nextFrame k rest with stop | ⟨body, after⟩
  · exact ⟨stop, rfl⟩
  · exact absurd hnext (h body after)

/-- Unwritten space is where the length reads 0. -/
theorem nextFrame_zero (hne : rest ≠ []) (hlen : 4 ≤ rest.length) (h : leNat (rest.take 4) = 0) :
    nextFrame k rest = .error .unwritten := by
  rw [nextFrame, if_neg hne, if_neg (by simp [endMarkerLen, hlen])]
  simp only [if_pos h]

/-- The end marker. -/
theorem nextFrame_endMarker (after : List UInt8) :
    nextFrame k (endMarkerBytes ++ after) = .error .sealed := by
  have htake : (endMarkerBytes ++ after).take 4 = leBytes 4 endMarker :=
    List.take_left' (length_leBytes 4 endMarker)
  have hval : leNat ((endMarkerBytes ++ after).take 4) = endMarker := by
    rw [htake, leNat_leBytes_of_lt (by decide)]
  have hlen : ¬ (endMarkerBytes ++ after).length < endMarkerLen := by simp
  have hne : endMarkerBytes ++ after ≠ [] := by simp [endMarkerBytes, leBytes]
  rw [nextFrame, if_neg hne, if_neg hlen]
  simp only [hval]
  rfl

/-! ### Walks -/

/-- Every byte string can be walked. -/
theorem exists_walks (rest : List UInt8) : ∃ bodies stop, Walks k rest bodies stop := by
  induction hn : rest.length using Nat.strong_induction_on generalizing rest with
  | _ n ih =>
    rcases hnext : nextFrame k rest with stop | ⟨body, after⟩
    · exact ⟨[], stop, by simp, rest, rfl, hnext⟩
    · obtain ⟨hfits, rfl⟩ := eq_of_nextFrame hnext
      have hlt : after.length < n := by
        rw [length_append, length_frameBytes, frameHeaderLen] at hn
        omega
      obtain ⟨bodies, stop, hall, last, rfl, hstop⟩ := ih after.length hlt after rfl
      refine ⟨body :: bodies, stop, forall_mem_cons.mpr ⟨hfits, hall⟩, last, ?_, hstop⟩
      rw [encode_cons, append_assoc]

/-- A walk is determined by the bytes. -/
theorem Walks.unique {bodies' : List (List UInt8)} {stop' : WalkStop} (h : Walks k rest bodies stop)
    (h' : Walks k rest bodies' stop') : bodies = bodies' ∧ stop = stop' := by
  induction bodies generalizing rest bodies' with
  | nil =>
    obtain ⟨-, after, hafter, hstop⟩ := h
    obtain ⟨hall', after', heq, hstop'⟩ := h'
    rw [encode_nil, nil_append] at hafter
    rw [← hafter] at hstop
    rcases bodies' with _ | ⟨body, bodies'⟩
    · rw [encode_nil, nil_append] at heq
      rw [← heq, hstop] at hstop'
      exact ⟨rfl, Except.error.inj hstop'⟩
    · rw [heq, encode_cons, append_assoc,
        nextFrame_frameBytes (hall' body List.mem_cons_self)] at hstop
      cases hstop
  | cons body bodies ih =>
    obtain ⟨hall, after, rfl, hstop⟩ := h
    obtain ⟨hfits, hall⟩ := forall_mem_cons.mp hall
    obtain ⟨hall', after', heq, hstop'⟩ := h'
    rw [encode_cons, append_assoc] at heq
    rcases bodies' with _ | ⟨body', bodies'⟩
    · rw [encode_nil, nil_append] at heq
      rw [← heq, nextFrame_frameBytes hfits] at hstop'
      cases hstop'
    · obtain ⟨hfits', hall'⟩ := forall_mem_cons.mp hall'
      rw [encode_cons, append_assoc] at heq
      have hnext := nextFrame_frameBytes (k := k) hfits (encode k bodies ++ after)
      rw [heq, nextFrame_frameBytes hfits'] at hnext
      have hpair := Except.ok.inj hnext
      rw [Prod.mk.injEq] at hpair
      obtain ⟨hbody, hrest⟩ := hpair
      obtain ⟨hbodies, hst⟩ := ih ⟨hall, after, rfl, hstop⟩ ⟨hall', after', hrest.symm, hstop'⟩
      exact ⟨by rw [hbody, hbodies], hst⟩

/-- What the loop finds. -/
theorem walkFrom_eq (h : Walks k rest bodies stop) {fuel : ℕ} (hfuel : rest.length < fuel) (pos : ℕ) :
    walkFrom k fuel pos rest =
      ⟨recordsFrom pos bodies, pos + (encode k bodies).length, stop⟩ := by
  induction bodies generalizing rest fuel pos with
  | nil =>
    obtain ⟨-, after, rfl, hstop⟩ := h
    obtain ⟨fuel, rfl⟩ := Nat.exists_eq_succ_of_ne_zero (by omega : fuel ≠ 0)
    simp [walkFrom, hstop, recordsFrom]
  | cons body bodies ih =>
    obtain ⟨hall, after, rfl, hstop⟩ := h
    obtain ⟨fuel, rfl⟩ := Nat.exists_eq_succ_of_ne_zero (by omega : fuel ≠ 0)
    obtain ⟨hfits, hall⟩ := forall_mem_cons.mp hall
    rw [encode_cons, append_assoc] at hfuel ⊢
    rw [length_append, length_frameBytes] at hfuel
    have hlen : (encode k bodies ++ after).length < fuel := by
      rw [frameHeaderLen] at hfuel
      omega
    rw [walkFrom, nextFrame_frameBytes hfits]
    simp only [ih ⟨hall, after, rfl, hstop⟩ hlen, recordsFrom]
    rw [length_append, length_frameBytes]
    simp [Nat.add_assoc]

theorem walkSegment_eq {file : List UInt8} {start limit : ℕ}
    (h : Walks k ((file.take limit).drop start) bodies stop) :
    walkSegment k file start limit =
      ⟨recordsFrom start bodies, start + (encode k bodies).length, stop⟩ := by
  refine walkFrom_eq h ?_ start
  rw [length_drop, length_take]
  omega

end SegmentedLog

end Minnal
