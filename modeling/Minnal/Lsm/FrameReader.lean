import Minnal.Lsm.Format

/-!
# The buffered frame reader

A range walk reads an SSTable through a buffer: one positional read per refill instead of two
per frame. The reader keeps the bytes it has read and not consumed (`held`); a refill reads at
least what the next frame needs, and more as the walk goes on. A positional read may come back
**short**; the refill then reads on until it has enough or the file ends.

However it is buffered and however short its reads are, the reader delivers what `nextBuffered`
delivers at its offset (`nextFrame_spec`).
-/

set_option linter.dupNamespace false

namespace Minnal

open ByteCodec FrameWalk

/-- A reader between two frames. -/
structure FrameReader where
  /-- The bytes of the buffer that are not consumed. -/
  held : Bytes
  /-- The size of the buffer. -/
  capacity : ℕ
  /-- File offset behind the bytes held, where the next refill reads from. -/
  nextOffset : ℕ
  /-- Size of the next refill. -/
  readSize : ℕ
  /-- Reads made so far. -/
  reads : ℕ

namespace FrameReader

def minRead : ℕ := 8 * 1024

def maxRead : ℕ := 256 * 1024

def new (offset : ℕ) : FrameReader := ⟨[], 0, offset, minRead, 0⟩

/-- File offset of the next frame. -/
def offset (r : FrameReader) : ℕ := r.nextOffset - r.held.length

/-- Continue at `target`, a frame boundary at or past the offset: within the buffer if it is
there, with an empty one otherwise. -/
def seek (r : FrameReader) (target : ℕ) : FrameReader :=
  if r.offset ≤ target ∧ target < r.nextOffset then
    { r with held := r.held.drop (target - r.offset) }
  else { r with held := [], nextOffset := target, readSize := minRead }

section Fill

variable (file : Bytes) (short : ℕ → ℕ)

/-- Read until `n` bytes are held or the file ends. The `k`-th read of the reader returns at most
`short k + 1` bytes. -/
def readUntil (n : ℕ) (r : FrameReader) : FrameReader :=
  if n ≤ r.held.length then r
  else
    let got := readAt file r.nextOffset (min (r.capacity - r.held.length) (short r.reads + 1))
    if _hgot : got = [] then r
    else
      readUntil n
        { r with
          held := r.held ++ got
          nextOffset := r.nextOffset + got.length
          reads := r.reads + 1 }
  termination_by file.length - r.nextOffset
  decreasing_by
    have hpos : 0 < got.length := List.length_pos_iff.mpr _hgot
    have hlen : got.length = min _ (file.length - r.nextOffset) := length_readAt _ _ _
    change file.length - (r.nextOffset + got.length) < file.length - r.nextOffset
    omega

/-- Hold at least `n` bytes, reading only if needed; fewer are held only at the end of the
file. -/
def fill (n : ℕ) (r : FrameReader) : FrameReader :=
  if n ≤ r.held.length then r
  else
    readUntil file short n
      { r with
        capacity := max r.capacity (r.held.length + max n r.readSize)
        readSize := min (r.readSize * 2) maxRead }

/-- The next frame's body, none at a clean end of the file. -/
def nextFrame (r : FrameReader) : Except LSMError (Option (Bytes × FrameReader)) :=
  let r := fill file short 4 r
  if r.held.length = 0 then .ok none
  else if r.held.length < 4 then .error (.io .unexpectedEof)
  else
    let size := leNat (r.held.take 4)
    match checkFrameLen size file.length with
    | .error err => .error err
    | .ok () =>
      let r := fill file short size { r with held := r.held.drop 4 }
      if r.held.length < size then .error (.io .unexpectedEof)
      else .ok (some (r.held.take size, { r with held := r.held.drop size }))

/-- A walk over the frames from the reader on: access the entry in each. -/
def readFrames (c : Crates) : ℕ → FrameReader → Except LSMError (List SStableEntry)
  | 0, _ => .ok []
  | fuel + 1, r =>
    match nextFrame file short r with
    | .error err => .error err
    | .ok none => .ok []
    | .ok (some (framed, r')) =>
      match accessEntry c framed with
      | .error err => .error err
      | .ok e => (readFrames c fuel r').map (e :: ·)

end Fill

/-- The body of the frame at an offset, as parsing the file has it. -/
def frameAt (file : Bytes) (offset : ℕ) : Except LSMError (Option Bytes) :=
  let head := readAt file offset 4
  if head = [] then .ok none
  else if head.length < 4 then .error (.io .unexpectedEof)
  else
    match checkFrameLen (leNat head) file.length with
    | .error err => .error err
    | .ok () =>
      let framed := readAt file (offset + 4) (leNat head)
      if framed.length < leNat head then .error (.io .unexpectedEof) else .ok (some framed)

/-! ### What is held -/

/-- The reader stands at `off`: it holds the bytes of the file from there on, as far as it has
read. -/
structure At (file : Bytes) (off : ℕ) (r : FrameReader) : Prop where
  held : r.held = readAt file off r.held.length
  nextOffset : r.nextOffset = off + r.held.length

variable {file : Bytes} {off n : ℕ} {r : FrameReader}

theorem at_new (file : Bytes) (off : ℕ) : At file off (new off) := ⟨by simp [new, readAt], rfl⟩

theorem At.offset (h : At file off r) : r.offset = off := by
  rw [FrameReader.offset, h.nextOffset, Nat.add_sub_cancel]

/-- What is held in front is what the file has there. -/
theorem At.take (h : At file off r) (hn : n ≤ r.held.length) :
    r.held.take n = readAt file off n := by
  rw [h.held, readAt, readAt, List.take_take, min_eq_left hn]

theorem At.drop (h : At file off r) (hn : n ≤ r.held.length) :
    At file (off + n) { r with held := r.held.drop n } := by
  refine ⟨?_, ?_⟩
  · simp only [List.length_drop]
    conv_lhs => rw [h.held]
    rw [readAt, readAt, List.drop_take, List.drop_drop]
  · simp only [List.length_drop, h.nextOffset]
    omega

theorem At.seek (h : At file off r) {target : ℕ} : At file target (seek r target) := by
  rw [FrameReader.seek, h.offset]
  split_ifs with hin
  · have hlen := h.nextOffset
    have hdrop := h.drop (n := target - off) (by omega)
    rwa [Nat.add_sub_cancel' hin.1] at hdrop
  · exact ⟨by simp [readAt], rfl⟩

private theorem readAt_append_readAt (file : Bytes) (off m k : ℕ) :
    readAt file off m ++ readAt file (off + m) k = readAt file off (m + k) := by
  rw [readAt, readAt, readAt, ← List.drop_drop, List.take_add]

private theorem readAt_length_readAt (file : Bytes) (off k : ℕ) :
    readAt file off (readAt file off k).length = readAt file off k :=
  (List.prefix_iff_eq_take.mp (List.take_prefix k (file.drop off))).symm

variable {c : Crates} {es : List SStableEntry}

section Spec

variable (short : ℕ → ℕ)

/-- **Reading on** keeps the reader where it stands, and holds enough or all there is. -/
theorem readUntil_spec (h : At file off r) (hroom : n ≤ r.capacity) :
    At file off (readUntil file short n r) ∧
      (n ≤ (readUntil file short n r).held.length ∨
        (readUntil file short n r).held = file.drop off) := by
  induction r using readUntil.induct file short n with
  | case1 r henough =>
    rw [readUntil, if_pos henough]
    exact ⟨h, .inl henough⟩
  | case2 r hless got hgot =>
    have hgot' : readAt file r.nextOffset (min (r.capacity - r.held.length) (short r.reads + 1)) =
      [] := hgot
    rw [readUntil, if_neg hless]
    simp only [hgot', dif_pos]
    refine ⟨h, .inr ?_⟩
    -- nothing is left behind what is held
    have hend := congrArg List.length hgot'
    rw [length_readAt, List.length_nil, h.nextOffset] at hend
    rw [h.held, readAt, List.take_of_length_le]
    rw [List.length_drop]
    omega
  | case3 r hless got hgot ih =>
    rw [readUntil, if_neg hless]
    simp only [dif_neg (show ¬ readAt file r.nextOffset
      (min (r.capacity - r.held.length) (short r.reads + 1)) = [] from hgot)]
    refine ih ?_ hroom
    have hlen : got.length ≤ min (r.capacity - r.held.length) (short r.reads + 1) := by
      have := length_readAt file r.nextOffset (min (r.capacity - r.held.length) (short r.reads + 1))
      change (readAt file r.nextOffset _).length ≤ _
      omega
    have hsame : readAt file (off + r.held.length) got.length = got := by
      rw [← h.nextOffset]
      exact readAt_length_readAt file r.nextOffset _
    refine ⟨?_, ?_⟩
    · simp only [List.length_append]
      rw [← readAt_append_readAt, ← h.held, hsame]
    · simp only [List.length_append, h.nextOffset]
      omega

theorem fill_spec (h : At file off r) (n : ℕ) : At file off (fill file short n r) ∧
    (n ≤ (fill file short n r).held.length ∨ (fill file short n r).held = file.drop off) := by
  rw [fill]
  split_ifs with henough
  · exact ⟨h, .inl henough⟩
  · refine readUntil_spec short ⟨h.held, h.nextOffset⟩ ?_
    simp only
    omega

/-- What is held of a reader that holds enough is what the file has there. -/
theorem At.readAt_eq (h : At file off r) (hn : n ≤ r.held.length ∨ r.held = file.drop off) :
    readAt file off n = r.held.take n := by
  obtain hn | hall := hn
  · exact (h.take hn).symm
  · rw [hall, readAt]

/-- **The buffered reader** delivers the body of the frame at its offset, and stands behind it
then. -/
theorem nextFrame_eq (h : At file off r) :
    match nextFrame file short r with
    | .error err => frameAt file off = .error err
    | .ok none => frameAt file off = .ok none
    | .ok (some (framed, r')) =>
      frameAt file off = .ok (some framed) ∧ At file (off + 4 + framed.length) r' := by
  obtain ⟨hat, hheld⟩ := fill_spec short h 4
  have hhead := hat.readAt_eq hheld
  rw [nextFrame]
  generalize fill file short 4 r = r₁ at *
  have hlen : (r₁.held.take 4).length = min 4 r₁.held.length := List.length_take
  by_cases hempty : r₁.held.length = 0
  · -- nothing lies behind the offset
    have hnil : r₁.held = [] := List.length_eq_zero_iff.mp hempty
    simp [frameAt, hhead, hnil]
  have hne : r₁.held.take 4 ≠ [] := by
    intro hnil
    rw [hnil, List.length_nil] at hlen
    omega
  by_cases hcut : r₁.held.length < 4
  · have hcut' : (r₁.held.take 4).length < 4 := by omega
    simp only [hempty, hcut, if_true, if_false, frameAt, hhead, hne, hcut']
  have hfour : ¬ (r₁.held.take 4).length < 4 := by omega
  simp only [hempty, hcut, if_false, frameAt, hhead, hne, hfour]
  cases hcheck : checkFrameLen (leNat (r₁.held.take 4)) file.length with
  | error err => rfl
  | ok =>
    have hbehind := hat.drop (n := 4) (by omega)
    obtain ⟨hat₂, hheld₂⟩ := fill_spec short hbehind (leNat (r₁.held.take 4))
    have hbody := hat₂.readAt_eq hheld₂
    simp only
    generalize fill file short (leNat (r₁.held.take 4)) { r₁ with held := r₁.held.drop 4 } = r₂ at *
    generalize leNat (r₁.held.take 4) = size at *
    have hlen₂ : (r₂.held.take size).length = min size r₂.held.length := List.length_take
    rw [hbody]
    by_cases hmissing : r₂.held.length < size
    · simp only [hmissing, if_true, show (r₂.held.take size).length < size by omega]
    · have hsize : (r₂.held.take size).length = size := by omega
      simp only [hmissing, if_false, hsize, lt_irrefl, true_and]
      exact hat₂.drop (by omega)

/-- Reading an entry is reading a frame and accessing the entry in it. -/
theorem nextBuffered_eq (c : Crates) (file : Bytes) (off : ℕ) : nextBuffered c file off =
    match frameAt file off with
    | .error err => .error err
    | .ok none => .ok none
    | .ok (some framed) =>
      (accessEntry c framed).map fun e => some (e, off + 4 + framed.length) := by
  rw [nextBuffered, frameAt]
  simp only
  by_cases hnil : readAt file off 4 = []
  · rw [if_pos hnil, if_pos hnil]
  rw [if_neg hnil, if_neg hnil]
  by_cases hcut : (readAt file off 4).length < 4
  · rw [if_pos hcut, if_pos hcut]
  rw [if_neg hcut, if_neg hcut]
  cases checkFrameLen (leNat (readAt file off 4)) file.length with
  | error err => rfl
  | ok =>
    simp only
    by_cases hmissing : (readAt file (off + 4) (leNat (readAt file off 4))).length <
        leNat (readAt file off 4)
    · rw [if_pos hmissing, if_pos hmissing]
    · have hsize : (readAt file (off + 4) (leNat (readAt file off 4))).length =
          leNat (readAt file off 4) := by
        refine le_antisymm ?_ (not_lt.mp hmissing)
        rw [length_readAt]
        exact min_le_left _ _
      rw [if_neg hmissing, if_neg hmissing]
      simp only [hsize]

/-- The buffered reader delivers what lies at its offset. -/
theorem nextFrame_spec (c : Crates) (h : At file off r) :
    match nextFrame file short r with
    | .error err => nextBuffered c file off = .error err
    | .ok none => nextBuffered c file off = .ok none
    | .ok (some (framed, r')) =>
      nextBuffered c file off =
          (accessEntry c framed).map (fun e => some (e, off + 4 + framed.length)) ∧
        At file (off + 4 + framed.length) r' := by
  have hframe := nextFrame_eq short h
  cases hres : nextFrame file short r with
  | error err =>
    rw [hres] at hframe
    rw [nextBuffered_eq, show frameAt file off = .error err from hframe]
  | ok o =>
    rw [hres] at hframe
    cases o with
    | none => rw [nextBuffered_eq, show frameAt file off = .ok none from hframe]
    | some x =>
      refine ⟨?_, hframe.2⟩
      rw [nextBuffered_eq, hframe.1]

/-- At a frame the reader delivers its payload. -/
theorem nextFrame_cons {e : SStableEntry} (hfile : FramesAt c file off (e :: es))
    (h : At file off r) :
    ∃ framed r', nextFrame file short r = .ok (some (framed, r')) ∧
      accessEntry c framed = .ok e ∧ At file (off + frameLen c e) r' := by
  have hspec := nextFrame_spec short c h
  have hnext := hfile.nextBuffered_cons
  cases hres : nextFrame file short r with
  | error err =>
    rw [hres] at hspec
    exact absurd (hspec.symm.trans hnext) (by simp)
  | ok o =>
    cases o with
    | none =>
      rw [hres] at hspec
      exact absurd (hspec.symm.trans hnext) (by simp)
    | some x =>
      obtain ⟨framed, r'⟩ := x
      rw [hres] at hspec
      obtain ⟨hbody, hat⟩ := hspec
      rw [hnext] at hbody
      cases hentry : accessEntry c framed with
      | error err => simp [hentry, Except.map] at hbody
      | ok d =>
        simp only [hentry, Except.map, Except.ok.injEq, Option.some.injEq, Prod.mk.injEq] at hbody
        obtain ⟨rfl, hoff⟩ := hbody
        exact ⟨framed, r', rfl, hentry, hoff ▸ hat⟩

theorem nextFrame_nil (hfile : FramesAt c file off []) (h : At file off r) :
    nextFrame file short r = .ok none := by
  have hspec := nextFrame_spec short c h
  have hnext := (hfile.next_nil fun _ => []).2.2
  cases hres : nextFrame file short r with
  | error err =>
    rw [hres] at hspec
    exact absurd (hspec.symm.trans hnext) (by simp)
  | ok o =>
    cases o with
    | none => rfl
    | some x =>
      rw [hres] at hspec
      have hbody := hspec.1
      rw [hnext] at hbody
      cases hentry : accessEntry c x.1 <;> simp [hentry, Except.map] at hbody

/-- **The walk** delivers the entries, however the reads come back. -/
theorem readFrames_spec (hfile : FramesAt c file off es) (h : At file off r) {fuel : ℕ}
    (hfuel : es.length < fuel) : readFrames file short c fuel r = .ok es := by
  induction es generalizing off r fuel with
  | nil =>
    obtain ⟨fuel, rfl⟩ := Nat.exists_eq_succ_of_ne_zero (by omega : fuel ≠ 0)
    rw [readFrames, nextFrame_nil short hfile h]
  | cons e es ih =>
    obtain ⟨fuel, rfl⟩ := Nat.exists_eq_succ_of_ne_zero (by omega : fuel ≠ 0)
    obtain ⟨framed, r', hnext, hentry, hat⟩ := nextFrame_cons short hfile h
    rw [List.length_cons] at hfuel
    rw [readFrames, hnext]
    simp only [hentry, ih hfile.tail hat (by omega : es.length < fuel), Except.map]

end Spec

end FrameReader

end Minnal
