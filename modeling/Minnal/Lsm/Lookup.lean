import Minnal.Lsm.Summary

/-!
# Finding keys in one SSTable

A point lookup scans a file forward from a sparse-index hint, or from its head, until the
key is found or passed (`lookupInSstableFileFrom`). A batch lookup does the same for a
sorted list of keys with one cursor that jumps to the next key's hint whenever that lies
ahead (`scanSortedCandidates`). A hint is only followed after `validScanStart` has seen a
complete, checksummed frame there whose key is not above the wanted one.

Against a file of sorted entries both agree with looking the key up in the list: the point
lookup finds `copyIn es key` (`lookupInSstableFileFrom_spec`) and the batch cursor visits, in
order, entries among which is every entry whose key was asked for
(`scanSortedCandidates_spec`).
-/

set_option linter.dupNamespace false

namespace Minnal

open ByteCodec FrameWalk SortedMap

/-! ### Outcomes -/

/-- Outcome of looking a key up in one SSTable layer. -/
inductive SsLookup where
  | found (ptr seq : ℕ)
  | deleted (seq : ℕ)
  | missing
  deriving DecidableEq, Repr

namespace SsLookup

/-- The matched entry's sequence. -/
def seq : SsLookup → Option ℕ
  | found _ s => some s
  | deleted s => some s
  | missing => none

/-- The copy that was found. -/
def candidate : SsLookup → Candidate
  | found ptr s => some (some ptr, s)
  | deleted s => some (none, s)
  | missing => none

/-- The outcome when the scan meets the key's entry. -/
def ofEntry (entry : SStableEntry) : SsLookup :=
  if entry.tombstone then deleted entry.seq else found entry.value entry.seq

@[simp] theorem candidate_ofEntry (e : SStableEntry) : (ofEntry e).candidate = some e.copy := by
  cases h : e.tombstone <;> simp [ofEntry, SStableEntry.copy, candidate, h]

@[simp] theorem candidate_missing : missing.candidate = none := rfl

theorem eq_missing (r : SsLookup) (h : r.seq = none) : r = missing := by
  cases r with
  | found ptr s => cases h
  | deleted s => cases h
  | missing => rfl

theorem seq_eq (r : SsLookup) : r.seq = r.candidate.map Prod.snd := by
  cases r <;> rfl

end SsLookup

/-- The copy of a key among the entries of a file. -/
def copyIn (es : List SStableEntry) (key : Key) : Candidate :=
  (findBy SStableEntry.key key es).map SStableEntry.copy

@[simp] theorem copyIn_nil (key : Key) : copyIn [] key = none := rfl

theorem copyIn_cons (e : SStableEntry) (es : List SStableEntry) (key : Key) :
    copyIn (e :: es) key = if e.key = key then some e.copy else copyIn es key := by
  rw [copyIn, findBy_cons]
  split_ifs <;> rfl

variable {es : List SStableEntry} {key : Key}

/-- A copy comes from an entry of the file. -/
theorem exists_of_copyIn {x : Copy} (h : copyIn es key = some x) :
    ∃ e ∈ es, e.key = key ∧ e.copy = x := by
  obtain ⟨e, he, rfl⟩ := Option.map_eq_some_iff.mp h
  obtain ⟨hmem, hkey⟩ := mem_of_findBy_eq_some he
  exact ⟨e, hmem, hkey, rfl⟩

theorem copyIn_eq_none : copyIn es key = none ↔ ∀ e ∈ es, e.key ≠ key := by
  rw [copyIn, Option.map_eq_none_iff, findBy_eq_none]

theorem copyIn_eq_some (hes : Ascending SStableEntry.key es) {x : Copy} :
    copyIn es key = some x ↔ ∃ e ∈ es, e.key = key ∧ e.copy = x := by
  refine ⟨exists_of_copyIn, ?_⟩
  rintro ⟨e, hmem, hkey, rfl⟩
  rw [copyIn, (findBy_eq_some_iff hes).mpr ⟨hmem, hkey⟩]
  rfl

/-- A bound on the sequences of a file bounds every copy in it. -/
theorem atMost_copyIn {m : ℕ} (h : ∀ e ∈ es, e.seq ≤ m) (key : Key) :
    LastWrite.AtMost m (copyIn es key) := by
  intro x hx
  obtain ⟨e, hmem, -, rfl⟩ := exists_of_copyIn hx
  exact h e hmem

/-! ### Point lookup -/

/-- Whether `offset` begins a complete, checksummed frame whose key is at most `key`. -/
def validScanStart (c : Crates) (file : Bytes) (offset : ℕ) (key : Key) : Bool :=
  if file.length < offset + 4 then false
  else
    let size := leNat (readAt file offset 4)
    if size = 0 ∨ file.length < offset + 4 + size then false
    else
      match accessEntry c (readAt file (offset + 4) size) with
      | .ok entry => decide (entry.key ≤ key)
      | .error _ => false

/-- Scan forward from a frame boundary until `key` is found or passed. -/
def scanSstableFileFor (c : Crates) (file : Bytes) (key : Key) (offset : ℕ) :
    Except LSMError SsLookup :=
  walk (nextPositional c file)
    (fun entry _ =>
      if entry.key = key then .stop (.ofEntry entry)
      else if key < entry.key then .stop .missing
      else .next .missing)
    (file.length + 1) offset .missing

/-- Look a key up in a file, starting from a hint if it is not 0 and survives validation. -/
def lookupInSstableFileFrom (c : Crates) (file : Bytes) (key : Key) (startOffset : ℕ) :
    Except LSMError SsLookup :=
  let hintRejected := startOffset ≠ 0 ∧ validScanStart c file startOffset key = false
  let offset := if startOffset ≠ 0 ∧ ¬ hintRejected then startOffset else sstableDataStart
  scanSstableFileFor c file key offset

/-- A hint for `key` that is 0 or the boundary of a frame at or below the key. -/
def HintFor (c : Crates) (file : Bytes) (es : List SStableEntry) (key : Key) (start : ℕ) : Prop :=
  start = 0 ∨ ∃ done e rest, es = done ++ e :: rest ∧ e.key ≤ key ∧
    FramesAt c file start (e :: rest)

variable {c : Crates} {file : Bytes}

theorem SparseIndex.PointsInto.hintFor {index : SparseIndex} (h : index.PointsInto c file es)
    (key : Key) : HintFor c file es key (index.blockStart key) := by
  by_cases hzero : index.blockStart key = 0
  · exact .inl hzero
  · obtain ⟨k, hmem, hle⟩ := blockStart_mem hzero
    obtain ⟨done, e, rest, hes, hkey, hframes⟩ := h _ hmem
    refine .inr ⟨done, e, rest, hes, ?_, hframes⟩
    have hek : e.key = k := hkey
    exact hek.trans_le hle

variable {offset : ℕ}

/-- At a frame boundary the validation compares the keys. -/
theorem FramesAt.validScanStart {e : SStableEntry} (h : FramesAt c file offset (e :: es))
    (key : Key) : validScanStart c file offset key = decide (e.key ≤ key) := by
  obtain ⟨payload, hpay, hsize, hbody, hlen, hle, -⟩ := h.cons
  obtain ⟨hpos, hlt⟩ := length_encode hpay
  have hne : payload.length ≠ 0 := by omega
  simp [Minnal.validScanStart, hsize, leNat_leBytes_of_lt hlt, hne, hbody,
    accessEntry_encode hpay, show ¬ file.length < offset + 4 by omega,
    show ¬ file.length < offset + 4 + payload.length by omega]

private theorem visitAll_lookup (hes : Ascending SStableEntry.key es) (key : Key) :
    (visitAll (fun (entry : SStableEntry) (_ : SsLookup) =>
      if entry.key = key then .stop (.ofEntry entry)
      else if key < entry.key then .stop .missing
      else .next .missing) es .missing).value.candidate = copyIn es key := by
  induction es with
  | nil => rfl
  | cons e es ih =>
    obtain ⟨hlt, hes'⟩ := ascending_cons.mp hes
    rw [visitAll_cons, copyIn_cons]
    rcases lt_trichotomy key e.key with hgt | heq | hless
    · have hnone : copyIn es key = none :=
        copyIn_eq_none.mpr fun d hd => (hgt.trans (hlt d hd)).ne'
      simp [hgt.ne', hgt, hnone]
    · simp [heq]
    · simp [hless.ne, hless.not_gt, ih hes']

/-- From a frame boundary the scan finds the key among the entries ahead. -/
theorem scanSstableFileFor_spec (hfile : FramesAt c file offset es)
    (hes : Ascending SStableEntry.key es) (key : Key) :
    ∃ r, scanSstableFileFor c file key offset = .ok r ∧ r.candidate = copyIn es key := by
  have hlen : es.length < file.length + 1 := by
    have hle := hfile.length_le
    omega
  have hreads : Reads (nextPositional c file) offset es (.ok ()) :=
    hfile.reads_positional fun size => List.replicate size 0
  exact ⟨_, walk_eq_ok hreads hlen _, visitAll_lookup hes key⟩

/-- **Point lookup.** In a file of sorted entries, from any sound hint, the lookup finds
exactly the key's entry. -/
theorem lookupInSstableFileFrom_spec (hfile : HoldsEntries c file es)
    (hes : Ascending SStableEntry.key es) {start : ℕ} (hhint : HintFor c file es key start) :
    ∃ r, lookupInSstableFileFrom c file key start = .ok r ∧ r.candidate = copyIn es key := by
  rcases hhint with rfl | ⟨done, e, rest, rfl, hle, hframes⟩
  · simpa [lookupInSstableFileFrom] using scanSstableFileFor_spec hfile hes key
  · have hvalid : validScanStart c file start key = true := by
      rw [hframes.validScanStart, decide_eq_true hle]
    have hsorted := List.pairwise_append.mp hes
    obtain ⟨r, hr, hcand⟩ := scanSstableFileFor_spec hframes hsorted.2.1 key
    -- the entries before the hint are below the hint's key, so below `key`
    have hskip : copyIn (done ++ e :: rest) key = copyIn (e :: rest) key := by
      have hbelow : ∀ d ∈ done, d.key < key := fun d hd =>
        (hsorted.2.2 d hd e List.mem_cons_self).trans_le hle
      rw [copyIn, copyIn, findBy_append_of_lt hbelow]
    by_cases hzero : start = 0
    · subst hzero
      simpa [lookupInSstableFileFrom] using scanSstableFileFor_spec hfile hes key
    · refine ⟨r, ?_, hcand.trans hskip.symm⟩
      simpa [lookupInSstableFileFrom, hzero, hvalid] using hr

/-! ### The batch cursor -/

section Cursor

variable {β : Type*} (c : Crates) (file : Bytes) (visit : β → SStableEntry → β)

/-- Where the cursor continues for the next candidate: at its hint, if that lies ahead and
is a valid place to start. -/
def seekCandidate (offset : ℕ) : List (Key × ℕ) → ℕ
  | [] => offset
  | (wanted, start) :: _ =>
    if offset < start ∧ validScanStart c file start wanted = true then start else offset

/-- Read forward for the first candidate; once it is reached or passed, drop the candidates
up to the key read and move on to the next. -/
def scanCandidatesFrom : ℕ → ℕ → List (Key × ℕ) → β → Except LSMError β
  | 0, _, _, b => .ok b
  | _ + 1, _, [], b => .ok b
  | fuel + 1, offset, (wanted, start) :: candidates, b =>
    match nextBuffered c file offset with
    | .error err => .error err
    | .ok none => .ok b
    | .ok (some (entry, offset')) =>
      let b := visit b entry
      if wanted ≤ entry.key then
        let left := ((wanted, start) :: candidates).dropWhile fun x => decide (x.1 ≤ entry.key)
        scanCandidatesFrom fuel (seekCandidate c file offset' left) left b
      else scanCandidatesFrom fuel offset' ((wanted, start) :: candidates) b

/-- Visit the entries near each of the sorted candidates, a key and a hint each. -/
def scanSortedCandidates (candidates : List (Key × ℕ)) (b : β) : Except LSMError β :=
  scanCandidatesFrom c file visit (file.length + 1)
    (seekCandidate c file sstableDataStart candidates) candidates b

end Cursor

/-- Of two boundaries the one further on has fewer entries ahead of it. -/
theorem FramesAt.suffix_of_lt {r₁ r₂ : List SStableEntry} {o₁ o₂ : ℕ} (h₁ : FramesAt c file o₁ r₁)
    (h₂ : FramesAt c file o₂ r₂) (hs₁ : r₁ <:+ es) (hs₂ : r₂ <:+ es) (hlt : o₁ < o₂) (hne : r₂ ≠ [])
    : r₂ <:+ r₁ := by
  have hlen : ∀ {r s : List SStableEntry} {o o' : ℕ}, FramesAt c file o r →
      FramesAt c file o' s → r <:+ s → file.length - o ≤ file.length - o' := by
    rintro r s o o' hr hs ⟨pre, rfl⟩
    induction pre generalizing o' with
    | nil =>
      have heq : file.drop o = file.drop o' := Except.ok.inj (hr.symm.trans hs)
      have hle := congrArg List.length heq
      rw [List.length_drop, List.length_drop] at hle
      omega
    | cons e pre ih =>
      have hle := ih hs.tail
      omega
  rcases List.suffix_or_suffix_of_suffix hs₁ hs₂ with h | h
  · obtain ⟨e, rest, rfl⟩ := List.exists_cons_of_ne_nil hne
    obtain ⟨payload, -, -, -, hframe, hle, -⟩ := h₂.cons
    have hcmp := hlen h₁ h₂ h
    omega
  · exact h

variable {rest : List SStableEntry}

/-- Seeking lands on a boundary and skips only entries below the key sought. -/
theorem FramesAt.seekCandidate_cons (hes : Ascending SStableEntry.key es)
    (h : FramesAt c file offset rest) (hsuffix : rest <:+ es) {wanted : Key} {start : ℕ}
    (hhint : HintFor c file es wanted start) (candidates : List (Key × ℕ)) :
    ∃ skipped rest', rest = skipped ++ rest' ∧ (∀ e ∈ skipped, e.key < wanted) ∧
      FramesAt c file (Minnal.seekCandidate c file offset ((wanted, start) :: candidates)) rest' := by
  rw [Minnal.seekCandidate]
  split_ifs with hseek
  · obtain ⟨hahead, -⟩ := hseek
    obtain rfl | ⟨done, d, tail, rfl, hle, hframes⟩ := hhint
    · exact absurd hahead (Nat.not_lt_zero _)
    · obtain ⟨skipped, rfl⟩ : d :: tail <:+ rest :=
        h.suffix_of_lt hframes hsuffix (List.suffix_append _ _) hahead (by simp)
      have hrest : Ascending SStableEntry.key (skipped ++ d :: tail) := hes.sublist hsuffix.sublist
      refine ⟨skipped, d :: tail, rfl, fun e he => ?_, hframes⟩
      exact ((List.pairwise_append.mp hrest).2.2 e he d List.mem_cons_self).trans_le hle
  · exact ⟨[], rest, rfl, by simp, h⟩

variable {candidates : List (Key × ℕ)}

/-- So it skips no entry a candidate asks for. -/
theorem FramesAt.seekCandidate (hes : Ascending SStableEntry.key es)
    (h : FramesAt c file offset rest) (hsuffix : rest <:+ es)
    (hsorted : candidates.Pairwise fun x y => x.1 ≤ y.1)
    (hhint : ∀ x ∈ candidates, HintFor c file es x.1 x.2) :
    ∃ rest', FramesAt c file (seekCandidate c file offset candidates) rest' ∧ rest' <:+ rest ∧
      ∀ e ∈ rest, (∃ x ∈ candidates, x.1 = e.key) → e ∈ rest' := by
  rcases candidates with _ | ⟨⟨wanted, start⟩, candidates⟩
  · exact ⟨rest, h, List.suffix_refl rest, fun e he _ => he⟩
  · obtain ⟨skipped, rest', rfl, hbelow, hframes⟩ :=
      h.seekCandidate_cons hes hsuffix (hhint _ List.mem_cons_self) candidates
    refine ⟨rest', hframes, List.suffix_append _ _, ?_⟩
    rintro e he ⟨y, hy, hkey⟩
    refine (List.mem_append.mp he).resolve_left fun hskip => ?_
    have hwanted : wanted ≤ y.1 := by
      rcases List.mem_cons.mp hy with rfl | hy
      · exact le_rfl
      · exact (List.pairwise_cons.mp hsorted).1 y hy
    exact absurd hkey ((hbelow e hskip).trans_le hwanted).ne'

/-- From a boundary, the cursor visits a sublist of what lies ahead that contains every
entry asked for. -/
theorem scanCandidatesFrom_spec {β : Type*} (visit : β → SStableEntry → β)
    (hes : Ascending SStableEntry.key es) {fuel : ℕ} (h : FramesAt c file offset rest)
    (hsuffix : rest <:+ es) (hfuel : rest.length < fuel)
    (hsorted : candidates.Pairwise fun x y => x.1 ≤ y.1)
    (hhint : ∀ x ∈ candidates, HintFor c file es x.1 x.2) (b : β) :
    ∃ visited : List SStableEntry, visited.Sublist rest ∧
      (∀ e ∈ rest, (∃ x ∈ candidates, x.1 = e.key) → e ∈ visited) ∧
      scanCandidatesFrom c file visit fuel offset candidates b = .ok (visited.foldl visit b) := by
  induction fuel generalizing rest offset candidates b with
  | zero => omega
  | succ fuel ih =>
    cases candidates with
    | nil => exact ⟨[], List.nil_sublist _, by simp, rfl⟩
    | cons x candidates =>
      obtain ⟨wanted, start⟩ := x
      cases rest with
      | nil =>
        refine ⟨[], List.nil_sublist _, by simp, ?_⟩
        simp [scanCandidatesFrom, (h.next_nil fun _ => []).2.2]
      | cons e rest =>
        have hrest : rest <:+ es := (List.suffix_cons e rest).trans hsuffix
        have hasc : Ascending SStableEntry.key (e :: rest) := hes.sublist hsuffix.sublist
        have hlen : rest.length < fuel := by
          rw [List.length_cons] at hfuel
          omega
        simp only [scanCandidatesFrom, h.nextBuffered_cons]
        by_cases hreached : wanted ≤ e.key
        · rw [if_pos hreached]
          generalize hleft : ((wanted, start) :: candidates).dropWhile
            (fun x => decide (x.1 ≤ e.key)) = left
          have hsub : left.Sublist ((wanted, start) :: candidates) :=
            hleft ▸ List.dropWhile_sublist _
          have hsorted' : left.Pairwise fun x y => x.1 ≤ y.1 := hsorted.sublist hsub
          have hhint' : ∀ x ∈ left, HintFor c file es x.1 x.2 :=
            fun x hx => hhint x (hsub.subset hx)
          obtain ⟨rest', hframes', hsuf', hkeep⟩ :=
            h.tail.seekCandidate hes hrest hsorted' hhint'
          obtain ⟨visited, hvis, hall, hok⟩ := ih hframes' (hsuf'.trans hrest)
            (lt_of_le_of_lt hsuf'.length_le hlen) hsorted' hhint' (visit b e)
          refine ⟨e :: visited, (hvis.trans hsuf'.sublist).cons_cons e, ?_, hok⟩
          intro d hd hcand
          rcases List.mem_cons.mp hd with rfl | hd
          · exact List.mem_cons_self
          · -- a candidate dropped now is at most `e.key`, and `d.key` is above that
            obtain ⟨y, hy, hkey⟩ := hcand
            have hgt : e.key < d.key := (ascending_cons.mp hasc).1 d hd
            have hmem : y ∈ left := by
              have hsplit := List.takeWhile_append_dropWhile
                (p := fun x : Key × ℕ => decide (x.1 ≤ e.key)) (l := (wanted, start) :: candidates)
              rw [← hsplit, hleft, List.mem_append] at hy
              refine hy.resolve_left fun htake => ?_
              have hle : y.1 ≤ e.key := by simpa using List.mem_takeWhile_imp htake
              exact absurd (hkey ▸ hle) hgt.not_ge
            exact List.mem_cons_of_mem _ (hall d (hkeep d hd ⟨y, hmem, hkey⟩) ⟨y, hmem, hkey⟩)
        · rw [if_neg hreached]
          obtain ⟨visited, hvis, hall, hok⟩ := ih h.tail hrest hlen hsorted hhint (visit b e)
          refine ⟨e :: visited, hvis.cons_cons e, ?_, hok⟩
          intro d hd hcand
          rcases List.mem_cons.mp hd with rfl | hd
          · exact List.mem_cons_self
          · exact List.mem_cons_of_mem _ (hall d hd hcand)

/-- **Batch lookup.** On a file of sorted entries with sound hints the cursor visits, in
order, a sublist of the entries that contains every entry a candidate asks for. -/
theorem scanSortedCandidates_spec {β : Type*} (visit : β → SStableEntry → β)
    (hfile : HoldsEntries c file es) (hes : Ascending SStableEntry.key es)
    (hsorted : candidates.Pairwise fun x y => x.1 ≤ y.1)
    (hhint : ∀ x ∈ candidates, HintFor c file es x.1 x.2) (b : β) :
    ∃ visited : List SStableEntry, visited.Sublist es ∧
      (∀ e ∈ es, (∃ x ∈ candidates, x.1 = e.key) → e ∈ visited) ∧
      scanSortedCandidates c file visit candidates b = .ok (visited.foldl visit b) := by
  obtain ⟨rest, hframes, hsuf, hkeep⟩ :=
    FramesAt.seekCandidate hes hfile (List.suffix_refl es) hsorted hhint
  have hlen : rest.length < file.length + 1 := by
    have hle := hframes.length_le
    omega
  obtain ⟨visited, hvis, hall, hok⟩ :=
    scanCandidatesFrom_spec visit hes hframes hsuf hlen hsorted hhint b
  exact ⟨visited, hvis.trans hsuf.sublist,
    fun e he hcand => hall e (hkeep e he hcand) hcand, hok⟩

end Minnal
