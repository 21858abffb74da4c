import Minnal.Wal.SegmentFormat

/-!
# Deleting segments

`delete_segments_below` lists the directory and removes the segments below an id, **oldest first**
and never the active one. It stops at the first removal that fails. So what it leaves is always the
files from some id up (`keepFrom`), and without a failure from the id it was given.
-/

set_option linter.dupNamespace false

namespace Minnal

variable {files : List (ℕ × List UInt8)}

namespace SegmentedLog

/-! ### Runs of ids -/

/-- Ascending lists with the same members are equal. -/
theorem eq_of_ascending {l m : List ℕ} (hl : l.Pairwise (· < ·)) (hm : m.Pairwise (· < ·))
    (h : ∀ i, i ∈ l ↔ i ∈ m) : l = m := List.Pairwise.eq_of_mem_iff hl hm h

theorem range'_filter_lt (a n b : ℕ) :
    (List.range' a n).filter (fun s => decide (s < b)) = List.range' a (min n (b - a)) := by
  refine eq_of_ascending (.filter _ (List.pairwise_lt_range' ..)) (List.pairwise_lt_range' ..)
    fun i => ?_
  simp only [List.mem_filter, List.mem_range'_1, decide_eq_true_eq]
  omega

theorem range'_filter_le (a n b : ℕ) :
    (List.range' a n).filter (fun s => decide (b ≤ s)) =
      List.range' (max a b) (n - (b - a)) := by
  refine eq_of_ascending (.filter _ (List.pairwise_lt_range' ..)) (List.pairwise_lt_range' ..)
    fun i => ?_
  simp only [List.mem_filter, List.mem_range'_1, decide_eq_true_eq]
  omega

/-! ### The deletion -/

/-- What `remove_file` answers for a segment. -/
inductive Removal where
  | removed
  | notFound
  | failed
  deriving DecidableEq, Repr

/-- The files left, what was deleted of them, and whether a deletion failed. -/
structure Deleted where
  files : List (ℕ × List UInt8)
  segments : ℕ
  bytes : ℕ
  failed : Bool

/-- Delete the segments below `below`, oldest first, up to the first failure. -/
def removeBelow (remove : ℕ → Removal) (below : ℕ) : List (ℕ × List UInt8) → Deleted
  | [] => { files := [], segments := 0, bytes := 0, failed := false }
  | (id, file) :: rest =>
    if id < below then
      match remove id with
      | .removed =>
        let d := removeBelow remove below rest
        { d with segments := d.segments + 1, bytes := d.bytes + file.length }
      | .notFound => removeBelow remove below rest
      | .failed => { files := (id, file) :: rest, segments := 0, bytes := 0, failed := true }
    else
      let d := removeBelow remove below rest
      { d with files := (id, file) :: d.files }

/-- What the file system answers during a pass. -/
structure Answers where
  /-- The directory can be listed, before the deletion and after it. -/
  listed : Bool
  listedAfter : Bool
  remove : ℕ → Removal
  syncDir : Bool

/-- Nothing fails. -/
def Answers.sound : Answers :=
  { listed := true, listedAfter := true, remove := fun _ => .removed, syncDir := true }

/-- Delete every segment below one, never the active one: the files left, and the segments and
bytes deleted unless it fails. -/
def deleteSegmentsBelow (active : ℕ) (io : Answers) (files : List (ℕ × List UInt8))
    (segmentId : ℕ) : List (ℕ × List UInt8) × Option (ℕ × ℕ) :=
  if io.listed then
    let d := removeBelow io.remove (min segmentId active) files
    if 0 < d.segments ∧ io.syncDir = false then (d.files, none)
    else if d.failed ∧ d.segments = 0 then (d.files, none)
    else (d.files, some (d.segments, d.bytes))
  else (files, none)

/-! ### What a deletion leaves -/

/-- The files from a segment up. -/
def keepFrom (stop : ℕ) (files : List (ℕ × List UInt8)) : List (ℕ × List UInt8) :=
  files.filter fun x => decide (stop ≤ x.1)

/-- **A deletion takes the oldest files**: those below where it stopped, which without a failure is
where it was told to. -/
theorem removeBelow_files (remove : ℕ → Removal) (below : ℕ)
    (hsorted : (files.map Prod.fst).Pairwise (· < ·)) :
    ∃ stop ≤ below, (removeBelow remove below files).files = keepFrom stop files ∧
      (∀ low < below, (∀ x ∈ files, low < x.1) → low < stop) ∧
      ((∀ id, remove id ≠ .failed) → stop = below) := by
  induction files with
  | nil => exact ⟨below, le_rfl, rfl, fun _ h _ => h, fun _ => rfl⟩
  | cons x files ih =>
    obtain ⟨id, file⟩ := x
    rw [List.map_cons, List.pairwise_cons] at hsorted
    have habove : ∀ x ∈ files, id < x.1 := fun x hx =>
      hsorted.1 x.1 (List.mem_map_of_mem hx)
    obtain ⟨stop, hle, hfiles, hlow, hall⟩ := ih hsorted.2
    unfold removeBelow
    split
    · next hid =>
      have hgone : keepFrom stop ((id, file) :: files) = keepFrom stop files := by
        rw [keepFrom, List.filter_cons_of_neg]
        · rfl
        · rw [decide_eq_true_eq, not_le]
          exact hlow id hid habove
      have hlow' : ∀ low < below, (∀ x ∈ (id, file) :: files, low < x.1) → low < stop :=
        fun low hlt h => hlow low hlt fun x hx => h x (List.mem_cons_of_mem _ hx)
      split
      · exact ⟨stop, hle, by rw [hgone, ← hfiles], hlow', hall⟩
      · exact ⟨stop, hle, by rw [hgone, ← hfiles], hlow', hall⟩
      · next hfailed =>
        refine ⟨id, hid.le, ?_, fun low _ h => h _ List.mem_cons_self, fun h =>
          absurd hfailed (h id)⟩
        refine (List.filter_eq_self.mpr fun x hx => ?_).symm
        rw [decide_eq_true_eq]
        rcases List.mem_cons.mp hx with rfl | hx
        · exact le_rfl
        · exact (habove x hx).le
    · next hid =>
      refine ⟨stop, hle, ?_, fun low hlt h => hlow low hlt fun x hx =>
        h x (List.mem_cons_of_mem _ hx), hall⟩
      rw [keepFrom, List.filter_cons_of_pos (by rw [decide_eq_true_eq]; omega)]
      exact congrArg _ hfiles

theorem deleteSegmentsBelow_files (active : ℕ) (io : Answers)
    (hsorted : (files.map Prod.fst).Pairwise (· < ·)) (segmentId : ℕ) :
    ∃ stop ≤ min segmentId active,
      (deleteSegmentsBelow active io files segmentId).1 = keepFrom stop files ∧
      (io = .sound → stop = min segmentId active) := by
  unfold deleteSegmentsBelow
  split
  · obtain ⟨stop, hle, hfiles, -, hall⟩ :=
      removeBelow_files io.remove (min segmentId active) hsorted
    refine ⟨stop, hle, ?_, ?_⟩
    · dsimp only
      split
      · exact hfiles
      · split <;> exact hfiles
    · rintro rfl
      exact hall fun _ => nofun
  · next hlisted =>
    refine ⟨0, Nat.zero_le _, ?_, ?_⟩
    · exact (List.filter_eq_self.mpr fun x _ => decide_eq_true (Nat.zero_le _)).symm
    · rintro rfl
      exact absurd rfl hlisted

theorem ids_keepFrom (stop : ℕ) (files : List (ℕ × List UInt8)) :
    (keepFrom stop files).map Prod.fst =
      (files.map Prod.fst).filter fun id => decide (stop ≤ id) := by
  rw [keepFrom, List.filter_map]
  rfl

/-- Files in id order are those below a segment and then those from it up. -/
theorem below_append_keepFrom (stop : ℕ) (hsorted : (files.map Prod.fst).Pairwise (· < ·)) :
    files.filter (fun x => decide (x.1 < stop)) ++ keepFrom stop files = files := by
  induction files with
  | nil => rfl
  | cons x files ih =>
    rw [List.map_cons, List.pairwise_cons] at hsorted
    by_cases hx : x.1 < stop
    · have hkeep : keepFrom stop (x :: files) = keepFrom stop files :=
        List.filter_cons_of_neg (by rw [decide_eq_true_eq]; omega)
      rw [hkeep, List.filter_cons_of_pos (by rwa [decide_eq_true_eq]), List.cons_append,
        ih hsorted.2]
    · have hall : ∀ y ∈ x :: files, stop ≤ y.1 := by
        intro y hy
        rcases List.mem_cons.mp hy with rfl | hy
        · omega
        · have hlt := hsorted.1 y.1 (List.mem_map_of_mem hy)
          omega
      rw [List.filter_eq_nil_iff.mpr fun y hy => by
          rw [decide_eq_true_eq]
          have := hall y hy
          omega,
        keepFrom, List.filter_eq_self.mpr fun y hy => decide_eq_true (hall y hy), List.nil_append]

end SegmentedLog

end Minnal
