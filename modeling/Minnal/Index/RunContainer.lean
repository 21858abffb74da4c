import Minnal.Index.ArrayContainer

/-!
# Run containers

A run container keeps its values as **runs**: a start and how many values follow it. A list of
runs stands for the list of values they span (`runValues`), and it is well formed
(`SortedRuns`) exactly when that list is strictly ascending and of sixteen bits
(`sortedRuns_iff`), so each operation is judged by what it does to the values. Inserting and
removing are those of a sorted array; intersection and union are those of sets. Difference is
that of sets but for **the last value**: past a run that ends at `65535` the cursor cannot move
on, and `andNot` keeps `65535` when both sides hold it (`mem_andNotRuns`).
-/

namespace Minnal

open SortedMap (Ascending)
open List (mem_append mem_cons pairwise_cons mem_cons_self mem_cons_of_mem singleton_append)

/-- All values from `start` on, `length` of them beyond `start`. -/
structure Run where
  start : ℕ
  length : ℕ
deriving DecidableEq

/-- The last value of the run. -/
def Run.end (r : Run) : ℕ := r.start + r.length

variable {r : Run} {v start last : ℕ}

namespace Run

def cardinality (r : Run) : ℕ := r.length + 1

/-- The run `start..=last`. -/
def span (start last : ℕ) : Run := ⟨start, last - start⟩

/-- `start..=end`. -/
def values (r : Run) : List ℕ := List.range' r.start (r.length + 1)

theorem start_le_end (r : Run) : r.start ≤ r.end := Nat.le_add_right _ _

@[simp] theorem mem_values : v ∈ r.values ↔ r.start ≤ v ∧ v ≤ r.end := by
  rw [values, List.mem_range'_1, Run.end]
  omega

@[simp] theorem length_values (r : Run) : r.values.length = r.cardinality := by
  simp [values, cardinality]

theorem start_mem_values (r : Run) : r.start ∈ r.values := mem_values.mpr ⟨le_rfl, r.start_le_end⟩

theorem end_mem_values (r : Run) : r.end ∈ r.values := mem_values.mpr ⟨r.start_le_end, le_rfl⟩

@[simp] theorem span_start (start last : ℕ) : (span start last).start = start := rfl

/-- A run that grows by one has one more value. -/
theorem values_grow (r : Run) : (Run.mk r.start (r.length + 1)).values = r.values ++ [r.end + 1] := by
  simp only [values, List.range'_1_concat, Run.end]
  rfl

/-- Two runs one value apart make one run with it. -/
theorem values_join {p n : Run} (hp : p.end + 1 = v) (hn : n.start = v + 1) :
    (Run.mk p.start (n.end - p.start)).values = p.values ++ v :: n.values := by
  have hlen : n.end - p.start + 1 = (p.length + 1) + (n.length + 1 + 1) := by
    simp only [Run.end] at *
    omega
  have hv : p.start + 1 * (p.length + 1) = v := by
    simp only [Run.end] at hp
    omega
  simp only [values, hlen]
  rw [← List.range'_append, hv, hn]
  rfl

/-- A value inside a run splits it. -/
theorem values_split (hs : r.start ≤ v) (he : v ≤ r.end) :
    r.values = List.range' r.start (v - r.start) ++ v :: List.range' (v + 1) (r.end - v) := by
  have hlen : r.length + 1 = (v - r.start) + (r.end - v + 1) := by
    simp only [Run.end] at *
    omega
  have hv : r.start + 1 * (v - r.start) = v := by omega
  rw [values, hlen, ← List.range'_append, hv, List.range'_succ]

theorem span_end (h : start ≤ last) : (span start last).end = last := by
  simp only [span, Run.end]
  omega

end Run

/-! ### The values of a list of runs -/

/-- Expand all runs, in order. -/
def runValues (runs : List Run) : List ℕ := runs.flatMap Run.values

/-- The runs stand apart, in order, and end within sixteen bits. -/
structure SortedRuns (runs : List Run) : Prop where
  ordered : runs.Pairwise fun a b => a.end < b.start
  fits : ∀ r ∈ runs, r.end < 65536

section RunValues

variable {runs : List Run} {r : Run} {v : ℕ}

@[simp] theorem runValues_nil : runValues [] = [] := rfl

@[simp] theorem runValues_cons (r : Run) (runs : List Run) :
    runValues (r :: runs) = r.values ++ runValues runs := rfl

@[simp] theorem runValues_append (as bs : List Run) :
    runValues (as ++ bs) = runValues as ++ runValues bs := List.flatMap_append

@[simp] theorem mem_runValues : v ∈ runValues runs ↔ ∃ r ∈ runs, r.start ≤ v ∧ v ≤ r.end := by
  simp [runValues]

theorem length_runValues (runs : List Run) :
    (runValues runs).length = (runs.map Run.cardinality).sum := by
  simp [runValues, List.length_flatMap]

/-- Runs stand apart and in order exactly when their values ascend. -/
theorem sortedRuns_iff : SortedRuns runs ↔ SortedLows (runValues runs) := by
  constructor
  · rintro ⟨hord, hfits⟩
    refine ⟨List.pairwise_flatMap.mpr ⟨fun r _ => List.pairwise_lt_range' 1, ?_⟩, ?_⟩
    · refine hord.imp fun {a b} hab x hx y hy => ?_
      exact (Run.mem_values.mp hx).2.trans_lt (hab.trans_le (Run.mem_values.mp hy).1)
    · intro v hv
      obtain ⟨r, hr, -, hle⟩ := mem_runValues.mp hv
      exact hle.trans_lt (hfits r hr)
  · rintro ⟨hasc, hbound⟩
    refine ⟨(List.pairwise_flatMap.mp hasc).2.imp fun {a b} hab => ?_, fun r hr => ?_⟩
    · exact hab _ a.end_mem_values _ b.start_mem_values
    · exact hbound _ (mem_runValues.mpr ⟨r, hr, r.start_le_end, le_rfl⟩)

theorem SortedRuns.nil : SortedRuns [] := ⟨List.Pairwise.nil, by simp⟩

theorem sortedRuns_cons :
    SortedRuns (r :: runs) ↔ r.end < 65536 ∧ (∀ s ∈ runs, r.end < s.start) ∧ SortedRuns runs := by
  constructor
  · rintro ⟨hord, hfits⟩
    obtain ⟨hr, hord⟩ := pairwise_cons.mp hord
    exact ⟨hfits r mem_cons_self, hr, hord, fun s hs => hfits s (mem_cons_of_mem _ hs)⟩
  · rintro ⟨hr, hlt, hord, hfits⟩
    refine ⟨pairwise_cons.mpr ⟨hlt, hord⟩, fun s hs => ?_⟩
    rcases mem_cons.mp hs with rfl | hs
    · exact hr
    · exact hfits s hs

end RunValues

/-! ### Building runs from values -/

/-- The loop of `from_sorted_values`: the open run is `start..=prev`. -/
def collectRuns (start prev : ℕ) : List ℕ → List Run
  | [] => [Run.span start prev]
  | v :: vs =>
    if v = prev + 1 then collectRuns start v vs else Run.span start prev :: collectRuns v v vs

/-- The runs of a sorted slice of values. -/
def runsOfValues : List ℕ → List Run
  | [] => []
  | v :: vs => collectRuns v v vs

private theorem runValues_collectRuns {prev : ℕ} (h : start ≤ prev) (vs : List ℕ) :
    runValues (collectRuns start prev vs) = (Run.span start prev).values ++ vs := by
  induction vs generalizing start prev with
  | nil => simp [collectRuns]
  | cons v vs ih =>
    rw [collectRuns]
    split_ifs with hv
    · have hgrow : Run.span start v =
          ⟨(Run.span start prev).start, (Run.span start prev).length + 1⟩ := by
        simp only [Run.span, Run.mk.injEq, true_and]
        omega
      rw [ih (by omega), hgrow, Run.values_grow, Run.span_end h, ← hv]
      simp
    · rw [runValues_cons, ih le_rfl]
      simp [Run.values, Run.span]

/-- Collecting values into runs and expanding them again changes nothing. -/
@[simp] theorem runValues_runsOfValues (vs : List ℕ) : runValues (runsOfValues vs) = vs := by
  cases vs with
  | nil => rfl
  | cons v vs =>
    rw [runsOfValues, runValues_collectRuns le_rfl]
    simp [Run.values, Run.span]

theorem sortedRuns_runsOfValues {vs : List ℕ} (h : SortedLows vs) : SortedRuns (runsOfValues vs) :=
  sortedRuns_iff.mpr (by simpa using h)

/-! ### Changing one value -/

/-- `find_run`: the run that holds `v`, or the place of the first run beyond it. -/
def findRun (runs : List Run) (v : ℕ) : Except ℕ ℕ :=
  let pos := (runs.takeWhile (·.end < v)).length
  if runs[pos]?.any (·.start ≤ v) then .ok pos else .error pos

/-- `RunContainer::insert` on the runs: whether `v` is new, and the runs with it. -/
def insertRun (runs : List Run) (v : ℕ) : Bool × List Run :=
  match findRun runs v with
  | .ok _ => (false, runs)
  | .error pos =>
    let extendsPrev := 0 < pos && runs[pos - 1]?.any (·.end + 1 = v)
    let extendsNext := runs[pos]?.any (·.start = v + 1)
    (true, match extendsPrev, extendsNext with
      | true, true =>
        let nextEnd := (runs[pos]?.map Run.end).getD 0
        (runs.modify (pos - 1) fun r => { r with length := nextEnd - r.start }).eraseIdx pos
      | true, false => runs.modify (pos - 1) fun r => { r with length := r.length + 1 }
      | false, true => runs.modify pos fun r => { r with start := v, length := r.length + 1 }
      | false, false => runs.insertIdx pos ⟨v, 0⟩)

/-- `RunContainer::remove` on the runs: whether `v` was there, and the runs without. -/
def removeRun (runs : List Run) (v : ℕ) : Bool × List Run :=
  match findRun runs v with
  | .error _ => (false, runs)
  | .ok idx =>
    (true, match runs[idx]? with
      | none => runs
      | some run =>
        if run.length = 0 then runs.eraseIdx idx
        else if v = run.start then
          runs.modify idx fun r => { r with start := r.start + 1, length := r.length - 1 }
        else if v = run.end then runs.modify idx fun r => { r with length := r.length - 1 }
        else
          (runs.modify idx fun r => { r with length := v - r.start - 1 }).insertIdx (idx + 1)
            ⟨v + 1, run.end - v - 1⟩)

variable {runs : List Run}

/-- A search cuts sorted runs at `v`, which one of them holds or none. -/
theorem findRun_cut (h : SortedRuns runs) (v : ℕ) :
    ∃ lo hi : List Run, (∀ r ∈ lo, r.end < v) ∧ (∀ r ∈ hi, v < r.start) ∧
      ((∃ r : Run, r.start ≤ v ∧ v ≤ r.end ∧ runs = lo ++ r :: hi ∧ findRun runs v = .ok lo.length) ∨
        runs = lo ++ hi ∧ findRun runs v = .error lo.length) := by
  have hlo : ∀ r ∈ runs.takeWhile (·.end < v), r.end < v := fun x hx => by
    simpa using List.mem_takeWhile_imp hx
  have hcut : runs.takeWhile (·.end < v) ++ runs.dropWhile (·.end < v) = runs :=
    List.takeWhile_append_dropWhile
  have hget : runs[(runs.takeWhile (·.end < v)).length]? = (runs.dropWhile (·.end < v)).head? := by
    conv_lhs => rw [← hcut]
    rw [List.takeWhile_append_dropWhile, ← hcut, List.getElem?_append_right (by simp)]
    simp [List.head?_eq_getElem?]
  generalize hdrop : runs.dropWhile (·.end < v) = hi at hcut hget
  cases hi with
  | nil => exact ⟨_, [], hlo, by simp, .inr ⟨hcut.symm, by simp [findRun, hget]⟩⟩
  | cons r hi =>
    have hr : v ≤ r.end := by
      have := List.head?_dropWhile_not (·.end < v) runs
      rw [hdrop] at this
      simpa using this
    have hhi : ∀ s ∈ hi, r.end < s.start := (sortedRuns_cons.mp (sortedRuns_iff.mpr
      ((sortedRuns_iff.mp h).sublist (hcut ▸ by simp)))).2.1
    by_cases hv : r.start ≤ v
    · refine ⟨_, hi, hlo, fun s hs => hr.trans_lt (hhi s hs), .inl ⟨r, hv, hr, hcut.symm, ?_⟩⟩
      simp [findRun, hget, hv]
    · refine ⟨_, r :: hi, hlo, fun s hs => ?_, .inr ⟨hcut.symm, ?_⟩⟩
      · rcases mem_cons.mp hs with rfl | hs
        · exact not_le.mp hv
        · exact (not_le.mp hv).trans (r.start_le_end.trans_lt (hhi s hs))
      · simp [findRun, hget, hv]

section Places

variable {α : Type*} (lo hi : List α) (a : α)

private theorem getElem?_place : (lo ++ a :: hi)[lo.length]? = some a := by simp

private theorem modify_place (f : α → α) :
    (lo ++ a :: hi).modify lo.length f = lo ++ f a :: hi := by
  induction lo with
  | nil => rfl
  | cons b lo ih => simpa using ih

private theorem eraseIdx_place : (lo ++ a :: hi).eraseIdx lo.length = lo ++ hi := by
  simp [List.eraseIdx_append_of_length_le]

private theorem insertIdx_place : (lo ++ hi).insertIdx lo.length a = lo ++ a :: hi := by
  induction lo with
  | nil => rfl
  | cons b lo ih => simpa [List.insertIdx_succ_cons] using ih

end Places

private theorem extendsPrev_iff (lo hi : List Run) (v : ℕ) :
    (decide (0 < lo.length) && (lo ++ hi)[lo.length - 1]?.any (·.end + 1 = v)) = true ↔
      ∃ lo', ∃ p : Run, lo = lo' ++ [p] ∧ p.end + 1 = v := by
  obtain rfl | ⟨lo', p, rfl⟩ := List.eq_nil_or_concat lo
  · simp
  · have hget : (lo' ++ [p] ++ hi)[(lo' ++ [p]).length - 1]? = some p := by simp
    simp only [List.concat_eq_append, hget]
    simp

private theorem extendsNext_iff (lo hi : List Run) (v : ℕ) :
    (lo ++ hi)[lo.length]?.any (·.start = v + 1) = true ↔
      ∃ n hi', hi = n :: hi' ∧ n.start = v + 1 := by
  cases hi with
  | nil => simp
  | cons n hi => simp

/-- Where `v` falls between two runs, inserting it puts it between their values. -/
private theorem runValues_insertRun {lo hi : List Run}
    (hs : findRun (lo ++ hi) v = .error lo.length) :
    (insertRun (lo ++ hi) v).1 = true ∧
      runValues (insertRun (lo ++ hi) v).2 = runValues lo ++ v :: runValues hi := by
  simp only [insertRun, hs, true_and]
  by_cases hprev : ∃ lo', ∃ p : Run, lo = lo' ++ [p] ∧ p.end + 1 = v
  · have hextends := (extendsPrev_iff lo hi v).mpr hprev
    simp only [hextends]
    obtain ⟨lo, p, rfl, hp⟩ := hprev
    have hpos : (lo ++ [p]).length - 1 = lo.length := by simp
    by_cases hnext : ∃ n hi', hi = n :: hi' ∧ n.start = v + 1
    · -- `v` closes the gap between two runs
      simp only [(extendsNext_iff _ hi v).mpr hnext]
      obtain ⟨n, hi, rfl, hn⟩ := hnext
      simp only [getElem?_place, Option.map_some, Option.getD_some, hpos]
      rw [List.append_assoc, singleton_append, modify_place]
      have hdel := eraseIdx_place (lo ++ [{ p with length := n.end - p.start }]) hi n
      simp only [List.append_assoc, singleton_append, List.length_append,
        List.length_singleton] at hdel ⊢
      rw [hdel]
      simp [Run.values_join hp hn]
    · simp only [Bool.eq_false_iff.mpr ((extendsNext_iff _ hi v).not.mpr hnext)]
      rw [hpos, List.append_assoc, singleton_append, modify_place]
      simp [Run.values_grow, hp]
  · simp only [Bool.eq_false_iff.mpr ((extendsPrev_iff lo hi v).not.mpr hprev)]
    by_cases hnext : ∃ n hi', hi = n :: hi' ∧ n.start = v + 1
    · simp only [(extendsNext_iff lo hi v).mpr hnext]
      obtain ⟨n, hi, rfl, hn⟩ := hnext
      rw [modify_place]
      simp [Run.values, hn, List.range'_succ]
    · simp only [Bool.eq_false_iff.mpr ((extendsNext_iff lo hi v).not.mpr hnext)]
      rw [insertIdx_place]
      simp [Run.values]

/-- Where a run holds `v`, removing it takes it out of the run's values. -/
private theorem runValues_removeRun {lo hi : List Run} (hstart : r.start ≤ v) (hend : v ≤ r.end)
    (hs : findRun (lo ++ r :: hi) v = .ok lo.length) :
    (removeRun (lo ++ r :: hi) v).1 = true ∧
      runValues (removeRun (lo ++ r :: hi) v).2 = runValues lo ++
        (List.range' r.start (v - r.start) ++ List.range' (v + 1) (r.end - v)) ++ runValues hi := by
  simp only [removeRun, hs, getElem?_place, true_and]
  have hlast : r.end = r.start + r.length := rfl
  split_ifs with hzero hfirst hfinal
  · have h₁ : v - r.start = 0 := by omega
    have h₂ : r.end - v = 0 := by omega
    rw [eraseIdx_place, h₁, h₂]
    simp
  · have h₁ : v - r.start = 0 := by omega
    have h₂ : r.end - v = r.length - 1 + 1 := by omega
    rw [modify_place, h₁, h₂]
    simp [Run.values, hfirst]
  · have h₁ : r.length - 1 + 1 = v - r.start := by omega
    have h₂ : r.end - v = 0 := by omega
    rw [modify_place, h₂]
    simp [Run.values, h₁]
  · have h₁ : v - r.start - 1 + 1 = v - r.start := by omega
    have h₂ : r.end - v - 1 + 1 = r.end - v := by omega
    have hplace := insertIdx_place (lo ++ [{ r with length := v - r.start - 1 }]) hi
      ⟨v + 1, r.end - v - 1⟩
    rw [modify_place]
    simp only [List.append_assoc, singleton_append, List.length_append,
      List.length_singleton] at hplace
    rw [hplace]
    simp [Run.values, h₁, h₂]

/-- **Inserting a value** adds it, and says whether it was new. -/
theorem insertRun_spec (h : SortedRuns runs) (hv : v < 65536) :
    SortedRuns (insertRun runs v).2 ∧ (insertRun runs v).1 = decide (v ∉ runValues runs) ∧
      ∀ x, x ∈ runValues (insertRun runs v).2 ↔ x = v ∨ x ∈ runValues runs := by
  obtain ⟨lo, hi, hlo, hhi, ⟨r, hr₁, hr₂, rfl, hs⟩ | ⟨rfl, hs⟩⟩ := findRun_cut h v
  · have hmem : v ∈ runValues (lo ++ r :: hi) := mem_runValues.mpr ⟨r, by simp, hr₁, hr₂⟩
    simp only [insertRun, hs]
    refine ⟨h, (decide_eq_false (not_not.mpr hmem)).symm, fun x => ⟨.inr, ?_⟩⟩
    rintro (rfl | hx)
    · exact hmem
    · exact hx
  · obtain ⟨hflag, hvals⟩ := runValues_insertRun hs
    have hsorted := sortedRuns_iff.mp h
    rw [runValues_append] at hsorted
    have hlo' : ∀ x ∈ runValues lo, x < v := by
      intro x hx
      obtain ⟨r, hr, -, hle⟩ := mem_runValues.mp hx
      exact hle.trans_lt (hlo r hr)
    have hhi' : ∀ x ∈ runValues hi, v < x := by
      intro x hx
      obtain ⟨r, hr, hle, -⟩ := mem_runValues.mp hx
      exact (hhi r hr).trans_le hle
    refine ⟨sortedRuns_iff.mpr ?_, ?_, fun x => ?_⟩
    · rw [hvals]
      exact hsorted.insert_between hlo' hhi' hv
    · have hmem : v ∉ runValues (lo ++ hi) := by
        rw [runValues_append, mem_append]
        rintro (hx | hx)
        · exact lt_irrefl v (hlo' v hx)
        · exact lt_irrefl v (hhi' v hx)
      simp only [hflag, hmem, not_false_eq_true, decide_true]
    · rw [hvals, runValues_append, mem_append, mem_append, mem_cons]
      tauto

/-- **Removing a value** takes it out, and says whether it was there. -/
theorem removeRun_spec (h : SortedRuns runs) (v : ℕ) :
    SortedRuns (removeRun runs v).2 ∧ (removeRun runs v).1 = decide (v ∈ runValues runs) ∧
      ∀ x, x ∈ runValues (removeRun runs v).2 ↔ x ≠ v ∧ x ∈ runValues runs := by
  have hsorted := sortedRuns_iff.mp h
  obtain ⟨lo, hi, hlo, hhi, ⟨r, hr₁, hr₂, rfl, hs⟩ | ⟨rfl, hs⟩⟩ := findRun_cut h v
  · obtain ⟨hflag, hvals⟩ := runValues_removeRun hr₁ hr₂ hs
    have hmem : v ∈ runValues (lo ++ r :: hi) := mem_runValues.mpr ⟨r, by simp, hr₁, hr₂⟩
    have hsplit : runValues (lo ++ r :: hi) = runValues lo ++
        (List.range' r.start (v - r.start) ++ v :: List.range' (v + 1) (r.end - v)) ++
          runValues hi := by
      rw [runValues_append, runValues_cons, Run.values_split hr₁ hr₂]
      simp
    rw [hsplit] at hsorted
    refine ⟨sortedRuns_iff.mpr ?_, hflag.trans (decide_eq_true hmem).symm, fun x => ?_⟩
    · rw [hvals]
      exact hsorted.sublist (by simp)
    · have hnodup := hsorted.nodup
      rw [hvals, hsplit]
      generalize List.range' r.start (v - r.start) = b at hnodup
      generalize List.range' (v + 1) (r.end - v) = c at hnodup
      have hassoc : runValues lo ++ (b ++ v :: c) ++ runValues hi =
          (runValues lo ++ b) ++ v :: (c ++ runValues hi) := by simp
      have hnot : v ∉ (runValues lo ++ b) ++ (c ++ runValues hi) := by
        rw [hassoc, List.nodup_middle] at hnodup
        exact (List.nodup_cons.mp hnodup).1
      have hne : x ∈ (runValues lo ++ b) ++ (c ++ runValues hi) → x ≠ v := by
        rintro hx rfl
        exact hnot hx
      simp only [mem_append, mem_cons] at hne ⊢
      grind
  · have hmem : v ∉ runValues (lo ++ hi) := by
      rw [mem_runValues]
      rintro ⟨r, hr, h₁, h₂⟩
      rcases mem_append.mp hr with hr | hr
      · exact absurd (hlo r hr) (not_lt.mpr h₂)
      · exact absurd (hhi r hr) (not_lt.mpr h₁)
    simp only [removeRun, hs]
    refine ⟨h, (decide_eq_false hmem).symm, fun x => ⟨fun hx => ⟨?_, hx⟩, And.right⟩⟩
    rintro rfl
    exact hmem hx

/-! ### Intersection -/

/-- What two runs share. -/
def overlap (a b : Run) : List Run :=
  let start := max a.start b.start
  let last := min a.end b.end
  if start ≤ last then [Run.span start last] else []

/-- The walk of `RunContainer::and` while its left pointer stands at `a`. -/
def andRunsOne (a : Run) (rest : List Run → List Run) : List Run → List Run
  | [] => []
  | b :: bs => overlap a b ++ if a.end < b.end then rest (b :: bs) else andRunsOne a rest bs

/-- `RunContainer::and` on the runs: the run that ends first is passed. -/
def andRuns : List Run → List Run → List Run
  | [], _ => []
  | a :: as, bs => andRunsOne a (andRuns as) bs

theorem mem_overlap {a b : Run} :
    v ∈ runValues (overlap a b) ↔ (a.start ≤ v ∧ v ≤ a.end) ∧ (b.start ≤ v ∧ v ≤ b.end) := by
  rw [overlap]
  split_ifs with h
  · simp only [mem_runValues, List.mem_singleton, exists_eq_left, Run.span_start, Run.span_end h]
    omega
  · simp only [runValues_nil, List.not_mem_nil, false_iff]
    omega

variable {as bs : List Run}

theorem mem_andRuns (ha : SortedRuns as) (hb : SortedRuns bs) (v : ℕ) :
    v ∈ runValues (andRuns as bs) ↔ v ∈ runValues as ∧ v ∈ runValues bs := by
  induction as generalizing bs with
  | nil => simp [andRuns]
  | cons a as ih =>
    obtain ⟨-, ha₁, ha'⟩ := sortedRuns_cons.mp ha
    rw [andRuns]
    induction bs with
    | nil => simp [andRunsOne]
    | cons b bs ihb =>
      obtain ⟨-, hb₁, hb'⟩ := sortedRuns_cons.mp hb
      rw [andRunsOne, runValues_append, mem_append, mem_overlap, runValues_cons,
        runValues_cons, mem_append, mem_append, Run.mem_values, Run.mem_values]
      have hafter : ∀ {r : Run} {rs : List Run}, (∀ s ∈ rs, r.end < s.start) → v ≤ r.end →
          v ∉ runValues rs := by
        intro r rs hrs hle hmem
        obtain ⟨s, hs, hle', -⟩ := mem_runValues.mp hmem
        exact absurd (hrs s hs) (not_lt.mpr (hle'.trans hle))
      split_ifs with hab
      · -- `a` ends first: nothing later on the right reaches back to it
        rw [ih ha' hb, runValues_cons, mem_append, Run.mem_values]
        have hbs : v ≤ a.end → v ∉ runValues bs := fun h => hafter hb₁ (h.trans hab.le)
        grind
      · rw [ihb hb', runValues_cons, mem_append, Run.mem_values]
        have has : v ≤ b.end → v ∉ runValues as := fun h => hafter ha₁ (h.trans (not_lt.mp hab))
        grind

/-- Runs that stand apart from what comes after. -/
private theorem SortedRuns.append (ha : SortedRuns as) (hb : SortedRuns bs)
    (h : ∀ x ∈ runValues as, ∀ y ∈ runValues bs, x < y) : SortedRuns (as ++ bs) := by
  rw [sortedRuns_iff] at ha hb ⊢
  rw [runValues_append]
  refine ⟨List.pairwise_append.mpr ⟨ha.ascending, hb.ascending, h⟩, fun v hv => ?_⟩
  rcases mem_append.mp hv with hv | hv
  · exact ha.bounded v hv
  · exact hb.bounded v hv

theorem SortedRuns.single (h : r.end < 65536) : SortedRuns [r] :=
  sortedRuns_cons.mpr ⟨h, by simp, SortedRuns.nil⟩

/-- What lies in runs that start beyond `last` lies beyond it. -/
private theorem lt_of_mem_runValues {rs : List Run} (h : ∀ s ∈ rs, last < s.start) {y : ℕ}
    (hy : y ∈ runValues rs) : last < y := by
  obtain ⟨s, hs, hle, -⟩ := mem_runValues.mp hy
  exact (h s hs).trans_le hle

theorem sortedRuns_andRuns (ha : SortedRuns as) (hb : SortedRuns bs) :
    SortedRuns (andRuns as bs) := by
  induction as generalizing bs with
  | nil => exact SortedRuns.nil
  | cons a as ih =>
    obtain ⟨ha₀, ha₁, ha'⟩ := sortedRuns_cons.mp ha
    rw [andRuns]
    induction bs with
    | nil => exact SortedRuns.nil
    | cons b bs ihb =>
      obtain ⟨-, hb₁, hb'⟩ := sortedRuns_cons.mp hb
      have hoverlap : SortedRuns (overlap a b) := by
        rw [overlap]
        split_ifs with h
        · exact SortedRuns.single (by rw [Run.span_end h]; omega)
        · exact SortedRuns.nil
      rw [andRunsOne]
      refine hoverlap.append ?_ fun x hx y hy => ?_
      · split_ifs
        · exact ih ha' hb
        · exact ihb hb'
      · obtain ⟨⟨-, hxa⟩, -, hxb⟩ := mem_overlap.mp hx
        split_ifs at hy with hab
        · exact hxa.trans_lt (lt_of_mem_runValues ha₁ ((mem_andRuns ha' hb y).mp hy).1)
        · have hmem := (mem_andRuns ha hb' y).mp (by rw [andRuns]; exact hy)
          exact hxb.trans_lt (lt_of_mem_runValues hb₁ hmem.2)

/-! ### Union -/

/-- `u16::saturating_add(1)`. -/
def satSucc (v : ℕ) : ℕ := min (v + 1) 65535

/-- The coalescing loop of `RunContainer::or`: `last` still grows. -/
def coalesce (last : Run) : List Run → List Run
  | [] => [last]
  | r :: rs =>
    if r.start ≤ satSucc last.end then
      coalesce { last with length := max last.end r.end - last.start } rs
    else last :: coalesce r rs

/-- `RunContainer::or` on the runs: merged by start, then coalesced. -/
def orRuns (as bs : List Run) : List Run :=
  match as.merge bs fun a b => a.start ≤ b.start with
  | [] => []
  | r :: rs => coalesce r rs

/-- Coalescing runs in order of their starts keeps their values, in order. -/
private theorem coalesce_spec {last : Run} {rs : List Run} (hlast : last.end < 65536)
    (hrs : ∀ r ∈ rs, r.end < 65536) (hord : (last :: rs).Pairwise fun a b => a.start ≤ b.start) :
    SortedRuns (coalesce last rs) ∧
      ∀ v, v ∈ runValues (coalesce last rs) ↔ v ∈ runValues (last :: rs) := by
  induction rs generalizing last with
  | nil => exact ⟨SortedRuns.single hlast, fun v => Iff.rfl⟩
  | cons r rs ih =>
    obtain ⟨hl, hord'⟩ := pairwise_cons.mp hord
    obtain ⟨hr, hord''⟩ := pairwise_cons.mp hord'
    have hr₀ := hrs r mem_cons_self
    have hstart := hl r mem_cons_self
    have hle := last.start_le_end
    rw [coalesce]
    split_ifs with hjoin
    · -- one run over both
      have hend : Run.end { last with length := max last.end r.end - last.start } =
          max last.end r.end := by
        rw [Run.end]
        dsimp only
        omega
      obtain ⟨hsorted, hmem⟩ := @ih { last with length := max last.end r.end - last.start }
        (by rw [hend]; omega) (fun s hs => hrs s (mem_cons_of_mem _ hs))
        (pairwise_cons.mpr ⟨fun s hs => hl s (mem_cons_of_mem _ hs), hord''⟩)
      refine ⟨hsorted, fun v => ?_⟩
      rw [hmem]
      simp only [runValues_cons, mem_append, Run.mem_values, hend, ← or_assoc]
      refine or_congr_left ?_
      simp only [satSucc] at hjoin
      omega
    · obtain ⟨hsorted, hmem⟩ := @ih r hr₀ (fun s hs => hrs s (mem_cons_of_mem _ hs))
        hord'
      have hgap : last.end < r.start := by
        have := r.start_le_end
        simp only [satSucc] at hjoin
        omega
      refine ⟨?_, fun v => ?_⟩
      · refine (SortedRuns.single hlast).append hsorted fun x hx y hy => ?_
        rw [runValues_cons, runValues_nil, List.append_nil, Run.mem_values] at hx
        obtain ⟨s, hs, hle', -⟩ := mem_runValues.mp ((hmem y).mp hy)
        have : r.start ≤ s.start := by
          rcases mem_cons.mp hs with rfl | hs
          · exact le_rfl
          · exact hr s hs
        omega
      · rw [runValues_cons, mem_append, hmem, runValues_cons (last), mem_append]

theorem orRuns_spec (ha : SortedRuns as) (hb : SortedRuns bs) :
    SortedRuns (orRuns as bs) ∧
      ∀ v, v ∈ runValues (orRuns as bs) ↔ v ∈ runValues as ∨ v ∈ runValues bs := by
  have hstarts : ∀ {rs : List Run}, SortedRuns rs →
      rs.Pairwise fun a b => decide (a.start ≤ b.start) = true := fun h =>
    h.ordered.imp fun {a b} hab => by
      have := a.start_le_end
      simp
      omega
  have hmem : ∀ r, r ∈ as.merge bs (fun a b => a.start ≤ b.start) ↔ r ∈ as ∨ r ∈ bs := fun r =>
    List.mem_merge
  have hord := @List.pairwise_merge Run (fun a b => decide (a.start ≤ b.start))
    (by simp; omega) (by simp; omega) as bs (hstarts ha) (hstarts hb)
  rw [orRuns]
  generalize as.merge bs (fun a b => decide (a.start ≤ b.start)) = merged at hmem hord
  have hvalues : ∀ v, v ∈ runValues merged ↔ v ∈ runValues as ∨ v ∈ runValues bs := by
    intro v
    simp only [mem_runValues, hmem]
    grind
  cases merged with
  | nil => exact ⟨SortedRuns.nil, hvalues⟩
  | cons r rs =>
    have hfits : ∀ s ∈ r :: rs, s.end < 65536 := by
      intro s hs
      rcases (hmem s).mp hs with h | h
      · exact ha.fits s h
      · exact hb.fits s h
    obtain ⟨hsorted, hcoalesce⟩ := coalesce_spec (hfits r mem_cons_self)
      (fun s hs => hfits s (mem_cons_of_mem _ hs)) (by simpa using hord)
    exact ⟨hsorted, fun v => (hcoalesce v).trans (hvalues v)⟩

/-! ### Difference -/

/-- The inner loop of `RunContainer::and_not`: what is left of `start..=last` past the runs. -/
def cutRun (start last : ℕ) : List Run → List Run
  | [] => if start ≤ last then [Run.span start last] else []
  | b :: bs =>
    if b.start ≤ last then
      (if start < b.start then [Run.span start (b.start - 1)] else []) ++
        cutRun (satSucc b.end) last bs
    else if start ≤ last then [Run.span start last] else []

/-- `RunContainer::and_not` on the runs. -/
def andNotRuns : List Run → List Run → List Run
  | [], _ => []
  | a :: as, bs =>
    let bs := bs.dropWhile (·.end < a.start)
    cutRun a.start a.end bs ++ andNotRuns as bs

private theorem mem_whole :
    v ∈ runValues (if start ≤ last then [Run.span start last] else []) ↔ start ≤ v ∧ v ≤ last := by
  split_ifs with h
  · simp [Run.span_end h]
  · simp only [runValues_nil, List.not_mem_nil, false_iff]
    omega

/-- What is left of a run: its values in none of the others, and the last value of all where
the cursor is stuck on it. -/
private theorem mem_cutRun (hstart : start < 65536) (hlast : last < 65536) (hb : SortedRuns bs)
    (hskip : ∀ b ∈ bs, start ≤ b.end) (v : ℕ) :
    v ∈ runValues (cutRun start last bs) ↔
      ((start ≤ v ∧ v ≤ last) ∧ v ∉ runValues bs) ∨
        (v = 65535 ∧ last = 65535 ∧ 65535 ∈ runValues bs) := by
  induction bs generalizing start with
  | nil =>
    rw [cutRun, mem_whole]
    simp
  | cons b bs ih =>
    obtain ⟨hb₀, hb₁, hb'⟩ := sortedRuns_cons.mp hb
    have hfirst := hskip b mem_cons_self
    have hle := b.start_le_end
    have hbs : ∀ y, y ∈ runValues bs → b.end < y ∧ y < 65536 := fun y hy =>
      ⟨lt_of_mem_runValues hb₁ hy, (sortedRuns_iff.mp hb').bounded y hy⟩
    have hv := hbs v
    have hmax := hbs 65535
    -- the cursor moves past `b`, or is stuck on the last value of all
    have hsucc : satSucc b.end = b.end + 1 ∧ b.end < 65535 ∨ satSucc b.end = 65535 ∧ b.end = 65535 := by
      simp only [satSucc]
      omega
    rw [cutRun, runValues_cons, mem_append, mem_append, Run.mem_values, Run.mem_values]
    split_ifs with hmeet hgap hwhole
    · have hrest := @ih (satSucc b.end) (by omega) hb' fun c hc => by
        have := hb₁ c hc
        have := c.start_le_end
        omega
      have hpiece : v ∈ (Run.span start (b.start - 1)).values ↔ start ≤ v ∧ v < b.start := by
        rw [Run.mem_values, Run.span_start, Run.span_end (by omega)]
        omega
      rw [singleton_append, runValues_cons, mem_append, hpiece, hrest]
      clear hrest hpiece ih hskip hbs
      grind
    · have hrest := @ih (satSucc b.end) (by omega) hb' fun c hc => by
        have := hb₁ c hc
        have := c.start_le_end
        omega
      rw [List.nil_append, hrest]
      clear hrest ih hskip hbs
      grind
    · rw [runValues_cons, runValues_nil, List.append_nil, Run.mem_values, Run.span_start,
        Run.span_end hwhole]
      grind
    · simp only [runValues_nil, List.not_mem_nil]
      grind

private theorem sortedRuns_cutRun (hstart : start < 65536) (hlast : last < 65536)
    (hb : SortedRuns bs) (hskip : ∀ b ∈ bs, start ≤ b.end) : SortedRuns (cutRun start last bs) := by
  have hwhole : ∀ {s : ℕ}, SortedRuns (if s ≤ last then [Run.span s last] else []) := by
    intro s
    split_ifs with h
    · exact SortedRuns.single (by rwa [Run.span_end h])
    · exact SortedRuns.nil
  induction bs generalizing start with
  | nil => exact hwhole
  | cons b bs ih =>
    obtain ⟨hb₀, hb₁, hb'⟩ := sortedRuns_cons.mp hb
    have hle := b.start_le_end
    have hsucc : satSucc b.end = min (b.end + 1) 65535 := rfl
    rw [cutRun]
    split_ifs with hmeet hgap h
    · have hskip' : ∀ c ∈ bs, satSucc b.end ≤ c.end := fun c hc => by
        have := hb₁ c hc
        have := c.start_le_end
        omega
      refine (SortedRuns.single ?_).append (ih (by omega) hb' hskip') fun x hx y hy => ?_
      · rw [Run.span_end (by omega)]
        omega
      · -- the first piece ends before `b`, the others start past it or at the last value
        have hy' := (mem_cutRun (by omega) hlast hb' hskip' y).mp hy
        rw [runValues_cons, runValues_nil, List.append_nil, Run.mem_values,
          Run.span_end (by omega)] at hx
        have : satSucc b.end ≤ y := by
          obtain ⟨⟨h, -⟩, -⟩ | ⟨rfl, -⟩ := hy'
          · exact h
          · omega
        omega
    · exact ih (by omega) hb' fun c hc => by
        have := hb₁ c hc
        have := c.start_le_end
        omega
    · exact SortedRuns.single (by rwa [Run.span_end h])
    · exact SortedRuns.nil

/-- The runs the outer loop has not passed hold what the passed ones do not. -/
private theorem dropWhile_runs (hb : SortedRuns bs) (start : ℕ) :
    SortedRuns (bs.dropWhile (·.end < start)) ∧
      (∀ b ∈ bs.dropWhile (·.end < start), start ≤ b.end) ∧
      ∀ v, start ≤ v → (v ∈ runValues (bs.dropWhile (·.end < start)) ↔ v ∈ runValues bs) := by
  have hasc : Ascending Run.end bs := hb.ordered.imp fun {a b} hab =>
    hab.trans_le b.start_le_end
  rw [hasc.dropWhile_eq_filter start]
  refine ⟨⟨hb.ordered.filter _, fun r hr => hb.fits r (List.mem_of_mem_filter hr)⟩,
    fun b hb => by simpa using List.of_mem_filter hb, fun v hv => ?_⟩
  simp only [mem_runValues, List.mem_filter, decide_eq_true_eq]
  constructor
  · rintro ⟨r, ⟨hr, -⟩, h⟩
    exact ⟨r, hr, h⟩
  · rintro ⟨r, hr, h₁, h₂⟩
    exact ⟨r, ⟨hr, hv.trans h₂⟩, h₁, h₂⟩

/-- **What run difference computes**: the values of the left side that the right side does not
hold, and besides them the last value of all where both sides hold it. -/
theorem mem_andNotRuns (ha : SortedRuns as) (hb : SortedRuns bs) (v : ℕ) :
    v ∈ runValues (andNotRuns as bs) ↔
      (v ∈ runValues as ∧ v ∉ runValues bs) ∨
        (v = 65535 ∧ 65535 ∈ runValues as ∧ 65535 ∈ runValues bs) := by
  induction as generalizing bs with
  | nil => simp [andNotRuns]
  | cons a as ih =>
    obtain ⟨ha₀, ha₁, ha'⟩ := sortedRuns_cons.mp ha
    obtain ⟨hsorted, hskip, hsame⟩ := dropWhile_runs hb a.start
    have hle := a.start_le_end
    have has : ∀ y, y ∈ runValues as → a.end < y ∧ y < 65536 := fun y hy =>
      ⟨lt_of_mem_runValues ha₁ hy, (sortedRuns_iff.mp ha').bounded y hy⟩
    have hv := hsame v
    have hmax := hsame 65535 (by omega)
    have hav := has v
    have hamax := has 65535
    rw [andNotRuns, runValues_append, mem_append,
      mem_cutRun (hle.trans_lt ha₀) ha₀ hsorted hskip, ih ha' hsorted, runValues_cons,
      mem_append, mem_append, Run.mem_values, Run.mem_values, hmax]
    clear has ih hsame hskip hsorted
    grind

theorem sortedRuns_andNotRuns (ha : SortedRuns as) (hb : SortedRuns bs) :
    SortedRuns (andNotRuns as bs) := by
  induction as generalizing bs with
  | nil => exact SortedRuns.nil
  | cons a as ih =>
    obtain ⟨ha₀, ha₁, ha'⟩ := sortedRuns_cons.mp ha
    obtain ⟨hsorted, hskip, -⟩ := dropWhile_runs hb a.start
    have hle := a.start_le_end
    rw [andNotRuns]
    refine (sortedRuns_cutRun (by omega) ha₀ hsorted hskip).append (ih ha' hsorted) ?_
    intro x hx y hy
    have hx' : x ≤ a.end := by
      rw [mem_cutRun (by omega) ha₀ hsorted hskip] at hx
      omega
    have hy' : y ∈ runValues as := by
      obtain h | ⟨rfl, h, -⟩ := (mem_andNotRuns ha' hsorted y).mp hy
      · exact h.1
      · exact h
    exact hx'.trans_lt (lt_of_mem_runValues ha₁ hy')

/-! ### The container -/

/-- A run container: runs that stand apart, and how many values they span. -/
structure RunContainer where
  runs : List Run
  cardinality : ℕ
  sorted : SortedRuns runs
  counted : cardinality = (runs.map Run.cardinality).sum
deriving DecidableEq

namespace RunContainer

/-- `from_runs`: its debug assertion is the proof it takes. -/
def fromRuns (runs : List Run) (h : SortedRuns runs) : RunContainer :=
  ⟨runs, (runs.map Run.cardinality).sum, h, rfl⟩

/-- The runs of a sorted slice of values, counted as the values are. -/
def fromSortedValues (values : List ℕ) (h : SortedLows values) : RunContainer where
  runs := runsOfValues values
  cardinality := values.length
  sorted := sortedRuns_runsOfValues h
  counted := by rw [← length_runValues, runValues_runsOfValues]

/-- All values, in order. -/
def toValues (self : RunContainer) : List ℕ := runValues self.runs

theorem sortedLows_toValues (self : RunContainer) : SortedLows self.toValues :=
  sortedRuns_iff.mp self.sorted

theorem cardinality_eq (self : RunContainer) : self.cardinality = self.toValues.length := by
  rw [self.counted, toValues, length_runValues]

/-- The empty container. -/
def new : RunContainer := fromRuns [] SortedRuns.nil

def insert (self : RunContainer) (v : ℕ) (hv : v < 65536) : Bool × RunContainer :=
  ((insertRun self.runs v).1, {
    runs := (insertRun self.runs v).2
    cardinality := if (insertRun self.runs v).1 then self.cardinality + 1 else self.cardinality
    sorted := (insertRun_spec self.sorted hv).1
    counted := by
      obtain ⟨hsorted, hflag, hmem⟩ := insertRun_spec self.sorted hv
      have hlow := sortedRuns_iff.mp self.sorted
      rw [← length_runValues, self.cardinality_eq, toValues, hflag]
      split_ifs with h
      · exact (hlow.length_of_insert (sortedRuns_iff.mp hsorted) (by simpa using h) hmem).symm
      · congr 1
        refine hlow.eq_of_mem_iff (sortedRuns_iff.mp hsorted) fun x => ?_
        rw [hmem]
        have hv : v ∈ runValues self.runs := by simpa using h
        exact ⟨.inr, fun h => h.elim (fun h => h ▸ hv) id⟩ })

def remove (self : RunContainer) (v : ℕ) : Bool × RunContainer :=
  ((removeRun self.runs v).1, {
    runs := (removeRun self.runs v).2
    cardinality := if (removeRun self.runs v).1 then self.cardinality - 1 else self.cardinality
    sorted := (removeRun_spec self.sorted v).1
    counted := by
      obtain ⟨hsorted, hflag, hmem⟩ := removeRun_spec self.sorted v
      have hlow := sortedRuns_iff.mp self.sorted
      rw [← length_runValues, self.cardinality_eq, toValues, hflag]
      split_ifs with h
      · exact (hlow.length_of_remove (sortedRuns_iff.mp hsorted) (by simpa using h) hmem).symm
      · congr 1
        refine hlow.eq_of_mem_iff (sortedRuns_iff.mp hsorted) fun x => ?_
        rw [hmem]
        have hv : v ∉ runValues self.runs := by simpa using h
        exact ⟨fun hx => ⟨fun h => hv (h ▸ hx), hx⟩, And.right⟩ })

def contains (self : RunContainer) (v : ℕ) : Bool := (findRun self.runs v).isOk

def numRuns (self : RunContainer) : ℕ := self.runs.length

/-- Whether the runs use no more memory than an array: four bytes a run, two a value. -/
def isEfficient (self : RunContainer) : Bool := self.runs.length * 4 ≤ self.cardinality * 2

protected def and (self other : RunContainer) : RunContainer :=
  fromRuns (andRuns self.runs other.runs) (sortedRuns_andRuns self.sorted other.sorted)

protected def or (self other : RunContainer) : RunContainer :=
  fromRuns (orRuns self.runs other.runs) (orRuns_spec self.sorted other.sorted).1

def andNot (self other : RunContainer) : RunContainer :=
  fromRuns (andNotRuns self.runs other.runs) (sortedRuns_andNotRuns self.sorted other.sorted)

@[simp] theorem contains_eq (c : RunContainer) (v : ℕ) : c.contains v = decide (v ∈ c.toValues) := by
  rw [contains, toValues]
  obtain ⟨lo, hi, hlo, hhi, ⟨r, hr₁, hr₂, hruns, hs⟩ | ⟨hruns, hs⟩⟩ := findRun_cut c.sorted v
  · have hmem : v ∈ runValues c.runs := by
      rw [hruns]
      exact mem_runValues.mpr ⟨r, by simp, hr₁, hr₂⟩
    rw [hs, decide_eq_true hmem]
    rfl
  · have hmem : v ∉ runValues c.runs := by
      rw [hruns, mem_runValues]
      rintro ⟨r, hr, h₁, h₂⟩
      rcases mem_append.mp hr with hr | hr
      · exact absurd (hlo r hr) (not_lt.mpr h₂)
      · exact absurd (hhi r hr) (not_lt.mpr h₁)
    rw [hs, decide_eq_false hmem]
    rfl

end RunContainer

end Minnal
