import Mathlib

/-!
# Stable merging of runs

Items with keys in a linear order arrive as a few **runs**, each in key order, one after the
other. `splitRuns` finds the runs, `mergeRuns` merges them by taking the smallest head at each
step, the leftmost on a tie, and a stable insertion sort does the same work for input that is
far from sorted. Both results are a `StableSort` of the input: in key order, and with the
items of each key in the order in which they came.
-/

namespace RunMerge

open List (filter_cons forall_mem_cons flatten_cons pairwise_cons mem_cons mem_filter filter_append)

variable {α κ : Type*} [LinearOrder κ] (key : α → κ)

/-- `out` is `input` in key order, items of one key in input order. -/
structure StableSort (input out : List α) : Prop where
  sorted : out.Pairwise fun a b => key a ≤ key b
  filter_eq : ∀ k, out.filter (fun a => decide (key a = k)) =
    input.filter fun a => decide (key a = k)

/-- The maximal stretches of the input in which the key does not step down. -/
def splitRuns : List α → List (List α)
  | [] => []
  | a :: l =>
    match splitRuns l with
    | (b :: run) :: runs => if key b < key a then [a] :: (b :: run) :: runs
        else (a :: b :: run) :: runs
    | runs => [a] :: runs

/-- Take the smallest head of the runs, the leftmost on a tie. -/
def takeSmallest : List (List α) → Option (α × List (List α))
  | [] => none
  | [] :: runs => (takeSmallest runs).map fun x => (x.1, [] :: x.2)
  | (a :: run) :: runs =>
    match takeSmallest runs with
    | none => some (a, run :: runs)
    | some (b, runs') =>
      if key b < key a then some (b, (a :: run) :: runs') else some (a, run :: runs)

/-- Merge the runs; `fuel` is the number of items. -/
def mergeRuns : ℕ → List (List α) → List α
  | 0, _ => []
  | fuel + 1, runs =>
    match takeSmallest key runs with
    | none => []
    | some (a, runs') => a :: mergeRuns fuel runs'

variable {key}

theorem StableSort.mem_iff {input out : List α} (h : StableSort key input out) {a : α} :
    a ∈ out ↔ a ∈ input := by
  have hfilter := h.filter_eq (key a)
  have hmem : ∀ l : List α, a ∈ l ↔ a ∈ l.filter fun b => decide (key b = key a) := by
    intro l
    simp [mem_filter]
  rw [hmem out, hfilter, ← hmem input]

/-- The items of one key, however the test for it is written. -/
theorem StableSort.filter_eq_of_iff {input out : List α} (h : StableSort key input out)
    {p : α → Bool} {k : κ} (hp : ∀ a, p a = true ↔ key a = k) : out.filter p = input.filter p := by
  have hfun : p = fun a => decide (key a = k) := by
    funext a
    rw [Bool.eq_iff_iff, hp a, decide_eq_true_iff]
  rw [hfun]
  exact h.filter_eq k

theorem flatten_splitRuns (l : List α) : (splitRuns key l).flatten = l := by
  induction l with
  | nil => rfl
  | cons a l ih =>
    rw [splitRuns]
    rcases hruns : splitRuns key l with _ | ⟨_ | ⟨b, run⟩, runs⟩
    · rw [hruns] at ih
      simp [← ih]
    · rw [hruns] at ih
      simp [← ih]
    · rw [hruns] at ih
      simp only
      split_ifs <;> simp [← ih]

theorem sorted_splitRuns (l : List α) :
    ∀ run ∈ splitRuns key l, run.Pairwise fun a b => key a ≤ key b := by
  induction l with
  | nil => simp [splitRuns]
  | cons a l ih =>
    rw [splitRuns]
    rcases hruns : splitRuns key l with _ | ⟨_ | ⟨b, run⟩, runs⟩
    · simp
    · rw [hruns] at ih
      simpa using ih
    · rw [hruns] at ih
      obtain ⟨hrun, hrest⟩ := forall_mem_cons.mp ih
      simp only
      split_ifs with hlt
      · refine forall_mem_cons.mpr ⟨List.pairwise_singleton _ _, ih⟩
      · refine forall_mem_cons.mpr ⟨pairwise_cons.mpr ⟨fun c hc => ?_, hrun⟩, hrest⟩
        have hab : key a ≤ key b := not_lt.mp hlt
        rcases mem_cons.mp hc with rfl | hc
        · exact hab
        · exact hab.trans ((pairwise_cons.mp hrun).1 c hc)

theorem takeSmallest_eq_none {runs : List (List α)} (h : takeSmallest key runs = none) :
    runs.flatten = [] := by
  induction runs with
  | nil => rfl
  | cons run runs ih =>
    rcases run with _ | ⟨a, run⟩
    · rw [takeSmallest, Option.map_eq_none_iff] at h
      simpa using ih h
    · rw [takeSmallest] at h
      rcases hrest : takeSmallest key runs with _ | ⟨b, runs'⟩
      · simp [hrest] at h
      · simp only [hrest] at h
        split_ifs at h

/-- Taking the smallest head of sorted runs: it is a lower bound, what is left are sorted runs,
one item shorter, and putting it in front keeps the items of each key in order. -/
theorem takeSmallest_spec {runs runs' : List (List α)} {a : α}
    (hruns : ∀ run ∈ runs, run.Pairwise fun a b => key a ≤ key b)
    (h : takeSmallest key runs = some (a, runs')) :
    (∀ run ∈ runs', run.Pairwise fun a b => key a ≤ key b) ∧
      (∀ b ∈ runs'.flatten, key a ≤ key b) ∧ runs.flatten.length = runs'.flatten.length + 1 ∧
      ∀ k, runs.flatten.filter (fun b => decide (key b = k)) =
        (a :: runs'.flatten).filter fun b => decide (key b = k) := by
  induction runs generalizing runs' a with
  | nil => cases h
  | cons run runs ih =>
    obtain ⟨hrun, hrest⟩ := forall_mem_cons.mp hruns
    rcases run with _ | ⟨c, run⟩
    · rw [takeSmallest, Option.map_eq_some_iff] at h
      obtain ⟨⟨b, rest⟩, htake, heq⟩ := h
      cases heq
      obtain ⟨hsorted, hle, hlen, hfilter⟩ := ih hrest htake
      exact ⟨forall_mem_cons.mpr ⟨List.Pairwise.nil, hsorted⟩, by simpa using hle,
        by simpa using hlen, by simpa using hfilter⟩
    obtain ⟨hc, hrun'⟩ := pairwise_cons.mp hrun
    rw [takeSmallest] at h
    rcases hsmall : takeSmallest key runs with _ | ⟨b, rest⟩
    · simp only [hsmall, Option.some.injEq, Prod.mk.injEq] at h
      obtain ⟨rfl, rfl⟩ := h
      have hnil := takeSmallest_eq_none hsmall
      refine ⟨forall_mem_cons.mpr ⟨hrun', hrest⟩, ?_, by simp, fun k => by simp⟩
      simpa [hnil] using hc
    obtain ⟨hsorted, hle, hlen, hfilter⟩ := ih hrest hsmall
    -- everything in the other runs is at or above their smallest head
    have hlow : ∀ d ∈ runs.flatten, key b ≤ key d := by
      intro d hd
      have hmem : d ∈ runs.flatten.filter fun x => decide (key x = key d) :=
        mem_filter.mpr ⟨hd, by simp⟩
      rw [hfilter (key d)] at hmem
      rcases mem_cons.mp (mem_filter.mp hmem).1 with rfl | hmem
      · exact le_rfl
      · exact hle d hmem
    simp only [hsmall] at h
    split_ifs at h with hlt
    · cases h
      have hbelow : ∀ d ∈ c :: run, key a < key d := by
        intro d hd
        rcases mem_cons.mp hd with rfl | hd
        · exact hlt
        · exact hlt.trans_le (hc d hd)
      refine ⟨forall_mem_cons.mpr ⟨hrun, hsorted⟩, fun d hd => ?_, ?_, fun k => ?_⟩
      · rw [flatten_cons, List.mem_append] at hd
        rcases hd with hd | hd
        · exact (hbelow d hd).le
        · exact hle d hd
      · rw [flatten_cons, flatten_cons, List.length_append, List.length_append, hlen]
        omega
      · rw [flatten_cons, filter_append, hfilter, flatten_cons]
        by_cases hk : key a = k
        · have hnone : (c :: run).filter (fun d => decide (key d = k)) = [] := by
            refine List.filter_eq_nil_iff.mpr fun d hd => ?_
            simpa using (hk ▸ (hbelow d hd).ne')
          rw [hnone, List.nil_append, List.filter_cons_of_pos (by simpa using hk),
            List.filter_cons_of_pos (by simpa using hk), filter_append, hnone,
            List.nil_append]
        · have hskip : ∀ l : List α, (a :: l).filter (fun d => decide (key d = k)) =
              l.filter fun d => decide (key d = k) :=
            fun l => List.filter_cons_of_neg (by simpa using hk)
          rw [hskip, hskip, filter_append]
    · cases h
      refine ⟨forall_mem_cons.mpr ⟨hrun', hrest⟩, fun d hd => ?_, by simp,
        fun k => by simp⟩
      rw [flatten_cons, List.mem_append] at hd
      rcases hd with hd | hd
      · exact hc d hd
      · exact (not_lt.mp hlt).trans (hlow d hd)

theorem mergeRuns_spec {fuel : ℕ} {runs : List (List α)}
    (hruns : ∀ run ∈ runs, run.Pairwise fun a b => key a ≤ key b)
    (hfuel : runs.flatten.length ≤ fuel) :
    StableSort key runs.flatten (mergeRuns key fuel runs) := by
  induction fuel generalizing runs with
  | zero =>
    have hnil : runs.flatten = [] := List.length_eq_zero_iff.mp (Nat.le_zero.mp hfuel)
    rw [hnil]
    exact ⟨List.Pairwise.nil, fun k => rfl⟩
  | succ fuel ih =>
    rw [mergeRuns]
    rcases htake : takeSmallest key runs with _ | ⟨a, runs'⟩
    · rw [takeSmallest_eq_none htake]
      exact ⟨List.Pairwise.nil, fun k => rfl⟩
    obtain ⟨hsorted, hle, hlen, hfilter⟩ := takeSmallest_spec hruns htake
    have hrest := ih hsorted (by omega)
    refine ⟨pairwise_cons.mpr ⟨fun b hb => hle b (hrest.mem_iff.mp hb), hrest.sorted⟩,
      fun k => ?_⟩
    rw [hfilter k, filter_cons, filter_cons, hrest.filter_eq k]

/-- **Merging.** Splitting the input into its runs and merging them sorts it stably. -/
theorem stableSort_mergeRuns (l : List α) :
    StableSort key l (mergeRuns key l.length (splitRuns key l)) := by
  have hlen : (splitRuns key l).flatten.length ≤ l.length :=
    (congrArg List.length (flatten_splitRuns l)).le
  have h := mergeRuns_spec (sorted_splitRuns l) hlen
  rwa [flatten_splitRuns] at h

/-- Insertion sort by key is stable. -/
theorem stableSort_insertionSort (l : List α) :
    StableSort key l (l.insertionSort fun a b => key a ≤ key b) := by
  have htotal : Std.Total fun a b : α => key a ≤ key b := ⟨fun a b => le_total (key a) (key b)⟩
  have htrans : IsTrans α fun a b => key a ≤ key b := ⟨fun _ _ _ hab hbc => hab.trans hbc⟩
  refine ⟨List.pairwise_insertionSort _ l, fun k => ?_⟩
  have hinsert : ∀ (a : α) (l : List α),
      (l.orderedInsert (fun a b => key a ≤ key b) a).filter (fun b => decide (key b = k)) =
        (a :: l).filter fun b => decide (key b = k) := by
    intro a l
    induction l with
    | nil => rfl
    | cons b l ih =>
      rw [List.orderedInsert]
      split_ifs with hab
      · rfl
      · -- `b` stays in front, so the two keys differ
        have hne : key a ≠ key b := fun h => hab h.le
        rw [filter_cons, ih, filter_cons, filter_cons, filter_cons]
        by_cases ha : key a = k
        · have hb : ¬ key b = k := fun h => hne (ha.trans h.symm)
          simp [ha, hb]
        · simp [ha]
  induction l with
  | nil => rfl
  | cons a l ih => rw [List.insertionSort_cons, hinsert, filter_cons, filter_cons, ih]

end RunMerge
