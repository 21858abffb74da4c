import Mathlib

/-!
# Chunking a document

A document is split into **sentences** and its sentences are grouped into overlapping **windows**;
each window is embedded on its own. `splitSentences` scans the text with an index: a run of
terminators ends a sentence if whitespace or the end of the text follows it. This is the text split
at every match of `(?<=[.!?])\s+` (`splitRegex`), each piece trimmed and empty ones left out
(`splitSentences_eq`), so no character but whitespace is lost. The windows start a slide apart and
end with the last sentence; with a slide of at most the window's size no sentence falls between two
of them (`chunking_loses_nothing`). A text is the list of its characters.
-/

set_option linter.dupNamespace false

namespace Minnal

namespace Chunking

/-! ### Sentences -/

/-- `char::is_whitespace`: the characters of the property White_Space. -/
def isWhitespace (c : Char) : Bool :=
  let n := c.toNat
  decide ((9 ≤ n ∧ n ≤ 13) ∨ n = 32 ∨ n = 0x85 ∨ n = 0xA0 ∨ n = 0x1680 ∨
    (0x2000 ≤ n ∧ n ≤ 0x200A) ∨ n = 0x2028 ∨ n = 0x2029 ∨ n = 0x202F ∨ n = 0x205F ∨ n = 0x3000)

def isTerminator (c : Char) : Bool := decide (c = '.' ∨ c = '!' ∨ c = '?')

/-- `str::trim`. -/
def trim (s : List Char) : List Char := (s.dropWhile isWhitespace).rdropWhile isWhitespace

/-- The characters from `start` up to `stop`. -/
def slice {α : Type*} (l : List α) (start stop : ℕ) : List α := (l.drop start).take (stop - start)

/-- A trimmed sentence, unless it is empty. -/
def pushTrimmed (chars : List Char) : List (List Char) :=
  if trim chars = [] then [] else [trim chars]

/-- Where the run of characters with `p` from `i` on ends. -/
def runEnd (p : Char → Bool) (chars : List Char) (i : ℕ) : ℕ :=
  i + ((chars.drop i).takeWhile p).length

theorem le_runEnd (p : Char → Bool) (chars : List Char) (i : ℕ) : i ≤ runEnd p chars i :=
  Nat.le_add_right _ _

theorem lt_runEnd {p : Char → Bool} {chars : List Char} {i : ℕ} (hi : i < chars.length)
    (hp : p chars[i] = true) : i < runEnd p chars i := by
  rw [runEnd, List.drop_eq_getElem_cons hi, List.takeWhile_cons_of_pos hp, List.length_cons]
  omega

/-- The scan from `i` on, where a sentence began at `start`. -/
def splitFrom (chars : List Char) (start i : ℕ) : List (List Char) :=
  if hi : i < chars.length then
    if isTerminator chars[i] then
      let stop := runEnd isTerminator chars i
      if chars[stop]?.all isWhitespace then
        let next := runEnd isWhitespace chars stop
        pushTrimmed (slice chars start stop) ++ splitFrom chars next next
      -- a terminator inside a word
      else splitFrom chars start stop
    else splitFrom chars start (i + 1)
  else if start < chars.length then pushTrimmed (slice chars start chars.length) else []
termination_by chars.length - i
decreasing_by
  · have hrun := lt_runEnd hi (by assumption)
    have hnext := le_runEnd isWhitespace chars (runEnd isTerminator chars i)
    omega
  · have hrun := lt_runEnd hi (by assumption)
    omega
  · omega

/-- Split a text into sentences. -/
def splitSentences (text : List Char) : List (List Char) := splitFrom text 0 0

/-! ### Windows -/

/-- The windows over `n` units from `i` on, each with where it starts and ends. -/
def windowsFrom (n windowSize slidingSize i : ℕ) : List (ℕ × ℕ) :=
  if i < n then
    let stop := min (i + windowSize) n
    (i, stop) :: if n ≤ stop then [] else windowsFrom n windowSize slidingSize (i + max slidingSize 1)
  else []
termination_by n - i

/-- Group units into overlapping windows, each joined with single spaces. -/
def slidingWindows (units : List (List Char)) (windowSize slidingSize : ℕ) : List (List Char) :=
  (windowsFrom units.length (max windowSize 1) slidingSize 0).map fun r =>
    [' '].intercalate (slice units r.1 r.2)

/-- Chunk a document. -/
def chunkDocument (text : List Char) (windowSize slidingSize : ℕ) : List (List Char) :=
  slidingWindows (splitSentences text) windowSize slidingSize

/-! ### Splitting at a pattern -/

/-- Split where whitespace follows a terminator: `before` is the character in front of the rest and
`piece` what has been read since the last match. A match takes the whole run of whitespace. -/
def splitRegexFrom (before : Option Char) (piece : List Char) : List Char → List (List Char)
  | [] => [piece]
  | c :: rest =>
    if before.any isTerminator ∧ isWhitespace c then
      piece :: splitRegexFrom (some c) [] (rest.dropWhile isWhitespace)
    else splitRegexFrom (some c) (piece ++ [c]) rest
termination_by rest => rest.length
decreasing_by
  · have := (List.dropWhile_sublist (l := rest) isWhitespace).length_le
    simp only [List.length_cons]
    omega
  · simp

/-- The pieces of a text between the matches of `(?<=[.!?])\s+`. -/
def splitRegex (text : List Char) : List (List Char) := splitRegexFrom none [] text

/-! ### The scan is the split -/

section Scan

variable {chars piece rest run : List Char} {before : Option Char} {start i : ℕ}

theorem isWhitespace_of_isTerminator {c : Char} (h : isTerminator c = true) :
    isWhitespace c = false := by
  have hcases : c = '.' ∨ c = '!' ∨ c = '?' := by simpa [isTerminator] using h
  rcases hcases with rfl | rfl | rfl
  · decide
  · decide
  · decide

/-- No match starts inside a run of terminators. -/
theorem splitRegexFrom_run (hrun : ∀ c ∈ run, isTerminator c = true) (hne : run ≠ []) :
    splitRegexFrom before piece (run ++ rest) =
      splitRegexFrom run.getLast? (piece ++ run) rest := by
  induction run generalizing before piece with
  | nil => exact absurd rfl hne
  | cons c run ih =>
    obtain ⟨hc, hrun'⟩ := List.forall_mem_cons.mp hrun
    have hno : ¬(before.any isTerminator ∧ isWhitespace c = true) := by
      rw [isWhitespace_of_isTerminator hc]
      exact fun h => Bool.false_ne_true h.2
    rw [List.cons_append, splitRegexFrom, if_neg hno]
    rcases run with _ | ⟨d, run⟩
    · rfl
    · rw [ih hrun' (by simp), List.getLast?_cons_cons, List.append_assoc, List.singleton_append]

/-- The sentences among pieces. -/
def sentencesOf (pieces : List (List Char)) : List (List Char) := pieces.flatMap pushTrimmed

theorem sentencesOf_eq (pieces : List (List Char)) :
    sentencesOf pieces = (pieces.map trim).filter fun s => decide (s ≠ []) := by
  induction pieces with
  | nil => rfl
  | cons p pieces ih =>
    rw [sentencesOf, List.flatMap_cons, pushTrimmed, List.map_cons, List.filter_cons, ← ih]
    by_cases hp : trim p = []
    · simp [hp, sentencesOf]
    · simp [hp, sentencesOf]

theorem slice_append_slice (l : List Char) {a b c : ℕ} (hab : a ≤ b) (hbc : b ≤ c) :
    slice l a b ++ slice l b c = slice l a c := by
  have hdrop : l.drop b = (l.drop a).drop (b - a) := by
    rw [List.drop_drop, Nat.add_sub_cancel' hab]
  rw [slice, slice, slice, hdrop, ← List.take_add]
  congr 1
  omega

/-- A run is what lies between its ends. -/
theorem drop_eq_run (p : Char → Bool) (chars : List Char) (i : ℕ) :
    chars.drop i = slice chars i (runEnd p chars i) ++ chars.drop (runEnd p chars i) ∧
      slice chars i (runEnd p chars i) = (chars.drop i).takeWhile p ∧
      chars.drop (runEnd p chars i) = (chars.drop i).dropWhile p := by
  have hlen : runEnd p chars i - i = ((chars.drop i).takeWhile p).length := by
    rw [runEnd, Nat.add_sub_cancel_left]
  have htake : slice chars i (runEnd p chars i) = (chars.drop i).takeWhile p := by
    rw [slice, hlen]
    exact (List.prefix_iff_eq_take.mp (List.takeWhile_prefix p)).symm
  have hdrop : chars.drop (runEnd p chars i) = (chars.drop i).dropWhile p := by
    rw [runEnd, ← List.drop_drop]
    conv_lhs => rw [← List.takeWhile_append_dropWhile (p := p) (l := chars.drop i)]
    rw [List.takeWhile_append_dropWhile]
    conv_lhs =>
      arg 2
      rw [← List.takeWhile_append_dropWhile (p := p) (l := chars.drop i)]
    exact List.drop_left
  exact ⟨by rw [htake, hdrop, List.takeWhile_append_dropWhile], htake, hdrop⟩

theorem runEnd_le {p : Char → Bool} (hi : i ≤ chars.length) : runEnd p chars i ≤ chars.length := by
  have hle := (List.takeWhile_sublist (l := chars.drop i) p).length_le
  rw [List.length_drop] at hle
  rw [runEnd]
  omega

theorem slice_self (l : List Char) (a : ℕ) : slice l a a = [] := by
  rw [slice, Nat.sub_self, List.take_zero]

/-- Where a run ends no match begins. -/
theorem no_match_at_runEnd {c : Char} (h : chars[runEnd isWhitespace chars i]? = some c) :
    isWhitespace c = false := by
  obtain ⟨-, -, hdrop⟩ := drop_eq_run isWhitespace chars i
  have hhead := List.head?_dropWhile_not isWhitespace (chars.drop i)
  rw [← hdrop, List.head?_drop, h] at hhead
  simpa using hhead

/-- **The scan is the split**: from a place that no match begins at. -/
theorem splitFrom_eq (hstart : start ≤ i) (hi : i ≤ chars.length) : ∀ before : Option Char,
    (∀ c, chars[i]? = some c → ¬(before.any isTerminator ∧ isWhitespace c = true)) →
      splitFrom chars start i =
        sentencesOf (splitRegexFrom before (slice chars start i) (chars.drop i)) := by
  fun_induction splitFrom chars start i with
  | case1 start i hlt hterm stop hbreak next ih =>
    intro before _
    obtain ⟨hsplit, hrun, -⟩ := drop_eq_run isTerminator chars i
    have hrunne : slice chars i stop ≠ [] := by
      rw [hrun, List.drop_eq_getElem_cons hlt, List.takeWhile_cons_of_pos hterm]
      simp
    have hrunall : ∀ c ∈ slice chars i stop, isTerminator c = true := by
      rw [hrun]
      exact fun c hc => List.mem_takeWhile_imp hc
    have hlast : (slice chars i stop).getLast?.any isTerminator = true := by
      rw [List.getLast?_eq_some_getLast hrunne]
      exact hrunall _ (List.getLast_mem hrunne)
    have hle : i ≤ stop := le_runEnd _ _ _
    have hstop : stop ≤ chars.length := runEnd_le hi
    obtain ⟨-, -, hskip⟩ := drop_eq_run isWhitespace chars stop
    have hrest := ih le_rfl (runEnd_le hstop)
    rw [hsplit, splitRegexFrom_run hrunall hrunne, slice_append_slice chars hstart hle]
    rw [slice_self] at hrest
    rcases hget : chars[stop]? with _ | c
    · -- the text ends with the run
      have hnil : chars.drop stop = [] := List.drop_eq_nil_of_le (List.getElem?_eq_none_iff.mp hget)
      rw [hrest none (by simp), hskip, hnil]
      simp [splitRegexFrom, sentencesOf, pushTrimmed, trim]
    · obtain ⟨hlt', rfl⟩ := List.getElem?_eq_some_iff.mp hget
      have hwhite : isWhitespace chars[stop] = true := by simpa [hget] using hbreak
      rw [hrest (some chars[stop]) fun c hc hboth => ?_, hskip, List.drop_eq_getElem_cons hlt',
        splitRegexFrom, if_pos ⟨hlast, hwhite⟩, List.dropWhile_cons_of_pos hwhite]
      · rfl
      · exact absurd hboth.2 (by rw [no_match_at_runEnd hc]; exact Bool.false_ne_true)
  | case2 start i hlt hterm stop hword ih =>
    intro before _
    obtain ⟨hsplit, hrun, -⟩ := drop_eq_run isTerminator chars i
    have hrunne : slice chars i stop ≠ [] := by
      rw [hrun, List.drop_eq_getElem_cons hlt, List.takeWhile_cons_of_pos hterm]
      simp
    have hrunall : ∀ c ∈ slice chars i stop, isTerminator c = true := by
      rw [hrun]
      exact fun c hc => List.mem_takeWhile_imp hc
    have hle : i ≤ stop := le_runEnd _ _ _
    rw [hsplit, splitRegexFrom_run hrunall hrunne, slice_append_slice chars hstart hle]
    refine ih (hstart.trans hle) (runEnd_le hi) _ fun c hc hboth => hword ?_
    rw [hc]
    exact hboth.2
  | case3 start i hlt hterm ih =>
    intro before hno
    have hget := List.getElem?_eq_getElem hlt
    rw [List.drop_eq_getElem_cons hlt, splitRegexFrom, if_neg (hno _ hget),
      ih (hstart.trans (Nat.le_succ i)) hlt (some chars[i]) fun c _ hboth => ?_]
    · have hpiece : slice chars start i ++ [chars[i]] = slice chars start (i + 1) := by
        rw [← slice_append_slice chars hstart (by omega : i ≤ i + 1)]
        refine congrArg _ ?_
        rw [slice, Nat.add_sub_cancel_left, List.drop_eq_getElem_cons hlt]
        rfl
      rw [hpiece]
    · exact hterm (by simpa using hboth.1)
  | case4 start i hend hmore =>
    intro before _
    have hn : i = chars.length := le_antisymm hi (not_lt.mp hend)
    subst hn
    rw [List.drop_length, splitRegexFrom, sentencesOf]
    simp
  | case5 start i hend hmore =>
    intro before _
    have hn : i = chars.length := le_antisymm hi (not_lt.mp hend)
    subst hn
    obtain rfl : start = chars.length := le_antisymm hstart (not_lt.mp hmore)
    rw [List.drop_length, splitRegexFrom, slice_self, sentencesOf]
    simp [pushTrimmed, trim]

/-- **Sentences** are the trimmed pieces that are not empty. -/
theorem splitSentences_eq (text : List Char) :
    splitSentences text = ((splitRegex text).map trim).filter fun s => decide (s ≠ []) := by
  rw [← sentencesOf_eq, splitSentences, splitFrom_eq le_rfl (Nat.zero_le _) none (by simp),
    slice_self, List.drop_zero, splitRegex]

/-! ### No character is lost -/

/-- The characters that are not whitespace. -/
def inked (s : List Char) : List Char := s.filter fun c => !isWhitespace c

theorem inked_append (s t : List Char) : inked (s ++ t) = inked s ++ inked t := List.filter_append ..

theorem inked_dropWhile (s : List Char) : inked (s.dropWhile isWhitespace) = inked s := by
  induction s with
  | nil => rfl
  | cons c s ih =>
    by_cases hc : isWhitespace c = true
    · rw [List.dropWhile_cons_of_pos hc, ih, inked, inked, List.filter_cons_of_neg (by simp [hc])]
    · rw [List.dropWhile_cons_of_neg hc]

theorem inked_trim (s : List Char) : inked (trim s) = inked s := by
  have hreverse : ∀ t : List Char, inked t.reverse = (inked t).reverse := fun t =>
    List.filter_reverse ..
  rw [trim, List.rdropWhile, hreverse, inked_dropWhile, hreverse, List.reverse_reverse,
    inked_dropWhile]

theorem inked_splitRegexFrom (before : Option Char) (piece rest : List Char) :
    inked (splitRegexFrom before piece rest).flatten = inked (piece ++ rest) := by
  fun_induction splitRegexFrom before piece rest with
  | case1 before piece => simp
  | case2 before piece c rest hmatch ih =>
    rw [List.flatten_cons, inked_append, ih, List.nil_append, inked_dropWhile, inked_append]
    refine congrArg _ ?_
    rw [inked, inked, List.filter_cons_of_neg (by simp [hmatch.2])]
  | case3 before piece c rest hmatch ih =>
    rw [ih, List.append_assoc, List.singleton_append]

theorem inked_sentencesOf (pieces : List (List Char)) :
    inked (sentencesOf pieces).flatten = inked pieces.flatten := by
  induction pieces with
  | nil => rfl
  | cons p pieces ih =>
    have hp : inked (pushTrimmed p).flatten = inked p := by
      rw [← inked_trim p, pushTrimmed]
      split_ifs with hempty
      · rw [hempty]
        rfl
      · simp
    rw [sentencesOf, List.flatMap_cons, List.flatten_append, inked_append, hp, List.flatten_cons,
      inked_append, ← ih, sentencesOf]

end Scan

/-! ### The windows -/

/-- The windows over `n` units: runs of consecutive units in order, a slide apart and each reaching
further than the one before; all but the last of full length, the last up to the last unit; and
every unit in one of them. -/
structure Windows (n windowSize slidingSize : ℕ) (ranges : List (ℕ × ℕ)) : Prop where
  first : ∀ r ∈ ranges.head?, r.1 = 0
  next : ranges.IsChain fun a b =>
    b.1 = a.1 + slidingSize ∧ a.2 = a.1 + windowSize ∧ a.2 < b.2
  inside : ∀ r ∈ ranges, r.1 < r.2 ∧ r.2 ≤ n ∧ r.2 ≤ r.1 + windowSize
  last : ∀ r ∈ ranges.getLast?, r.2 = n
  covers : ∀ k < n, ∃ r ∈ ranges, r.1 ≤ k ∧ k < r.2

variable {n windowSize slidingSize : ℕ}

theorem head?_windowsFrom {i : ℕ} (hi : i < n) :
    (windowsFrom n windowSize slidingSize i).head? = some (i, min (i + windowSize) n) := by
  rw [windowsFrom, if_pos hi]
  rfl

/-- The windows from a unit on. -/
theorem windowsFrom_spec (hslide : 1 ≤ slidingSize) (hwindow : slidingSize ≤ windowSize) (i : ℕ) :
    ((windowsFrom n windowSize slidingSize i).IsChain fun a b =>
        b.1 = a.1 + slidingSize ∧ a.2 = a.1 + windowSize ∧ a.2 < b.2) ∧
      (∀ r ∈ windowsFrom n windowSize slidingSize i,
        r.1 < r.2 ∧ r.2 ≤ n ∧ r.2 ≤ r.1 + windowSize) ∧
      (∀ r ∈ (windowsFrom n windowSize slidingSize i).getLast?, r.2 = n) ∧
      ∀ k, i ≤ k → k < n → ∃ r ∈ windowsFrom n windowSize slidingSize i, r.1 ≤ k ∧ k < r.2 := by
  have hmax : max slidingSize 1 = slidingSize := max_eq_left hslide
  fun_induction windowsFrom n windowSize slidingSize i with
  | case1 i hi stop ih =>
    rw [hmax] at ih ⊢
    by_cases hend : n ≤ stop
    · have hstop : stop = n := le_antisymm (min_le_right _ _) hend
      rw [if_pos hend]
      refine ⟨.singleton _, ?_, ?_, fun k hk hkn => ⟨(i, stop), List.mem_singleton_self _, hk, ?_⟩⟩
      · simp only [List.mem_singleton, forall_eq]
        omega
      · simp [hstop]
      · simp only [hstop]
        exact hkn
    · obtain ⟨hchain, hinside, hlast, hcovers⟩ := ih
      have hstop : stop = i + windowSize := by omega
      have hmore : i + slidingSize < n := by omega
      have hhead : (windowsFrom n windowSize slidingSize (i + slidingSize)).head? =
          some (i + slidingSize, min (i + slidingSize + windowSize) n) := head?_windowsFrom hmore
      rw [if_neg hend]
      generalize windowsFrom n windowSize slidingSize (i + slidingSize) = later at *
      obtain ⟨rest, rfl⟩ : ∃ rest, later =
          (i + slidingSize, min (i + slidingSize + windowSize) n) :: rest :=
        List.head?_eq_some_iff.mp hhead
      refine ⟨List.isChain_cons_cons.mpr ⟨⟨rfl, hstop, ?_⟩, hchain⟩, ?_, ?_, fun k hk hkn => ?_⟩
      · simp only
        omega
      · refine List.forall_mem_cons.mpr ⟨?_, hinside⟩
        simp only
        omega
      · rwa [List.getLast?_cons_cons]
      · by_cases hin : k < stop
        · exact ⟨(i, stop), List.mem_cons_self, hk, hin⟩
        · obtain ⟨r, hr, hrk⟩ := hcovers k (by omega) hkn
          exact ⟨r, List.mem_cons_of_mem _ hr, hrk⟩
  | case2 i hi => exact ⟨.nil, by simp, by simp, fun k hk hkn => absurd (hk.trans_lt hkn) hi⟩

theorem windows_windowsFrom (hslide : 1 ≤ slidingSize) (hwindow : slidingSize ≤ windowSize) :
    Windows n windowSize slidingSize (windowsFrom n windowSize slidingSize 0) := by
  obtain ⟨hchain, hinside, hlast, hcovers⟩ :=
    windowsFrom_spec (n := n) hslide hwindow 0
  refine ⟨fun r hr => ?_, hchain, hinside, hlast, fun k hk => hcovers k (Nat.zero_le k) hk⟩
  by_cases hn : 0 < n
  · rw [head?_windowsFrom hn] at hr
    rw [← Option.some.inj hr]
  · rw [windowsFrom, if_neg hn] at hr
    cases hr

/-- **Chunking loses no text.** The sentences are the pieces of the text between whitespace that
follows a terminator, trimmed and without the empty ones, and have all its characters but
whitespace; and with a slide from 1 to the window's size the windows run over all sentences. -/
theorem chunking_loses_nothing (text : List Char) (hslide : 1 ≤ slidingSize)
    (hwindow : slidingSize ≤ windowSize) :
    splitSentences text = ((splitRegex text).map trim).filter (fun s => decide (s ≠ [])) ∧
      inked (splitSentences text).flatten = inked text ∧
      ∃ ranges, Windows (splitSentences text).length windowSize slidingSize ranges ∧
        chunkDocument text windowSize slidingSize =
          ranges.map fun r => [' '].intercalate (slice (splitSentences text) r.1 r.2) := by
  refine ⟨splitSentences_eq text, ?_, _, windows_windowsFrom hslide hwindow, ?_⟩
  · rw [splitSentences_eq, ← sentencesOf_eq, inked_sentencesOf, splitRegex, inked_splitRegexFrom,
      List.nil_append]
  · rw [chunkDocument, slidingWindows, max_eq_left (hslide.trans hwindow)]

/-- Two sentences in windows of two, one apart. -/
theorem chunking_loses_nothing_two :
    inked (splitSentences ("One 1.5! Two?".toList)).flatten = inked "One 1.5! Two?".toList :=
  (chunking_loses_nothing "One 1.5! Two?".toList (le_refl 1) one_le_two).2.1

end Chunking

end Minnal
