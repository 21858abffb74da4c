import Minnal.Db.IndexCheckpoint

/-!
# Rows of a field index

An index files the **row** of a key under the value the key's document has in the field. This
module looks at the indexes of `IndexCheckpoint` row by row: a bitmap is the list of its rows, and
an update for one key takes its row out of the bitmaps of some values and puts it into that of
another. Such an update keeps the invariant of the checkpoints (`inv_change`), and at no point of
it any other row moves (`Moves`).
-/

namespace Minnal

namespace IndexRows

open IndexCheckpoint

variable {F V : Type}

/-- The indexes of a namespace, with bitmaps as lists of rows. -/
abbrev Indexes (F V : Type) := IndexCheckpoint.State F V (List ℕ)

/-! ### Updates of a row -/

/-- The rows filed under a value. -/
def rowsOf (s : Indexes F V) (f : F) (v : V) : List ℕ := ((s.fields f).rowsOf v).getD []

variable [DecidableEq F] [DecidableEq V]

/-- Take a row out of the bitmap of a value. -/
def remove (f : F) (row : ℕ) (s : Indexes F V) (v : V) : Indexes F V :=
  if row ∈ rowsOf s f v then
    let rest := (rowsOf s f v).filter fun r => decide (r ≠ row)
    let bitmap := if rest.isEmpty then none else some rest
    (s.setField f ((s.fields f).remove v bitmap)).note none f v bitmap
  else s

/-- Put a row into the bitmap of a value. -/
def insert (f : F) (row : ℕ) (s : Indexes F V) (v : V) : Indexes F V :=
  let bitmap := if row ∈ rowsOf s f v then rowsOf s f v else row :: rowsOf s f v
  (s.setField f ((s.fields f).insertMany v bitmap)).note none f v (some bitmap)

/-- What is done to a row: the values it is taken from, and the one it is filed under then. -/
structure RowChange (V : Type) where
  drop : List V
  add : Option V

/-- The update of a put: with the old document at hand it is targeted, a new key is just filed,
and otherwise the row is searched for in all values. -/
def RowChange.put (values : List V) (existed : Bool) (old : Option (Option V)) (new : Option V) :
    RowChange V :=
  match existed, old with
  | true, some old => if old = new then ⟨[], none⟩ else ⟨old.toList, new⟩
  | false, _ => ⟨[], new⟩
  | true, none => ⟨values, new⟩

/-- The update of a delete. -/
def RowChange.delete (values : List V) : Option (Option V) → RowChange V
  | some old => ⟨old.toList, none⟩
  | none => ⟨values, none⟩

/-- The update of a write, with the document there was before if it can be read. -/
def RowChange.ofWrite {D : Type} (extract : D → Option V) (values : List V) (before : Option D)
    (readable : Bool) (value : Option D) : RowChange V :=
  let old := if readable then before.map extract else none
  match value with
  | some value => RowChange.put values before.isSome old (extract value)
  | none => RowChange.delete values old

/-- The state before the row is filed again. -/
def removeAll (f : F) (row : ℕ) (s : Indexes F V) (drop : List V) : Indexes F V :=
  drop.foldl (remove f row) s

/-- Change a row; a value that is rejected leaves the row where the removals left it. -/
def change (rejects : V → Bool) (f : F) (row : ℕ) (c : RowChange V) (s : Indexes F V) :
    Indexes F V × Bool :=
  match c.add with
  | none => (removeAll f row s c.drop, true)
  | some v =>
    if rejects v then (removeAll f row s c.drop, false)
    else (insert f row (removeAll f row s c.drop) v, true)

/-- The insertion of the change gives no rows to a value that a stage has seen emptied. -/
def calmChange (rejects : V → Bool) (f : F) (row : ℕ) (c : RowChange V) (s : Indexes F V) : Bool :=
  match c.add with
  | none => true
  | some v => rejects v || calm (removeAll f row s c.drop) (.gain none f v [])

/-! ### Where rows are filed -/

/-- After these changes the row is filed under the value. -/
def FiledAt (log : List (Change F V (List ℕ))) (f : F) (row : ℕ) (v : V) : Prop :=
  row ∈ (contentOf log f v).getD []

/-- The synced files have the row under the value. -/
def FiledOnDisk (s : Indexes F V) (f : F) (row : ℕ) (v : V) : Prop :=
  ∃ rows, (s.fields f).OnDisk v rows ∧ row ∈ rows

/-- The changes from one state to another move only one row of one field. -/
structure Moves (f : F) (row : ℕ) (s t : Indexes F V) : Prop where
  runs : t.runs = s.runs
  log : ∃ l, t.log = s.log ++ l ∧ ∀ other, other ≠ row → ∀ j ≤ l.length, ∀ v,
    FiledAt (s.log ++ l.take j) f other v ↔ FiledAt s.log f other v

section Filed

variable {s t u : Indexes F V} {f : F} {row : ℕ} {v : V}

theorem mem_rowsOf_iff (h : Inv s) (v : V) : row ∈ rowsOf s f v ↔ FiledAt s.log f row v := by
  rw [rowsOf, h.safe.answers]
  rfl

/-- One more change of a field. -/
theorem filedAt_concat (log : List (Change F V (List ℕ))) (f : F) (v : V)
    (bitmap : Option (List ℕ)) (row : ℕ) (w : V) :
    FiledAt (log ++ [⟨none, f, v, bitmap⟩]) f row w ↔
      if w = v then row ∈ bitmap.getD [] else FiledAt log f row w := by
  rw [FiledAt, contentOf_concat, if_pos rfl, Function.update_apply]
  split_ifs <;> rfl

/-- What the files have for a value is what the index had at a time. -/
theorem filedOnDisk_iff (h : Inv s) {upTo : Horizon} (hclaim : Claimed Run.Synced s f upTo) (v : V) :
    ∃ k ≤ s.log.length, upTo.changes ≤ k ∧
      ∀ row, FiledOnDisk s f row v ↔ FiledAt (s.log.take k) f row v := by
  obtain ⟨k, hk, hchanges, -, hcontent⟩ := h.disk f upTo hclaim v
  refine ⟨k, hk, hchanges, fun row => ?_⟩
  rw [FiledAt]
  constructor
  · rintro ⟨rows, hrows, hmem⟩
    rw [(hcontent rows).mp hrows]
    exact hmem
  · intro hmem
    cases hrows : contentOf (s.log.take k) f v with
    | none =>
      rw [hrows] at hmem
      cases hmem
    | some rows =>
      rw [hrows] at hmem
      exact ⟨rows, (hcontent rows).mpr hrows, hmem⟩

/-- Changes of other fields leave a field's rows where they are. -/
theorem filedAt_append {log l : List (Change F V (List ℕ))} (h : ∀ d ∈ l, d.field ≠ f) :
    FiledAt (log ++ l) f row v ↔ FiledAt log f row v := by
  have hcontent : contentOf (log ++ l) f v = contentOf log f v := by
    induction l using List.reverseRecOn with
    | nil => rw [List.append_nil]
    | append_singleton l d ih =>
      have hd := h d (List.mem_append_right _ (List.mem_singleton_self d))
      rw [← List.append_assoc, contentOf_concat, if_neg hd]
      exact ih fun e he => h e (List.mem_append_left _ he)
  rw [FiledAt, FiledAt, hcontent]

/-- A field's rows are where they were when its last change was made. -/
theorem filedAt_take {log : List (Change F V (List ℕ))} {n j : ℕ} (h : ∀ d ∈ log.drop n, d.field ≠ f)
    (hj : n ≤ j) : FiledAt (log.take j) f row v ↔ FiledAt log f row v := by
  have hrest : ∀ d ∈ log.drop j, d.field ≠ f := by
    intro d hd
    refine h d ?_
    rw [← Nat.add_sub_cancel' hj, ← List.drop_drop] at hd
    exact List.mem_of_mem_drop hd
  have hwhole : FiledAt (log.take j ++ log.drop j) f row v ↔ FiledAt (log.take j) f row v :=
    filedAt_append hrest
  rw [← hwhole, List.take_append_drop]

namespace Moves

theorem refl (s : Indexes F V) : Moves f row s s :=
  ⟨rfl, [], (List.append_nil _).symm, fun other _ j hj v => by rw [List.take_nil, List.append_nil]⟩

theorem trans (h : Moves f row s t) (h' : Moves f row t u) : Moves f row s u := by
  obtain ⟨l, hl, hother⟩ := h.log
  obtain ⟨l', hl', hother'⟩ := h'.log
  refine ⟨h'.runs.trans h.runs, l ++ l', by rw [hl', hl, List.append_assoc],
    fun other hne j hj v => ?_⟩
  by_cases hle : j ≤ l.length
  · rw [List.take_append_of_le_length hle]
    exact hother other hne j hle v
  · -- the first part is over
    have hj' : j - l.length ≤ l'.length := by
      rw [List.length_append] at hj
      omega
    have htake : s.log ++ (l ++ l').take j = t.log ++ l'.take (j - l.length) := by
      rw [hl, List.take_append, List.take_of_length_le (by omega), List.append_assoc]
    rw [htake, hother' other hne _ hj' v, hl]
    have hwhole := hother other hne l.length (Nat.le_refl _) v
    rwa [List.take_length] at hwhole

/-- One change of the field. -/
theorem of_change {i : FieldSpill.DynFieldIndex V (List ℕ)} {v : V} {bitmap : Option (List ℕ)}
    (hbitmap : ∀ other, other ≠ row → (other ∈ bitmap.getD [] ↔ FiledAt s.log f other v)) :
    Moves f row s ((s.setField f i).note none f v bitmap) := by
  refine ⟨rfl, [⟨none, f, v, bitmap⟩], rfl, fun other hne j hj w => ?_⟩
  obtain rfl | rfl : j = 0 ∨ j = 1 := by
    rw [List.length_singleton] at hj
    omega
  · rw [List.take_zero, List.append_nil]
  · change FiledAt (s.log ++ [_]) f other w ↔ _
    rw [filedAt_concat]
    split_ifs with hw
    · rw [hw]
      exact hbitmap other hne
    · rfl

end Moves

/-! ### What an update does -/

omit [DecidableEq F] [DecidableEq V] in
private theorem ordering_of_mem (hmem : row ∈ rowsOf s f v) :
    ∃ slot, (s.fields f).ordering v = some slot := by
  cases hslot : (s.fields f).ordering v with
  | some slot => exact ⟨slot, rfl⟩
  | none =>
    rw [rowsOf, FieldSpill.DynFieldIndex.rowsOf, hslot] at hmem
    cases hmem

/-- A row is taken from a value. -/
theorem inv_remove (h : Inv s) (f : F) (row : ℕ) (v : V) : Inv (remove f row s v) := by
  rw [remove]
  split_ifs with hmem
  · obtain ⟨slot, hslot⟩ := ordering_of_mem hmem
    exact h.lose rfl hslot _
  · exact h

theorem filedAt_remove (h : Inv s) (f : F) (row : ℕ) (v : V) (other : ℕ) (w : V) :
    FiledAt (remove f row s v).log f other w ↔
      FiledAt s.log f other w ∧ (other = row → w ≠ v) := by
  rw [remove]
  split_ifs with hmem
  · set rest := (rowsOf s f v).filter fun r => decide (r ≠ row) with hrest
    have hbitmap : ∀ r, r ∈ (if rest.isEmpty then none else some rest).getD [] ↔
        r ∈ rowsOf s f v ∧ r ≠ row := by
      intro r
      have hiff : r ∈ rest ↔ r ∈ rowsOf s f v ∧ r ≠ row := by
        rw [hrest, List.mem_filter, decide_eq_true_iff]
      rw [← hiff]
      split_ifs with hempty
      · rw [List.isEmpty_iff.mp hempty]
        rfl
      · rfl
    change FiledAt (s.log ++ [_]) f other w ↔ _
    rw [filedAt_concat, hbitmap, mem_rowsOf_iff h]
    by_cases hw : w = v
    · rw [if_pos hw, hw]
      exact and_congr_right fun _ => ⟨fun hne heq => absurd heq hne, fun himp heq => himp heq rfl⟩
    · rw [if_neg hw]
      exact ⟨fun hfiled => ⟨hfiled, fun _ => hw⟩, And.left⟩
  · refine ⟨fun hfiled => ⟨hfiled, fun heq hw => hmem ?_⟩, And.left⟩
    rw [mem_rowsOf_iff h]
    rwa [heq, hw] at hfiled

theorem moves_remove (h : Inv s) (f : F) (row : ℕ) (v : V) : Moves f row s (remove f row s v) := by
  have hfiled := filedAt_remove h f row v
  rw [remove] at hfiled ⊢
  split_ifs at hfiled ⊢ with hmem
  · refine Moves.of_change fun other hne => ?_
    have hone := hfiled other v
    change FiledAt (s.log ++ [_]) f other v ↔ _ at hone
    rw [filedAt_concat, if_pos rfl] at hone
    exact hone.trans ⟨And.left, fun hold => ⟨hold, fun heq => absurd heq hne⟩⟩
  · exact Moves.refl s

/-- A row is taken from several values. -/
theorem removeAll_spec (h : Inv s) (f : F) (row : ℕ) (drop : List V) :
    Inv (removeAll f row s drop) ∧ Moves f row s (removeAll f row s drop) ∧
      ∀ w, FiledAt (removeAll f row s drop).log f row w ↔ FiledAt s.log f row w ∧ w ∉ drop := by
  induction drop generalizing s with
  | nil => exact ⟨h, Moves.refl s, fun w => ⟨fun hw => ⟨hw, List.not_mem_nil⟩, And.left⟩⟩
  | cons v drop ih =>
    obtain ⟨hinv, hmoves, hfiled⟩ := ih (inv_remove h f row v)
    refine ⟨hinv, (moves_remove h f row v).trans hmoves, fun w => (hfiled w).trans ?_⟩
    rw [filedAt_remove h f row, List.mem_cons, not_or, and_assoc]
    exact and_congr_right fun _ => and_congr_left fun _ => ⟨fun himp => himp rfl, fun hne _ => hne⟩

/-- A row is filed under a value. -/
theorem insert_spec (h : Inv s) (row : ℕ) {v : V} (hcalm : calm s (.gain none f v []) = true) :
    Inv (insert f row s v) ∧ Moves f row s (insert f row s v) ∧
      ∀ w, FiledAt (insert f row s v).log f row w ↔ FiledAt s.log f row w ∨ w = v := by
  set bitmap := if row ∈ rowsOf s f v then rowsOf s f v else row :: rowsOf s f v with hset
  have hbitmap : ∀ r, r ∈ bitmap ↔ r = row ∨ FiledAt s.log f r v := by
    intro r
    rw [hset, ← mem_rowsOf_iff h]
    split_ifs with hmem
    · refine ⟨Or.inr, fun hr => ?_⟩
      rcases hr with rfl | hr
      · exact hmem
      · exact hr
    · exact List.mem_cons
  refine ⟨h.gain rfl hcalm, Moves.of_change fun other hne => ?_, fun w => ?_⟩
  · rw [Option.getD_some, hbitmap, or_iff_right hne]
  · change FiledAt (s.log ++ [_]) f row w ↔ _
    rw [filedAt_concat, Option.getD_some, hbitmap]
    by_cases hw : w = v
    · rw [if_pos hw]
      exact ⟨fun _ => Or.inr hw, fun _ => Or.inl rfl⟩
    · rw [if_neg hw, or_iff_left hw]

variable {rejects : V → Bool} {c : RowChange V}

/-- **An update of a row.** -/
theorem change_spec (h : Inv s) (hcalm : calmChange rejects f row c s = true) :
    Inv (change rejects f row c s).1 ∧ Moves f row s (change rejects f row c s).1 ∧
      ∀ w, FiledAt (change rejects f row c s).1.log f row w ↔
        FiledAt s.log f row w ∧ w ∉ c.drop ∨
          c.add = some w ∧ (change rejects f row c s).2 = true := by
  obtain ⟨hinv, hmoves, hfiled⟩ := removeAll_spec h f row c.drop
  rw [calmChange] at hcalm
  rw [change]
  cases hadd : c.add with
  | none =>
    refine ⟨hinv, hmoves, fun w => (hfiled w).trans ?_⟩
    exact ⟨Or.inl, fun hw => hw.resolve_right fun hnone => (by cases hnone.1)⟩
  | some v =>
    rw [hadd] at hcalm
    dsimp only at hcalm ⊢
    cases hrejects : rejects v with
    | true =>
      refine ⟨hinv, hmoves, fun w => (hfiled w).trans ?_⟩
      exact ⟨Or.inl, fun hw => hw.resolve_right fun hnone => (by cases hnone.2)⟩
    | false =>
      rw [hrejects, Bool.false_or] at hcalm
      obtain ⟨hinv', hmoves', hfiled'⟩ := insert_spec hinv row hcalm
      refine ⟨hinv', hmoves.trans hmoves', fun w => (hfiled' w).trans ?_⟩
      refine or_congr (hfiled w) ⟨fun heq => ⟨heq ▸ rfl, rfl⟩, fun heq => ?_⟩
      exact (Option.some.inj heq.1).symm

/-! ### The update of a write -/

/-- The changes from one state to another are of one field. -/
def OfField (f : F) (s t : Indexes F V) : Prop := ∃ l, t.log = s.log ++ l ∧ ∀ d ∈ l, d.field = f

omit [DecidableEq F] [DecidableEq V] in
theorem OfField.refl (f : F) (s : Indexes F V) : OfField f s s :=
  ⟨[], (List.append_nil _).symm, fun d hd => by cases hd⟩

omit [DecidableEq F] [DecidableEq V] in
theorem OfField.trans (h : OfField f s t) (h' : OfField f t u) : OfField f s u := by
  obtain ⟨l, hl, hfield⟩ := h
  obtain ⟨l', hl', hfield'⟩ := h'
  refine ⟨l ++ l', by rw [hl', hl, List.append_assoc], fun d hd => ?_⟩
  exact (List.mem_append.mp hd).elim (hfield d) (hfield' d)

omit [DecidableEq V] in
theorem OfField.of_change (f : F) (s : Indexes F V) (i : FieldSpill.DynFieldIndex V (List ℕ)) (v : V)
    (bitmap : Option (List ℕ)) : OfField f s ((s.setField f i).note none f v bitmap) := by
  refine ⟨_, rfl, fun d hd => ?_⟩
  rw [List.mem_singleton.mp hd]

theorem ofField_removeAll (s : Indexes F V) (f : F) (row : ℕ) (drop : List V) :
    OfField f s (removeAll f row s drop) := by
  induction drop generalizing s with
  | nil => exact OfField.refl f s
  | cons v drop ih =>
    have hone : OfField f s (remove f row s v) := by
      rw [remove]
      split_ifs
      · exact OfField.of_change f s _ v _
      · exact OfField.refl f s
    exact hone.trans (ih _)

/-- **An update is of one field.** -/
theorem ofField_change (s : Indexes F V) (rejects : V → Bool) (f : F) (row : ℕ) (c : RowChange V) :
    OfField f s (change rejects f row c s).1 := by
  have hremove := ofField_removeAll s f row c.drop
  rw [change]
  cases c.add with
  | none => exact hremove
  | some v =>
    dsimp only
    split_ifs
    · exact hremove
    · exact hremove.trans (OfField.of_change f _ _ v _)

theorem change_accepted (s : Indexes F V) {v : V} (hadd : c.add = some v) :
    (change rejects f row c s).2 = !rejects v := by
  rw [change, hadd]
  dsimp only
  split_ifs with hrejects
  · rw [hrejects]
    rfl
  · rw [Bool.not_eq_true] at hrejects
    rw [hrejects]
    rfl

/-- **The update of a write** files the row under the new document, if it was filed under the one
before. -/
theorem filedAt_ofWrite {D : Type} (h : Inv s) {extract : D → Option V} {values : List V}
    {before value : Option D} {readable : Bool}
    (hcalm : calmChange rejects f row (.ofWrite extract values before readable value) s = true)
    (hknown : ∀ w, FiledAt s.log f row w → w ∈ values)
    (hfiled : ∀ w, FiledAt s.log f row w ↔ before.bind extract = some w ∧ rejects w = false) (w : V) :
    FiledAt (change rejects f row (.ofWrite extract values before readable value) s).1.log f row w ↔
      value.bind extract = some w ∧ rejects w = false := by
  set c := RowChange.ofWrite extract values before readable value with hc
  have hspec := (change_spec h hcalm).2.2 w
  have hadded : c.add = some w ∧ (change rejects f row c s).2 = true ↔
      c.add = some w ∧ rejects w = false := by
    refine and_congr_right fun hadd => ?_
    rw [change_accepted s hadd, Bool.not_eq_true']
  rw [hspec, hadded]
  have hk := hknown w
  rw [hfiled w] at hk ⊢
  unfold RowChange.ofWrite at hc
  cases value with
  | none =>
    cases readable <;> cases before <;> simp [RowChange.delete] at hc <;> grind -ring -linarith
  | some value =>
    cases readable <;> cases before <;> simp [RowChange.put] at hc <;> grind -ring -linarith

end Filed

end IndexRows

end Minnal
