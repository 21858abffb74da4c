import Mathlib.Data.List.Dedup
import Mathlib.Data.List.Sort
import Mathlib.Data.List.Lemmas

/-!
# The stored vectors of a document

A document's chunk codes are stored under one key per **posting**, and its **meta** lists those
postings with their chunk counts. Each operation on them holds the document's lock and is a list of
single writes: an upsert, a delete, the copy of chunks to other postings, and the two ways to take
the copied chunks away again, by deleting a drained posting's key or by shrinking a source's key.

A copy loses nothing on the way (`along_copyWrites`) and ends with every chunk at its destination
(`holds_copyWrites`). A drain's deletes touch only the drained posting (`along_drainDeleteWrites`);
a shrink takes a chunk only where its destination holds it (`along_shrinkWrites`).
-/

set_option linter.dupNamespace false

namespace Minnal

open List (mem_map forall_mem_cons mem_cons map_cons mem_filter nodup_cons)
open Function (update_self update_of_ne)

/-- The two logs a write may go to. -/
inductive VectorLog
  | main
  | vectorIndex
  deriving DecidableEq, Repr

/-- One write to the stored vectors of a document. A key is only ever put through the vector index
WAL. -/
inductive VectorWrite (P C : Type*)
  | putMeta (log : VectorLog) (postings : List (P × ℕ))
  | deleteMeta
  | putKey (posting : P) (codes : List C)
  | deleteKey (log : VectorLog) (posting : P)
  deriving DecidableEq, Repr

namespace VectorWrite

variable {P C : Type*}

/-- The posting whose key is written. -/
def key? : VectorWrite P C → Option P
  | .putKey p _ => some p
  | .deleteKey _ p => some p
  | .putMeta _ _ => none
  | .deleteMeta => none

/-- The write leaves a meta where there is one. -/
def keepsMeta : VectorWrite P C → Bool
  | .deleteMeta => false
  | _ => true

end VectorWrite

/-- **The stored vectors of a document**: its meta and its keys. -/
structure DocVectors (P C : Type*) where
  /-- The postings the meta lists, with their chunk counts. -/
  postings : Option (List (P × ℕ))
  /-- The codes stored under each posting. -/
  keys : P → Option (List C)

namespace DocVectors

variable {P C : Type*} [LinearOrder P]

/-- A document that was never indexed. -/
def empty : DocVectors P C := ⟨none, fun _ => none⟩

/-- One write. -/
def write (v : DocVectors P C) : VectorWrite P C → DocVectors P C
  | .putMeta _ postings => { v with postings := some postings }
  | .deleteMeta => { v with postings := none }
  | .putKey p codes => { v with keys := Function.update v.keys p (some codes) }
  | .deleteKey _ p => { v with keys := Function.update v.keys p none }

/-- Several writes, in order. -/
def writeAll (v : DocVectors P C) (ws : List (VectorWrite P C)) : DocVectors P C := ws.foldl write v

/-- The codes under a posting, none where there is no key. -/
def codes (v : DocVectors P C) (p : P) : List C := (v.keys p).getD []

/-- The code is stored under the posting. -/
def Holds (v : DocVectors P C) (p : P) (x : C) : Prop := x ∈ v.codes p

instance [DecidableEq C] (v : DocVectors P C) (p : P) (x : C) : Decidable (v.Holds p x) :=
  inferInstanceAs (Decidable (x ∈ v.codes p))

/-! ### Upserts and deletes -/

/-- The postings of filed codes, each once, in order. -/
def filedUnder (filed : List (P × C)) : List P :=
  (filed.map Prod.fst).dedup.insertionSort (· ≤ ·)

/-- The codes filed under one posting. -/
def filedAt (filed : List (P × C)) (p : P) : List C :=
  (filed.filter fun x => x.1 = p).map Prod.snd

/-- The codes by posting, as the maps of the source hold them. -/
def groups (filed : List (P × C)) : List (P × List C) :=
  (filedUnder filed).map fun p => (p, filedAt filed p)

/-- What `upsert_vectors` writes: stale keys go, then the meta, then the keys. -/
def upsertWrites (v : DocVectors P C) (filed : List (P × C)) : List (VectorWrite P C) :=
  (((v.postings.getD []).map Prod.fst).filter fun p => !(filedUnder filed).contains p).map
      (.deleteKey .main) ++
    .putMeta .main ((groups filed).map fun g => (g.1, g.2.length)) ::
      (groups filed).map fun g => .putKey g.1 g.2

/-- What `delete_vector` writes: the keys the meta lists, then the meta. -/
def deleteWrites (v : DocVectors P C) : List (VectorWrite P C) :=
  v.postings.elim [] fun postings =>
    (postings.map Prod.fst).map (.deleteKey .main) ++ [.deleteMeta]

/-- The key of a shrunk source is rewritten, or deleted when nothing remains. -/
def shrinkWrite (g : P × List C) : VectorWrite P C :=
  if g.2.isEmpty then .deleteKey .vectorIndex g.1 else .putKey g.1 g.2

section Moves

variable [DecidableEq C]

/-! ### Copies -/

/-- A key that gains the codes it does not already hold, each copy counted. -/
def merged (held codes : List C) : List C := held ++ codes.diff held

/-- List the posting in the meta with this count. -/
def addCount (p : P) (n : ℕ) : List (P × ℕ) → List (P × ℕ)
  | [] => [(p, n)]
  | (q, m) :: rest => if q = p then (q, n) :: rest else (q, m) :: addCount p n rest

/-- What `copy_into_batch` writes for one document: the meta, then each destination that gains a
code. A document without a meta is being deleted and is skipped. -/
def copyWrites (v : DocVectors P C) (moving : List (P × C)) : List (VectorWrite P C) :=
  v.postings.elim [] fun postings =>
    let grown := (groups moving).map fun g => (g.1, merged (v.codes g.1) g.2)
    let listed := grown.foldl (fun ps g => addCount g.1 g.2.length ps) postings
    (if listed = postings then [] else [.putMeta .vectorIndex listed]) ++
      (grown.filter fun g => (v.codes g.1).length < g.2.length).map fun g => .putKey g.1 g.2

/-! ### Taking copied chunks away -/

/-- What `drain_delete` writes for one document: the meta without the drained posting, then the
key. -/
def drainDeleteWrites (v : DocVectors P C) (drained : P) : List (VectorWrite P C) :=
  (match v.postings with
    | some postings =>
      if (postings.map Prod.fst).contains drained then
        [.putMeta .vectorIndex (postings.eraseP fun x => x.1 = drained)]
      else []
    | none => []) ++ [.deleteKey .vectorIndex drained]

/-- Walk the codes of a source: one goes where its destination holds a copy that no code before it
has claimed. Returns what remains and the copies left to claim. -/
def shrink (dest : C → Option P) : (P → List C) → List C → List C × (P → List C)
  | held, [] => ([], held)
  | held, x :: xs =>
    match dest x with
    | none => let r := shrink dest held xs; (x :: r.1, r.2)
    | some q =>
      if x ∈ held q then shrink dest (Function.update held q ((held q).erase x)) xs
      else let r := shrink dest held xs; (x :: r.1, r.2)

/-- What remains of each source. -/
def shrunk (v : DocVectors P C) (dest : P → C → Option P) :
    (P → List C) → List P → List (P × List C)
  | _, [] => []
  | held, p :: ps =>
    let r := shrink (dest p) held (v.codes p)
    (p, r.1) :: shrunk v dest r.2 ps

/-- The meta's count of a shrunk source; a source that is left empty is no longer listed. -/
def setCount (p : P) (n : ℕ) : List (P × ℕ) → List (P × ℕ)
  | [] => []
  | (q, m) :: rest =>
    if q = p then if m = n then (q, m) :: rest else if n = 0 then rest else (q, n) :: rest
    else (q, m) :: setCount p n rest

/-- What `shrink_sources` writes for one document: the meta once, then each source that gives up a
code, rewritten or deleted. A document without a meta is left to its delete. -/
def shrinkWrites (v : DocVectors P C) (dest : P → C → Option P) (sources : List P) :
    List (VectorWrite P C) :=
  v.postings.elim [] fun postings =>
    let changed := (shrunk v dest v.codes sources).filter fun g => g.2.length < (v.codes g.1).length
    let listed := changed.foldl (fun ps g => setCount g.1 g.2.length ps) postings
    (if listed = postings then [] else [.putMeta .vectorIndex listed]) ++
      changed.map shrinkWrite

end Moves

/-! ### Single writes -/

variable {v : DocVectors P C}

@[simp] theorem writeAll_nil : v.writeAll [] = v := rfl

@[simp] theorem writeAll_cons (w : VectorWrite P C) (ws : List (VectorWrite P C)) :
    v.writeAll (w :: ws) = (v.write w).writeAll ws := rfl

theorem writeAll_append (ws ws' : List (VectorWrite P C)) :
    v.writeAll (ws ++ ws') = (v.writeAll ws).writeAll ws' := List.foldl_append

variable {p : P}

theorem keys_write_of_ne {w : VectorWrite P C} (h : w.key? ≠ some p) :
    (v.write w).keys p = v.keys p := by
  cases w with
  | putMeta log postings => rfl
  | deleteMeta => rfl
  | putKey q codes | deleteKey log q =>
    exact update_of_ne (fun hp => h (congrArg some hp.symm)) ..

variable {ws : List (VectorWrite P C)}

theorem keys_writeAll_of_ne (h : ∀ w ∈ ws, w.key? ≠ some p) :
    (v.writeAll ws).keys p = v.keys p := by
  induction ws generalizing v with
  | nil => rfl
  | cons w ws ih =>
    obtain ⟨hw, hws⟩ := forall_mem_cons.mp h
    rw [writeAll_cons, ih hws, keys_write_of_ne hw]

omit [LinearOrder P] in
theorem holds_congr {v' : DocVectors P C} (h : v'.keys p = v.keys p) (x : C) :
    v'.Holds p x ↔ v.Holds p x := by
  unfold Holds codes
  rw [h]

omit [LinearOrder P] in
theorem holds_of_keys {codes : List C} (h : v.keys p = some codes) (x : C) :
    v.Holds p x ↔ x ∈ codes := by
  unfold Holds DocVectors.codes
  rw [h, Option.getD_some]

variable {x : C}

theorem holds_putKey {codes : List C} : (v.write (.putKey p codes)).Holds p x ↔ x ∈ codes :=
  holds_of_keys (update_self ..) x

/-! ### Codes by posting -/

variable {filed : List (P × C)}

theorem mem_filedUnder : p ∈ filedUnder filed ↔ ∃ x, (p, x) ∈ filed := by
  simp [filedUnder]

theorem nodup_filedUnder (filed : List (P × C)) : (filedUnder filed).Nodup :=
  (List.perm_insertionSort _ _).nodup_iff.mpr (List.nodup_dedup _)

theorem mem_filedAt : x ∈ filedAt filed p ↔ (p, x) ∈ filed := by
  simp [filedAt]

theorem groups_map_fst (filed : List (P × C)) : (groups filed).map Prod.fst = filedUnder filed := by
  simp [groups, Function.comp_def]

variable {g : P × List C}

theorem mem_groups : g ∈ groups filed ↔ g.1 ∈ filedUnder filed ∧ g.2 = filedAt filed g.1 := by
  constructor
  · intro h
    obtain ⟨p, hp, rfl⟩ := mem_map.mp h
    exact ⟨hp, rfl⟩
  · rintro ⟨h, h2⟩
    exact mem_map.mpr ⟨g.1, h, Prod.ext rfl h2.symm⟩

variable {gs : List (P × List C)}

/-- Put keys of different postings, in order. -/
theorem keys_writeAll_putKey (hnodup : (gs.map Prod.fst).Nodup) (hg : g ∈ gs) :
    (v.writeAll (gs.map fun g => .putKey g.1 g.2)).keys g.1 = some g.2 := by
  induction gs generalizing v with
  | nil => cases hg
  | cons a gs ih =>
    rw [map_cons, nodup_cons] at hnodup
    rw [map_cons, writeAll_cons]
    rcases mem_cons.mp hg with rfl | hg
    · rw [keys_writeAll_of_ne]
      · exact update_self ..
      · intro w hw
        obtain ⟨b, hb, rfl⟩ := mem_map.mp hw
        exact fun h => hnodup.1 (Option.some.inj h ▸ List.mem_map_of_mem hb)
    · exact ih hnodup.2 hg

/-- **An upsert** ends with every code under the posting it is filed under. -/
theorem holds_upsertWrites (h : (p, x) ∈ filed) :
    (v.writeAll (upsertWrites v filed)).Holds p x := by
  have hg : (p, filedAt filed p) ∈ groups filed := mem_groups.mpr ⟨mem_filedUnder.mpr ⟨x, h⟩, rfl⟩
  refine (holds_of_keys ?_ x).mpr (mem_filedAt.mpr h)
  unfold upsertWrites
  rw [writeAll_append, writeAll_cons]
  exact keys_writeAll_putKey (by rw [groups_map_fst]; exact nodup_filedUnder filed) hg

/-! ### Metas stay -/

theorem isSome_postings_write {w : VectorWrite P C} (hw : w.keepsMeta = true)
    (h : v.postings.isSome) : (v.write w).postings.isSome := by
  cases w with
  | deleteMeta => cases hw
  | putMeta log postings => rfl
  | putKey p codes => exact h
  | deleteKey log p => exact h

theorem isSome_postings_writeAll (hws : ∀ w ∈ ws, w.keepsMeta = true) (h : v.postings.isSome) :
    (v.writeAll ws).postings.isSome := by
  induction ws generalizing v with
  | nil => exact h
  | cons w ws ih =>
    obtain ⟨hw, hws⟩ := forall_mem_cons.mp hws
    exact ih hws (isSome_postings_write hw h)

theorem isSome_upsertWrites (filed : List (P × C)) :
    (v.writeAll (upsertWrites v filed)).postings.isSome := by
  unfold upsertWrites
  rw [writeAll_append, writeAll_cons]
  refine isSome_postings_writeAll (fun w hw => ?_) rfl
  obtain ⟨g, -, rfl⟩ := mem_map.mp hw
  rfl

/-! ### Conditions on writes, one after the other -/

/-- Each write meets the condition where it is made. -/
def Along (ok : DocVectors P C → VectorWrite P C → Prop) :
    DocVectors P C → List (VectorWrite P C) → Prop
  | _, [] => True
  | v, w :: ws => ok v w ∧ Along ok (v.write w) ws

theorem Along.append {ok : DocVectors P C → VectorWrite P C → Prop} {ws' : List (VectorWrite P C)}
    (h : Along ok v ws) (h' : Along ok (v.writeAll ws) ws') : Along ok v (ws ++ ws') := by
  induction ws generalizing v with
  | nil => exact h'
  | cons w ws ih => exact ⟨h.1, ih h.2 h'⟩

theorem Along.mono {ok ok' : DocVectors P C → VectorWrite P C → Prop} (h : Along ok v ws)
    (hok : ∀ v w, ok v w → ok' v w) : Along ok' v ws := by
  induction ws generalizing v with
  | nil => trivial
  | cons w ws ih => exact ⟨hok v w h.1, ih h.2⟩

/-- The write keeps the meta and every code. -/
structure Gains (v : DocVectors P C) (w : VectorWrite P C) : Prop where
  holds : ∀ p x, v.Holds p x → (v.write w).Holds p x
  keepsMeta : w.keepsMeta = true

private theorem along_putMeta (c : Prop) [Decidable c] (log : VectorLog) (listed : List (P × ℕ)) :
    Along Gains v (if c then [] else [.putMeta log listed]) := by
  split
  · trivial
  · exact ⟨⟨fun _ _ h => h, rfl⟩, trivial⟩

private theorem keys_putMeta (c : Prop) [Decidable c] (log : VectorLog) (listed : List (P × ℕ)) :
    (v.writeAll (if c then [] else [.putMeta log listed])).keys = v.keys := by
  split <;> rfl

variable [DecidableEq C]

omit [LinearOrder P] in
theorem mem_merged {held codes : List C} : x ∈ merged held codes ↔ x ∈ held ∨ x ∈ codes := by
  unfold merged
  rw [List.mem_append]
  constructor
  · rintro (h | h)
    · exact .inl h
    · exact .inr (List.diff_subset _ _ h)
  · rintro (h | h)
    · exact .inl h
    · by_cases hx : x ∈ held
      · exact .inl hx
      · exact .inr (List.mem_diff_of_mem h hx)

omit [DecidableEq C] in
private theorem along_putKey (hnodup : (gs.map Prod.fst).Nodup)
    (hgrown : ∀ g ∈ gs, v.codes g.1 ⊆ g.2) : Along Gains v (gs.map fun g => .putKey g.1 g.2) := by
  induction gs generalizing v with
  | nil => trivial
  | cons a gs ih =>
    rw [map_cons, nodup_cons] at hnodup
    obtain ⟨ha, hgs⟩ := forall_mem_cons.mp hgrown
    refine ⟨⟨fun p x hx => ?_, rfl⟩, ih hnodup.2 fun g hg => ?_⟩
    · by_cases hp : p = a.1
      · subst hp
        exact holds_putKey.mpr (ha hx)
      · refine (holds_congr (keys_write_of_ne fun h => hp ?_) x).mpr hx
        exact (Option.some.inj h).symm
    · -- the postings to come are not the one just written
      have hne : (VectorWrite.putKey a.1 a.2 : VectorWrite P C).key? ≠ some g.1 := fun h =>
        hnodup.1 (Option.some.inj h ▸ List.mem_map_of_mem hg)
      unfold codes
      rw [keys_write_of_ne hne]
      exact hgs g hg

private theorem nodup_grown (v : DocVectors P C) (moving : List (P × C)) :
    (((groups moving).map fun g => (g.1, merged (v.codes g.1) g.2)).map Prod.fst).Nodup := by
  rw [List.map_map]
  change ((groups moving).map Prod.fst).Nodup
  rw [groups_map_fst]
  exact nodup_filedUnder moving

/-- **A copy loses nothing on the way.** -/
theorem along_copyWrites (v : DocVectors P C) (moving : List (P × C)) :
    Along Gains v (copyWrites v moving) := by
  unfold copyWrites
  cases v.postings with
  | none => trivial
  | some postings =>
    refine (along_putMeta _ _ _).append (along_putKey ?_ fun g hg => ?_)
    · exact (nodup_grown v moving).sublist (List.filter_sublist.map _)
    · obtain ⟨a, -, rfl⟩ := mem_map.mp (mem_filter.mp hg).1
      unfold codes
      rw [keys_putMeta]
      exact fun x hx => mem_merged.mpr (.inl hx)

/-- **A copy** ends with every code at its destination. -/
theorem holds_copyWrites (hmeta : v.postings.isSome) {moving : List (P × C)} {q : P}
    (h : (q, x) ∈ moving) : (v.writeAll (copyWrites v moving)).Holds q x := by
  obtain ⟨postings, hpostings⟩ := Option.isSome_iff_exists.mp hmeta
  have hg : (q, filedAt moving q) ∈ groups moving :=
    mem_groups.mpr ⟨mem_filedUnder.mpr ⟨x, h⟩, rfl⟩
  have hx : x ∈ merged (v.codes q) (filedAt moving q) :=
    mem_merged.mpr (.inr (mem_filedAt.mpr h))
  unfold copyWrites
  rw [hpostings, Option.elim_some]
  by_cases hlt : (v.codes q).length < (merged (v.codes q) (filedAt moving q)).length
  · have hmem : (q, merged (v.codes q) (filedAt moving q)) ∈
        ((groups moving).map fun g => (g.1, merged (v.codes g.1) g.2)).filter
          fun g => (v.codes g.1).length < g.2.length :=
      mem_filter.mpr ⟨mem_map.mpr ⟨_, hg, rfl⟩, decide_eq_true hlt⟩
    refine (holds_of_keys ?_ x).mpr hx
    rw [writeAll_append]
    exact keys_writeAll_putKey ((nodup_grown v moving).sublist (List.filter_sublist.map _)) hmem
  · -- the destination holds it already
    have hheld : v.Holds q x := by
      unfold merged at hlt hx
      rw [List.length_append] at hlt
      have hnone : (filedAt moving q).diff (v.codes q) = [] :=
        List.length_eq_zero_iff.mp (by omega)
      rw [hnone, List.append_nil] at hx
      exact hx
    refine (holds_congr (keys_writeAll_of_ne fun w hw => ?_) x).mpr hheld
    rcases List.mem_append.mp hw with hw | hw
    · split at hw
      · cases hw
      · rw [List.mem_singleton.mp hw]
        nofun
    · obtain ⟨g, hg, rfl⟩ := mem_map.mp hw
      obtain ⟨hg, hlength⟩ := mem_filter.mp hg
      obtain ⟨a, ha, rfl⟩ := mem_map.mp hg
      intro hq
      obtain rfl := Option.some.inj hq
      rw [(mem_groups.mp ha).2] at hlength
      exact hlt (of_decide_eq_true hlength)

/-! ### Deletes and shrinks take no more than they may -/

/-- The write keeps the meta and the codes outside the drained posting. -/
structure Drains (drained : P) (v : DocVectors P C) (w : VectorWrite P C) : Prop where
  holds : ∀ p ≠ drained, ∀ x, v.Holds p x → (v.write w).Holds p x
  keepsMeta : w.keepsMeta = true

omit [DecidableEq C] in
/-- **A drain's deletes** touch only the drained posting. -/
theorem along_drainDeleteWrites (v : DocVectors P C) (drained : P) :
    Along (Drains drained) v (drainDeleteWrites v drained) := by
  have hkey : ∀ v : DocVectors P C, Along (Drains drained) v [.deleteKey .vectorIndex drained] := by
    refine fun v => ⟨⟨fun p hp x hx => ?_, rfl⟩, trivial⟩
    refine (holds_congr (keys_write_of_ne fun h => hp ?_) x).mpr hx
    exact (Option.some.inj h).symm
  unfold drainDeleteWrites
  split
  · split
    · exact ⟨⟨fun _ _ _ hx => hx, rfl⟩, hkey _⟩
    · exact hkey v
  · exact hkey v

/-- The code is under the posting and will stay there: it has no destination, or its destination
does not hold it. -/
structure Stays (dest : P → C → Option P) (v : DocVectors P C) (p : P) (x : C) : Prop where
  holds : v.Holds p x
  dest : ∀ q, dest p x = some q → ¬v.Holds q x

/-- The write keeps the meta and every code that stays. -/
structure Thins (dest : P → C → Option P) (v : DocVectors P C) (w : VectorWrite P C) : Prop where
  stays : ∀ p x, v.Stays dest p x → (v.write w).Stays dest p x
  keepsMeta : w.keepsMeta = true

variable {dest : P → C → Option P}

omit [LinearOrder P] [DecidableEq C] in
/-- A code that has a place has a place where it stays: its destination, if that holds it. -/
theorem exists_stays (hfinal : ∀ p x q, dest p x = some q → dest q x = none) (h : v.Holds p x) :
    ∃ q, (q = p ∨ dest p x = some q) ∧ v.Stays dest q x := by
  by_cases hq : ∃ q, dest p x = some q ∧ v.Holds q x
  · obtain ⟨q, hdest, hx⟩ := hq
    refine ⟨q, .inr hdest, hx, fun q' hq' => ?_⟩
    rw [hfinal p x q hdest] at hq'
    cases hq'
  · exact ⟨p, .inl rfl, h, fun q hdest hx => hq ⟨q, hdest, hx⟩⟩

private theorem shrink_subset (dest : C → Option P) (held : P → List C) (xs : List C) :
    (shrink dest held xs).1 ⊆ xs ∧ ∀ q, (shrink dest held xs).2 q ⊆ held q := by
  fun_induction shrink dest held xs with
  | case1 held => exact ⟨fun _ h => h, fun _ _ h => h⟩
  | case2 held x xs hdest r ih =>
    exact ⟨List.cons_subset_cons x ih.1, ih.2⟩
  | case3 held x xs q hdest hheld ih =>
    refine ⟨List.Subset.trans ih.1 (List.subset_cons_self x xs), fun q' y hy => ?_⟩
    have := ih.2 q' hy
    by_cases hq : q' = q
    · subst hq
      rw [update_self] at this
      exact List.mem_of_mem_erase this
    · rwa [update_of_ne hq] at this
  | case4 held x xs q hdest hheld r ih =>
    exact ⟨List.cons_subset_cons x ih.1, ih.2⟩

/-- A code that goes is held by its destination. -/
private theorem shrink_gone (dest : C → Option P) (held : P → List C) (xs : List C) :
    ∀ x ∈ xs, x ∉ (shrink dest held xs).1 → ∃ q, dest x = some q ∧ x ∈ held q := by
  fun_induction shrink dest held xs with
  | case1 held => nofun
  | case2 held x xs hdest r ih =>
    intro y hy hgone
    rcases mem_cons.mp hy with rfl | hy
    · exact absurd List.mem_cons_self hgone
    · exact ih y hy fun h => hgone (List.mem_cons_of_mem _ h)
  | case3 held x xs q hdest hheld ih =>
    intro y hy hgone
    rcases mem_cons.mp hy with rfl | hy
    · exact ⟨q, hdest, hheld⟩
    · obtain ⟨q', hq', hmem⟩ := ih y hy hgone
      refine ⟨q', hq', ?_⟩
      by_cases hq : q' = q
      · subst hq
        rw [update_self] at hmem
        exact List.mem_of_mem_erase hmem
      · rwa [update_of_ne hq] at hmem
  | case4 held x xs q hdest hheld r ih =>
    intro y hy hgone
    rcases mem_cons.mp hy with rfl | hy
    · exact absurd List.mem_cons_self hgone
    · exact ih y hy fun h => hgone (List.mem_cons_of_mem _ h)

/-- What may remain of a source. -/
structure Remains (dest : P → C → Option P) (v : DocVectors P C) (g : P × List C) : Prop where
  subset : g.2 ⊆ v.codes g.1
  gone : ∀ x, v.Holds g.1 x → x ∉ g.2 → ∃ q, dest g.1 x = some q ∧ v.Holds q x

private theorem shrunk_remains (v : DocVectors P C) (dest : P → C → Option P) (sources : List P)
    (held : P → List C) (hheld : ∀ q, held q ⊆ v.codes q) :
    ∀ g ∈ shrunk v dest held sources, Remains dest v g := by
  induction sources generalizing held with
  | nil => nofun
  | cons p ps ih =>
    have hsubset := shrink_subset (dest p) held (v.codes p)
    refine forall_mem_cons.mpr ⟨⟨hsubset.1, fun x hx hgone => ?_⟩, ?_⟩
    · obtain ⟨q, hq, hmem⟩ := shrink_gone (dest p) held (v.codes p) x hx hgone
      exact ⟨q, hq, hheld q hmem⟩
    · exact ih _ fun q => List.Subset.trans (hsubset.2 q) (hheld q)

private theorem shrunk_map_fst (v : DocVectors P C) (dest : P → C → Option P) (sources : List P)
    (held : P → List C) : (shrunk v dest held sources).map Prod.fst = sources := by
  induction sources generalizing held with
  | nil => rfl
  | cons p ps ih => exact congrArg (p :: ·) (ih _)

omit [LinearOrder P] [DecidableEq C] in
private theorem shrinkWrite_key (g : P × List C) : (shrinkWrite g).key? = some g.1 := by
  unfold shrinkWrite
  split <;> rfl

omit [DecidableEq C] in
private theorem holds_shrinkWrite : (v.write (shrinkWrite g)).Holds g.1 x ↔ x ∈ g.2 := by
  unfold shrinkWrite
  split
  · next h =>
    have hnone : (v.write (.deleteKey .vectorIndex g.1)).keys g.1 = none :=
      update_self ..
    unfold Holds codes
    rw [hnone, List.isEmpty_iff.mp h]
    exact Iff.rfl
  · exact holds_putKey

/-- The sources written so far gave up what they may; the others are as they were. -/
private theorem along_shrinkWrite (hfinal : ∀ p x q, dest p x = some q → dest q x = none)
    {u : DocVectors P C} (hnodup : (gs.map Prod.fst).Nodup) (hremains : ∀ g ∈ gs, Remains dest u g)
    (hsame : ∀ g ∈ gs, v.keys g.1 = u.keys g.1)
    (hkept : ∀ q x, u.Holds q x → dest q x = none → v.Holds q x) :
    Along (Thins dest) v (gs.map shrinkWrite) := by
  induction gs generalizing v with
  | nil => trivial
  | cons g gs ih =>
    rw [map_cons, nodup_cons] at hnodup
    obtain ⟨hg, hgs⟩ := forall_mem_cons.mp hremains
    obtain ⟨hsg, hsgs⟩ := forall_mem_cons.mp hsame
    have hother : ∀ p ≠ g.1, (v.write (shrinkWrite g)).keys p = v.keys p := fun p hp =>
      keys_write_of_ne (by rw [shrinkWrite_key]; exact fun h => hp (Option.some.inj h).symm)
    -- nothing is gained
    have hless : ∀ p x, (v.write (shrinkWrite g)).Holds p x → v.Holds p x := by
      intro p x hx
      by_cases hp : p = g.1
      · subst hp
        exact (holds_congr hsg x).mpr (hg.subset (holds_shrinkWrite.mp hx))
      · exact (holds_congr (hother p hp) x).mp hx
    -- what goes from the source is at its destination, which never gives it up
    have hgone : ∀ x, v.Holds g.1 x → x ∉ g.2 → ∃ q, dest g.1 x = some q ∧ v.Holds q x := by
      intro x hx hnot
      obtain ⟨q, hq, hmem⟩ := hg.gone x ((holds_congr hsg x).mp hx) hnot
      exact ⟨q, hq, hkept q x hmem (hfinal _ _ _ hq)⟩
    refine ⟨⟨fun p x hx => ⟨?_, fun q hq h => hx.dest q hq (hless q x h)⟩, ?_⟩, ih hnodup.2 hgs ?_ ?_⟩
    · by_cases hp : p = g.1
      · subst hp
        by_contra hnot
        obtain ⟨q, hq, hmem⟩ := hgone x hx.holds fun h => hnot (holds_shrinkWrite.mpr h)
        exact hx.dest q hq hmem
      · exact (holds_congr (hother p hp) x).mpr hx.holds
    · unfold shrinkWrite
      split <;> rfl
    · intro a ha
      rw [hother a.1 fun h => hnodup.1 (h ▸ List.mem_map_of_mem ha), hsgs a ha]
    · intro q x hx hnone
      by_cases hp : q = g.1
      · subst hp
        by_contra hnot
        obtain ⟨q', hq', -⟩ := hg.gone x hx fun h => hnot (holds_shrinkWrite.mpr h)
        rw [hnone] at hq'
        cases hq'
      · exact (holds_congr (hother q hp) x).mpr (hkept q x hx hnone)

/-- **A shrink** takes a code only where its destination holds it. -/
theorem along_shrinkWrites (v : DocVectors P C)
    (hfinal : ∀ p x q, dest p x = some q → dest q x = none) {sources : List P}
    (hnodup : sources.Nodup) : Along (Thins dest) v (shrinkWrites v dest sources) := by
  unfold shrinkWrites
  cases v.postings with
  | none => trivial
  | some postings =>
    rw [Option.elim_some]
    refine Along.append ?_ ?_
    · split
      · trivial
      · exact ⟨⟨fun _ _ h => ⟨h.holds, h.dest⟩, rfl⟩, trivial⟩
    · refine along_shrinkWrite hfinal (u := v) ?_ (fun g hg => ?_) (fun g _ => ?_)
        fun q x hx _ => ?_
      · refine List.Nodup.sublist (List.filter_sublist.map _) ?_
        rw [shrunk_map_fst]
        exact hnodup
      · exact shrunk_remains v dest sources v.codes (fun _ _ h => h) g (mem_filter.mp hg).1
      · rw [keys_putMeta]
      · exact (holds_congr (by rw [keys_putMeta]) x).mpr hx

end DocVectors

end Minnal
