import Minnal.Library.Bytes
import Minnal.Library.TopSelection

/-!
# The two passes of a semantic search

The first pass scores every scanned entry against every query vector, groups the entries by their
documents and keeps the best documents as candidates; the second pass scores each candidate once
and lists the best.

Grouping **sorts small keys** (`DocOrder`): a document id's first 16 bytes as one integer, its
length, and the entry's place in the scan; the ids themselves are read only where both are longer
than that and the integers tie. The sort, the partial selection around the cut and the heap of the
second pass may treat equal elements as they like: `Pass1` and `Pass2` are relations, and everything
proved holds for all they allow.

The scores are those of the estimators, here arbitrary functions into an ordered group (`Scoring`).
The outcome is that of **brute force** (`two_pass_search_exact`): a document's score is the sum over
the queries of its best code (`IsMaxSim`), the candidates and the results are the best, and where no
scores are equal neither the order of the entries nor a choice of the sorts shows. The length and
the place are cut to 32 bits, so this is for ids shorter than `2 ^ 32` bytes and at most `2 ^ 32`
entries (`long_id_joins_short_one`).
-/

set_option linter.dupNamespace false

namespace Minnal

open ByteCodec TopSelection
open List (mem_map mem_cons_self mem_of_getElem? foldl_cons length_replicate)

namespace TwoPassSearch

/-- A document id, as its bytes. -/
abbrev DocId := List UInt8

/-! ### Sort keys -/

/-- An entry's document id as a sort key: its first 16 bytes, its length and the entry's place in
the scan. -/
structure DocOrder where
  head : ℕ
  len : ℕ
  entry : ℕ
deriving DecidableEq, Repr

/-- The sort key of an entry; length and place are 32 bits wide. -/
def DocOrder.new (docId : DocId) (entry : ℕ) : DocOrder where
  head := beNat (padTake 16 docId)
  len := docId.length % 2 ^ 32
  entry := entry % 2 ^ 32

/-- The byte order of two ids. -/
def compareIds (a b : DocId) : Ordering := if a < b then .lt else if a = b then .eq else .gt

/-- The order of two keys; the ids are read only when both are longer than the heads. -/
def DocOrder.cmpBy (docIdOf : ℕ → DocId) (a b : DocOrder) : Ordering :=
  (compare a.head b.head).then <|
    if 16 < a.len ∧ 16 < b.len then compareIds (docIdOf a.entry) (docIdOf b.entry)
    else compare a.len b.len

/-! ### Scoring -/

/-- What the estimators say: the codes of a stored value if it reads, whether a code has the width
of the pass and a known centre, its similarity to a query, and the dense score of a document if it
has one. -/
structure Scoring (Q R C V E : Type*) where
  accessList : R → Option (List C)
  pass1Style : C → Bool
  usable : C → Bool
  estimate : Q → C → V
  dense : DocId → Option (V × E)

/-- One scanned entry of a posting. -/
structure ScanEntry (P R : Type*) where
  clusterId : P
  docId : DocId
  raw : R

/-- A result: a document with its dense score and the error bound of it. -/
structure QueryResult (V E : Type*) where
  documentId : DocId
  dotProduct : V
  errorBound : E
deriving DecidableEq

section Search

variable {P Q R C V E : Type*} [LinearOrder V]

/-- Keep the higher of two maxima; `⊥` stands for a query that has met no code. -/
def raise (max score : WithBot V) : WithBot V := if max < score then score else max

variable (S : Scoring Q R C V E) (queries : List Q)

/-- Score an entry into a row of one maximum for each query, or pass it over: an entry that does
not read, is empty, holds a code of another width, or none with a known centre. -/
def scorePass1Entry (raw : R) : Option (List (WithBot V)) :=
  match S.accessList raw with
  | none => none
  | some codes =>
    if codes.isEmpty then none
    else if codes.any fun code => !S.pass1Style code then none
    else
      let scored := codes.filter S.usable
      if scored.isEmpty then none
      else some <| scored.foldl
        (fun row code => List.zipWith (fun q m => raise m (S.estimate q code)) queries row)
        (queries.map fun _ => ⊥)

/-- An entry's row, if the filter lets its document through and it has a score. -/
def rowOf (docFilter : Option (DocId → Bool)) (e : ScanEntry P R) : Option (List (WithBot V)) :=
  if docFilter.any fun f => !f e.docId then none else scorePass1Entry S queries e.raw

/-- The sum of the maxima; a query that met no code counts as 0. -/
def maxsimScore [AddCommGroup V] (row : List (WithBot V)) : V :=
  (row.map fun m => m.unbotD 0).sum

variable (docFilter : Option (DocId → Bool)) (entries : List (ScanEntry P R))

/-- The id of the entry at a place of the scan. -/
def docIdOf (entry : ℕ) : DocId := (entries[entry]?.map ScanEntry.docId).getD []

/-- The row at a place of the scan. -/
def rowAt (entry : ℕ) : List (WithBot V) :=
  (entries[entry]?.bind (rowOf S queries docFilter)).getD (queries.map fun _ => ⊥)

/-- The sort keys of the entries that are kept. -/
def orders : List DocOrder :=
  (entries.zipIdx.filter fun x => (rowOf S queries docFilter x.1).isSome).map
    fun x => DocOrder.new x.1.docId x.2

/-- The element-wise maximum of a group's rows. -/
def docMaxes (group : List DocOrder) : List (WithBot V) :=
  group.foldl
    (fun maxes o => List.zipWith raise maxes (rowAt S queries docFilter entries o.entry))
    (queries.map fun _ => ⊥)

variable [AddCommGroup V]

/-- The documents of sorted keys, each as its first entry and its score. -/
def sparseRanked (order : List DocOrder) : List (ℕ × V) :=
  (chunkBy (fun a b => (a.cmpBy (docIdOf entries) b).isEq) order).filterMap fun group =>
    group.head?.map fun o => (o.entry, maxsimScore (docMaxes S queries docFilter entries group))

/-- Some order of the keys in which none stands behind a greater one. -/
def Sorted (input out : List DocOrder) : Prop :=
  out.Perm input ∧ out.Pairwise fun a b => a.cmpBy (docIdOf entries) b ≠ .gt

/-- What is left of the ranked documents after the cut: all of them, or what a partial selection
puts in front. -/
def Cut (k : ℕ) (ranked left : List (ℕ × V)) : Prop :=
  if k < ranked.length then ∃ out, Partitioned Prod.snd k ranked out ∧ left = out.take k
  else left = ranked

/-- The first pass: the ranked documents and the candidates that are passed on. -/
def Pass1 (k : ℕ) (ranked candidates : List (ℕ × V)) : Prop :=
  ∃ order, Sorted entries (orders S queries docFilter entries) order ∧
    ranked = sparseRanked S queries docFilter entries order ∧ Cut k ranked candidates

omit [LinearOrder V] [AddCommGroup V] in
/-- The documents that have a dense score, with it. -/
def scored (docIds : List DocId) : List (QueryResult V E) :=
  docIds.filterMap fun id => (S.dense id).map fun x => ⟨id, x.1, x.2⟩

omit [AddCommGroup V] in
/-- The second pass: every scored candidate is offered to a heap of the results, which is read off
in descending order. -/
def Pass2 (k : ℕ) (docIds : List DocId) (out : List (QueryResult V E)) : Prop :=
  ∃ heap, Offers QueryResult.dotProduct k [] (scored S docIds) heap ∧ out.Perm heap ∧
    out.Pairwise fun a b => b.dotProduct ≤ a.dotProduct

/-- A ranked list with the ids of its documents. -/
def documents (ranked : List (ℕ × V)) : List (DocId × V) :=
  ranked.map fun x => (docIdOf entries x.1, x.2)

/-- **A search** with a dense query of so many dimensions; without one, or without queries, nothing
is scanned. -/
def Search (dense k₁ k₂ : ℕ) (ranked candidates : List (ℕ × V)) (out : List (QueryResult V E)) :
    Prop :=
  if queries = [] ∨ dense = 0 then ranked = [] ∧ candidates = [] ∧ out = []
  else Pass1 S queries docFilter entries k₁ ranked candidates ∧
    Pass2 S k₂ (candidates.map fun x => docIdOf entries x.1) out

end Search

/-! ### The order of sort keys -/

variable {a b : DocId}

theorem beNat_padTake_lt (h : beNat (padTake 16 a) < beNat (padTake 16 b)) : a < b := by
  have hlen : (padTake 16 a).length = (padTake 16 b).length := by simp
  exact lt_of_padTake_lt ((beNat_lt_beNat_iff hlen).mp h)

theorem padTake_eq (h : beNat (padTake 16 a) = beNat (padTake 16 b)) :
    padTake 16 a = padTake 16 b := by
  have hbytes := beBytes_beNat (padTake 16 a)
  rw [h, length_padTake] at hbytes
  have hbytes' := beBytes_beNat (padTake 16 b)
  rw [length_padTake] at hbytes'
  exact hbytes.symm.trans hbytes'

/-- If the heads tie, an id that is not longer and not longer than its head starts the other. -/
theorem isPrefix_of_padTake_eq (h : padTake 16 a = padTake 16 b) (ha : a.length ≤ 16)
    (hle : a.length ≤ b.length) : a <+: b := by
  have hself := (take_padTake ha le_rfl).mpr (List.prefix_refl a)
  rw [h] at hself
  exact (take_padTake ha hle).mp hself

theorem lt_of_padTake_eq (h : padTake 16 a = padTake 16 b) (ha : a.length ≤ 16)
    (hlt : a.length < b.length) : a < b := by
  have hprefix := isPrefix_of_padTake_eq h ha hlt.le
  have hle : ¬b < a := hprefix.le
  exact lt_of_le_of_ne (not_lt.mp hle) fun heq => hlt.ne (congrArg List.length heq)

theorem compareIds_lt (h : a < b) : compareIds a b = .lt := by
  rw [compareIds, if_pos h]

theorem compareIds_gt (h : b < a) : compareIds a b = .gt := by
  rw [compareIds, if_neg h.not_gt, if_neg h.ne']

theorem compareIds_self (a : DocId) : compareIds a a = .eq := by
  rw [compareIds, if_neg (lt_irrefl a), if_pos rfl]

variable {i : ℕ}

/-- **The order of sort keys is the byte order of the ids**, whatever their lengths. -/
theorem DocOrder.cmpBy_new {j : ℕ} {docIdOf : ℕ → DocId} (ha : a.length < 2 ^ 32)
    (hb : b.length < 2 ^ 32) (hi : docIdOf (i % 2 ^ 32) = a) (hj : docIdOf (j % 2 ^ 32) = b) :
    (DocOrder.new a i).cmpBy docIdOf (DocOrder.new b j) = compareIds a b := by
  simp only [DocOrder.cmpBy, DocOrder.new, hi, hj, Nat.mod_eq_of_lt ha, Nat.mod_eq_of_lt hb]
  rcases lt_trichotomy (beNat (padTake 16 a)) (beNat (padTake 16 b)) with hlt | heq | hgt
  · rw [Nat.compare_eq_lt.mpr hlt, compareIds_lt (beNat_padTake_lt hlt)]
    rfl
  · have hpad := padTake_eq heq
    rw [Nat.compare_eq_eq.mpr heq, Ordering.then]
    split_ifs with hlong
    · rfl
    -- one of the two ids ends within the head
    · rcases lt_trichotomy a.length b.length with hlt | hlen | hgt
      · rw [Nat.compare_eq_lt.mpr hlt,
          compareIds_lt (lt_of_padTake_eq hpad (by omega) hlt)]
      · have hsame : a = b :=
          (isPrefix_of_padTake_eq hpad (by omega) hlen.le).eq_of_length hlen
        rw [hsame, Nat.compare_eq_eq.mpr rfl, compareIds_self]
      · rw [Nat.compare_eq_gt.mpr hgt,
          compareIds_gt (lt_of_padTake_eq hpad.symm (by omega) hgt)]
  · rw [Nat.compare_eq_gt.mpr hgt, compareIds_gt (beNat_padTake_lt hgt)]
    rfl

/-! ### Maxima -/

section Maxima

variable {P Q R C V E : Type*} [LinearOrder V] {c : WithBot V}

theorem raise_le_iff {m x : WithBot V} : raise m x ≤ c ↔ m ≤ c ∧ x ≤ c := by
  rw [raise]
  split_ifs with hlt
  · exact ⟨fun hx => ⟨hlt.le.trans hx, hx⟩, And.right⟩
  · exact ⟨fun hm => ⟨hm, (not_lt.mp hlt).trans hm⟩, And.left⟩

/-- The highest score of some codes, `⊥` if there are none. -/
def best (f : C → V) (codes : List C) : WithBot V := codes.foldl (fun m code => raise m (f code)) ⊥

theorem foldl_raise_le_iff {α : Type*} {f : α → WithBot V} {l : List α} {m : WithBot V} :
    l.foldl (fun m a => raise m (f a)) m ≤ c ↔ m ≤ c ∧ ∀ a ∈ l, f a ≤ c := by
  induction l generalizing m with
  | nil => simp
  | cons a l ih => rw [foldl_cons, ih, raise_le_iff, List.forall_mem_cons, and_assoc]

theorem best_le_iff {f : C → V} {codes : List C} :
    best f codes ≤ c ↔ ∀ code ∈ codes, (f code : WithBot V) ≤ c := by
  rw [best, foldl_raise_le_iff, and_iff_right bot_le]

/-- The highest of some codes is reached by one. -/
theorem best_of_ne_nil {f : C → V} {codes : List C} (h : codes ≠ []) :
    ∃ v : V, best f codes = v ∧ IsGreatest {v | ∃ code ∈ codes, f code = v} v := by
  obtain ⟨code, harg⟩ := Option.ne_none_iff_exists'.mp (mt (List.argmax_eq_none (f := f)).mp h)
  have hcode : code ∈ codes := List.argmax_mem harg
  have hmax : ∀ d ∈ codes, f d ≤ f code := fun d hd =>
    not_lt.mp (List.not_lt_of_mem_argmax hd harg)
  refine ⟨f code, ?_, ⟨code, hcode, rfl⟩, ?_⟩
  · refine eq_of_forall_ge_iff fun c => ?_
    rw [best_le_iff]
    exact ⟨fun hall => hall code hcode,
      fun hle d hd => (WithBot.coe_le_coe.mpr (hmax d hd)).trans hle⟩
  · rintro v ⟨d, hd, rfl⟩
    exact hmax d hd

theorem zipWith_map_map {α β γ δ : Type*} (f : β → γ → δ) (g : α → β) (h : α → γ) (l : List α) :
    List.zipWith f (l.map g) (l.map h) = l.map fun a => f (g a) (h a) := by
  rw [List.zipWith_map, List.zipWith_self]

end Maxima

/-! ### The score of a document -/

variable {docId : DocId}

section Documents

variable {P Q R C V E : Type*} [LinearOrder V]
variable (S : Scoring Q R C V E) (queries : List Q) (docFilter : Option (DocId → Bool))
variable (entries : List (ScanEntry P R))

/-- The codes of a stored value that are scored: none if one of them has another width. -/
def scoredCodes (raw : R) : List C :=
  match S.accessList raw with
  | none => []
  | some codes => if codes.any fun code => !S.pass1Style code then [] else codes.filter S.usable

/-- The codes an entry contributes: none if the filter stops its document. -/
def codesOf (e : ScanEntry P R) : List C :=
  if docFilter.any fun f => !f e.docId then [] else scoredCodes S e.raw

/-- **The score of a document by brute force**: the sum over the queries of the highest estimate
for any code of any of its entries. -/
def IsMaxSim [AddCommGroup V] (docId : DocId) (score : V) : Prop :=
  ∃ top : Q → V,
    (∀ q ∈ queries, IsGreatest {v | ∃ e ∈ entries, e.docId = docId ∧
      ∃ code ∈ codesOf S docFilter e, S.estimate q code = v} (top q)) ∧
    score = (queries.map top).sum

/-- The codes at a place of the scan. -/
def codesAt (entry : ℕ) : List C := (entries[entry]?.map (codesOf S docFilter)).getD []

variable {S queries docFilter entries}

theorem foldl_rows (f : Q → WithBot V) (codes : List C) :
    codes.foldl (fun row code => List.zipWith (fun q m => raise m (S.estimate q code)) queries row)
        (queries.map f) =
      queries.map fun q => codes.foldl (fun m code => raise m (S.estimate q code)) (f q) := by
  induction codes generalizing f with
  | nil => rfl
  | cons code codes ih =>
    have hrow : List.zipWith (fun q m => raise m (S.estimate q code)) queries (queries.map f) =
        queries.map fun q => raise (f q) (S.estimate q code) := by
      rw [List.zipWith_map_right, List.zipWith_self]
    rw [foldl_cons, hrow, ih]
    rfl

theorem scorePass1Entry_eq (raw : R) :
    scorePass1Entry S queries raw =
      if scoredCodes S raw = [] then none
      else some (queries.map fun q => best (S.estimate q) (scoredCodes S raw)) := by
  rw [scorePass1Entry, scoredCodes]
  cases S.accessList raw with
  | none => rfl
  | some codes =>
    simp only [List.isEmpty_iff]
    by_cases hempty : codes = []
    · subst hempty
      simp
    · rw [if_neg hempty]
      split_ifs with hstyle hnil hnone
      · rfl
      · exact absurd rfl hnil
      · rfl
      · rw [foldl_rows]
        rfl

theorem rowOf_eq (e : ScanEntry P R) :
    rowOf S queries docFilter e =
      if codesOf S docFilter e = [] then none
      else some (queries.map fun q => best (S.estimate q) (codesOf S docFilter e)) := by
  rw [rowOf, codesOf]
  split_ifs with hstop hnone hnone
  · rfl
  · exact absurd rfl hnone
  · rw [scorePass1Entry_eq, if_pos hnone]
  · rw [scorePass1Entry_eq, if_neg hnone]

theorem rowAt_eq (entry : ℕ) :
    rowAt S queries docFilter entries entry =
      queries.map fun q => best (S.estimate q) (codesAt S docFilter entries entry) := by
  rw [rowAt, codesAt]
  cases entries[entry]? with
  | none => rfl
  | some e =>
    simp only [Option.bind_some, Option.map_some, Option.getD_some, rowOf_eq]
    split_ifs with hnone
    · rw [hnone]
      rfl
    · rfl

/-- A group's maxima are those of all its codes. -/
theorem docMaxes_eq (group : List DocOrder) :
    docMaxes S queries docFilter entries group = queries.map fun q =>
      best (S.estimate q) (group.flatMap fun o => codesAt S docFilter entries o.entry) := by
  have hfold : ∀ (group : List DocOrder) (f : Q → WithBot V),
      group.foldl
          (fun maxes o => List.zipWith raise maxes (rowAt S queries docFilter entries o.entry))
          (queries.map f) =
        queries.map fun q => group.foldl (fun m o =>
          raise m (best (S.estimate q) (codesAt S docFilter entries o.entry))) (f q) := by
    intro group
    induction group with
    | nil => exact fun _ => rfl
    | cons o group ih =>
      intro f
      rw [foldl_cons, rowAt_eq, zipWith_map_map, ih]
      rfl
  rw [docMaxes, hfold]
  refine List.map_congr_left fun q _ => eq_of_forall_ge_iff fun c => ?_
  rw [foldl_raise_le_iff, and_iff_right bot_le, best_le_iff]
  simp only [best_le_iff, List.mem_flatMap]
  exact ⟨fun hall code ⟨o, ho, hcode⟩ => hall o ho code hcode,
    fun hall o ho code hcode => hall code ⟨o, ho, hcode⟩⟩

variable [AddCommGroup V]

theorem IsMaxSim.unique {s s' : V} (h : IsMaxSim S queries docFilter entries docId s)
    (h' : IsMaxSim S queries docFilter entries docId s') : s = s' := by
  obtain ⟨top, htop, rfl⟩ := h
  obtain ⟨top', htop', rfl⟩ := h'
  rw [List.map_congr_left fun q hq => (htop q hq).unique (htop' q hq)]

/-- The order of the entries does not matter to a document's score. -/
theorem IsMaxSim.perm {entries' : List (ScanEntry P R)} (hperm : entries.Perm entries') {s : V}
    (h : IsMaxSim S queries docFilter entries docId s) :
    IsMaxSim S queries docFilter entries' docId s := by
  obtain ⟨top, htop, rfl⟩ := h
  refine ⟨top, fun q hq => ?_, rfl⟩
  have hgreatest := htop q hq
  simp only [hperm.mem_iff] at hgreatest
  exact hgreatest

/-- The score computed from the codes of a document is its score by brute force. -/
theorem isMaxSim_maxsimScore {codes : List C} (hne : codes ≠ []) (hcodes : ∀ code, code ∈ codes ↔
      ∃ e ∈ entries, e.docId = docId ∧ code ∈ codesOf S docFilter e) :
    IsMaxSim S queries docFilter entries docId
      (maxsimScore (queries.map fun q => best (S.estimate q) codes)) := by
  choose top htop hgreatest using fun q => best_of_ne_nil (f := S.estimate q) hne
  refine ⟨top, fun q _ => ?_, ?_⟩
  · have hset : {v | ∃ e ∈ entries, e.docId = docId ∧
        ∃ code ∈ codesOf S docFilter e, S.estimate q code = v} =
          {v | ∃ code ∈ codes, S.estimate q code = v} := by
      ext v
      constructor
      · rintro ⟨e, he, hid, code, hcode, hv⟩
        exact ⟨code, (hcodes code).mpr ⟨e, he, hid, hcode⟩, hv⟩
      · rintro ⟨code, hcode, hv⟩
        obtain ⟨e, he, hid, hcode⟩ := (hcodes code).mp hcode
        exact ⟨e, he, hid, code, hcode, hv⟩
    rw [hset]
    exact hgreatest q
  · simp only [maxsimScore, htop, List.map_map]
    rfl

end Documents

/-! ### Grouping -/

section Grouping

variable {P Q R C V E : Type*} [LinearOrder V]
variable {S : Scoring Q R C V E} {queries : List Q} {docFilter : Option (DocId → Bool)}
variable {entries : List (ScanEntry P R)} {e : ScanEntry P R}

theorem docIdOf_of_getElem? (h : entries[i]? = some e) : docIdOf entries i = e.docId := by
  rw [docIdOf, h, Option.map_some, Option.getD_some]

omit [LinearOrder V] in
theorem codesAt_of_getElem? (h : entries[i]? = some e) :
    codesAt S docFilter entries i = codesOf S docFilter e := by
  rw [codesAt, h, Option.map_some, Option.getD_some]

theorem place_mod (hcount : entries.length ≤ 2 ^ 32) (h : entries[i]? = some e) :
    i % 2 ^ 32 = i := by
  obtain ⟨hi, -⟩ := List.getElem?_eq_some_iff.mp h
  exact Nat.mod_eq_of_lt (by omega)

/-- The sort keys are those of the entries that have codes. -/
theorem mem_orders {o : DocOrder} :
    o ∈ orders S queries docFilter entries ↔ ∃ i e, entries[i]? = some e ∧
      codesOf S docFilter e ≠ [] ∧ o = DocOrder.new e.docId i := by
  simp only [orders, mem_map, List.mem_filter, Prod.exists, List.mem_zipIdx_iff_getElem?,
    rowOf_eq]
  constructor
  · rintro ⟨e, i, ⟨he, hsome⟩, rfl⟩
    refine ⟨i, e, he, fun hnone => ?_, rfl⟩
    rw [if_pos hnone] at hsome
    exact absurd hsome (by simp)
  · rintro ⟨i, e, he, hne, rfl⟩
    exact ⟨e, i, ⟨he, by rw [if_neg hne]; rfl⟩, rfl⟩

variable (hids : ∀ e ∈ entries, e.docId.length < 2 ^ 32) (hcount : entries.length ≤ 2 ^ 32)
include hids hcount

/-- Two sort keys compare as their documents' ids. -/
theorem cmpBy_orders {a b : DocOrder} (ha : a ∈ orders S queries docFilter entries)
    (hb : b ∈ orders S queries docFilter entries) :
    a.cmpBy (docIdOf entries) b =
      compareIds (docIdOf entries a.entry) (docIdOf entries b.entry) := by
  obtain ⟨i, e, he, -, rfl⟩ := mem_orders.mp ha
  obtain ⟨j, d, hd, -, rfl⟩ := mem_orders.mp hb
  have hi : docIdOf entries (i % 2 ^ 32) = e.docId := by
    rw [place_mod hcount he, docIdOf_of_getElem? he]
  have hj : docIdOf entries (j % 2 ^ 32) = d.docId := by
    rw [place_mod hcount hd, docIdOf_of_getElem? hd]
  rw [DocOrder.cmpBy_new (hids e (mem_of_getElem? he)) (hids d (mem_of_getElem? hd)) hi
    hj]
  exact (congrArg₂ compareIds hi hj).symm

variable {order : List DocOrder}
  (hsorted : Sorted entries (orders S queries docFilter entries) order)
include hsorted

theorem Sorted.pairwise_le :
    order.Pairwise fun a b => docIdOf entries a.entry ≤ docIdOf entries b.entry := by
  obtain ⟨hperm, hle⟩ := hsorted
  refine hle.imp_of_mem fun ha hb hcmp => ?_
  rw [cmpBy_orders hids hcount (hperm.subset ha) (hperm.subset hb)] at hcmp
  exact not_lt.mp fun hlt => hcmp (compareIds_gt hlt)

theorem Sorted.same_iff : ∀ a ∈ order, ∀ b ∈ order,
    (a.cmpBy (docIdOf entries) b).isEq = true ↔
      docIdOf entries a.entry = docIdOf entries b.entry := by
  intro a ha b hb
  rw [cmpBy_orders hids hcount (hsorted.1.subset ha) (hsorted.1.subset hb)]
  rcases lt_trichotomy (docIdOf entries a.entry) (docIdOf entries b.entry) with hlt | heq | hgt
  · rw [compareIds_lt hlt]
    exact ⟨fun h => absurd h (by decide), fun h => absurd h hlt.ne⟩
  · rw [heq, compareIds_self]
    exact ⟨fun _ => rfl, fun _ => rfl⟩
  · rw [compareIds_gt hgt]
    exact ⟨fun h => absurd h (by decide), fun h => absurd h hgt.ne'⟩

variable [AddCommGroup V]

omit hids hcount hsorted in
theorem mem_sparseRanked {x : ℕ × V} :
    x ∈ sparseRanked S queries docFilter entries order ↔ ∃ o g,
      o :: g ∈ chunkBy (fun a b => (a.cmpBy (docIdOf entries) b).isEq) order ∧
      x = (o.entry, maxsimScore (docMaxes S queries docFilter entries (o :: g))) := by
  rw [sparseRanked, List.mem_filterMap]
  constructor
  · rintro ⟨group, hgroup, hx⟩
    cases group with
    | nil => simp at hx
    | cons o g => exact ⟨o, g, hgroup, (Option.some.inj hx).symm⟩
  · rintro ⟨o, g, hgroup, rfl⟩
    exact ⟨o :: g, hgroup, rfl⟩

/-- Every ranked document has its score. -/
theorem isMaxSim_of_mem {x : ℕ × V} (hx : x ∈ sparseRanked S queries docFilter entries order) :
    IsMaxSim S queries docFilter entries (docIdOf entries x.1) x.2 := by
  obtain ⟨o, g, hgroup, rfl⟩ := mem_sparseRanked.mp hx
  have hmem : ∀ b, b ∈ o :: g ↔ b ∈ order ∧ docIdOf entries b.entry = docIdOf entries o.entry :=
    fun b => mem_chunk_iff (fun o : DocOrder => docIdOf entries o.entry)
      (hsorted.same_iff hids hcount) (hsorted.pairwise_le hids hcount) hgroup mem_cons_self
  -- the codes of the group are those of the entries of its document
  have hcodes : ∀ code, code ∈ (o :: g).flatMap (fun o => codesAt S docFilter entries o.entry) ↔
      ∃ e ∈ entries, e.docId = docIdOf entries o.entry ∧ code ∈ codesOf S docFilter e := by
    intro code
    rw [List.mem_flatMap]
    constructor
    · rintro ⟨b, hb, hcode⟩
      obtain ⟨hin, hid⟩ := (hmem b).mp hb
      obtain ⟨i, e, he, -, rfl⟩ := mem_orders.mp (hsorted.1.subset hin)
      have hplace : (DocOrder.new e.docId i).entry = i := place_mod hcount he
      rw [hplace] at hid hcode
      rw [docIdOf_of_getElem? he] at hid
      rw [codesAt_of_getElem? he] at hcode
      exact ⟨e, mem_of_getElem? he, hid, hcode⟩
    · rintro ⟨e, he, hid, hcode⟩
      obtain ⟨i, he⟩ := List.mem_iff_getElem?.mp he
      have hplace : (DocOrder.new e.docId i).entry = i := place_mod hcount he
      have hin : DocOrder.new e.docId i ∈ order := hsorted.1.symm.subset
        (mem_orders.mpr ⟨i, e, he, List.ne_nil_of_mem hcode, rfl⟩)
      refine ⟨DocOrder.new e.docId i, (hmem _).mpr ⟨hin, ?_⟩, ?_⟩
      · rw [hplace, docIdOf_of_getElem? he, hid]
      · rw [hplace, codesAt_of_getElem? he]
        exact hcode
  have hne : (o :: g).flatMap (fun o => codesAt S docFilter entries o.entry) ≠ [] := by
    obtain ⟨hin, -⟩ := (hmem o).mp mem_cons_self
    obtain ⟨i, e, he, hsome, rfl⟩ := mem_orders.mp (hsorted.1.subset hin)
    have hplace : (DocOrder.new e.docId i).entry = i := place_mod hcount he
    rw [List.flatMap_cons, hplace, codesAt_of_getElem? he]
    exact fun hnil => hsome (List.append_eq_nil_iff.mp hnil).1
  simp only [docMaxes_eq]
  exact isMaxSim_maxsimScore hne hcodes

/-- The ranked documents are those of the entries that have codes. -/
theorem mem_documents_iff :
    docId ∈ (documents entries (sparseRanked S queries docFilter entries order)).map Prod.fst ↔
      ∃ e ∈ entries, e.docId = docId ∧ codesOf S docFilter e ≠ [] := by
  obtain ⟨hflat, hgroups, -⟩ := chunkBy_spec (fun o : DocOrder => docIdOf entries o.entry)
    (hsorted.same_iff hids hcount) (hsorted.pairwise_le hids hcount)
  rw [documents, List.map_map, mem_map]
  constructor
  · rintro ⟨x, hx, rfl⟩
    obtain ⟨o, g, hgroup, rfl⟩ := mem_sparseRanked.mp hx
    have hin : o ∈ order := hflat ▸ List.mem_flatten.mpr ⟨o :: g, hgroup, mem_cons_self⟩
    obtain ⟨i, e, he, hne, rfl⟩ := mem_orders.mp (hsorted.1.subset hin)
    have hplace : (DocOrder.new e.docId i).entry = i := place_mod hcount he
    refine ⟨e, mem_of_getElem? he, ?_, hne⟩
    simp only [Function.comp_apply, hplace, docIdOf_of_getElem? he]
  · rintro ⟨e, he, rfl, hne⟩
    obtain ⟨i, he⟩ := List.mem_iff_getElem?.mp he
    have hplace : (DocOrder.new e.docId i).entry = i := place_mod hcount he
    have hin : DocOrder.new e.docId i ∈ order :=
      hsorted.1.symm.subset (mem_orders.mpr ⟨i, e, he, hne, rfl⟩)
    rw [← hflat] at hin
    obtain ⟨group, hgroup, hmem⟩ := List.mem_flatten.mp hin
    obtain ⟨hsome, hkey⟩ := hgroups group hgroup
    obtain ⟨o, g, rfl⟩ := List.exists_cons_of_ne_nil hsome
    refine ⟨_, mem_sparseRanked.mpr ⟨o, g, hgroup, rfl⟩, ?_⟩
    have hsame := hkey o mem_cons_self _ hmem
    rw [hplace, docIdOf_of_getElem? he] at hsame
    exact hsame

/-- No document is ranked twice. -/
theorem nodup_documents :
    ((documents entries (sparseRanked S queries docFilter entries order)).map Prod.fst).Nodup := by
  obtain ⟨-, -, hpairs⟩ := chunkBy_spec (fun o : DocOrder => docIdOf entries o.entry)
    (hsorted.same_iff hids hcount) (hsorted.pairwise_le hids hcount)
  rw [documents, List.map_map, sparseRanked, List.map_filterMap, List.Nodup,
    List.pairwise_filterMap]
  refine hpairs.imp fun {g g'} hlt id hid id' hid' => ?_
  cases g with
  | nil => simp at hid
  | cons o g =>
    cases g' with
    | nil => simp at hid'
    | cons o' g' =>
      obtain rfl := Option.some.inj hid
      obtain rfl := Option.some.inj hid'
      exact (hlt o mem_cons_self o' mem_cons_self).ne

end Grouping

/-! ### Both passes -/

section Outcome

variable {P Q R C V E : Type*} [LinearOrder V]
variable {S : Scoring Q R C V E} {queries : List Q} {docFilter : Option (DocId → Bool)}
variable {entries : List (ScanEntry P R)} {k : ℕ} {ranked candidates : List (ℕ × V)}

theorem Cut.isTop (h : Cut k ranked candidates) : IsTop Prod.snd k ranked candidates := by
  rw [Cut] at h
  split_ifs at h with hmany
  · obtain ⟨out, hout, rfl⟩ := h
    exact hout.isTop hmany
  · rw [h]
    exact isTop_all (not_lt.mp hmany)

/-- The candidates are the best of the ranked documents. -/
theorem Cut.isTop_documents (h : Cut k ranked candidates) :
    IsTop Prod.snd k (documents entries ranked) (documents entries candidates) :=
  IsTop.map h.isTop

theorem nodup_of_isTop {all chosen : List (DocId × V)} (h : IsTop Prod.snd k all chosen)
    (hall : (all.map Prod.fst).Nodup) : (chosen.map Prod.fst).Nodup := by
  obtain ⟨rest, hperm, -⟩ := h
  have hnodup := (hperm.map Prod.fst).nodup_iff.mpr hall
  rw [List.map_append] at hnodup
  exact (List.nodup_append.mp hnodup).1

omit [LinearOrder V] in
theorem nodup_scored {docIds : List DocId} (h : docIds.Nodup) :
    ((scored S docIds).map QueryResult.documentId).Nodup := by
  rw [scored, List.map_filterMap, List.Nodup, List.pairwise_filterMap]
  refine h.imp fun {a b} hne id hid id' hid' => ?_
  simp only [Option.map_map, Option.map_eq_some_iff] at hid hid'
  obtain ⟨x, -, rfl⟩ := hid
  obtain ⟨y, -, rfl⟩ := hid'
  exact hne

/-- **The second pass** lists the best of the scored candidates in descending order. -/
theorem Pass2.spec {docIds : List DocId} {out : List (QueryResult V E)} (h : Pass2 S k docIds out)
    (hnodup : docIds.Nodup) :
    IsTop QueryResult.dotProduct k (scored S docIds) out ∧
      (out.Pairwise fun a b => b.dotProduct ≤ a.dotProduct) ∧
      (out.map QueryResult.documentId).Nodup := by
  obtain ⟨heap, hoffers, hperm, hdesc⟩ := h
  have hnone : IsTop QueryResult.dotProduct k ([] : List (QueryResult V E)) [] :=
    isTop_all (Nat.zero_le k)
  have hoffered : ((scored S docIds).reverse ++ []).Perm (scored S docIds) := by
    rw [List.append_nil]
    exact List.reverse_perm _
  have htop := (hoffers.isTop hnone).of_perm hoffered
  refine ⟨htop.congr hperm, hdesc, ?_⟩
  obtain ⟨rest, hall, -⟩ := htop.congr hperm
  have hids := (hall.map QueryResult.documentId).nodup_iff.mpr (nodup_scored hnodup)
  rw [List.map_append] at hids
  exact (List.nodup_append.mp hids).1

variable [AddCommGroup V]

/-- **The first pass** ranks every document that has a code once, with its score. -/
theorem Pass1.spec (h : Pass1 S queries docFilter entries k ranked candidates)
    (hids : ∀ e ∈ entries, e.docId.length < 2 ^ 32) (hcount : entries.length ≤ 2 ^ 32) :
    ((documents entries ranked).map Prod.fst).Nodup ∧
      (∀ docId, docId ∈ (documents entries ranked).map Prod.fst ↔
        ∃ e ∈ entries, e.docId = docId ∧ codesOf S docFilter e ≠ []) ∧
      (∀ x ∈ documents entries ranked, IsMaxSim S queries docFilter entries x.1 x.2) ∧
      IsTop Prod.snd k (documents entries ranked) (documents entries candidates) := by
  obtain ⟨order, hsorted, rfl, hcut⟩ := h
  refine ⟨nodup_documents hids hcount hsorted, fun _ => mem_documents_iff hids hcount hsorted,
    fun x hx => ?_, hcut.isTop_documents⟩
  obtain ⟨y, hy, rfl⟩ := mem_map.mp hx
  exact isMaxSim_of_mem hids hcount hsorted hy

/-- Two scans of the same entries rank the same documents. -/
theorem Pass1.documents_perm {entries' : List (ScanEntry P R)} (hperm : entries.Perm entries')
    (hids : ∀ e ∈ entries, e.docId.length < 2 ^ 32) (hcount : entries.length ≤ 2 ^ 32) {k' : ℕ}
    {ranked' candidates' : List (ℕ × V)}
    (h : Pass1 S queries docFilter entries k ranked candidates)
    (h' : Pass1 S queries docFilter entries' k' ranked' candidates') :
    (documents entries ranked).Perm (documents entries' ranked') := by
  obtain ⟨hnodup, hmem, hscore, -⟩ := h.spec hids hcount
  obtain ⟨hnodup', hmem', hscore', -⟩ := h'.spec (fun e he => hids e (hperm.symm.subset he))
    (hperm.length_eq ▸ hcount)
  have hsame : ∀ docId, docId ∈ (documents entries ranked).map Prod.fst ↔
      docId ∈ (documents entries' ranked').map Prod.fst := by
    intro docId
    rw [hmem, hmem']
    simp only [hperm.mem_iff]
  refine (List.perm_ext_iff_of_nodup hnodup.of_map hnodup'.of_map).mpr fun x => ⟨fun hx => ?_,
    fun hx => ?_⟩
  · obtain ⟨y, hy, hid⟩ := mem_map.mp ((hsame x.1).mp (List.mem_map_of_mem hx))
    have hscores := hscore' y hy
    rw [hid] at hscores
    rwa [show x = y from Prod.ext hid.symm (((hscore x hx).perm hperm).unique hscores)]
  · obtain ⟨y, hy, hid⟩ := mem_map.mp ((hsame x.1).mpr (List.mem_map_of_mem hx))
    have hscores := hscore y hy
    rw [hid] at hscores
    rwa [show x = y from Prod.ext hid.symm ((hscore' x hx).unique (hscores.perm hperm))]

end Outcome

section Results

variable {P Q R C V E : Type*} [LinearOrder V] [AddCommGroup V]

/-- **The search is brute force.** Every document with a code that is let through is ranked once,
with the sum over the queries of the best estimate for any of its codes; the candidates are the
best `k₁` of them; the results are the best `k₂` of the candidates that have a dense score, each
once and in descending order. Where no two scores are equal, the results do not depend on the order
of the entries, nor on how equal elements are sorted, selected or kept. -/
theorem two_pass_search_exact {S : Scoring Q R C V E} {queries : List Q}
    {docFilter : Option (DocId → Bool)} {entries : List (ScanEntry P R)}
    (hids : ∀ e ∈ entries, e.docId.length < 2 ^ 32) (hcount : entries.length ≤ 2 ^ 32)
    {dense k₁ k₂ : ℕ} {ranked candidates : List (ℕ × V)} {out : List (QueryResult V E)}
    (h : Search S queries docFilter entries dense k₁ k₂ ranked candidates out) :
    (queries = [] ∨ dense = 0 → out = []) ∧ (queries ≠ [] → dense ≠ 0 →
      let ranking := documents entries ranked
      let chosen := documents entries candidates
      (ranking.map Prod.fst).Nodup ∧
        (∀ docId, docId ∈ ranking.map Prod.fst ↔
          ∃ e ∈ entries, e.docId = docId ∧ codesOf S docFilter e ≠ []) ∧
        (∀ x ∈ ranking, IsMaxSim S queries docFilter entries x.1 x.2) ∧
        IsTop Prod.snd k₁ ranking chosen ∧
        IsTop QueryResult.dotProduct k₂ (scored S (chosen.map Prod.fst)) out ∧
        (out.Pairwise fun a b => b.dotProduct ≤ a.dotProduct) ∧
        (out.map QueryResult.documentId).Nodup ∧
        ∀ entries' ranked' candidates' out', entries.Perm entries' →
          Search S queries docFilter entries' dense k₁ k₂ ranked' candidates' out' →
          (∀ x ∈ ranking, ∀ y ∈ ranking, x.2 = y.2 → x = y) →
          (∀ a ∈ scored S (chosen.map Prod.fst), ∀ b ∈ scored S (chosen.map Prod.fst),
            a.dotProduct = b.dotProduct → a = b) → out' = out) := by
  refine ⟨fun hnone => ?_, fun hq hd => ?_⟩
  · rw [Search, if_pos hnone] at h
    exact h.2.2
  have hsome : ¬(queries = [] ∨ dense = 0) := by
    rintro (hnil | hzero)
    · exact hq hnil
    · exact hd hzero
  rw [Search, if_neg hsome] at h
  obtain ⟨hpass1, hpass2⟩ := h
  obtain ⟨hnodup, hmem, hscore, htop⟩ := hpass1.spec hids hcount
  have hchosen : (candidates.map fun x => docIdOf entries x.1) =
      (documents entries candidates).map Prod.fst := by
    rw [documents, List.map_map]
    rfl
  rw [hchosen] at hpass2
  obtain ⟨hresults, hdesc, honce⟩ := hpass2.spec (nodup_of_isTop htop hnodup)
  refine ⟨hnodup, hmem, hscore, htop, hresults, hdesc, honce, ?_⟩
  intro entries' ranked' candidates' out' hperm h' hsparse hdense
  rw [Search, if_neg hsome] at h'
  obtain ⟨hpass1', hpass2'⟩ := h'
  obtain ⟨hnodup', -, -, htop'⟩ := hpass1'.spec (fun e he => hids e (hperm.symm.subset he))
    (hperm.length_eq ▸ hcount)
  have hchosen' : (candidates'.map fun x => docIdOf entries' x.1) =
      (documents entries' candidates').map Prod.fst := by
    rw [documents, List.map_map]
    rfl
  rw [hchosen'] at hpass2'
  obtain ⟨hresults', hdesc', -⟩ := hpass2'.spec (nodup_of_isTop htop' hnodup')
  -- the same candidates are passed on, and the same of them are listed
  have hcandidates := htop.perm htop' (hpass1.documents_perm hperm hids hcount hpass1')
    hnodup.of_map hsparse
  have hscored : (scored S ((documents entries candidates).map Prod.fst)).Perm
      (scored S ((documents entries' candidates').map Prod.fst)) :=
    (hcandidates.map Prod.fst).filterMap _
  have hsame := hresults.perm hresults' hscored
    (nodup_scored (nodup_of_isTop htop hnodup)).of_map hdense
  exact (eq_of_descending hsame hdesc hdesc'
    fun a ha b hb => hdense a (hresults.subset ha) b (hresults.subset hb)).symm

/-- Estimates that multiply; every document has its length as dense score. -/
def products : Scoring ℤ (List ℤ) ℤ ℤ ℕ where
  accessList raw := some raw
  pass1Style _ := true
  usable code := decide (code ≠ 0)
  estimate q code := q * code
  dense id := some (id.length, 0)

/-- Two entries of one document, and one of another. -/
def threeEntries : List (ScanEntry ℕ (List ℤ)) := [⟨1, [5], [3]⟩, ⟨1, [7], [4]⟩, ⟨2, [5], [-2]⟩]

theorem two_pass_search_exact_three :
    (∀ e ∈ threeEntries, e.docId.length < 2 ^ 32) ∧ threeEntries.length ≤ 2 ^ 32 ∧
      Search products [1, -1] none threeEntries 1 1 1 [(0, 5), (1, 0)] [(0, 5)] [⟨[5], 1, 0⟩] ∧
      ∀ x ∈ documents threeEntries [(0, 5), (1, 0)],
        IsMaxSim products [1, -1] none threeEntries x.1 x.2 := by
  have hids : ∀ e ∈ threeEntries, e.docId.length < 2 ^ 32 := by decide
  have hcount : threeEntries.length ≤ 2 ^ 32 := by decide
  have hpass1 : Pass1 products [1, -1] none threeEntries 1 [(0, 5), (1, 0)] [(0, 5)] := by
    refine ⟨[⟨5 * 256 ^ 15, 1, 0⟩, ⟨5 * 256 ^ 15, 1, 2⟩, ⟨7 * 256 ^ 15, 1, 1⟩], ⟨?_, ?_⟩, ?_, ?_⟩
    · decide +kernel
    · decide +kernel
    · decide +kernel
    · exact ⟨[(0, 5), (1, 0)], ⟨.refl _, by decide +kernel⟩, rfl⟩
  have hpass2 : Pass2 products 1 [[5]] [⟨[5], 1, 0⟩] :=
    ⟨[⟨[5], 1, 0⟩], .cons (.push (by decide)) .nil, .refl _, by decide +kernel⟩
  have hsearch : Search products [1, -1] none threeEntries 1 1 1 [(0, 5), (1, 0)] [(0, 5)]
      [⟨[5], 1, 0⟩] := ⟨hpass1, hpass2⟩
  exact ⟨hids, hcount, hsearch,
    ((two_pass_search_exact hids hcount hsearch).2 (by decide) (by decide)).2.2.1⟩

/-- Everything scores 0. -/
def zeros : Scoring Unit Unit Unit ℤ Unit where
  accessList _ := some [()]
  pass1Style _ := true
  usable _ := true
  estimate _ _ := 0
  dense _ := some (0, ())

theorem beNat_padTake_zeros (n : ℕ) : beNat (padTake 16 (List.replicate n 0)) = 0 := by
  have hzeros : padTake 16 (List.replicate n 0) = List.replicate 16 0 := by
    rw [padTake, List.take_replicate, length_replicate, List.replicate_append_replicate]
    congr 1
    omega
  rw [hzeros]
  decide

/-- **An id whose length is cut to that of a shorter one** is grouped with it: of two documents only
one is ranked and listed. -/
theorem long_id_joins_short_one :
    let short : DocId := List.replicate 3 0
    let long : DocId := List.replicate (2 ^ 32 + 3) 0
    let entries : List (ScanEntry ℕ Unit) := [⟨1, short, ()⟩, ⟨1, long, ()⟩]
    short ≠ long ∧ Search zeros [()] none entries 1 2 2 [(0, 0)] [(0, 0)] [⟨short, 0, ()⟩] := by
  intro short long entries
  refine ⟨fun heq => ?_, ?_, ?_⟩
  · have hlen := congrArg List.length heq
    simp only [short, long, length_replicate] at hlen
    omega
  · refine ⟨[⟨0, 3, 0⟩, ⟨0, 3, 1⟩], ⟨?_, ?_⟩, rfl, rfl⟩
    · have horders : orders zeros [()] none entries =
          [DocOrder.new short 0, DocOrder.new long 1] := rfl
      rw [horders, DocOrder.new, DocOrder.new, beNat_padTake_zeros, beNat_padTake_zeros,
        length_replicate, length_replicate]
      exact .refl _
    · exact List.pairwise_pair.mpr (by decide)
  · exact ⟨[⟨short, 0, ()⟩], .cons (.push (by decide)) .nil, .refl _, List.pairwise_singleton _ _⟩

end Results

end TwoPassSearch

end Minnal
