import Minnal.Db.ScanPages
import Minnal.DocStore.TypedKeys
import Minnal.Library.PrefixRanges

/-!
# Scans over typed keys

A scan of a typed store reads a range of keys, or the keys with a prefix, page by page. The prefix
becomes a range (`prefix_upper_bound`), the client's cursor is kept from reaching below it
(`clamp_cursor`), the engine reads a page, and each key and value of the page is decoded.

A scan sees a store as the list of its entries in ascending order (`Contents`), and returns the page
of that list at the cursor, **whatever** the cursor is. So following the cursor visits each entry of
the range once (`Scans`).
-/

set_option linter.dupNamespace false

namespace Minnal

namespace TypedKeys

open ByteCodec KVStore ValueLog SortedMap Checks PrefixRanges

variable {K V : Type}

/-! ### Scans -/

structure CursorPage (T : Type) where
  results : List T
  next_cursor : Option Key

/-- The loop of `prefix_upper_bound`, from the last byte on. -/
def raiseLast : List UInt8 → Option (List UInt8)
  | [] => none
  | last :: rest => if last ≠ 0xff then some (rest.reverse ++ [last + 1]) else raiseLast rest

/-- The smallest key above every key with the prefix, if there is one. -/
def prefix_upper_bound (pre : List UInt8) : Option (List UInt8) := raiseLast pre.reverse

/-- Where a scan from `start` on resumes: never before `start`. -/
def clamp_cursor (cursor : Option Key) (start : Key) : Key :=
  match cursor with
  | some c => if start < c then c else start
  | none => start

inductive ScanError where
  | Key (e : KeyError)
  | Value (e : String)
  | Engine (e : KVError)

/-- An entry of a page, from its bytes. -/
def decodeEntry (decode : Key → Except KeyError K) (parse : Bytes → Except String V)
    (pair : KeyValue) : Except ScanError (K × V) := do
  let key ← (decode pair.1).mapError .Key
  let value ← (parse pair.2).mapError .Value
  return (key, value)

/-- The body that the scans share: a page of `[start, stop)` from the cursor on. -/
def scanTyped (c : Crates) (g : Grouping) (decode : Key → Except KeyError K)
    (parse : Bytes → Except String V) (s : KVStore) (start : Key) (stop cursor : Option Key)
    (limit : UInt64) : Except ScanError (CursorPage (K × V)) := do
  let page ← (scanPageBatch c s s s g (some (clamp_cursor cursor start)) stop limit).mapError
    .Engine
  let results ← page.1.mapM (decodeEntry decode parse)
  return ⟨results, page.2⟩

section Stores

variable (c : Crates) (g : Grouping)

/-- The documents whose ids are in `[start, stop)`. -/
def scan_range (key_type : KeyType) (parse : Bytes → Except String V) (s : KVStore) (start : DocId)
    (stop : Option DocId) (cursor : Option Key) (limit : UInt64) :
    Except ScanError (CursorPage (DocId × V)) :=
  scanTyped c g (DocId.from_bytes · key_type) parse s start.to_bytes (stop.map DocId.to_bytes)
    cursor limit

/-- The documents whose keys begin with the bytes. -/
def scan_prefix (key_type : KeyType) (parse : Bytes → Except String V) (s : KVStore)
    (pre : List UInt8) (cursor : Option Key) (limit : UInt64) :
    Except ScanError (CursorPage (DocId × V)) :=
  scanTyped c g (DocId.from_bytes · key_type) parse s pre (prefix_upper_bound pre) cursor limit

/-- The entries of a key-value store with keys in `[start, stop)`. -/
def kv_scan_range (key_type : KvKeyType) (parse : Bytes → Except String V) (s : KVStore)
    (start : String) (stop : Option String) (cursor : Option Key) (limit : UInt64) :
    Except ScanError (CursorPage (JsonValue × V)) := do
  let start_bytes ← (key_type.serialize_key_from_str start).mapError .Key
  let end_bytes ← (stop.mapM key_type.serialize_key_from_str).mapError .Key
  scanTyped c g key_type.deserialize_key parse s start_bytes end_bytes cursor limit

/-- The entries of a key-value store whose keys begin with the bytes of a key. -/
def kv_scan_prefix (key_type : KvKeyType) (parse : Bytes → Except String V) (s : KVStore)
    (pre : String) (cursor : Option Key) (limit : UInt64) :
    Except ScanError (CursorPage (JsonValue × V)) := do
  let prefix_bytes ← (key_type.serialize_key_from_str pre).mapError .Key
  scanTyped c g key_type.deserialize_key parse s prefix_bytes (prefix_upper_bound prefix_bytes)
    cursor limit

end Stores

/-! ### Bounds -/

/-- **The range of a prefix**: no key with the prefix is missed, and no other is in it. -/
theorem prefix_range_iff (pre key : Key) :
    inRange pre (prefix_upper_bound pre) key = true ↔ pre <+: key := by
  rw [inRange_iff]
  induction pre using List.reverseRecOn with
  | nil => exact iff_of_true ⟨nil_le key, nofun⟩ List.nil_prefix
  | append_singleton pre b ih =>
    have hbound : prefix_upper_bound (pre ++ [b]) =
        if b ≠ 0xff then some (pre ++ [b + 1]) else prefix_upper_bound pre := by
      rw [prefix_upper_bound, List.reverse_append, List.reverse_singleton, List.singleton_append,
        raiseLast, List.reverse_reverse]
      rfl
    by_cases hb : b = 0xff
    · subst hb
      rw [hbound, if_neg (not_not.mpr rfl)]
      constructor
      · rintro ⟨hle, hbelow⟩
        have hpre : pre <+: key :=
          ih.mp ⟨(le_of_isPrefix (List.prefix_append pre _)).trans hle, hbelow⟩
        exact (between_snoc_max_iff hpre).mp hle
      · intro hkey
        have hpre : pre <+: key := (List.prefix_append pre _).trans hkey
        exact ⟨(between_snoc_max_iff hpre).mpr hkey, (ih.mpr hpre).2⟩
    · rw [hbound, if_pos hb, ← between_snoc_iff pre hb]
      simp [below]

variable {key : Key}

/-- A clamped cursor is at or below a key exactly when the start and the cursor are. -/
theorem clamp_cursor_le_iff {cursor : Option Key} {start : Key} :
    clamp_cursor cursor start ≤ key ↔ start ≤ key ∧ ∀ k ∈ cursor, k ≤ key := by
  cases cursor with
  | none => simp [clamp_cursor]
  | some k =>
    rw [clamp_cursor]
    simp only [Option.mem_def, Option.some.injEq, forall_eq']
    split_ifs with h
    · exact ⟨fun hk => ⟨h.le.trans hk, hk⟩, fun hk => hk.2⟩
    · exact ⟨fun hk => ⟨hk, (not_lt.mp h).trans hk⟩, fun hk => hk.1⟩

/-- What a clamped cursor leaves of the entries below the end. -/
theorem fromCursor_clamp {α : Type} (key : α → Key) (cursor : Option Key) (start : Key)
    (stop : Option Key) (l : List α) :
    fromCursor key (some (clamp_cursor cursor start))
        (l.filter fun a => stop.all fun e => decide (key a < e)) =
      fromCursor key cursor (l.filter fun a => inRange start stop (key a)) := by
  rw [fromCursor, fromCursor, List.filter_filter, List.filter_filter]
  refine List.filter_congr fun a _ => ?_
  have hclamp : decide (clamp_cursor cursor start ≤ key a) =
      (decide (start ≤ key a) && cursor.all fun k => decide (k ≤ key a)) := by
    rw [Bool.eq_iff_iff]
    simp [clamp_cursor_le_iff, Option.all_eq_true]
  simp only [Option.all_some, hclamp, inRange]
  ac_rfl

/-! ### What a store holds -/

/-- How keys are stored: a decoder, and the bytes it reads a key from. -/
structure KeyCodec (K : Type) where
  bytes : K → Key
  decode : Key → Except KeyError K
  bytes_of_decode : ∀ {key k}, decode key = .ok k → bytes k = key

/-- The ids of a document store. -/
def docCodec (key_type : KeyType) : KeyCodec DocId where
  bytes := DocId.to_bytes
  decode := (DocId.from_bytes · key_type)
  bytes_of_decode h := (DocId.from_bytes_eq_ok.mp h).2

/-- The bytes of a JSON key, by its own type. -/
def jsonBytes : JsonValue → Key
  | .string s => ByteReads.utf8 s
  | .integer n => encode_int_key (Int64.ofInt n)
  | .other => []

variable {key_type : KvKeyType}

theorem jsonBytes_of_deserialize {k : JsonValue} (h : key_type.deserialize_key key = .ok k) :
    jsonBytes k = key := by
  cases key_type with
  | Str =>
    simp only [KvKeyType.deserialize_key] at h
    split at h
    · cases h
    · rename_i s hs
      obtain rfl := Except.ok.inj h
      exact ByteReads.utf8_of_fromUtf8 hs
  | Int =>
    simp only [KvKeyType.deserialize_key] at h
    split_ifs at h with hlen
    obtain rfl := Except.ok.inj h
    rw [jsonBytes, Int64.ofInt_toInt]
    exact encode_int_key_eq_iff.mpr ⟨hlen, rfl⟩

/-- The keys of a key-value store. -/
def kvCodec (key_type : KvKeyType) : KeyCodec JsonValue where
  bytes := jsonBytes
  decode := key_type.deserialize_key
  bytes_of_decode := jsonBytes_of_deserialize

/-- **A typed store**: its live keys are keys of the type, and their values can be read. -/
structure Typed (c : Crates) (codec : KeyCodec K) (parse : Bytes → Except String V) (s : KVStore) :
    Prop where
  stored : s.Stored c
  typed : ∀ key v, s.get c key = .ok (some v) → ∃ k x, codec.decode key = .ok k ∧ parse v = .ok x

/-- **The entries of a store**, in the order of their bytes. -/
structure Contents (c : Crates) (codec : KeyCodec K) (parse : Bytes → Except String V)
    (s : KVStore) (rows : List (K × V)) : Prop where
  ascending : Ascending (fun row => codec.bytes row.1) rows
  /-- Each is live in the store, under the bytes that read as its key. -/
  live : ∀ row ∈ rows, codec.decode (codec.bytes row.1) = .ok row.1 ∧
    ∃ v, s.get c (codec.bytes row.1) = .ok (some v) ∧ parse v = .ok row.2
  /-- And nothing else is. -/
  all : ∀ key v, s.get c key = .ok (some v) → ∃ row ∈ rows, codec.bytes row.1 = key

variable {limit : UInt64} {rows : List (K × V)} {T : Type}

section Scan

variable {c : Crates} {codec : KeyCodec K} {parse : Bytes → Except String V} {s : KVStore}

/-- A live pair of the store with what it decodes to. -/
structure Entry (c : Crates) (codec : KeyCodec K) (parse : Bytes → Except String V)
    (s : KVStore) where
  pair : KeyValue
  row : K × V
  live : s.get c pair.1 = .ok (some pair.2)
  decode : codec.decode pair.1 = .ok row.1
  parse : parse pair.2 = .ok row.2

namespace Entry

theorem bytes_eq (q : Entry c codec parse s) : codec.bytes q.row.1 = q.pair.1 :=
  codec.bytes_of_decode q.decode

theorem decodeEntry_eq (q : Entry c codec parse s) :
    decodeEntry codec.decode parse q.pair = .ok q.row := by
  rw [decodeEntry, q.decode, q.parse]
  rfl

/-- The entries of a page are decoded one by one. -/
theorem mapM_decodeEntry (l : List (Entry c codec parse s)) :
    (l.map Entry.pair).mapM (decodeEntry codec.decode parse) = .ok (l.map Entry.row) := by
  induction l with
  | nil => rfl
  | cons q l ih =>
    rw [List.map_cons, List.mapM_cons, q.decodeEntry_eq, ih]
    rfl

/-- The entry behind a row. -/
theorem exists_of_mem {rows : List (K × V)} (h : Contents c codec parse s rows) {row : K × V}
    (hrow : row ∈ rows) : row ∈ Set.range (Entry.row : Entry c codec parse s → K × V) := by
  obtain ⟨hdecode, v, hget, hparse⟩ := h.live row hrow
  exact ⟨⟨(codec.bytes row.1, v), row, hget, hdecode, hparse⟩, rfl⟩

end Entry

/-- **Every typed store has its entries.** -/
theorem Typed.exists_contents (h : Typed c codec parse s) :
    ∃ rows, Contents c codec parse s rows := by
  obtain ⟨pairs, hasc, hlive⟩ := h.stored.exists_pairs none
  have hpairs : ∀ key v, (key, v) ∈ pairs ↔ s.get c key = .ok (some v) := by
    intro key v
    rw [hlive]
    exact and_iff_right (by simp [below])
  have hrange : pairs ∈ Set.range (List.map (Entry.pair : Entry c codec parse s → KeyValue)) := by
    rw [Set.range_list_map]
    rintro ⟨key, v⟩ hin
    have hget := (hpairs key v).mp hin
    obtain ⟨k, x, hk, hx⟩ := h.typed key v hget
    exact ⟨⟨(key, v), (k, x), hget, hk, hx⟩, rfl⟩
  obtain ⟨entries, rfl⟩ := hrange
  refine ⟨entries.map Entry.row, ?_, fun row hrow => ?_, fun key v hget => ?_⟩
  · refine List.pairwise_map.mpr ((List.pairwise_map.mp hasc).imp fun {a b} hab => ?_)
    change codec.bytes a.row.1 < codec.bytes b.row.1
    rw [a.bytes_eq, b.bytes_eq]
    exact hab
  · obtain ⟨q, -, rfl⟩ := List.mem_map.mp hrow
    rw [q.bytes_eq]
    exact ⟨q.decode, _, q.live, q.parse⟩
  · obtain ⟨q, hq, hpair⟩ := List.mem_map.mp ((hpairs key v).mpr hget)
    exact ⟨q.row, List.mem_map_of_mem hq, by rw [q.bytes_eq, hpair]⟩

/-- **One page**: what the store has in the range from the cursor on. -/
theorem Contents.scanTyped_eq (h : Contents c codec parse s rows) (hs : s.Stored c) (g : Grouping)
    (hlimit : limit ≠ usizeMax) (start : Key) (stop cursor : Option Key) :
    scanTyped c g codec.decode parse s start stop cursor limit =
      let page := pageAt (fun row => codec.bytes row.1) (max limit 1).toNat cursor
        (rows.filter fun row => inRange start stop (codec.bytes row.1))
      .ok ⟨page.1, page.2⟩ := by
  have hrange : rows ∈ Set.range (List.map (Entry.row : Entry c codec parse s → K × V)) := by
    rw [Set.range_list_map]
    exact fun row hrow => Entry.exists_of_mem h hrow
  obtain ⟨entries, rfl⟩ := hrange
  -- the live pairs below the end
  have hasc : Ascending Prod.fst ((entries.filter fun q => stop.all fun e =>
      decide (q.pair.1 < e)).map Entry.pair) := by
    have hrows := h.ascending
    rw [Ascending, List.pairwise_map] at hrows
    simp only [Entry.bytes_eq] at hrows
    exact List.pairwise_map.mpr (hrows.filter _)
  have hmem : ∀ key v, (key, v) ∈ (entries.filter fun q => stop.all fun e =>
      decide (q.pair.1 < e)).map Entry.pair ↔ below stop key ∧ s.get c key = .ok (some v) := by
    intro key v
    rw [List.mem_map]
    constructor
    · rintro ⟨q, hq, hpair⟩
      obtain ⟨-, hbelow⟩ := List.mem_filter.mp hq
      have hlive := q.live
      rw [hpair] at hlive hbelow
      exact ⟨by simpa [below, Option.all_eq_true] using hbelow, hlive⟩
    · rintro ⟨hbelow, hget⟩
      obtain ⟨row, hrow, hbytes⟩ := h.all key v hget
      obtain ⟨q, hq, rfl⟩ := List.mem_map.mp hrow
      rw [q.bytes_eq] at hbytes
      have hlive := q.live
      rw [hbytes, hget] at hlive
      refine ⟨q, List.mem_filter.mpr ⟨hq, ?_⟩, ?_⟩
      · rw [hbytes]
        simpa [below, Option.all_eq_true] using hbelow
      · exact Prod.ext hbytes (Option.some.inj (Except.ok.inj hlive)).symm
  have hpage := hs.scanPageBatch_eq g hlimit hasc hmem (some (clamp_cursor cursor start))
  rw [pageAt_map] at hpage
  rw [scanTyped, hpage]
  dsimp only [Except.mapError]
  rw [ok_bind, Entry.mapM_decodeEntry, ok_bind, List.filter_map, pageAt_map]
  have hrows := fromCursor_clamp (fun q : Entry c codec parse s => q.pair.1) cursor start stop
    entries
  simp only [pageAt, Function.comp_def, Entry.bytes_eq] at hrows ⊢
  rw [hrows]
  rfl

/-! ### Walks -/

/-- Follow the cursor for up to `calls` calls: the pages, and whether the end was reached. -/
def followScan {T : Type} (scan : Option Key → Except ScanError (CursorPage T)) :
    ℕ → Option Key → Except ScanError (List (List T) × Bool)
  | 0, _ => .ok ([], false)
  | calls + 1, cursor =>
    match scan cursor with
    | .error e => .error e
    | .ok ⟨results, none⟩ => .ok ([results], true)
    | .ok ⟨results, some next⟩ =>
      (followScan scan calls (some next)).map fun r => (results :: r.1, r.2)

/-- **What a scan of the rows promises**: whatever the cursor is, the page has the first rows from
it on, and following the cursor visits all of them, each once. A limit of 0 counts as 1. -/
structure Scans {T : Type} (key : T → Key) (scan : Option Key → Except ScanError (CursorPage T))
    (limit : UInt64) (rows : List T) : Prop where
  page : ∀ cursor, scan cursor = .ok
    ⟨(fromCursor key cursor rows).take (max limit 1).toNat,
      (fromCursor key cursor rows)[(max limit 1).toNat]?.map key⟩
  walk : ∀ cursor, ∃ calls pages, followScan scan calls cursor = .ok (pages, true) ∧
    pages.flatten = fromCursor key cursor rows

/-- Following the cursor of a scan is following it over the rows. -/
theorem followScan_eq {key : T → Key} {scan : Option Key → Except ScanError (CursorPage T)} {n : ℕ}
    {rows : List T} (hpage : ∀ cursor, scan cursor =
      .ok ⟨(pageAt key n cursor rows).1, (pageAt key n cursor rows).2⟩) (calls : ℕ)
    (cursor : Option Key) :
    followScan scan calls cursor = .ok (follow key n cursor (List.replicate calls rows)) := by
  induction calls generalizing cursor with
  | zero => rfl
  | succ calls ih =>
    rw [followScan, hpage, List.replicate_succ]
    cases hnext : (pageAt key n cursor rows).2 with
    | none => rw [follow, hnext]
    | some next =>
      rw [follow_of_some hnext]
      dsimp only
      rw [ih]
      rfl

/-- A scan whose every page is right walks right. -/
theorem scans_of_page {key : T → Key} {scan : Option Key → Except ScanError (CursorPage T)}
    {rows : List T} (hrows : Ascending key rows)
    (hpage : ∀ cursor, scan cursor = .ok ⟨(pageAt key (max limit 1).toNat cursor rows).1,
      (pageAt key (max limit 1).toNat cursor rows).2⟩) : Scans key scan limit rows where
  page := hpage
  walk cursor := by
    obtain ⟨hdone, hflat⟩ :=
      follow_replicate hrows (page_pos limit) cursor (Nat.lt_succ_self rows.length)
    refine ⟨_, _, (followScan_eq hpage (rows.length + 1) cursor).trans ?_, hflat⟩
    exact congrArg Except.ok (Prod.ext rfl hdone)

/-- **A range**, of any type of keys. -/
theorem Contents.scans (h : Contents c codec parse s rows) (hs : s.Stored c) (g : Grouping)
    (hlimit : limit ≠ usizeMax) (start : Key) (stop : Option Key) :
    Scans (fun row => codec.bytes row.1)
      (fun cursor => scanTyped c g codec.decode parse s start stop cursor limit) limit
      (rows.filter fun row => inRange start stop (codec.bytes row.1)) :=
  scans_of_page (h.ascending.filter _) fun cursor => h.scanTyped_eq hs g hlimit start stop cursor

end Scan

/-! ### Typed stores -/

/-- **The encodings embed the keys**: they are read back, and compare as the keys do. -/
structure KeysEmbed : Prop where
  doc_inverse : ∀ id : DocId, DocId.from_bytes id.to_bytes id.key_type = .ok id
  doc_injective : ∀ a b : DocId, a.key_type = b.key_type → a.to_bytes = b.to_bytes → a = b
  doc_order : ∀ a b : DocId, a.key_type = b.key_type → (a.to_bytes < b.to_bytes ↔ a.Before b)
  kv_inverse : ∀ (key_type : KvKeyType) (key : JsonValue) (bytes : List UInt8),
    key_type.serialize_key key = .ok bytes → key_type.deserialize_key bytes = .ok key
  kv_injective : ∀ (key_type : KvKeyType) (a b : JsonValue) (bytes : List UInt8),
    key_type.serialize_key a = .ok bytes → key_type.serialize_key b = .ok bytes → a = b
  kv_order : ∀ (key_type : KvKeyType) (a b : JsonValue) (x y : List UInt8),
    key_type.serialize_key a = .ok x → key_type.serialize_key b = .ok y → (x < y ↔ a.Before b)

theorem keysEmbed : KeysEmbed where
  doc_inverse := DocId.from_bytes_to_bytes
  doc_injective _ _ := DocId.to_bytes_inj
  doc_order _ _ := DocId.to_bytes_lt_iff
  kv_inverse _ _ _ := KvKeyType.deserialize_serialize
  kv_injective _ _ _ _ := KvKeyType.serialize_key_inj
  kv_order _ _ _ _ _ := KvKeyType.serialize_key_lt_iff

section TypedStores

variable {c : Crates} {parse : Bytes → Except String V} {s : KVStore}

/-- The documents of a store are in the order of their ids. -/
theorem Contents.ids_ascending {key_type : KeyType} {docs : List (DocId × V)}
    (h : Contents c (docCodec key_type) parse s docs) :
    docs.Pairwise fun a b => a.1.Before b.1 := by
  refine h.ascending.imp_of_mem fun {a b} ha hb hab => ?_
  obtain ⟨hatype, -⟩ := DocId.from_bytes_eq_ok.mp (h.live a ha).1
  obtain ⟨hbtype, -⟩ := DocId.from_bytes_eq_ok.mp (h.live b hb).1
  exact (DocId.to_bytes_lt_iff (hatype.trans hbtype.symm)).mp hab

/-- Keys that were read back compare as their bytes. -/
theorem before_of_jsonBytes_lt {a b : JsonValue}
    (ha : key_type.deserialize_key (jsonBytes a) = .ok a)
    (hb : key_type.deserialize_key (jsonBytes b) = .ok b) (hlt : jsonBytes a < jsonBytes b) :
    a.Before b := by
  cases key_type with
  | Str =>
    have hform : ∀ k : JsonValue, KvKeyType.Str.deserialize_key (jsonBytes k) = .ok k →
        ∃ t, k = .string t := by
      intro k hk
      simp only [KvKeyType.deserialize_key] at hk
      split at hk
      · cases hk
      · exact ⟨_, (Except.ok.inj hk).symm⟩
    obtain ⟨t, rfl⟩ := hform a ha
    obtain ⟨u, rfl⟩ := hform b hb
    exact hlt
  | Int =>
    have hform : ∀ k : JsonValue, KvKeyType.Int.deserialize_key (jsonBytes k) = .ok k →
        ∃ n : Int64, k = .integer n.toInt := by
      intro k hk
      simp only [KvKeyType.deserialize_key] at hk
      split_ifs at hk
      exact ⟨_, (Except.ok.inj hk).symm⟩
    obtain ⟨m, rfl⟩ := hform a ha
    obtain ⟨n, rfl⟩ := hform b hb
    rw [jsonBytes, jsonBytes, Int64.ofInt_toInt, Int64.ofInt_toInt, encode_int_key_lt_iff,
      Int64.lt_iff_toInt_lt] at hlt
    exact hlt

/-- The entries of a key-value store are in the order of their keys. -/
theorem Contents.keys_ascending {rows : List (JsonValue × V)}
    (h : Contents c (kvCodec key_type) parse s rows) : rows.Pairwise fun a b => a.1.Before b.1 :=
  h.ascending.imp_of_mem fun {a b} ha hb hab =>
    before_of_jsonBytes_lt (h.live a ha).1 (h.live b hb).1 hab

end TypedStores

/-- **Typed keys scan in key order**, for every limit but the largest. The encodings embed the keys.
A document store has its documents in the order of their ids, and so has a key-value store its
entries; a scan of a range or of a prefix reads those in the range, or with the prefix, that are at
or after the client's cursor, page by page. -/
theorem typed_keys_scan_in_order {limit : UInt64} (hlimit : limit ≠ usizeMax) (c : Crates)
    (g : Grouping) :
    KeysEmbed ∧
    (∀ (key_type : KeyType) (V : Type) (parse : Bytes → Except String V) (s : KVStore),
      Typed c (docCodec key_type) parse s → ∃ docs : List (DocId × V),
        Contents c (docCodec key_type) parse s docs ∧
        (docs.Pairwise fun a b => a.1.Before b.1) ∧
        (∀ (start : DocId) (stop : Option DocId), Scans (fun doc => doc.1.to_bytes)
          (fun cursor => scan_range c g key_type parse s start stop cursor limit) limit
          (docs.filter fun doc =>
            inRange start.to_bytes (stop.map DocId.to_bytes) doc.1.to_bytes)) ∧
        ∀ pre : List UInt8, Scans (fun doc => doc.1.to_bytes)
          (fun cursor => scan_prefix c g key_type parse s pre cursor limit) limit
          (docs.filter fun doc => pre.isPrefixOf doc.1.to_bytes)) ∧
    ∀ (key_type : KvKeyType) (V : Type) (parse : Bytes → Except String V) (s : KVStore),
      Typed c (kvCodec key_type) parse s → ∃ rows : List (JsonValue × V),
        Contents c (kvCodec key_type) parse s rows ∧
        (rows.Pairwise fun a b => a.1.Before b.1) ∧
        (∀ (start : String) (stop : Option String) (x : Key) (y : Option Key),
          key_type.serialize_key_from_str start = .ok x →
          stop.mapM key_type.serialize_key_from_str = .ok y →
          Scans (fun row => jsonBytes row.1)
            (fun cursor => kv_scan_range c g key_type parse s start stop cursor limit) limit
            (rows.filter fun row => inRange x y (jsonBytes row.1))) ∧
        ∀ (pre : String) (x : Key), key_type.serialize_key_from_str pre = .ok x →
          Scans (fun row => jsonBytes row.1)
            (fun cursor => kv_scan_prefix c g key_type parse s pre cursor limit) limit
            (rows.filter fun row => x.isPrefixOf (jsonBytes row.1)) := by
  have hbegins : ∀ pre key : Key,
      pre.isPrefixOf key = inRange pre (prefix_upper_bound pre) key := by
    intro pre key
    rw [Bool.eq_iff_iff, prefix_range_iff, List.isPrefixOf_iff_prefix]
  refine ⟨keysEmbed, fun key_type V parse s h => ?_, fun key_type V parse s h => ?_⟩
  · obtain ⟨docs, hdocs⟩ := h.exists_contents
    refine ⟨docs, hdocs, hdocs.ids_ascending, fun start stop => ?_, fun pre => ?_⟩
    · exact hdocs.scans h.stored g hlimit start.to_bytes (stop.map DocId.to_bytes)
    · simp only [hbegins]
      exact hdocs.scans h.stored g hlimit pre (prefix_upper_bound pre)
  · obtain ⟨rows, hrows⟩ := h.exists_contents
    refine ⟨rows, hrows, hrows.keys_ascending, fun start stop x y hx hy => ?_, fun pre x hx => ?_⟩
    · simp only [kv_scan_range, hx, hy, Except.mapError, ok_bind]
      exact hrows.scans h.stored g hlimit x y
    · simp only [ kv_scan_prefix, hx, Except.mapError, ok_bind, hbegins]
      exact hrows.scans h.stored g hlimit x (prefix_upper_bound x)

/-! ### A small store -/

/-- Documents that are a digit, as JSON. -/
def parseDigit (v : Bytes) : Except String ℕ :=
  match v with
  | [b] => if 0x30 ≤ b ∧ b ≤ 0x39 then .ok (b.toNat - 0x30) else .error "expected value"
  | _ => .error "expected value"

def keyA : StrKey := ⟨[0x61], by decide, by decide, by decide +kernel⟩

def keyB : StrKey := ⟨[0x62], by decide, by decide, by decide +kernel⟩

/-- A store with the documents `1` under the key `a` and `2` under `b`. -/
def twoDigits : KVStore :=
  (StepRun.run (step .real) oneBucket
    [.putToStorageSeq [0x61] [0x31] 1 0, .putToStorageSeq [0x62] [0x32] 2 0]).get
      (by decide +kernel)

theorem stored_twoDigits : twoDigits.Stored .real :=
  stored_run (@stored_empty .real .oneBucket (by decide) 65536 newLog rfl) (by decide +kernel)
    (Option.some_get _).symm

theorem typed_twoDigits : Typed .real (docCodec .Str) parseDigit twoDigits where
  stored := stored_twoDigits
  typed key v hget := by
    obtain ⟨pairs, hasc, hlive⟩ := stored_twoDigits.exists_pairs none
    have hlimit : (2 : UInt64) ≠ usizeMax := by decide
    have hpage := stored_twoDigits.scanPageBatch_eq .inOrder hlimit hasc hlive none
    have hscan : scanPageBatch .real twoDigits twoDigits twoDigits .inOrder none none 2 =
        .ok ([([0x61], [0x31]), ([0x62], [0x32])], none) := by decide +kernel
    have hread := Except.ok.inj (hpage.symm.trans hscan)
    have hall := pageAt_of_none (congrArg Prod.snd hread)
    rw [hread, fromCursor_none] at hall
    have hin : (key, v) ∈ pairs := (hlive key v).mpr ⟨by simp [below], hget⟩
    rw [← hall] at hin
    rcases List.mem_cons.mp hin with h | h
    · obtain ⟨rfl, rfl⟩ := Prod.mk.inj h
      exact ⟨.Str keyA, 1, DocId.from_bytes_to_bytes (.Str keyA), by decide⟩
    · obtain ⟨rfl, rfl⟩ := Prod.mk.inj (List.mem_singleton.mp h)
      exact ⟨.Str keyB, 2, DocId.from_bytes_to_bytes (.Str keyB), by decide⟩

/-- The two documents, one on each page. -/
theorem typed_keys_scan_in_order_twoDigits :
    ∃ docs : List (DocId × ℕ), Contents .real (docCodec .Str) parseDigit twoDigits docs ∧
      Scans (fun doc => doc.1.to_bytes)
        (fun cursor => scan_prefix .real .inOrder .Str parseDigit twoDigits [] cursor 1) 1
        (docs.filter fun doc => List.isPrefixOf [] doc.1.to_bytes) := by
  have hlimit : (1 : UInt64) ≠ usizeMax := by decide
  obtain ⟨docs, hdocs, -, -, hscans⟩ :=
    (typed_keys_scan_in_order hlimit .real .inOrder).2.1 .Str ℕ parseDigit twoDigits typed_twoDigits
  exact ⟨docs, hdocs, hscans []⟩

/-- **A limit of 0 counts as 1**: the page holds a document, where the first 0 are none. -/
theorem scan_prefix_limit_zero :
    Typed .real (docCodec .Str) parseDigit twoDigits ∧
      ∃ page, scan_prefix .real .inOrder .Str parseDigit twoDigits [] none 0 = .ok page ∧
        page.results.length = 1 ∧ page.next_cursor = some [0x62] := by
  refine ⟨typed_twoDigits, ?_⟩
  have hscan : (match scan_prefix .real .inOrder .Str parseDigit twoDigits [] none 0 with
      | .ok page => decide (page.results.length = 1 ∧ page.next_cursor = some [0x62])
      | .error _ => false) = true := by decide +kernel
  split at hscan
  · rename_i page hpage
    exact ⟨page, hpage, of_decide_eq_true hscan⟩
  · cases hscan

end TypedKeys

end Minnal
