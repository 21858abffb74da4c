import Minnal.Vector.StoredFormats

/-!
# The stored formats are read back

Every decoder of the vector index reads what its encoder wrote, reads each earlier format as itself,
and stays within the bytes it is given. There is one exception: the encoders write a count or a
length into **fewer bytes** than it may need. A meta of 65536 postings is written with the count
0 and no decoder takes it, and a namespace of 65536 bytes is written into a key that reads back as
another one.
-/

set_option linter.dupNamespace false

namespace Minnal

namespace StoredFormats

open ByteCodec Checks ByteReads
open List (length_append append_assoc map_id length_cons map_map)

/-! ### Metas -/

variable {β : Type}

/-- The loop reads the postings back where they stand. -/
theorem readPostings_eq {width : ℕ} {encode : β → List UInt8} {value : β → UInt32 × UInt32}
    (hwidth : ∀ b, (encode b).length = width)
    (hread : ∀ (pre : List UInt8) (b : β) (rest : List UInt8),
      readBe (pre ++ (encode b ++ rest)) pre.length (pre.length + 4) = .ok (value b).1.toNat ∧
      readChunks (pre ++ (encode b ++ rest)) width pre.length = .ok (value b).2.toNat)
    (pre : List UInt8) (l : List β) :
    readPostings (pre ++ l.flatMap encode) width l.length pre.length = .ok (l.map value) := by
  induction l generalizing pre with
  | nil => rfl
  | cons b l ih =>
    obtain ⟨hid, hchunks⟩ := hread pre b (l.flatMap encode)
    have hrest := ih (pre ++ encode b)
    rw [append_assoc, length_append, hwidth] at hrest
    rw [List.flatMap_cons, length_cons, readPostings, hid, ok_bind, hchunks, ok_bind, hrest]
    simp

/-- A meta of `n` postings that are written one after another. -/
def metaOf {β : Type} (encode : β → List UInt8) (text_hash : UInt64) (l : List β) : List UInt8 :=
  beBytes 8 text_hash.toNat ++ (beBytes 2 l.length ++ l.flatMap encode)

variable {n : ℕ}

/-- What the decoder does after the header. -/
theorem decode_sparse_meta_header (text_hash : UInt64) (hn : n < 2 ^ 16) (body : List UInt8) :
    decode_sparse_meta (beBytes 8 text_hash.toNat ++ (beBytes 2 n ++ body)) = (do
      let width ← postingWidth body.length n
      let postings ← readPostings (beBytes 8 text_hash.toNat ++ (beBytes 2 n ++ body)) width n 10
      return ⟨text_hash, postings⟩) := by
  have hlen : (beBytes 8 text_hash.toNat ++ (beBytes 2 n ++ body)).length = 10 + body.length := by
    simp
    omega
  have hhash : readBe (beBytes 8 text_hash.toNat ++ (beBytes 2 n ++ body)) 0 8 =
      .ok text_hash.toNat :=
    readBe_beBytes [] _ (text_hash.toNat_lt.trans_eq (by decide : 2 ^ 64 = 256 ^ 8)) rfl rfl
  have hcount : readBe (beBytes 8 text_hash.toNat ++ (beBytes 2 n ++ body)) 8 10 = .ok n :=
    readBe_beBytes _ _ (by omega) (length_beBytes 8 _).symm (by rw [length_beBytes])
  have hshort : refuse ((beBytes 8 text_hash.toNat ++ (beBytes 2 n ++ body)).length < 10)
      Stop.absent = .ok () := refuse_neg (by omega)
  rw [decode_sparse_meta, hshort, ok_bind, hhash, ok_bind, hcount, ok_bind, hlen,
    Nat.add_sub_cancel_left, UInt64.ofNat_toNat]

variable {w : ℕ}

theorem postingWidth_eq (hn : n ≠ 0) (hw : w = 8 ∨ w = 6 ∨ w = 4) :
    postingWidth (n * w) n = .ok w := by
  rw [postingWidth]
  rcases hw with rfl | rfl | rfl
  · rw [if_pos rfl]
  · rw [if_neg (by omega), if_pos rfl]
  · rw [if_neg (by omega), if_neg (by omega), if_pos rfl]

/-- **A meta is read in the format it was written in.** -/
theorem decode_metaOf (encode : β → List UInt8) (value : β → UInt32 × UInt32)
    (hw : w = 8 ∨ w = 6 ∨ w = 4) (hwidth : ∀ b, (encode b).length = w)
    (hread : ∀ (pre : List UInt8) (b : β) (rest : List UInt8),
      readBe (pre ++ (encode b ++ rest)) pre.length (pre.length + 4) = .ok (value b).1.toNat ∧
      readChunks (pre ++ (encode b ++ rest)) w pre.length = .ok (value b).2.toNat)
    (text_hash : UInt64) {l : List β} (hl : l.length < 2 ^ 16) :
    decode_sparse_meta (metaOf encode text_hash l) = .ok ⟨text_hash, l.map value⟩ := by
  rw [metaOf, decode_sparse_meta_header text_hash hl, length_flatMap_const hwidth]
  by_cases hempty : l.length = 0
  · obtain rfl := List.length_eq_zero_iff.mp hempty
    rw [List.length_nil, Nat.zero_mul]
    rfl
  · have hpostings := readPostings_eq hwidth hread
      (beBytes 8 text_hash.toNat ++ beBytes 2 l.length) l
    rw [append_assoc, length_append, length_beBytes, length_beBytes] at hpostings
    rw [postingWidth_eq hempty hw, ok_bind, hpostings]
    rfl

variable {postings : List (UInt32 × UInt32)}

/-- A meta of the current form. -/
theorem decode_meta_current (text_hash : UInt64) (h : postings.length < 2 ^ 16) :
    decode_sparse_meta (encode_sparse_meta text_hash postings) = .ok ⟨text_hash, postings⟩ := by
  have hread : ∀ (pre : List UInt8) (p : UInt32 × UInt32) (rest : List UInt8),
      readBe (pre ++ (beBytes 4 p.1.toNat ++ beBytes 4 p.2.toNat ++ rest)) pre.length
        (pre.length + 4) = .ok p.1.toNat ∧
      readChunks (pre ++ (beBytes 4 p.1.toNat ++ beBytes 4 p.2.toNat ++ rest)) 8 pre.length =
        .ok p.2.toNat := by
    intro pre p rest
    constructor
    · rw [append_assoc]
      exact readBe_beBytes pre _ p.1.toNat_lt rfl rfl
    · have hsplit : pre ++ (beBytes 4 p.1.toNat ++ beBytes 4 p.2.toNat ++ rest) =
          (pre ++ beBytes 4 p.1.toNat) ++ (beBytes 4 p.2.toNat ++ rest) := by
        simp only [append_assoc]
      rw [readChunks, if_pos rfl, hsplit]
      exact readBe_beBytes _ _ p.2.toNat_lt (by simp) (by simp)
  have hmeta := decode_metaOf _ id (.inl rfl) (fun p => by simp) hread text_hash h
  rw [map_id, metaOf] at hmeta
  rw [encode_sparse_meta, Nat.mod_eq_of_lt h]
  exact hmeta

/-- The form with chunk counts of two bytes. -/
def metaWithCounts16 : UInt64 → List (UInt32 × UInt16) → List UInt8 :=
  metaOf fun p => beBytes 4 p.1.toNat ++ beBytes 2 p.2.toNat

/-- The form without chunk counts. -/
def metaWithoutCounts : UInt64 → List UInt32 → List UInt8 := metaOf fun id => beBytes 4 id.toNat

theorem decode_meta_counts16 (text_hash : UInt64) {postings : List (UInt32 × UInt16)}
    (h : postings.length < 2 ^ 16) :
    decode_sparse_meta (metaWithCounts16 text_hash postings) =
      .ok ⟨text_hash, postings.map fun p => (p.1, p.2.toUInt32)⟩ := by
  refine decode_metaOf _ _ (.inr (.inl rfl)) (fun p => by simp) ?_ text_hash h
  intro pre p rest
  constructor
  · rw [append_assoc]
    exact readBe_beBytes pre _ p.1.toNat_lt rfl rfl
  · have hsplit : pre ++ (beBytes 4 p.1.toNat ++ beBytes 2 p.2.toNat ++ rest) =
        (pre ++ beBytes 4 p.1.toNat) ++ (beBytes 2 p.2.toNat ++ rest) := by
      simp only [append_assoc]
    rw [readChunks, if_neg (by decide), if_pos rfl, hsplit]
    exact readBe_beBytes _ _ p.2.toNat_lt (by simp) (by simp)

theorem decode_meta_ids (text_hash : UInt64) {ids : List UInt32} (h : ids.length < 2 ^ 16) :
    decode_sparse_meta (metaWithoutCounts text_hash ids) =
      .ok ⟨text_hash, ids.map fun id => (id, 0)⟩ := by
  refine decode_metaOf _ _ (.inr (.inr rfl)) (fun id => by simp) ?_ text_hash h
  intro pre id rest
  constructor
  · exact readBe_beBytes pre _ id.toNat_lt rfl rfl
  · rw [readChunks, if_neg (by decide), if_neg (by decide)]
    rfl

/-- **Too many postings**: the count is written without its upper bits, and the length fits no
format. -/
theorem decode_meta_too_many (text_hash : UInt64) (h : 2 ^ 16 ≤ postings.length) :
    decode_sparse_meta (encode_sparse_meta text_hash postings) = .error .absent := by
  have hless : postings.length % 2 ^ 16 < postings.length :=
    (Nat.mod_lt _ (by decide)).trans_le h
  have hwidth : postingWidth (postings.length * 8) (postings.length % 2 ^ 16) =
      .error .absent := by
    rw [postingWidth, if_neg (by omega), if_neg (by omega), if_neg (by omega)]
  rw [encode_sparse_meta, decode_sparse_meta_header text_hash (Nat.mod_lt _ (by decide)),
    length_flatMap_const (w := 8) (fun p => by simp), hwidth]
  rfl

theorem noPanic_postingWidth (length n : ℕ) : NoPanic (postingWidth length n) := by
  rw [postingWidth]
  split_ifs
  · exact noPanic_ok _
  · exact noPanic_ok _
  · exact noPanic_ok _
  · exact noPanic_absent

theorem noPanic_readPostings {bytes : List UInt8} {off : ℕ} (hw : w = 8 ∨ w = 6 ∨ w = 4)
    (h : off + n * w ≤ bytes.length) : NoPanic (readPostings bytes w n off) := by
  induction n generalizing off with
  | zero => exact noPanic_ok _
  | succ n ih =>
    rw [Nat.succ_mul] at h
    have hchunks : NoPanic (readChunks bytes w off) := by
      rw [readChunks]
      split_ifs
      · exact noPanic_readBe (by omega) (by omega)
      · exact noPanic_readBe (by omega) (by omega)
      · exact noPanic_ok _
    refine noPanic_bind (noPanic_readBe (by omega) (by omega)) fun _ _ => ?_
    refine noPanic_bind hchunks fun _ _ => noPanic_bind (ih (by omega)) fun _ _ => noPanic_ok _

theorem postingWidth_ok {length : ℕ} (h : postingWidth length n = .ok w) :
    (w = 8 ∨ w = 6 ∨ w = 4) ∧ length = n * w := by
  rw [postingWidth] at h
  split_ifs at h with h8 h6 h4
  · obtain rfl := Except.ok.inj h
    exact ⟨.inl rfl, h8⟩
  · obtain rfl := Except.ok.inj h
    exact ⟨.inr (.inl rfl), h6⟩
  · obtain rfl := Except.ok.inj h
    exact ⟨.inr (.inr rfl), h4⟩

/-- The decoder of metas reads within bounds. -/
theorem noPanic_decode_sparse_meta (bytes : List UInt8) : NoPanic (decode_sparse_meta bytes) := by
  refine noPanic_bind noPanic_refuse fun _ hlen => ?_
  rw [refuse_eq_ok, not_lt] at hlen
  refine noPanic_bind (noPanic_readBe (by omega) (by omega)) fun _ _ => ?_
  refine noPanic_bind (noPanic_readBe (by omega) (by omega)) fun n _ => ?_
  refine noPanic_bind (noPanic_postingWidth _ _) fun w hw => ?_
  obtain ⟨hwidth, hlength⟩ := postingWidth_ok hw
  exact noPanic_bind (noPanic_readPostings hwidth (by omega)) fun _ _ => noPanic_ok _

/-! ### Queue entries -/

/-- The error as it is read back: an empty one reads as none. -/
def storedError (last_error : Option String) : Option String :=
  last_error.filter (· ≠ "")

variable {body : List UInt8}

theorem decodeTail_header (kind : QueueEntryKind) (retry_count : UInt32) (hn : n < 2 ^ 32)
    (hbody : n ≤ body.length) :
    decodeTail kind (beBytes 4 retry_count.toNat ++ (beBytes 4 n ++ body)) = (do
      let last_error ← (if 0 < n then (orAbsent (fromUtf8 (body.take n))).map some else .ok none :
        Except Stop (Option String))
      let text ← orAbsent (fromUtf8 (body.drop n))
      return ⟨kind, text, retry_count, last_error⟩) := by
  have hpre : (beBytes 4 retry_count.toNat ++ beBytes 4 n).length = 8 := by simp
  have hretry : readBe (beBytes 4 retry_count.toNat ++ (beBytes 4 n ++ body)) 0 4 =
      .ok retry_count.toNat :=
    readBe_beBytes (w := 4) [] _ retry_count.toNat_lt rfl rfl
  have hcount : readBe (beBytes 4 retry_count.toNat ++ (beBytes 4 n ++ body)) 4 8 = .ok n :=
    readBe_beBytes (w := 4) _ _ hn (by simp) (by simp)
  rw [decodeTail, hretry, ok_bind, hcount, ← append_assoc, length_append, hpre]
  have herror := slice_append_add (beBytes 4 retry_count.toNat ++ beBytes 4 n) body
    (Nat.zero_le n) hbody
  have hrest := slice_append_add (beBytes 4 retry_count.toNat ++ beBytes 4 n) body hbody le_rfl
  rw [hpre, slice_take hbody, Nat.add_zero] at herror
  rw [hpre, slice_drop hbody] at hrest
  rw [refuse_neg (by omega), ok_bind, ok_bind, refuse_neg (by omega), ok_bind, herror,
    ok_bind, hrest, UInt32.ofNat_toNat]
  rfl

/-- The error is read back with its text, and an empty one as none. -/
theorem read_error (error : String) :
    (if 0 < (utf8 error).length then (orAbsent (fromUtf8 (utf8 error))).map some else .ok none :
      Except Stop (Option String)) = .ok (storedError (some error)) := by
  by_cases hempty : error = ""
  · subst hempty
    rfl
  · have hne : utf8 error ≠ [] := fun h => hempty (utf8_eq_nil.mp h)
    rw [if_pos (List.length_pos_iff.mpr hne), fromUtf8_utf8, storedError, Option.filter_some,
      if_pos (decide_eq_true hempty)]
    rfl

theorem storedError_getD (last_error : Option String) :
    storedError (some (last_error.getD "")) = storedError last_error := by
  cases last_error with
  | none => rfl
  | some e => rfl

variable {error text : String}

/-- **The tail is read back** when the length of its error fits four bytes. -/
theorem decodeTail_encodeTail (kind : QueueEntryKind) (retry_count : UInt32)
    (h : (utf8 error).length < 2 ^ 32) :
    decodeTail kind (encodeTail retry_count (utf8 error) (utf8 text)) =
      .ok ⟨kind, text, retry_count, storedError (some error)⟩ := by
  rw [encodeTail, Nat.mod_eq_of_lt h, decodeTail_header kind retry_count h (by simp),
    List.take_left', List.drop_left', read_error, fromUtf8_utf8]
  · rfl
  · rfl
  · rfl

/-- **An error that is too long**: its length is written without its upper bits, and the text that
is read back begins with the end of the error. -/
theorem decodeTail_too_long {kind : QueueEntryKind} {retry_count : UInt32}
    (h : 2 ^ 32 ≤ (utf8 error).length) {v : QueueValue}
    (hv : decodeTail kind (encodeTail retry_count (utf8 error) (utf8 text)) = .ok v) :
    v.text ≠ text := by
  have hmod := Nat.mod_lt (utf8 error).length (by decide : 2 ^ 32 > 0)
  rw [encodeTail, decodeTail_header kind retry_count hmod (by simp; omega)] at hv
  obtain ⟨last_error, -, hv⟩ := bind_eq_ok.mp hv
  obtain ⟨read, hread, hv⟩ := bind_eq_ok.mp hv
  obtain rfl := Except.ok.inj hv
  have hbytes := utf8_of_fromUtf8 (orAbsent_eq_ok.mp hread)
  intro hsame
  obtain rfl : read = text := hsame
  have hlen := congrArg List.length hbytes
  rw [List.length_drop, length_append] at hlen
  omega

theorem QueueEntryKind.ofByte_byte (kind : QueueEntryKind) :
    QueueEntryKind.ofByte kind.byte = some kind := by
  cases kind with
  | Embed => rfl
  | Clear => rfl

/-- A queue value of the current version is read by its tail. -/
theorem decode_queue_value_v3 (kind : QueueEntryKind) (tail : List UInt8) :
    decode_queue_value (QUEUE_VALUE_VERSION :: kind.byte :: tail) = decodeTail kind tail := by
  have htail : slice (QUEUE_VALUE_VERSION :: kind.byte :: tail) 2
      (QUEUE_VALUE_VERSION :: kind.byte :: tail).length = .ok tail :=
    slice_drop (by simp)
  have hversion : get (QUEUE_VALUE_VERSION :: kind.byte :: tail) 0 = .ok QUEUE_VALUE_VERSION := rfl
  have hkind : get (QUEUE_VALUE_VERSION :: kind.byte :: tail) 1 = .ok kind.byte := rfl
  rw [decode_queue_value, hversion, ok_bind, if_neg (by decide), if_neg (by decide), if_pos rfl,
    hkind, ok_bind, kind.ofByte_byte, htail]
  rfl

/-- **A queue value is read back** just when the length of its error fits four bytes. -/
theorem decode_encode_queue_value_iff (kind : QueueEntryKind) (text : String)
    (retry_count : UInt32) (last_error : Option String) :
    decode_queue_value (encode_queue_value kind text retry_count last_error) =
        .ok ⟨kind, text, retry_count, storedError last_error⟩ ↔
      (utf8 (last_error.getD "")).length < 2 ^ 32 := by
  rw [encode_queue_value, decode_queue_value_v3]
  constructor
  · intro h
    by_contra hlong
    exact decodeTail_too_long (not_lt.mp hlong) h rfl
  · intro h
    rw [decodeTail_encodeTail kind retry_count h, storedError_getD]

/-- A queue value of the first version. -/
def queueValueV1 (text : String) (retry_count : UInt32) : List UInt8 :=
  QUEUE_VALUE_V1 :: (beBytes 4 retry_count.toNat ++ utf8 text)

/-- A queue value of the second version. -/
def queueValueV2 (text : String) (retry_count : UInt32) (last_error : Option String) :
    List UInt8 :=
  QUEUE_VALUE_V2 :: encodeTail retry_count (utf8 (last_error.getD "")) (utf8 text)

theorem decode_queueValueV1 (text : String) (retry_count : UInt32) :
    decode_queue_value (queueValueV1 text retry_count) =
      .ok ⟨.Embed, text, retry_count, none⟩ := by
  have hlen : (queueValueV1 text retry_count).length = 5 + (utf8 text).length := by
    simp [queueValueV1]
    omega
  have hversion : get (queueValueV1 text retry_count) 0 = .ok QUEUE_VALUE_V1 := rfl
  have hretry : readBe (queueValueV1 text retry_count) 1 5 = .ok retry_count.toNat :=
    readBe_beBytes (w := 4) [QUEUE_VALUE_V1] _ retry_count.toNat_lt rfl rfl
  have hrest : slice (queueValueV1 text retry_count) 5 (queueValueV1 text retry_count).length =
      .ok (utf8 text) := by
    rw [slice_drop (by omega)]
    simp [queueValueV1]
  rw [decode_queue_value, hversion, ok_bind, if_pos rfl, decodeV1, refuse_neg (by omega), ok_bind,
    hretry, ok_bind, hrest, ok_bind, fromUtf8_utf8, UInt32.ofNat_toNat]
  rfl

theorem decode_queueValueV2 (text : String) (retry_count : UInt32) {last_error : Option String}
    (h : (utf8 (last_error.getD "")).length < 2 ^ 32) :
    decode_queue_value (queueValueV2 text retry_count last_error) =
      .ok ⟨.Embed, text, retry_count, storedError last_error⟩ := by
  have htail : slice (queueValueV2 text retry_count last_error) 1
      (queueValueV2 text retry_count last_error).length =
        .ok (encodeTail retry_count (utf8 (last_error.getD "")) (utf8 text)) :=
    slice_drop (by simp [queueValueV2])
  have hversion : get (queueValueV2 text retry_count last_error) 0 = .ok QUEUE_VALUE_V2 := rfl
  rw [decode_queue_value, hversion, ok_bind, if_neg (by decide), if_pos rfl, htail, ok_bind,
    decodeTail_encodeTail .Embed retry_count h, storedError_getD]

theorem noPanic_decodeTail (kind : QueueEntryKind) (tail : List UInt8) :
    NoPanic (decodeTail kind tail) := by
  refine noPanic_bind noPanic_refuse fun _ hlen => ?_
  rw [refuse_eq_ok, not_lt] at hlen
  refine noPanic_bind (noPanic_readBe (by omega) (by omega)) fun _ _ => ?_
  refine noPanic_bind (noPanic_readBe (by omega) (by omega)) fun n _ => ?_
  refine noPanic_bind noPanic_refuse fun _ hbody => ?_
  rw [refuse_eq_ok, not_lt] at hbody
  refine noPanic_bind (noPanic_slice (by omega) hbody) fun error _ => ?_
  have herror : NoPanic (if 0 < n then (orAbsent (fromUtf8 error)).map some else .ok none :
      Except Stop (Option String)) := by
    split
    · cases fromUtf8 error with
      | none => exact noPanic_absent
      | some s => exact noPanic_ok _
    · exact noPanic_ok _
  refine noPanic_bind herror fun _ _ => ?_
  refine noPanic_bind (noPanic_slice hbody le_rfl) fun _ _ => ?_
  exact noPanic_bind (noPanic_orAbsent _) fun _ _ => noPanic_ok _

/-- The decoder of queue values reads within bounds. -/
theorem noPanic_decode_queue_value (value : List UInt8) : NoPanic (decode_queue_value value) := by
  refine noPanic_bind (noPanic_get value 0) fun version hversion => ?_
  have hfirst : 1 ≤ value.length := by
    cases value with
    | nil => cases hversion
    | cons b value => exact Nat.succ_le_succ (Nat.zero_le _)
  split_ifs
  · refine noPanic_bind noPanic_refuse fun _ hlen => ?_
    rw [refuse_eq_ok, not_lt] at hlen
    refine noPanic_bind (noPanic_readBe (by omega) (by omega)) fun _ _ => ?_
    refine noPanic_bind (noPanic_slice hlen le_rfl) fun _ _ => ?_
    exact noPanic_bind (noPanic_orAbsent _) fun _ _ => noPanic_ok _
  · exact noPanic_bind (noPanic_slice hfirst le_rfl) fun _ _ => noPanic_decodeTail _ _
  · refine noPanic_bind (noPanic_get value 1) fun b hb => ?_
    refine noPanic_bind (noPanic_orAbsent _) fun kind _ => ?_
    have hsecond : 2 ≤ value.length := by
      match value, hb with
      | _ :: _ :: _, _ => exact Nat.succ_le_succ (Nat.succ_le_succ (Nat.zero_le _))
    exact noPanic_bind (noPanic_slice hsecond le_rfl) fun _ _ => noPanic_decodeTail _ _
  · exact noPanic_absent

/-! ### Queue keys -/

theorem decode_queue_key_header (hn : n < 2 ^ 16) (hbody : n ≤ body.length) :
    decode_queue_key (beBytes 2 n ++ body) = (do
      let ns ← orAbsent (fromUtf8 (body.take n))
      return (ns, body.drop n)) := by
  have hpre : (beBytes 2 n).length = 2 := length_beBytes 2 n
  obtain ⟨b0, b1, hbytes⟩ := List.length_eq_two.mp hpre
  have hcount : beNat [b0, b1] = n := by
    rw [← hbytes]
    exact beNat_beBytes_of_lt hn
  have hb0 : index (beBytes 2 n ++ body) 0 = .ok b0 := by
    rw [hbytes]
    rfl
  have hb1 : index (beBytes 2 n ++ body) 1 = .ok b1 := by
    rw [hbytes]
    rfl
  have hns := slice_append_add (beBytes 2 n) body (Nat.zero_le n) hbody
  have hdoc := slice_append_add (beBytes 2 n) body hbody le_rfl
  rw [hpre, slice_take hbody, Nat.add_zero] at hns
  rw [hpre, slice_drop hbody] at hdoc
  rw [decode_queue_key, hb0, hb1, length_append, hpre, refuse_neg (by omega), ok_bind, ok_bind,
    ok_bind, hcount]
  dsimp only
  rw [refuse_neg (by omega), ok_bind, hns, ok_bind, hdoc]
  rfl

/-- **A queue key is read back** just when the length of its namespace fits two bytes. -/
theorem decode_queue_key_iff (ns : String) (doc_id_bytes : List UInt8) :
    decode_queue_key (queue_key ns doc_id_bytes) = .ok (ns, doc_id_bytes) ↔
      (utf8 ns).length < 2 ^ 16 := by
  have hmod := Nat.mod_lt (utf8 ns).length (by decide : 2 ^ 16 > 0)
  have hle := Nat.mod_le (utf8 ns).length (2 ^ 16)
  rw [queue_key, decode_queue_key_header hmod (by rw [length_append]; omega)]
  constructor
  · intro h
    obtain ⟨read, -, h⟩ := bind_eq_ok.mp h
    have hdoc := congrArg List.length (Prod.mk.inj (Except.ok.inj h)).2
    rw [List.length_drop, length_append] at hdoc
    omega
  · intro h
    rw [Nat.mod_eq_of_lt h, List.take_left', List.drop_left', fromUtf8_utf8]
    · rfl
    · rfl
    · rfl

/-- The decoder of queue keys reads within bounds. -/
theorem noPanic_decode_queue_key (key : List UInt8) : NoPanic (decode_queue_key key) := by
  refine noPanic_bind noPanic_refuse fun _ hlen => ?_
  rw [refuse_eq_ok, not_lt] at hlen
  refine noPanic_bind (noPanic_index (by omega)) fun b0 _ => ?_
  refine noPanic_bind (noPanic_index (by omega)) fun b1 _ => ?_
  refine noPanic_bind noPanic_refuse fun _ hbody => ?_
  rw [refuse_eq_ok, not_lt] at hbody
  refine noPanic_bind (noPanic_slice (by omega) hbody) fun _ _ => ?_
  refine noPanic_bind (noPanic_orAbsent _) fun _ _ => ?_
  exact noPanic_bind (noPanic_slice hbody le_rfl) fun _ _ => noPanic_ok _

/-! ### Posting rows -/

/-- A posting as its row keeps it. -/
def Posting.stored (p : Posting) : Posting :=
  { p with
    routing_centroid := p.storedCentroid
    parent_id := p.parent_id.filter (· ≠ noParent) }

/-- A row of the form that was seeded: `centre_id (4B) ‖ state (1B) ‖ centroid`. -/
def seedRow (centre_id : UInt32) (state : PostingState) (routing_centroid : List UInt32) :
    List UInt8 :=
  beBytes 4 centre_id.toNat ++ (state.byte :: f32s_to_bytes routing_centroid)

theorem length_f32s_to_bytes (v : List UInt32) : (f32s_to_bytes v).length = v.length * 4 :=
  length_flatMap_const (fun _ => length_leBytes 4 _) v

/-- Floats are read back by their bits. -/
theorem bytes_to_f32s_to_bytes (v : List UInt32) : bytes_to_f32s (f32s_to_bytes v) = some v := by
  have hword : ∀ x : UInt32, UInt32.ofNat (leNat (leBytes 4 x.toNat)) = x := by
    intro x
    rw [leNat_leBytes_of_lt (w := 4) x.toNat_lt, UInt32.ofNat_toNat]
  rw [bytes_to_f32s, if_pos (by rw [length_f32s_to_bytes]; omega), f32s_to_bytes,
    chunksOf4_flatMap (fun x => length_leBytes 4 _), map_map]
  exact congrArg some ((List.map_congr_left fun _ _ => hword _).trans (map_id v))

theorem PostingState.from_byte_byte (state : PostingState) :
    PostingState.from_byte state.byte = some state := by
  cases state with
  | Active => rfl
  | Draining => rfl
  | Retired => rfl

theorem PostingOrigin.from_byte_byte (origin : PostingOrigin) :
    PostingOrigin.from_byte origin.byte = some origin := by
  cases origin with
  | Root | Seed | Split | Rebuild => rfl

/-- The parent id is read back; the id that stands for none reads as none. -/
theorem read_parent (parent_id : Option UInt32) :
    (if parent_id.getD noParent ≠ noParent then some (parent_id.getD noParent) else none) =
      parent_id.filter (· ≠ noParent) := by
  cases parent_id with
  | none => rfl
  | some id => rw [Option.filter_some, Option.getD_some]; simp

/-- The length of a row tells which floats follow its header. -/
theorem length_encode_posting (p : Posting) :
    (encode_posting p).length = 11 + p.storedCentroid.length * 4 := by
  rw [encode_posting]
  simp only [length_cons, length_append, length_beBytes, length_f32s_to_bytes]
  omega

/-- **A row is read back** as it keeps the posting. -/
theorem decodeRow_encode_posting (p : Posting) :
    decodeRow p.posting_id (encode_posting p) = .ok p.stored := by
  -- the row, cut at each of its parts
  have hatState : encode_posting p =
      (POSTING_ROW_V2 :: beBytes 4 p.centre_id.toNat) ++ p.state.byte ::
        (beBytes 4 (p.parent_id.getD noParent).toNat ++
          (p.origin.byte :: f32s_to_bytes p.storedCentroid)) := by
    simp [encode_posting]
  have hatParent : encode_posting p =
      (POSTING_ROW_V2 :: (beBytes 4 p.centre_id.toNat ++ [p.state.byte])) ++
        (beBytes 4 (p.parent_id.getD noParent).toNat ++
          (p.origin.byte :: f32s_to_bytes p.storedCentroid)) := by
    simp [encode_posting]
  have hatOrigin : encode_posting p =
      (POSTING_ROW_V2 :: (beBytes 4 p.centre_id.toNat ++
        (p.state.byte :: beBytes 4 (p.parent_id.getD noParent).toNat))) ++
          p.origin.byte :: f32s_to_bytes p.storedCentroid := by
    simp [encode_posting]
  have hatFloats : encode_posting p =
      (POSTING_ROW_V2 :: (beBytes 4 p.centre_id.toNat ++
        (p.state.byte :: (beBytes 4 (p.parent_id.getD noParent).toNat ++ [p.origin.byte])))) ++
          f32s_to_bytes p.storedCentroid := by
    simp [encode_posting]
  have hcentre : readBe (encode_posting p) 1 5 = .ok p.centre_id.toNat :=
    readBe_beBytes (w := 4) [POSTING_ROW_V2] _ p.centre_id.toNat_lt rfl rfl
  have hstate : index (encode_posting p) 5 = .ok p.state.byte := by
    rw [hatState]
    exact index_append _ _ _ (by simp)
  have hparent : readBe (encode_posting p) 6 10 = .ok (p.parent_id.getD noParent).toNat := by
    rw [hatParent]
    exact readBe_beBytes (w := 4) _ _ (p.parent_id.getD noParent).toNat_lt (by simp) (by simp)
  have horigin : index (encode_posting p) 10 = .ok p.origin.byte := by
    rw [hatOrigin]
    exact index_append _ _ _ (by simp)
  have hfloats : slice (encode_posting p) 11 (encode_posting p).length =
      .ok (f32s_to_bytes p.storedCentroid) := by
    rw [hatFloats]
    exact slice_append_end _ _ (by simp)
  rw [decodeRow, hparent, ok_bind, hcentre, ok_bind, hstate, ok_bind, p.state.from_byte_byte,
    horigin, hfloats]
  simp only [orAbsent, ok_bind, p.origin.from_byte_byte, bytes_to_f32s_to_bytes,
    UInt32.ofNat_toNat, read_parent]
  rfl

/-- A row of the current form is read as one. -/
theorem decode_encode_posting (p : Posting) :
    decode_posting p.posting_id (encode_posting p) = .ok p.stored := by
  have hfirst : (encode_posting p)[0]? = some POSTING_ROW_V2 := rfl
  rw [decode_posting, length_encode_posting,
    if_pos ⟨Nat.le_add_right _ _, hfirst, by omega⟩, decodeRow_encode_posting]

theorem length_seedRow (centre_id : UInt32) (state : PostingState)
    (routing_centroid : List UInt32) :
    (seedRow centre_id state routing_centroid).length = 5 + routing_centroid.length * 4 := by
  rw [seedRow]
  simp only [length_cons, length_append, length_beBytes, length_f32s_to_bytes]
  omega

/-- **A row of the seeded form is read as one**: its length is that of no row of the current
form. -/
theorem decode_seedRow (posting_id centre_id : UInt32) (state : PostingState)
    (routing_centroid : List UInt32) :
    decode_posting posting_id (seedRow centre_id state routing_centroid) =
      .ok { Posting.seeded posting_id routing_centroid centre_id with state := state } := by
  have hatFloats : seedRow centre_id state routing_centroid =
      (beBytes 4 centre_id.toNat ++ [state.byte]) ++ f32s_to_bytes routing_centroid := by
    simp [seedRow]
  have hcentre : readBe (seedRow centre_id state routing_centroid) 0 4 = .ok centre_id.toNat :=
    readBe_beBytes (w := 4) [] _ centre_id.toNat_lt rfl rfl
  have hstate : index (seedRow centre_id state routing_centroid) 4 = .ok state.byte :=
    index_append _ _ _ (length_beBytes 4 _).symm
  have hfloats : slice (seedRow centre_id state routing_centroid) 5
      (seedRow centre_id state routing_centroid).length =
        .ok (f32s_to_bytes routing_centroid) := by
    rw [hatFloats]
    exact slice_append_end _ _ (by simp)
  rw [decode_posting, length_seedRow, if_neg (by omega), if_pos ⟨by omega, by omega⟩,
    decodeSeedRow, hfloats, hcentre, hstate]
  simp only [orAbsent, ok_bind, bytes_to_f32s_to_bytes, state.from_byte_byte, UInt32.ofNat_toNat]
  rfl

/-- The decoder of rows reads within bounds. -/
theorem noPanic_decode_posting (posting_id : UInt32) (v : List UInt8) :
    NoPanic (decode_posting posting_id v) := by
  rw [decode_posting]
  split_ifs with hrow hseed
  · have hlen := hrow.1
    refine noPanic_bind (noPanic_readBe (by omega) (by omega)) fun _ _ => ?_
    refine noPanic_bind (noPanic_readBe (by omega) (by omega)) fun _ _ => ?_
    refine noPanic_bind (noPanic_index (by omega)) fun _ _ => ?_
    refine noPanic_bind (noPanic_orAbsent _) fun _ _ => ?_
    refine noPanic_bind (noPanic_index (by omega)) fun _ _ => ?_
    refine noPanic_bind (noPanic_orAbsent _) fun _ _ => ?_
    refine noPanic_bind (noPanic_slice hlen le_rfl) fun _ _ => ?_
    exact noPanic_bind (noPanic_orAbsent _) fun _ _ => noPanic_ok _
  · have hlen := hseed.1
    refine noPanic_bind (noPanic_slice hlen le_rfl) fun _ _ => ?_
    refine noPanic_bind (noPanic_orAbsent _) fun _ _ => ?_
    refine noPanic_bind (noPanic_readBe (by omega) (by omega)) fun _ _ => ?_
    refine noPanic_bind (noPanic_index (by omega)) fun _ _ => ?_
    exact noPanic_bind (noPanic_orAbsent _) fun _ _ => noPanic_ok _
  · exact noPanic_absent

/-! ### Journal records -/

theorem JournalState.ofByte_byte (state : JournalState) :
    JournalState.ofByte state.byte = some state := by
  cases state with
  | Planned => rfl
  | Published => rfl
  | Copied => rfl

/-- An operation is built again from its kind and its ids. -/
theorem Op.ofParts_parts (op : Op) : Op.ofParts op.parts.1 op.parts.2 = some op := by
  cases op with
  | Split posting centre₁ centre₂ child₁ child₂ => rfl
  | Merge posting kept => rfl
  | Reassign parent parent_centre child₁ child₂ scope => rfl
  | Rebuild first_centre first_posting postings drained => rfl

/-- **A record is read back.** -/
theorem decode_encode_record (r : Record) : Record.decode (Record.encode r) = .ok r := by
  have hword : ∀ id : UInt32, UInt32.ofNat (beNat (beBytes 4 id.toNat)) = id := by
    intro id
    rw [beNat_beBytes_of_lt (w := 4) id.toNat_lt, UInt32.ofNat_toNat]
  have hids : (chunksOf4 (r.op.parts.2.flatMap fun id => beBytes 4 id.toNat)).map
      (fun word => UInt32.ofNat (beNat word)) = r.op.parts.2 := by
    rw [chunksOf4_flatMap fun id => length_beBytes 4 _, map_map]
    exact (List.map_congr_left fun _ _ => hword _).trans (map_id _)
  have hlen : (Record.encode r).length = 3 + r.op.parts.2.length * 4 := by
    rw [Record.encode]
    simp only [length_cons, length_flatMap_const fun id => length_beBytes 4 (UInt32.toNat id)]
    omega
  have hversion : index (Record.encode r) 0 = .ok RECORD_VERSION := rfl
  have hkind : index (Record.encode r) 1 = .ok r.op.parts.1 := rfl
  have hstate : index (Record.encode r) 2 = .ok r.state.byte := rfl
  have hwords : slice (Record.encode r) 3 (Record.encode r).length =
      .ok (r.op.parts.2.flatMap fun id => beBytes 4 id.toNat) :=
    slice_append_end [RECORD_VERSION, r.op.parts.1, r.state.byte] _ rfl
  have hform : ¬(RECORD_VERSION ≠ RECORD_VERSION ∨ ((Record.encode r).length - 3) % 4 ≠ 0) := by
    rintro (h | h)
    · exact h rfl
    · omega
  rw [Record.decode, refuse_neg (by omega), ok_bind, hversion, ok_bind, refuse_neg hform, ok_bind,
    hstate, ok_bind, r.state.ofByte_byte, hwords, hkind]
  simp only [orAbsent, ok_bind, hids, r.op.ofParts_parts]
  rfl

/-- The decoder of records reads within bounds. -/
theorem noPanic_decode_record (v : List UInt8) : NoPanic (Record.decode v) := by
  refine noPanic_bind noPanic_refuse fun _ hlen => ?_
  rw [refuse_eq_ok, not_lt] at hlen
  refine noPanic_bind (noPanic_index (by omega)) fun _ _ => ?_
  refine noPanic_bind noPanic_refuse fun _ _ => ?_
  refine noPanic_bind (noPanic_index (by omega)) fun _ _ => ?_
  refine noPanic_bind (noPanic_orAbsent _) fun _ _ => ?_
  refine noPanic_bind (noPanic_slice hlen le_rfl) fun _ _ => ?_
  refine noPanic_bind (noPanic_index (by omega)) fun _ _ => ?_
  exact noPanic_bind (noPanic_orAbsent _) fun _ _ => noPanic_ok _

/-! ### All formats -/

/-- What the vector index writes: a meta, a queue entry, a posting and a record. -/
structure Written where
  text_hash : UInt64
  postings : List (UInt32 × UInt32)
  kind : QueueEntryKind
  text : String
  retry_count : UInt32
  last_error : Option String
  ns : String
  doc_id : List UInt8
  posting : Posting
  record : Record

/-- Every decoder reads back what its encoder wrote. -/
structure Written.ReadBack (x : Written) : Prop where
  sparse_meta : decode_sparse_meta (encode_sparse_meta x.text_hash x.postings) =
    .ok ⟨x.text_hash, x.postings⟩
  queue_value : decode_queue_value
      (encode_queue_value x.kind x.text x.retry_count x.last_error) =
    .ok ⟨x.kind, x.text, x.retry_count, storedError x.last_error⟩
  queue_key : decode_queue_key (queue_key x.ns x.doc_id) = .ok (x.ns, x.doc_id)
  posting : decode_posting x.posting.posting_id (encode_posting x.posting) = .ok x.posting.stored
  record : Record.decode (Record.encode x.record) = .ok x.record

/-- **What an earlier version wrote is read in the format of that version.** A format bounds the
values it can hold. -/
structure EarlierFormatsRead : Prop where
  meta_counts16 : ∀ (text_hash : UInt64) (postings : List (UInt32 × UInt16)),
    postings.length < 2 ^ 16 → decode_sparse_meta (metaWithCounts16 text_hash postings) =
      .ok ⟨text_hash, postings.map fun p => (p.1, p.2.toUInt32)⟩
  meta_ids : ∀ (text_hash : UInt64) (ids : List UInt32),
    ids.length < 2 ^ 16 → decode_sparse_meta (metaWithoutCounts text_hash ids) =
      .ok ⟨text_hash, ids.map fun id => (id, 0)⟩
  queue_v1 : ∀ (text : String) (retry_count : UInt32),
    decode_queue_value (queueValueV1 text retry_count) = .ok ⟨.Embed, text, retry_count, none⟩
  queue_v2 : ∀ (text : String) (retry_count : UInt32) (last_error : Option String),
    (utf8 (last_error.getD "")).length < 2 ^ 32 →
      decode_queue_value (queueValueV2 text retry_count last_error) =
        .ok ⟨.Embed, text, retry_count, storedError last_error⟩
  seed_row : ∀ (posting_id centre_id : UInt32) (state : PostingState)
      (routing_centroid : List UInt32),
    decode_posting posting_id (seedRow centre_id state routing_centroid) =
      .ok { Posting.seeded posting_id routing_centroid centre_id with state := state }

/-- No decoder reads out of bounds, whatever the bytes. -/
structure ReadsInBounds : Prop where
  sparse_meta : ∀ bytes, NoPanic (decode_sparse_meta bytes)
  queue_value : ∀ value, NoPanic (decode_queue_value value)
  queue_key : ∀ key, NoPanic (decode_queue_key key)
  posting : ∀ posting_id v, NoPanic (decode_posting posting_id v)
  record : ∀ v, NoPanic (Record.decode v)

theorem earlierFormatsRead : EarlierFormatsRead where
  meta_counts16 text_hash _ h := decode_meta_counts16 text_hash h
  meta_ids text_hash _ h := decode_meta_ids text_hash h
  queue_v1 := decode_queueValueV1
  queue_v2 text retry_count _ h := decode_queueValueV2 text retry_count h
  seed_row := decode_seedRow

theorem readsInBounds : ReadsInBounds where
  sparse_meta := noPanic_decode_sparse_meta
  queue_value := noPanic_decode_queue_value
  queue_key := noPanic_decode_queue_key
  posting := noPanic_decode_posting
  record := noPanic_decode_record

/-- A meta is read back just when its count fits two bytes. -/
theorem decode_encode_sparse_meta_iff (text_hash : UInt64) (postings : List (UInt32 × UInt32)) :
    decode_sparse_meta (encode_sparse_meta text_hash postings) = .ok ⟨text_hash, postings⟩ ↔
      postings.length < 2 ^ 16 := by
  constructor
  · intro h
    by_contra hmany
    rw [decode_meta_too_many text_hash (not_lt.mp hmany)] at h
    cases h
  · exact decode_meta_current text_hash

/-- **The formats are invertible just when no count or length is cut off**: earlier formats are
read as themselves and no decoder reads out of bounds, and each decoder reads back what was
written if and only if the postings number less than `2 ^ 16`, the error is shorter than `2 ^ 32`
bytes and the namespace is shorter than `2 ^ 16` bytes. -/
theorem readBack_iff (x : Written) :
    (x.ReadBack ∧ EarlierFormatsRead ∧ ReadsInBounds) ↔
      x.postings.length < 2 ^ 16 ∧ (utf8 (x.last_error.getD "")).length < 2 ^ 32 ∧
        (utf8 x.ns).length < 2 ^ 16 := by
  constructor
  · rintro ⟨h, -, -⟩
    exact ⟨(decode_encode_sparse_meta_iff _ _).mp h.sparse_meta,
      (decode_encode_queue_value_iff _ _ _ _).mp h.queue_value,
      (decode_queue_key_iff _ _).mp h.queue_key⟩
  · rintro ⟨hpostings, herror, hns⟩
    exact ⟨{ sparse_meta := (decode_encode_sparse_meta_iff _ _).mpr hpostings
             queue_value := (decode_encode_queue_value_iff _ _ _ _).mpr herror
             queue_key := (decode_queue_key_iff _ _).mpr hns
             posting := decode_encode_posting x.posting
             record := decode_encode_record x.record }, earlierFormatsRead, readsInBounds⟩

/-- A document whose chunks lie in 65536 postings, with the rest as plain as can be. -/
def spreadOut : Written where
  text_hash := 7
  postings := (List.range (2 ^ 16)).map fun i => (UInt32.ofNat i, 1)
  kind := .Embed
  text := "text"
  retry_count := 0
  last_error := none
  ns := "docs"
  doc_id := [1]
  posting := Posting.seeded 0 [] 0
  record := ⟨.Planned, .Merge 0 1⟩

/-- **Its meta reads as absent**, and with it every key of the document. -/
theorem spreadOut_not_readBack :
    decode_sparse_meta (encode_sparse_meta spreadOut.text_hash spreadOut.postings) =
        .error .absent ∧
      ¬(spreadOut.ReadBack ∧ EarlierFormatsRead ∧ ReadsInBounds) := by
  have hmany : 2 ^ 16 ≤ spreadOut.postings.length := by
    rw [spreadOut, List.length_map, List.length_range]
  have hlost := decode_meta_too_many spreadOut.text_hash hmany
  refine ⟨hlost, ?_⟩
  rintro ⟨hback, -, -⟩
  have hread := hback.sparse_meta
  rw [hlost] at hread
  cases hread

end StoredFormats

end Minnal
