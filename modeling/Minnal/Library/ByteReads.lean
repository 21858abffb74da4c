import Minnal.Library.Bytes
import Minnal.Library.Checks

/-!
# Reads from a byte string

A decoder reads numbers and slices at places it computes. A read can stop for two reasons: the
decoder finds that the bytes are **absent** from its format and says so, or it reads out of bounds
and **panics**. The rules here say what a read gives where the bytes are there, and that a chain of
reads within bounds does not panic.
-/

namespace ByteReads

open ByteCodec Checks

/-- Why a decoder stops. -/
inductive Stop where
  /-- The bytes are of no format the decoder knows. -/
  | absent
  /-- A read out of bounds. -/
  | panic
  deriving DecidableEq, Repr

/-! ### Reads -/

/-- `bytes[lo..hi]`. -/
def slice (bytes : List UInt8) (lo hi : ℕ) : Except Stop (List UInt8) :=
  if lo ≤ hi ∧ hi ≤ bytes.length then .ok (readAt bytes lo (hi - lo)) else .error .panic

/-- The big-endian number in `bytes[lo..hi]`. -/
def readBe (bytes : List UInt8) (lo hi : ℕ) : Except Stop ℕ := do
  let word ← slice bytes lo hi
  return beNat word

/-- `bytes.get(i)`, where a missing byte is no panic. -/
def get (bytes : List UInt8) (i : ℕ) : Except Stop UInt8 :=
  match bytes[i]? with
  | some b => .ok b
  | none => .error .absent

/-- `bytes[i]`. -/
def index (bytes : List UInt8) (i : ℕ) : Except Stop UInt8 :=
  match bytes[i]? with
  | some b => .ok b
  | none => .error .panic

/-- What is not of the format. -/
def orAbsent {α : Type} : Option α → Except Stop α
  | some a => .ok a
  | none => .error .absent

variable {bytes : List UInt8} {lo hi : ℕ}

theorem slice_eq (h : lo ≤ hi) (hhi : hi ≤ bytes.length) :
    slice bytes lo hi = .ok (readAt bytes lo (hi - lo)) := if_pos ⟨h, hhi⟩

/-- A slice at what stands between two parts. -/
theorem slice_append (pre mid rest : List UInt8) (hlo : lo = pre.length)
    (hhi : hi = pre.length + mid.length) : slice (pre ++ (mid ++ rest)) lo hi = .ok mid := by
  subst hlo hhi
  rw [slice_eq (Nat.le_add_right _ _) (by simp), Nat.add_sub_cancel_left, readAt_append]

/-- A slice past the first part is a slice of the second. -/
theorem slice_append_add (pre bytes : List UInt8) {a b : ℕ} (h : a ≤ b) (hb : b ≤ bytes.length) :
    slice (pre ++ bytes) (pre.length + a) (pre.length + b) = slice bytes a b := by
  rw [slice_eq (by omega) (by rw [List.length_append]; omega), slice_eq h hb, readAt_append_add,
    Nat.add_sub_add_left]

variable {n : ℕ}

theorem slice_take (h : n ≤ bytes.length) : slice bytes 0 n = .ok (bytes.take n) := by
  rw [slice_eq (Nat.zero_le n) h]
  rfl

theorem slice_drop (h : n ≤ bytes.length) : slice bytes n bytes.length = .ok (bytes.drop n) := by
  rw [slice_eq h le_rfl, readAt, List.take_of_length_le (by rw [List.length_drop])]

/-- What stands past a part, to the end. -/
theorem slice_append_end (pre rest : List UInt8) (hlo : lo = pre.length) :
    slice (pre ++ rest) lo (pre ++ rest).length = .ok rest := by
  subst hlo
  rw [slice_drop (by simp), List.drop_left]

theorem readBe_append (pre mid rest : List UInt8) (hlo : lo = pre.length)
    (hhi : hi = pre.length + mid.length) :
    readBe (pre ++ (mid ++ rest)) lo hi = .ok (beNat mid) := by
  rw [readBe, slice_append pre mid rest hlo hhi]
  rfl

/-- A number is read back where it was written. -/
theorem readBe_beBytes (pre rest : List UInt8) {w : ℕ} (hn : n < 256 ^ w) (hlo : lo = pre.length)
    (hhi : hi = pre.length + w) : readBe (pre ++ (beBytes w n ++ rest)) lo hi = .ok n := by
  rw [readBe_append pre _ rest hlo (by rw [hhi, length_beBytes]), beNat_beBytes_of_lt hn]

/-- The byte at a place is read where it was written. -/
theorem index_append (pre : List UInt8) (b : UInt8) (rest : List UInt8) {i : ℕ}
    (hi : i = pre.length) : index (pre ++ b :: rest) i = .ok b := by
  subst hi
  rw [index, List.getElem?_append_right le_rfl, Nat.sub_self]
  rfl

variable {α : Type}

@[simp] theorem orAbsent_eq_ok {o : Option α} {a : α} : orAbsent o = .ok a ↔ o = some a := by
  cases o with
  | none => exact iff_of_false nofun nofun
  | some b =>
    rw [orAbsent, Except.ok.injEq, Option.some.injEq]

/-! ### Reads within bounds -/

section Bounds

variable {α β : Type}

/-- The read ends without a panic. -/
def NoPanic (x : Except Stop α) : Prop := x ≠ .error .panic

theorem noPanic_ok (a : α) : NoPanic (.ok a) := nofun

theorem noPanic_absent : NoPanic (.error .absent : Except Stop α) := nofun

theorem noPanic_bind {x : Except Stop α} {f : α → Except Stop β} (hx : NoPanic x)
    (hf : ∀ a, x = .ok a → NoPanic (f a)) : NoPanic (x >>= f) := by
  cases x with
  | error e => exact fun h => hx (congrArg Except.error (Except.error.inj h))
  | ok a => exact hf a rfl

theorem noPanic_refuse {p : Prop} [Decidable p] : NoPanic (refuse p Stop.absent) := by
  by_cases hp : p
  · rw [refuse, if_pos hp]
    exact noPanic_absent
  · rw [refuse, if_neg hp]
    exact noPanic_ok ()

theorem noPanic_slice (h : lo ≤ hi) (hhi : hi ≤ bytes.length) : NoPanic (slice bytes lo hi) := by
  rw [slice_eq h hhi]
  exact noPanic_ok _

theorem noPanic_readBe (h : lo ≤ hi) (hhi : hi ≤ bytes.length) : NoPanic (readBe bytes lo hi) :=
  noPanic_bind (noPanic_slice h hhi) fun _ _ => noPanic_ok _

theorem noPanic_get (bytes : List UInt8) (i : ℕ) : NoPanic (get bytes i) := by
  rw [get]
  cases bytes[i]? with
  | none => exact noPanic_absent
  | some b => exact noPanic_ok b

theorem noPanic_index {i : ℕ} (h : i < bytes.length) : NoPanic (index bytes i) := by
  rw [index, List.getElem?_eq_getElem h]
  exact noPanic_ok _

theorem noPanic_orAbsent (o : Option α) : NoPanic (orAbsent o) := by
  cases o with
  | none => exact noPanic_absent
  | some a => exact noPanic_ok a

end Bounds

/-! ### Texts -/

/-- The bytes of a text. -/
def utf8 (s : String) : List UInt8 := s.toByteArray.data.toList

/-- The text that the bytes encode, if they encode one. -/
def fromUtf8 (bytes : List UInt8) : Option String := String.fromUTF8? ⟨bytes.toArray⟩

@[simp] theorem fromUtf8_utf8 (s : String) : fromUtf8 (utf8 s) = some s := by
  have hvalid : (⟨(utf8 s).toArray⟩ : ByteArray) = s.toByteArray := by
    rw [utf8, Array.toArray_toList]
  rw [fromUtf8, hvalid, String.fromUTF8?, dif_pos s.isValidUTF8]
  rfl

theorem utf8_of_fromUtf8 {s : String} (h : fromUtf8 bytes = some s) : utf8 s = bytes := by
  rw [fromUtf8, String.fromUTF8?] at h
  split at h
  · obtain rfl := Option.some.inj h
    rfl
  · cases h

theorem utf8_eq_nil {s : String} : utf8 s = [] ↔ s = "" := by
  constructor
  · intro h
    have hs := fromUtf8_utf8 s
    have hempty := fromUtf8_utf8 ""
    rw [h] at hs
    exact Option.some.inj (hs.symm.trans hempty)
  · rintro rfl
    rfl

/-- The bytes of a character below `0x80` are one byte. -/
theorem utf8EncodeChar_ascii {b : UInt8} (hb : b < 0x80) :
    String.utf8EncodeChar (Char.ofNat b.toNat) = [b] := by
  have hlt : b.toNat < 0x80 := UInt8.lt_iff_toNat_lt.mp hb
  have hval : (Char.ofNat b.toNat).val.toNat = b.toNat := by
    rw [Char.ofNat, dif_pos (.inl (by omega))]
    rfl
  rw [String.utf8EncodeChar, hval, if_pos (Nat.le_of_lt_succ hlt), UInt8.ofNat_toNat]

/-- ASCII bytes are a text. -/
theorem fromUtf8_ascii (bytes : List UInt8) (h : ∀ b ∈ bytes, b < 0x80) :
    ∃ s, fromUtf8 bytes = some s := by
  have hencode : ∀ bytes : List UInt8, (∀ b ∈ bytes, b < 0x80) →
      (bytes.map fun b => Char.ofNat b.toNat).flatMap String.utf8EncodeChar = bytes := by
    intro bytes h
    induction bytes with
    | nil => rfl
    | cons b bytes ih =>
      rw [List.map_cons, List.flatMap_cons, utf8EncodeChar_ascii (h b List.mem_cons_self),
        ih fun b hb => h b (List.mem_cons_of_mem _ hb)]
      rfl
  have hvalid : ByteArray.IsValidUTF8 ⟨bytes.toArray⟩ := by
    refine ⟨bytes.map fun b => Char.ofNat b.toNat, ?_⟩
    rw [List.utf8Encode, hencode bytes h]
    exact ByteArray.ext List.data_toByteArray.symm
  exact ⟨_, dif_pos hvalid⟩

/-- The bytes of a text, character by character. -/
theorem utf8_ofList (cs : List Char) :
    utf8 (String.ofList cs) = cs.flatMap String.utf8EncodeChar := by
  rw [utf8, String.toByteArray_ofList, List.utf8Encode, List.data_toByteArray]

theorem utf8_eq_flatMap (s : String) : utf8 s = s.toList.flatMap String.utf8EncodeChar := by
  rw [← utf8_ofList, String.ofList_toList]

/-- **Valid bytes** are those of a text. -/
def IsText (bytes : List UInt8) : Prop := ∃ s, utf8 s = bytes

theorem isText_utf8 (s : String) : IsText (utf8 s) := ⟨s, rfl⟩

theorem isText_ascii (h : ∀ b ∈ bytes, b < 0x80) : IsText bytes := by
  obtain ⟨s, hs⟩ := fromUtf8_ascii bytes h
  exact ⟨s, utf8_of_fromUtf8 hs⟩

theorem IsText.append {more : List UInt8} (h : IsText bytes) (h' : IsText more) :
    IsText (bytes ++ more) := by
  obtain ⟨s, rfl⟩ := h
  obtain ⟨s', rfl⟩ := h'
  refine ⟨String.ofList (s.toList ++ s'.toList), ?_⟩
  rw [utf8_ofList, List.flatMap_append, utf8_eq_flatMap s, utf8_eq_flatMap s']

theorem IsText.flatMap {f : α → List UInt8} {as : List α} (h : ∀ a ∈ as, IsText (f a)) :
    IsText (as.flatMap f) := by
  induction as with
  | nil => exact ⟨"", rfl⟩
  | cons a as ih =>
    rw [List.flatMap_cons]
    exact (h a List.mem_cons_self).append (ih fun b hb => h b (List.mem_cons_of_mem _ hb))

theorem le_ofNat (h : 128 ≤ n) (hn : n < 256) : (0x80 : UInt8) ≤ UInt8.ofNat n := by
  rw [UInt8.le_iff_toNat_le, UInt8.toNat_ofNat_of_lt' hn]
  exact h

/-- A character is one byte below `0x80`, or has none. -/
theorem utf8EncodeChar_cases (c : Char) :
    (∃ b, b < 0x80 ∧ String.utf8EncodeChar c = [b]) ∨
      ∀ b ∈ String.utf8EncodeChar c, (0x80 : UInt8) ≤ b := by
  rw [String.utf8EncodeChar]
  split_ifs with h
  · refine .inl ⟨_, ?_, rfl⟩
    rw [UInt8.lt_iff_toNat_lt, UInt8.toNat_ofNat_of_lt' (by rw [UInt8.size]; omega)]
    exact Nat.lt_succ_of_le h
  all_goals
    right
    simp only [List.forall_mem_cons, List.not_mem_nil, false_implies, implies_true, and_true]
    and_intros
  all_goals exact le_ofNat (by omega) (by omega)

/-! ### Words -/

/-- The words of four bytes, without what is left over at the end. -/
def chunksOf4 : List UInt8 → List (List UInt8)
  | a :: b :: c :: d :: rest => [a, b, c, d] :: chunksOf4 rest
  | _ => []

theorem chunksOf4_append {word : List UInt8} (h : word.length = 4) (rest : List UInt8) :
    chunksOf4 (word ++ rest) = word :: chunksOf4 rest := by
  match word, h with
  | [a, b, c, d], _ => rfl

/-- Words written one after another are read back. -/
theorem chunksOf4_flatMap {encode : α → List UInt8} (h : ∀ a, (encode a).length = 4) (l : List α) :
    chunksOf4 (l.flatMap encode) = l.map encode := by
  induction l with
  | nil => rfl
  | cons a l ih => rw [List.flatMap_cons, chunksOf4_append (h a), ih, List.map_cons]

theorem length_flatMap_const {encode : α → List UInt8} {w : ℕ} (h : ∀ a, (encode a).length = w)
    (l : List α) : (l.flatMap encode).length = l.length * w := by
  induction l with
  | nil => simp
  | cons a l ih =>
    rw [List.flatMap_cons, List.length_append, h, ih, List.length_cons, Nat.succ_mul, Nat.add_comm]

end ByteReads
