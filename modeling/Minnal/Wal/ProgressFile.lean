import Minnal.Wal.SegmentedLog

/-!
# The progress file

A log saves its progress in one file: a magic, a version, the cut, a table of namespaces with their
safe offsets, the log's own extra bytes and a checksum of everything before it. The lengths of the
table and of the extra bytes are fields of the file, so `decode` computes with counts it cannot
trust. It is written here with every slice and every machine operation that could **panic** made
explicit, and no byte string makes it panic (`decode_ne_panic`).

What `decode` accepts is exactly what `encode` makes of valid progress (`decode_eq_ok_iff`), as far
as a 32-bit count can say how long it is.
-/

set_option linter.dupNamespace false

namespace Minnal

open ByteCodec
open List (append_assoc length_drop length_take drop_zero take_append_drop length_append drop_left')

variable {β : Type} {c : Prop} {damage : Damage} {bytes extra : List UInt8} {n : ℕ} {p : Progress}

namespace SegmentedLog

/-! ### Slices and machine integers -/

/-- What is wrong with a progress file. -/
inductive Damage where
  | noHeader
  | crcMismatch
  | version (found : ℕ)
  | countOverflows
  | lengthNotOfCount
  | lengthNotOfExtra
  | namespacesNotSorted
  | safeBelowCut (ns safe cut : ℕ)
  | extraLength (found : ℕ)
  deriving DecidableEq, Repr

/-- How decoding fails: it reports corruption, or it panics. -/
inductive DecodeError where
  | corruption (damage : Damage)
  | panic
  deriving DecidableEq, Repr

/-- `bytes[lo..hi]`, which panics out of bounds. -/
def slice (bytes : List UInt8) (lo hi : ℕ) : Except DecodeError (List UInt8) :=
  if lo ≤ hi ∧ hi ≤ bytes.length then .ok (readAt bytes lo (hi - lo)) else .error .panic

/-- `a + b` on `usize`, which panics on overflow. -/
def addUsize (a b : ℕ) : Except DecodeError ℕ :=
  if a + b < 2 ^ 64 then .ok (a + b) else .error .panic

/-- `a - b` on `usize`, which panics below 0. -/
def subUsize (a b : ℕ) : Except DecodeError ℕ := if b ≤ a then .ok (a - b) else .error .panic

/-- `checked_add` and `checked_mul`. -/
def checked (n : ℕ) : Option ℕ := if n < 2 ^ 64 then some n else none

/-- A check: corruption unless it holds. -/
def ensure (c : Prop) [Decidable c] (damage : Damage) : Except DecodeError Unit :=
  if c then .ok () else .error (.corruption damage)

/-- `ok_or_else`. -/
def orBad {α : Type} (o : Option α) (damage : Damage) : Except DecodeError α :=
  o.elim (.error (.corruption damage)) .ok

/-- The bytes of a little-endian integer. -/
def readLe (bytes : List UInt8) (lo hi : ℕ) : Except DecodeError ℕ := leNat <$> slice bytes lo hi

/-! ### The format -/

/-- The file's first four bytes, for each log. -/
structure ProgressFile where
  magic : List UInt8
  /-- `crc32fast::hash`. -/
  crc32 : List UInt8 → UInt32
  length_magic : magic.length = 4

def progressVersion : ℕ := 3

def progressFixedLen : ℕ := 20

def progressEntryLen : ℕ := 12

/-- One row of the namespace table. -/
def entryBytes (e : ℕ × ℕ) : List UInt8 := leBytes 4 e.1 ++ leBytes 8 e.2

namespace ProgressFile

variable (f : ProgressFile)

/-- Everything before the checksum. -/
def body (p : Progress) (extra : List UInt8) : List UInt8 :=
  f.magic ++ leBytes 4 progressVersion ++ leBytes 8 p.cut ++ leBytes 4 p.safe.length ++
    p.safe.flatMap entryBytes ++ leBytes 4 extra.length ++ extra

/-- The file's bytes. -/
def encode (p : Progress) (extra : List UInt8) : List UInt8 :=
  f.body p extra ++ leBytes 4 (f.crc32 (f.body p extra)).toNat

/-- The rows of a table, as `as_chunks` cuts it. -/
def entries : ℕ → List UInt8 → List (ℕ × ℕ)
  | 0, _ => []
  | n + 1, bytes =>
    (leNat (bytes.take 4), leNat ((bytes.take 12).drop 4)) :: entries n (bytes.drop 12)

/-- Decode and check a progress file. -/
def decode (bytes : List UInt8) : Except DecodeError (Progress × List UInt8) := do
  ensure (progressFixedLen + 8 ≤ bytes.length) .noHeader
  ensure ((← slice bytes 0 4) = f.magic) .noHeader
  let mid ← subUsize bytes.length 4
  let body ← slice bytes 0 mid
  let crc ← slice bytes mid bytes.length
  ensure ((f.crc32 body).toNat = leNat crc) .crcMismatch
  let version ← readLe body 4 8
  ensure (version = progressVersion) (.version version)
  let cut ← readLe body 8 16
  let count ← readLe body 16 20
  let tableLen ← orBad (checked (count * progressEntryLen)) .countOverflows
  let entriesEnd ← orBad ((checked (progressFixedLen + tableLen)).filter
    fun e => e + 4 ≤ body.length) .lengthNotOfCount
  let table ← slice body progressFixedLen entriesEnd
  let safe := entries (table.length / progressEntryLen) table
  let extraStart ← addUsize entriesEnd 4
  let extraLen ← readLe body entriesEnd extraStart
  let total ← addUsize extraStart extraLen
  ensure (body.length = total) .lengthNotOfExtra
  ensure ((safe.zip safe.tail).all fun w => w.1.1 < w.2.1) .namespacesNotSorted
  match safe.find? fun e => e.2 < cut with
  | some e => .error (.corruption (.safeBelowCut e.1 e.2 cut))
  | none => return (⟨cut, safe⟩, ← slice body extraStart body.length)

/-- The checks of `decode` on what stands before and in the checksum, with no bound to respect. -/
def check (body crc : List UInt8) : Except DecodeError (Progress × List UInt8) := do
  let cut := leNat (readAt body 8 8)
  let tableLen := leNat (readAt body 16 4) * progressEntryLen
  let safe := entries (tableLen / progressEntryLen) (readAt body progressFixedLen tableLen)
  let extraStart := progressFixedLen + tableLen + 4
  ensure (readAt body 0 4 = f.magic) .noHeader
  ensure ((f.crc32 body).toNat = leNat crc) .crcMismatch
  ensure (leNat (readAt body 4 4) = progressVersion) (.version (leNat (readAt body 4 4)))
  ensure (extraStart ≤ body.length) .lengthNotOfCount
  ensure (body.length = extraStart + leNat (readAt body (progressFixedLen + tableLen) 4))
    .lengthNotOfExtra
  ensure ((safe.zip safe.tail).all fun w => w.1.1 < w.2.1) .namespacesNotSorted
  match safe.find? fun e => e.2 < cut with
  | some e => .error (.corruption (.safeBelowCut e.1 e.2 cut))
  | none => .ok (⟨cut, safe⟩, body.drop extraStart)

theorem ok_bind {α : Type} (a : α) (g : α → Except DecodeError β) : Except.ok a >>= g = g a := rfl

theorem ensure_pos [Decidable c] (h : c) :
    ensure c damage = .ok () := if_pos h

theorem ensure_neg [Decidable c] (h : ¬c) :
    ensure c damage = .error (.corruption damage) := if_neg h

theorem ensure_bind_congr [Decidable c] {g h : Unit → Except DecodeError β} (hgh : c → g () = h ()) :
    (ensure c damage >>= g) = ensure c damage >>= h := by
  unfold ensure
  split
  · next hc => exact hgh hc
  · rfl

theorem slice_eq {lo hi : ℕ} (h : lo ≤ hi) (hhi : hi ≤ bytes.length) :
    slice bytes lo hi = .ok (readAt bytes lo (hi - lo)) := if_pos ⟨h, hhi⟩

theorem readLe_eq {lo hi : ℕ} (h : lo ≤ hi) (hhi : hi ≤ bytes.length) :
    readLe bytes lo hi = .ok (leNat (readAt bytes lo (hi - lo))) := by
  rw [readLe, slice_eq h hhi]
  rfl

theorem leNat_readAt_lt (bytes : List UInt8) (off n : ℕ) :
    leNat (readAt bytes off n) < 256 ^ n := by
  refine (leNat_lt _).trans_le (Nat.pow_le_pow_right (by decide) ?_)
  rw [length_readAt]
  exact min_le_left ..

/-- **No slice is out of bounds and no operation overflows.** -/
theorem decode_append (body crc : List UInt8) (hbody : 24 ≤ body.length) (hcrc : crc.length = 4)
    (hsize : body.length < 2 ^ 63) : f.decode (body ++ crc) = f.check body crc := by
  have hlen : (body ++ crc).length = body.length + 4 := by rw [length_append, hcrc]
  have hcount := leNat_readAt_lt body 16 4
  have hmagic : slice (body ++ crc) 0 4 = .ok (readAt body 0 4) := by
    rw [slice_eq (by omega) (by omega), readAt, readAt, drop_zero, drop_zero,
      List.take_append_of_le_length (by omega)]
  have hsplit : slice (body ++ crc) 0 body.length = .ok body := by
    rw [slice_eq (by omega) (by omega), readAt, drop_zero, Nat.sub_zero, List.take_left]
  have hrest : slice (body ++ crc) body.length (body.length + 4) = .ok crc := by
    rw [slice_eq (by omega) (by omega), readAt, List.drop_left, Nat.add_sub_cancel_left, ← hcrc,
      List.take_length]
  have hsub : subUsize (body.length + 4) 4 = .ok body.length := if_pos (by omega)
  have hlong : ensure (progressFixedLen + 8 ≤ body.length + 4) .noHeader = .ok () :=
    ensure_pos (by rw [progressFixedLen]; omega)
  unfold decode check
  rw [hlen, hlong, ok_bind, hmagic, ok_bind]
  refine ensure_bind_congr fun _ => ?_
  rw [hsub, ok_bind, hsplit, ok_bind, hrest, ok_bind]
  refine ensure_bind_congr fun _ => ?_
  rw [readLe_eq (by omega) (by omega), ok_bind]
  refine ensure_bind_congr fun _ => ?_
  rw [readLe_eq (by omega) (by omega), ok_bind, readLe_eq (by omega) (by omega), ok_bind]
  change leNat (readAt body 16 4) < 2 ^ 32 at hcount
  change orBad (checked (leNat (readAt body 16 4) * progressEntryLen)) .countOverflows >>= _ = _
  -- the table's length, from a count that may be anything a `u32` holds
  generalize htable : leNat (readAt body 16 4) * progressEntryLen = tableLen
  have htableLen : tableLen < 2 ^ 36 := by
    rw [progressEntryLen] at htable
    omega
  have hmul : orBad (checked tableLen) .countOverflows = .ok tableLen := by
    rw [checked, if_pos (by omega)]
    rfl
  have hadd : checked (progressFixedLen + tableLen) = some (progressFixedLen + tableLen) :=
    if_pos (by rw [progressFixedLen]; omega)
  rw [hmul, ok_bind, hadd]
  by_cases hfits : progressFixedLen + tableLen + 4 ≤ body.length
  · have hend : orBad ((some (progressFixedLen + tableLen)).filter
        fun e => decide (e + 4 ≤ body.length)) .lengthNotOfCount =
        .ok (progressFixedLen + tableLen) := by
      rw [Option.filter_some, if_pos (decide_eq_true hfits)]
      rfl
    have hextra := leNat_readAt_lt body (progressFixedLen + tableLen) 4
    have hstart : addUsize (progressFixedLen + tableLen) 4 =
        .ok (progressFixedLen + tableLen + 4) := if_pos (by omega)
    have hcut : slice body progressFixedLen (progressFixedLen + tableLen) =
        .ok (readAt body progressFixedLen tableLen) := by
      rw [slice_eq (by omega) (by omega), Nat.add_sub_cancel_left]
    have hlength : (readAt body progressFixedLen tableLen).length = tableLen := by
      rw [length_readAt]
      omega
    rw [hend, ok_bind, hcut, ok_bind, hstart, ok_bind, readLe_eq (by omega) (by omega), ok_bind,
      Nat.add_sub_cancel_left]
    have htotal : addUsize (progressFixedLen + tableLen + 4)
        (leNat (readAt body (progressFixedLen + tableLen) 4)) =
        .ok (progressFixedLen + tableLen + 4 +
          leNat (readAt body (progressFixedLen + tableLen) 4)) := if_pos (by omega)
    rw [htotal, ok_bind, hlength, ensure_pos hfits, ok_bind]
    have htail : slice body (progressFixedLen + tableLen + 4) body.length =
        .ok (body.drop (progressFixedLen + tableLen + 4)) := by
      rw [slice_eq hfits le_rfl, readAt, List.take_of_length_le (by rw [length_drop])]
    refine ensure_bind_congr fun hall => ensure_bind_congr fun _ => ?_
    rw [htail]
    rfl
  · rw [Option.filter_some, if_neg fun h => hfits (of_decide_eq_true h), ensure_neg hfits]
    rfl

/-- A file too short for a header and a checksum. -/
theorem decode_short (h : bytes.length < 28) : f.decode bytes = .error (.corruption .noHeader) := by
  unfold decode
  rw [ensure_neg (by rw [progressFixedLen]; omega)]
  rfl

theorem check_ne_panic (body crc : List UInt8) : f.check body crc ≠ .error .panic := by
  have hensure : ∀ {c : Prop} [Decidable c] {damage : Damage}
      {g : Unit → Except DecodeError (Progress × List UInt8)}, (c → g () ≠ .error .panic) →
      (ensure c damage >>= g) ≠ .error .panic := by
    intro c _ damage g hg
    unfold ensure
    split
    · next hc => exact hg hc
    · nofun
  unfold check
  refine hensure fun _ => hensure fun _ => hensure fun _ => hensure fun _ => hensure fun _ =>
    hensure fun _ => ?_
  split <;> nofun

/-- **Decoding never panics**, whatever the bytes are. -/
theorem decode_ne_panic (hsize : bytes.length < 2 ^ 63) : f.decode bytes ≠ .error .panic := by
  by_cases h : bytes.length < 28
  · rw [f.decode_short h]
    nofun
  · have hsplit := take_append_drop (bytes.length - 4) bytes
    rw [← hsplit, f.decode_append _ _ (by rw [length_take]; omega)
      (by rw [length_drop]; omega) (by rw [length_take]; omega)]
    exact f.check_ne_panic _ _

/-! ### The table -/

theorem length_entries (n : ℕ) (bytes : List UInt8) : (entries n bytes).length = n := by
  induction n generalizing bytes with
  | zero => rfl
  | succ n ih => rw [entries, List.length_cons, ih]

@[simp] theorem length_entryBytes (e : ℕ × ℕ) : (entryBytes e).length = 12 := by simp [entryBytes]

theorem length_table (safe : List (ℕ × ℕ)) :
    (safe.flatMap entryBytes).length = 12 * safe.length := by
  induction safe with
  | nil => rfl
  | cons e safe ih =>
    rw [List.flatMap_cons, length_append, ih, length_entryBytes, List.length_cons]
    omega

/-- The bounds of the integers a table holds. -/
def EntryFits (e : ℕ × ℕ) : Prop := e.1 < 2 ^ 32 ∧ e.2 < 2 ^ 64

instance : DecidablePred EntryFits := fun e =>
  inferInstanceAs (Decidable (e.1 < 2 ^ 32 ∧ e.2 < 2 ^ 64))

theorem entries_table {safe : List (ℕ × ℕ)} (h : ∀ e ∈ safe, EntryFits e) :
    entries safe.length (safe.flatMap entryBytes) = safe := by
  induction safe with
  | nil => rfl
  | cons e safe ih =>
    obtain ⟨⟨hns, hsafe⟩, hrest⟩ := List.forall_mem_cons.mp h
    have htake : (entryBytes e ++ safe.flatMap entryBytes).take 4 = leBytes 4 e.1 := by
      rw [entryBytes, append_assoc, List.take_left' (length_leBytes ..)]
    have hmid : ((entryBytes e ++ safe.flatMap entryBytes).take 12).drop 4 = leBytes 8 e.2 := by
      rw [List.take_left' (length_entryBytes e), entryBytes, drop_left' (length_leBytes ..)]
    have hdrop : (entryBytes e ++ safe.flatMap entryBytes).drop 12 = safe.flatMap entryBytes :=
      drop_left' (length_entryBytes e)
    rw [List.length_cons, List.flatMap_cons, entries, htake, hmid, hdrop, ih hrest,
      leNat_leBytes_of_lt hns, leNat_leBytes_of_lt hsafe]

theorem table_entries (h : bytes.length = 12 * n) :
    (entries n bytes).flatMap entryBytes = bytes := by
  induction n generalizing bytes with
  | zero =>
    obtain rfl := List.length_eq_zero_iff.mp h
    rfl
  | succ n ih =>
    have hns : leBytes 4 (leNat (bytes.take 4)) = bytes.take 4 := by
      have hle := leBytes_leNat (bytes.take 4)
      rwa [length_take, min_eq_left (by omega)] at hle
    have hsafe : leBytes 8 (leNat ((bytes.take 12).drop 4)) = (bytes.take 12).drop 4 := by
      have hle := leBytes_leNat ((bytes.take 12).drop 4)
      rwa [length_drop, length_take, min_eq_left (by omega)] at hle
    have hentry : bytes.take 4 ++ (bytes.take 12).drop 4 = bytes.take 12 := by
      have hsplit := take_append_drop 4 (bytes.take 12)
      rwa [List.take_take, min_eq_left (by omega)] at hsplit
    rw [entries, List.flatMap_cons, ih (by rw [length_drop]; omega), entryBytes, hns, hsafe,
      hentry, take_append_drop]

theorem entries_fit (n : ℕ) (bytes : List UInt8) : ∀ e ∈ entries n bytes, EntryFits e := by
  induction n generalizing bytes with
  | zero => nofun
  | succ n ih =>
    have hbound : ∀ (w : ℕ) (bs : List UInt8), bs.length ≤ w → leNat bs < 256 ^ w := fun w bs hbs =>
      (leNat_lt bs).trans_le (Nat.pow_le_pow_right (by decide) hbs)
    refine List.forall_mem_cons.mpr ⟨⟨hbound 4 _ (List.length_take_le ..), hbound 8 _ ?_⟩, ih _⟩
    rw [length_drop, length_take]
    omega

/-- Neighbours in order are all in order. -/
theorem windows_iff (safe : List (ℕ × ℕ)) :
    ((safe.zip safe.tail).all fun w => w.1.1 < w.2.1) = true ↔
      safe.Pairwise fun a b => a.1 < b.1 := by
  have hchain : ∀ safe : List (ℕ × ℕ), ((safe.zip safe.tail).all fun w => w.1.1 < w.2.1) = true ↔
      safe.IsChain fun a b => a.1 < b.1 := by
    intro safe
    induction safe with
    | nil => simp
    | cons a safe ih =>
      cases safe with
      | nil => simp
      | cons b safe =>
        rw [List.isChain_cons_cons, ← ih]
        simp
  rw [hchain]
  have : IsTrans (ℕ × ℕ) fun a b => a.1 < b.1 := ⟨fun _ _ _ => Nat.lt_trans⟩
  exact List.isChain_iff_pairwise

end ProgressFile

/-- **Valid progress**: its integers fit their types, the namespaces are sorted and unique, and no
safe offset is below the cut. -/
structure Progress.Valid (p : Progress) : Prop where
  cut_lt : p.cut < 2 ^ 64
  fits : ∀ e ∈ p.safe, ProgressFile.EntryFits e
  sorted : p.safe.Pairwise fun a b => a.1 < b.1
  above : ∀ e ∈ p.safe, p.cut ≤ e.2

namespace ProgressFile

variable (f : ProgressFile)

/-! ### Round trips -/

theorem ensure_bind_eq_ok [Decidable c] {g : Unit → Except DecodeError β} {b : β} :
    (ensure c damage >>= g) = .ok b ↔ c ∧ g () = .ok b := by
  unfold ensure
  split
  · next hc => exact ⟨fun h => ⟨hc, h⟩, And.right⟩
  · next hc => exact ⟨nofun, fun h => absurd h.1 hc⟩

theorem readAt_append_drop (bytes : List UInt8) (off n : ℕ) :
    readAt bytes off n ++ bytes.drop (off + n) = bytes.drop off := by
  rw [readAt, ← List.drop_drop, take_append_drop]

theorem leBytes_readAt {off : ℕ} (h : off + n ≤ bytes.length) :
    leBytes n (leNat (readAt bytes off n)) = readAt bytes off n := by
  have hle := leBytes_leNat (readAt bytes off n)
  rwa [length_readAt, min_eq_left (by omega)] at hle

/-- **What is accepted was encoded.** -/
theorem eq_body_of_check {body crc : List UInt8} (hcrc : crc.length = 4)
    (h : f.check body crc = .ok (p, extra)) :
    body = f.body p extra ∧ crc = leBytes 4 (f.crc32 body).toNat ∧ p.Valid ∧
      p.safe.length < 2 ^ 32 ∧ extra.length < 2 ^ 32 := by
  unfold check at h
  simp only [ensure_bind_eq_ok] at h
  obtain ⟨hmagic, hsum, hversion, hfits, htotal, hsorted, h⟩ := h
  rw [windows_iff] at hsorted
  split at h
  · cases h
  · next hfind =>
    obtain ⟨rfl, rfl⟩ := Prod.mk.inj (Except.ok.inj h)
    simp only [progressFixedLen, progressEntryLen] at *
    have hcount := leNat_readAt_lt body 16 4
    have hextra := leNat_readAt_lt body (20 + leNat (readAt body 16 4) * 12) 4
    generalize hn : leNat (readAt body 16 4) = n at *
    have hdiv : n * 12 / 12 = n := Nat.mul_div_cancel _ (by decide)
    rw [hdiv] at hsorted hfind ⊢
    have htable : (entries n (readAt body 20 (n * 12))).flatMap entryBytes =
        readAt body 20 (n * 12) := table_entries (by rw [length_readAt]; omega)
    have hdrop : (body.drop (20 + n * 12 + 4)).length =
        leNat (readAt body (20 + n * 12) 4) := by
      rw [length_drop]
      omega
    refine ⟨?_, ?_, ⟨leNat_readAt_lt body 8 8, entries_fit _ _, hsorted, fun e he => ?_⟩, ?_, ?_⟩
    · unfold ProgressFile.body
      simp only [length_entries, htable, hdrop]
      rw [← hmagic, ← hversion, ← hn, leBytes_readAt (by omega), leBytes_readAt (by omega),
        leBytes_readAt (by omega), leBytes_readAt (by omega), hn]
      simp only [append_assoc]
      rw [readAt_append_drop, readAt_append_drop, readAt_append_drop, readAt_append_drop,
        readAt_append_drop, readAt_append_drop, drop_zero]
    · rw [hsum]
      have hle := leBytes_leNat crc
      rw [hcrc] at hle
      exact hle.symm
    · have hnot := List.find?_eq_none.mp hfind e he
      simp only [decide_eq_true_eq, not_lt] at hnot
      exact hnot
    · rw [length_entries]
      exact hcount
    · rw [hdrop]
      exact hextra

/-- What stands at a known place of a byte string. -/
theorem readAt_eq (pre mid rest : List UInt8) {off : ℕ} (h : bytes = pre ++ (mid ++ rest))
    (hoff : pre.length = off) (hn : mid.length = n) : readAt bytes off n = mid := by
  subst h hoff hn
  exact readAt_append pre mid rest

/-- **What was encoded is accepted.** -/
theorem check_body (hp : p.Valid) (hn : p.safe.length < 2 ^ 32) (hextra : extra.length < 2 ^ 32) :
    f.check (f.body p extra) (leBytes 4 (f.crc32 (f.body p extra)).toNat) = .ok (p, extra) := by
  have hlen := f.length_magic
  have htable := length_table p.safe
  have hmagic : readAt (f.body p extra) 0 4 = f.magic :=
    readAt_eq [] _ _ (by simp only [body, append_assoc]; rfl) rfl hlen
  have hversion : readAt (f.body p extra) 4 4 = leBytes 4 progressVersion :=
    readAt_eq f.magic _ _ (by simp only [body, append_assoc]; rfl) hlen (length_leBytes ..)
  have hcut : readAt (f.body p extra) 8 8 = leBytes 8 p.cut :=
    readAt_eq (f.magic ++ leBytes 4 progressVersion) _ _
      (by simp only [body, append_assoc]; rfl) (by simp [hlen]) (length_leBytes ..)
  have hcount : readAt (f.body p extra) 16 4 = leBytes 4 p.safe.length :=
    readAt_eq (f.magic ++ leBytes 4 progressVersion ++ leBytes 8 p.cut) _ _
      (by simp only [body, append_assoc]; rfl) (by simp [hlen]) (length_leBytes ..)
  have hrows : readAt (f.body p extra) progressFixedLen (p.safe.length * progressEntryLen) =
      p.safe.flatMap entryBytes :=
    readAt_eq (f.magic ++ leBytes 4 progressVersion ++ leBytes 8 p.cut ++
      leBytes 4 p.safe.length) _ _ (by simp only [body, append_assoc]; rfl)
      (by simp [hlen, progressFixedLen]) (by rw [htable, Nat.mul_comm, progressEntryLen])
  have hextraLen : readAt (f.body p extra) (progressFixedLen + p.safe.length * progressEntryLen) 4 =
      leBytes 4 extra.length :=
    readAt_eq (f.magic ++ leBytes 4 progressVersion ++ leBytes 8 p.cut ++
      leBytes 4 p.safe.length ++ p.safe.flatMap entryBytes) _ extra
      (by simp only [body, append_assoc])
      (by simp [hlen, htable, progressFixedLen, progressEntryLen]; omega) (length_leBytes ..)
  have hdrop : (f.body p extra).drop (progressFixedLen + p.safe.length * progressEntryLen + 4) =
      extra := drop_left' (by simp [hlen, htable, progressFixedLen, progressEntryLen]; omega)
  have htotal : (f.body p extra).length =
      progressFixedLen + p.safe.length * progressEntryLen + 4 + extra.length := by
    simp [body, hlen, htable, progressFixedLen, progressEntryLen]
    omega
  have hfind : p.safe.find? (fun e => e.2 < p.cut) = none := by
    refine List.find?_eq_none.mpr fun e he => ?_
    rw [decide_eq_true_eq, not_lt]
    exact hp.above e he
  have hdiv : p.safe.length * progressEntryLen / progressEntryLen = p.safe.length :=
    Nat.mul_div_cancel _ (by decide)
  unfold check
  simp only [ensure_bind_eq_ok]
  have hcrc := leNat_leBytes_of_lt (w := 4) (UInt32.toNat_lt (f.crc32 (f.body p extra)))
  have hv : leNat (leBytes 4 progressVersion) = progressVersion := leNat_leBytes_of_lt (by decide)
  have hsafe := leNat_leBytes_of_lt (w := 4) hn
  have hbytes := leNat_leBytes_of_lt (w := 4) hextra
  have hword := leNat_leBytes_of_lt (w := 8) hp.cut_lt
  rw [hcount, hsafe, hrows, hextraLen, hbytes, hdiv, entries_table hp.fits, hversion, hv, hcut,
    hword, hfind, hdrop, windows_iff, hcrc]
  exact ⟨hmagic, rfl, rfl, by omega, htotal, hp.sorted, rfl⟩

theorem length_encode (p : Progress) (extra : List UInt8) :
    (f.encode p extra).length = 20 + p.safe.length * 12 + 8 + extra.length := by
  have hlen := f.length_magic
  have htable := length_table p.safe
  simp [encode, body, hlen, htable]
  omega

/-- **Decoding is exact.** A byte string is accepted exactly when it is the encoding of valid
progress whose counts fit. -/
theorem decode_eq_ok_iff (hsize : bytes.length < 2 ^ 63) : f.decode bytes = .ok (p, extra) ↔
      bytes = f.encode p extra ∧ p.Valid ∧ p.safe.length < 2 ^ 32 ∧ extra.length < 2 ^ 32 := by
  by_cases hshort : bytes.length < 28
  · rw [f.decode_short hshort]
    constructor
    · nofun
    · rintro ⟨h, -⟩
      have hlen := f.length_encode p extra
      rw [← h] at hlen
      omega
  · have hsplit := take_append_drop (bytes.length - 4) bytes
    have hbody : (bytes.take (bytes.length - 4)).length = bytes.length - 4 := by
      rw [length_take]
      omega
    have hcrc : (bytes.drop (bytes.length - 4)).length = 4 := by
      rw [length_drop]
      omega
    have hdecode : f.decode bytes = f.check (bytes.take (bytes.length - 4))
        (bytes.drop (bytes.length - 4)) := by
      conv_lhs => rw [← hsplit]
      exact f.decode_append _ _ (by omega) hcrc (by omega)
    rw [hdecode]
    constructor
    · intro h
      obtain ⟨hb, hc, hrest⟩ := f.eq_body_of_check hcrc h
      refine ⟨?_, hrest⟩
      rw [← hsplit, hc, encode, ← hb]
    · rintro ⟨h, hp, hn, hextra⟩
      have hlen : (f.body p extra).length = bytes.length - 4 := by
        have htotal := congrArg List.length h
        rw [encode, length_append, length_leBytes] at htotal
        omega
      rw [← hlen, h, encode, List.take_left, List.drop_left]
      exact f.check_body hp hn hextra

/-- The length of a file is told by its own counts. -/
theorem counts_encode (hn : p.safe.length < 2 ^ 32) (hextra : extra.length < 2 ^ 32)
    (rest : List UInt8) :
    leNat (readAt (f.encode p extra ++ rest) 16 4) = p.safe.length ∧
      leNat (readAt (f.encode p extra ++ rest) (20 + p.safe.length * 12) 4) = extra.length := by
  have hlen := f.length_magic
  have htable := length_table p.safe
  constructor
  · rw [readAt_eq (f.magic ++ leBytes 4 progressVersion ++ leBytes 8 p.cut)
      (leBytes 4 p.safe.length) _ (by simp only [encode, body, append_assoc]; rfl)
      (by simp [hlen]) (length_leBytes ..)]
    exact leNat_leBytes_of_lt hn
  · rw [readAt_eq (f.magic ++ leBytes 4 progressVersion ++ leBytes 8 p.cut ++
      leBytes 4 p.safe.length ++ p.safe.flatMap entryBytes) (leBytes 4 extra.length) _
      (by simp only [encode, body, append_assoc]; rfl) (by simp [hlen, htable]; omega)
      (length_leBytes ..)]
    exact leNat_leBytes_of_lt hextra

/-- **No file is a proper start of another**, so a truncated or extended file is never accepted,
whatever its checksum says. -/
theorem encode_append_eq {q : Progress} (hp : p.safe.length < 2 ^ 32) (hq : q.safe.length < 2 ^ 32)
    {other : List UInt8} (hextra : extra.length < 2 ^ 32) (hother : other.length < 2 ^ 32)
    {rest : List UInt8} (h : f.encode p extra ++ rest = f.encode q other) : rest = [] := by
  obtain ⟨hcount, hbytes⟩ := f.counts_encode hp hextra rest
  obtain ⟨hcount', hbytes'⟩ := f.counts_encode hq hother []
  rw [List.append_nil, ← h] at hcount' hbytes'
  rw [hcount] at hcount'
  rw [← hcount', hbytes] at hbytes'
  have hlen := congrArg List.length h
  rw [length_append, f.length_encode, f.length_encode] at hlen
  exact List.length_eq_zero_iff.mp (by omega)

/-- Every byte string that is not accepted is reported as corruption. -/
theorem decode_ok_or_corruption (hsize : bytes.length < 2 ^ 63) :
    (∃ p extra, f.decode bytes = .ok (p, extra)) ∨
      ∃ damage, f.decode bytes = .error (.corruption damage) := by
  rcases h : f.decode bytes with (damage | _) | ⟨p, extra⟩
  · exact .inr ⟨damage, rfl⟩
  · exact absurd h (f.decode_ne_panic hsize)
  · exact .inl ⟨p, extra, rfl⟩

end ProgressFile

end SegmentedLog

end Minnal
