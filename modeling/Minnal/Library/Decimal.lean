import Minnal.Library.Bytes

/-!
# Decimal integers

Integers as a run of decimal digits behind an optional sign: `parseI64` reads one of 64 signed bits,
and `printI64` writes it. What was written is read back (`parseI64_printI64`).
-/

namespace Decimal

def isDigit (b : UInt8) : Bool := decide (0x30 ≤ b ∧ b ≤ 0x39)

/-- The number a run of digits spells. -/
def digitsValue (digits : List UInt8) : ℕ := digits.foldl (fun n b => n * 10 + (b.toNat - 0x30)) 0

/-- The number of a non-empty run of digits. -/
def parseNat (digits : List UInt8) : Option ℕ :=
  if digits ≠ [] ∧ digits.all isDigit = true then some (digitsValue digits) else none

/-- An integer, if it is one of 64 signed bits. -/
def toI64 (n : ℤ) : Option Int64 :=
  if -2 ^ 63 ≤ n ∧ n < 2 ^ 63 then some (Int64.ofInt n) else none

/-- `str::parse::<i64>`: an optional sign, then at least one digit. -/
def parseI64 : List UInt8 → Option Int64
  | 0x2d :: digits => (parseNat digits).bind fun n => toI64 (-n)
  | 0x2b :: digits => (parseNat digits).bind fun n => toI64 n
  | digits => (parseNat digits).bind fun n => toI64 n

/-- The digit of a number below ten. -/
def digitByte (d : ℕ) : UInt8 := UInt8.ofNat (d + 0x30)

def printNat (n : ℕ) : List UInt8 :=
  if n = 0 then [0x30] else (Nat.digits 10 n).reverse.map digitByte

def printI64 (n : Int64) : List UInt8 :=
  if n.toInt < 0 then 0x2d :: printNat n.toInt.natAbs else printNat n.toInt.natAbs

/-! ### What was written is read back -/

theorem digitByte_toNat {d : ℕ} (hd : d < 10) : (digitByte d).toNat = d + 0x30 := by
  rw [digitByte, UInt8.toNat_ofNat']
  omega

theorem isDigit_digitByte {d : ℕ} (hd : d < 10) : isDigit (digitByte d) = true := by
  have hnat := digitByte_toNat hd
  refine decide_eq_true ⟨?_, ?_⟩
  · rw [UInt8.le_iff_toNat_le, hnat]
    exact Nat.le_add_left _ _
  · rw [UInt8.le_iff_toNat_le, hnat]
    have hnine : (0x39 : UInt8).toNat = 9 + 0x30 := by decide
    omega

theorem digitsValue_map {l : List ℕ} (hl : ∀ d ∈ l, d < 10) :
    digitsValue (l.reverse.map digitByte) = Nat.ofDigits 10 l := by
  induction l with
  | nil => rfl
  | cons d l ih =>
    have hd := digitByte_toNat (hl d List.mem_cons_self)
    have hrest := ih fun e he => hl e (List.mem_cons_of_mem _ he)
    rw [digitsValue] at hrest
    rw [List.reverse_cons, List.map_append, List.map_singleton, digitsValue, List.foldl_append,
      hrest, List.foldl_cons, List.foldl_nil, hd, Nat.ofDigits_cons, Nat.add_sub_cancel]
    ring

theorem printNat_ne_nil (n : ℕ) : printNat n ≠ [] := by
  rw [printNat]
  split_ifs with h
  · exact List.cons_ne_nil _ _
  · have hdigits : Nat.digits 10 n ≠ [] := Nat.digits_ne_nil_iff_ne_zero.mpr h
    rwa [ne_eq, List.map_eq_nil_iff, List.reverse_eq_nil_iff]

theorem all_isDigit_printNat (n : ℕ) : ∀ b ∈ printNat n, isDigit b = true := by
  rw [printNat]
  split_ifs
  · simp [isDigit]
  · intro b hb
    obtain ⟨d, hd, rfl⟩ := List.mem_map.mp hb
    exact isDigit_digitByte (Nat.digits_lt_base (by decide) (List.mem_reverse.mp hd))

theorem digitsValue_printNat (n : ℕ) : digitsValue (printNat n) = n := by
  rw [printNat]
  split_ifs with h
  · rw [h]
    rfl
  · rw [digitsValue_map fun d hd => Nat.digits_lt_base (by decide) hd, Nat.ofDigits_digits]

theorem parseNat_printNat (n : ℕ) : parseNat (printNat n) = some n := by
  rw [parseNat, if_pos ⟨printNat_ne_nil n, List.all_eq_true.mpr (all_isDigit_printNat n)⟩,
    digitsValue_printNat]

theorem toI64_toInt (n : Int64) : toI64 n.toInt = some n := by
  rw [toI64, if_pos ⟨n.le_toInt, n.toInt_lt⟩, Int64.ofInt_toInt]

/-- A number without a sign is read by its digits. -/
theorem parseI64_digits {digits : List UInt8} (h : ∀ b ∈ digits, isDigit b = true) :
    parseI64 digits = (parseNat digits).bind fun n => toI64 n := by
  rw [parseI64.eq_def]
  split
  · exact absurd (h _ List.mem_cons_self) (by decide)
  · exact absurd (h _ List.mem_cons_self) (by decide)
  · rfl

/-- **Round trip.** -/
theorem parseI64_printI64 (n : Int64) : parseI64 (printI64 n) = some n := by
  rw [printI64]
  split_ifs with hneg
  · have habs : -(n.toInt.natAbs : ℤ) = n.toInt := by omega
    rw [parseI64, parseNat_printNat, Option.bind_some, habs, toI64_toInt]
  · have habs : (n.toInt.natAbs : ℤ) = n.toInt := by omega
    rw [parseI64_digits (all_isDigit_printNat _), parseNat_printNat, Option.bind_some, habs,
      toI64_toInt]

end Decimal
