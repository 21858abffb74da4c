import Minnal.Query.Acceptance

/-!
# Queries are printed and parsed back

A tree is printed with as few parentheses as the grammar allows: around an `OR` that is an operand
of `AND` or the right operand of `OR`, around an `AND` that is the right operand of `AND`, and
around either below a `NOT`. Strings are quoted with their quotes and backslashes escaped, and the
tokens stand apart by a blank. Lexing the text gives the tokens back, they derive the tree, and so
parsing returns it.
-/

set_option linter.dupNamespace false

namespace Minnal

namespace Query

open ByteReads Outcomes Decimal
open List (mem_cons_self forall_mem_cons cons_append mem_cons_of_mem append_assoc mem_singleton)

/-! ### Printing -/

/-- Quotes and backslashes behind a backslash. -/
def escape (bytes : List UInt8) : List UInt8 :=
  bytes.flatMap fun b => if b = 0x22 ∨ b = 0x5c then [0x5c, b] else [b]

/-- The text of a token. -/
def Token.bytes : Token → List UInt8
  | .Ident name => utf8 name
  | .StrLit s => 0x22 :: (escape (utf8 s) ++ [0x22])
  | .IntLit n => Decimal.printI64 n
  | .BoolLit true => [0x54, 0x52, 0x55, 0x45]
  | .BoolLit false => [0x46, 0x41, 0x4c, 0x53, 0x45]
  | .Eq => [0x3d]
  | .Ne => [0x21, 0x3d]
  | .Lt => [0x3c]
  | .Le => [0x3c, 0x3d]
  | .Gt => [0x3e]
  | .Ge => [0x3e, 0x3d]
  | .And => [0x41, 0x4e, 0x44]
  | .Or => [0x4f, 0x52]
  | .Not => [0x4e, 0x4f, 0x54]
  | .In => [0x49, 0x4e]
  | .LParen => [0x28]
  | .RParen => [0x29]
  | .Comma => [0x2c]
  | .Eof => []

/-- Each token behind a blank. -/
def renderRest (ts : List Token) : List UInt8 := ts.flatMap fun t => 0x20 :: t.bytes

/-- Tokens with a blank between them. -/
def render : List Token → List UInt8
  | [] => []
  | t :: ts => t.bytes ++ renderRest ts

def Op.token : Op → Token
  | .Eq => .Eq
  | .Ne => .Ne
  | .Lt => .Lt
  | .Le => .Le
  | .Gt => .Gt
  | .Ge => .Ge
  | .In => .In

/-- The token of a literal. -/
def RawValue.token : RawValue → Token
  | .Str s => .StrLit s
  | .Int n => .IntLit n
  | .Bool b => .BoolLit b
  | .List _ => .Eof

/-- Literals with commas between them. -/
def itemTokens : List RawValue → List Token
  | [] => []
  | [v] => [v.token]
  | v :: w :: vs => v.token :: .Comma :: itemTokens (w :: vs)

def valueTokens : RawValue → List Token
  | .List items => .LParen :: (itemTokens items ++ [.RParen])
  | v => [v.token]

def RawExpr.isOr : RawExpr → Bool
  | .Or _ _ => true
  | _ => false

def RawExpr.isBinary : RawExpr → Bool
  | .Or _ _ | .And _ _ => true
  | _ => false

/-- Parentheses where they are needed. -/
def inParens (needed : Bool) (ts : List Token) : List Token :=
  if needed then .LParen :: (ts ++ [Token.RParen]) else ts

/-- **The tokens of a tree**, with as few parentheses as there can be. -/
def RawExpr.tokens : RawExpr → List Token
  | .Or l r => l.tokens ++ .Or :: inParens r.isOr r.tokens
  | .And l r => inParens l.isOr l.tokens ++ .And :: inParens r.isBinary r.tokens
  | .Not e => .Not :: inParens e.isBinary e.tokens
  | .Predicate field op value => .Ident field :: op.token :: valueTokens value

/-- How many `(` and `NOT` are open at once in the printed tree. -/
def RawExpr.openDepth : RawExpr → ℕ
  | .Or l r => max l.openDepth (r.openDepth + r.isOr.toNat)
  | .And l r => max (l.openDepth + l.isOr.toNat) (r.openDepth + r.isBinary.toNat)
  | .Not e => e.openDepth + e.isBinary.toNat + 1
  | .Predicate .. => 0

def RawExpr.print (e : RawExpr) : List UInt8 := render e.tokens

/-! ### The printed tree is a text -/

/-- Escaping leaves the bytes of a longer character alone. -/
theorem isText_escape (s : String) : IsText (escape (utf8 s)) := by
  rw [utf8_eq_flatMap, escape, List.flatMap_assoc]
  refine IsText.flatMap fun c _ => ?_
  have hchar : IsText (String.utf8EncodeChar c) :=
    ⟨String.ofList [c], by rw [utf8_ofList, List.flatMap_singleton]⟩
  rcases utf8EncodeChar_cases c with ⟨b, hb, hc⟩ | hhigh
  · rw [hc, List.flatMap_singleton]
    split_ifs
    · exact isText_ascii (by simp [hb])
    · exact hc ▸ hchar
  · have hplain : ∀ b ∈ String.utf8EncodeChar c,
        (if b = 0x22 ∨ b = 0x5c then [0x5c, b] else [b]) = [b] := by
      intro b hb
      have hge := hhigh b hb
      refine if_neg ?_
      rintro (rfl | rfl)
      · exact absurd hge (by decide)
      · exact absurd hge (by decide)
    rw [List.flatMap_congr hplain, List.flatMap_singleton']
    exact hchar

theorem isText_printI64 (n : Int64) : IsText (printI64 n) := by
  have hdigits : ∀ b ∈ printNat n.toInt.natAbs, b < 0x80 := fun b hb =>
    Lexer.isDigit_lt (all_isDigit_printNat _ b hb)
  rw [printI64]
  split_ifs
  · exact isText_ascii (forall_mem_cons.mpr ⟨by decide, hdigits⟩)
  · exact isText_ascii hdigits

theorem isText_bytes (t : Token) : IsText t.bytes := by
  have hconst : ∀ bytes : List UInt8, (bytes.all fun b => decide (b < 0x80)) = true →
      IsText bytes := fun bytes h =>
    isText_ascii fun b hb => of_decide_eq_true (List.all_eq_true.mp h b hb)
  cases t with
  | Ident name => exact isText_utf8 name
  | StrLit s =>
    exact (hconst [0x22] (by decide)).append ((isText_escape s).append (hconst [0x22] (by decide)))
  | IntLit n => exact isText_printI64 n
  | BoolLit b =>
    cases b with
    | true | false => exact hconst _ (by decide)
  | _ => exact hconst _ (by decide)

/-- **The printed tree is a text.** -/
theorem RawExpr.isText_print (e : RawExpr) : IsText e.print := by
  have hblank : IsText [0x20] := isText_ascii (List.forall_mem_singleton.mpr (by decide))
  have hrest : ∀ ts : List Token, IsText (renderRest ts) := fun ts =>
    IsText.flatMap fun t _ => hblank.append (isText_bytes t)
  rw [print]
  cases e.tokens with
  | nil => exact hrest []
  | cons t ts => exact (isText_bytes t).append (hrest ts)

/-! ### What can be printed -/

/-- A name that the lexer takes for an identifier and not for a keyword. -/
structure FieldName (name : String) : Prop where
  first : ∃ b rest, utf8 name = b :: rest ∧ Lexer.isLetter b = true
  word : ∀ b ∈ utf8 name, Lexer.isWordByte b = true
  not_keyword : Lexer.keyword ((utf8 name).map Lexer.upperByte) = none

def RawValue.IsScalar : RawValue → Prop
  | .List _ => False
  | _ => True

/-- A list that is not empty behind `IN`, and a literal behind the other operators. -/
def RawValue.Fits (op : Op) : RawValue → Prop
  | .List items => op = .In ∧ items ≠ [] ∧ ∀ v ∈ items, v.IsScalar
  | _ => op ≠ .In

def RawExpr.Printable : RawExpr → Prop
  | .Or l r | .And l r => l.Printable ∧ r.Printable
  | .Not e => e.Printable
  | .Predicate field op value => FieldName field ∧ value.Fits op

/-! ### The tokens derive the tree -/

variable {v : RawValue}

theorem RawValue.scalar_token (h : v.IsScalar) : Scalar v.token v := by
  cases v with
  | Str s => exact .str s
  | Int n => exact .int n
  | Bool b => exact .bool b
  | List items => exact h.elim

variable {items : List RawValue}

theorem items_itemTokens (hne : items ≠ []) (h : ∀ v ∈ items, v.IsScalar) :
    Items (itemTokens items) items := by
  induction items with
  | nil => exact absurd rfl hne
  | cons v items ih =>
    have hv := RawValue.scalar_token (h v mem_cons_self)
    cases items with
    | nil => exact .one hv
    | cons w items =>
      exact .more hv (ih (List.cons_ne_nil _ _) fun u hu => h u (mem_cons_of_mem _ hu))

variable {op : Op}

theorem value_valueTokens (h : v.Fits op) : Value op (valueTokens v) v := by
  cases v with
  | Str s => exact .scalar h (.str s)
  | Int n => exact .scalar h (.int n)
  | Bool b => exact .scalar h (.bool b)
  | List items =>
    obtain ⟨rfl, hne, hscalar⟩ := h
    exact .list (items_itemTokens hne hscalar)

theorem Op.operator_token (op : Op) : Parser.operator op.token = some op := by
  cases op <;> rfl

/-- How tightly a tree binds without parentheses. -/
def RawExpr.level : RawExpr → Level
  | .Or _ _ => .or
  | .And _ _ => .and
  | _ => .term

variable {d : ℕ} {ts : List Token} {e : RawExpr}

/-- A tree derives at every looser level. -/
theorem Derives.to_or {level : Level} (h : Derives level d ts e) : Derives .or d ts e := by
  cases level with
  | or => exact h
  | and => exact .or_one h
  | term => exact .or_one (.and_one h)

variable {needed : Bool}

/-- An operand that is put in parentheses where it binds too loosely. -/
theorem Derives.operand (h : ∀ d, e.openDepth ≤ d → Derives e.level d ts e)
    (hd : e.openDepth + needed.toNat ≤ d) :
    (needed = true → Derives .term d (inParens needed ts) e) ∧
      (needed = false → Derives e.level d (inParens needed ts) e) := by
  constructor
  · rintro rfl
    obtain ⟨d, rfl⟩ : ∃ n, d = n + 1 := ⟨d - 1, by rw [Bool.toNat_true] at hd; omega⟩
    exact .paren (h d (Nat.le_of_succ_le_succ hd)).to_or
  · rintro rfl
    exact h d hd

/-- **The printed tokens derive the tree.** -/
theorem RawExpr.derives_tokens (h : e.Printable) (hd : e.openDepth ≤ d) :
    Derives e.level d e.tokens e := by
  induction e generalizing d with
  | Or l r ihl ihr =>
    obtain ⟨hl, hr⟩ := Nat.max_le.mp hd
    obtain ⟨hpar, hbare⟩ := Derives.operand (fun d => ihr h.2) hr
    refine .or_more (ihl h.1 hl).to_or ?_
    cases hneeded : r.isOr with
    | true => exact .and_one (hneeded ▸ hpar hneeded)
    | false =>
      have hright := hbare hneeded
      rw [hneeded] at hright
      cases r with
      | Or => cases hneeded
      | And => exact hright
      | Not | Predicate => exact .and_one hright
  | And l r ihl ihr =>
    obtain ⟨hl, hr⟩ := Nat.max_le.mp hd
    obtain ⟨hparl, hbarel⟩ := Derives.operand (fun d => ihl h.1) hl
    obtain ⟨hparr, hbarer⟩ := Derives.operand (fun d => ihr h.2) hr
    refine .and_more ?_ ?_
    · cases hneeded : l.isOr with
      | true => exact .and_one (hneeded ▸ hparl hneeded)
      | false =>
        have hleft := hbarel hneeded
        rw [hneeded] at hleft
        cases l with
        | Or => cases hneeded
        | And => exact hleft
        | Not | Predicate => exact .and_one hleft
    · cases hneeded : r.isBinary with
      | true => exact hneeded ▸ hparr hneeded
      | false =>
        have hright := hbarer hneeded
        rw [hneeded] at hright
        cases r with
        | Or | And => cases hneeded
        | Not | Predicate => exact hright
  | Not e ih =>
    obtain ⟨d, rfl⟩ : ∃ n, d = n + 1 := ⟨d - 1, by rw [RawExpr.openDepth] at hd; omega⟩
    obtain ⟨hpar, hbare⟩ := Derives.operand (fun d => ih h) (Nat.le_of_succ_le_succ hd)
    refine .not ?_
    cases hneeded : e.isBinary with
    | true => exact hneeded ▸ hpar hneeded
    | false =>
      have hinner := hbare hneeded
      rw [hneeded] at hinner
      cases e with
      | Or | And => cases hneeded
      | Not | Predicate => exact hinner
  | Predicate field op value => exact .predicate op.operator_token (value_valueTokens h.2)

/-! ### The text is lexed into the tokens -/

/-- What may follow a token: the end or a blank. -/
def Boundary (rest : List UInt8) : Prop := ∀ b ∈ rest.head?, b = 0x20

theorem boundary_renderRest (ts : List Token) : Boundary (renderRest ts) := by
  cases ts with
  | nil => exact fun b hb => absurd hb (Option.not_mem_none b)
  | cons t ts => exact fun b hb => (Option.some.inj hb).symm

variable {word rest : List UInt8}

/-- The bytes of a word end at a boundary. -/
theorem takeWhile_boundary {p : UInt8 → Bool} (hword : ∀ b ∈ word, p b = true)
    (hrest : Boundary rest) (hblank : p 0x20 = false) :
    (word ++ rest).takeWhile p = word ∧ (word ++ rest).dropWhile p = rest := by
  rw [List.takeWhile_append_of_pos hword, List.dropWhile_append_of_pos hword]
  cases rest with
  | nil => simp
  | cons b rest =>
    obtain rfl := hrest b rfl
    rw [List.takeWhile_cons_of_neg (by simp [hblank]),
      List.dropWhile_cons_of_neg (by simp [hblank]), List.append_nil]
    exact ⟨rfl, rfl⟩

namespace Lexer

variable {l : Lexer} {more : List UInt8} {b : UInt8}

/-- White space before a token is skipped. -/
theorem skip_whitespace_rest {ws : List UInt8} (hl : l.rest = ws ++ b :: more)
    (hws : ∀ c ∈ ws, isSpace c = true) (hb : isSpace b = false) :
    l.skip_whitespace.rest = b :: more := by
  rw [skip_whitespace, upTo, hl, List.dropWhile_append_of_pos hws,
    List.dropWhile_cons_of_neg (by simp [hb])]

variable {ch : UInt8}

theorem next_token_letter (hl : l.skip_whitespace.rest = ch :: more) (h : isLetter ch = true) :
    l.next_token = l.skip_whitespace.lex_ident := by
  have hne : ∀ c : UInt8, isLetter c = false → ch ≠ c := by
    rintro c hc rfl
    rw [h] at hc
    cases hc
  have hdigit : isDigit ch = false := by
    simp only [isLetter, Bool.or_eq_true, decide_eq_true_eq, beq_iff_eq] at h
    refine decide_eq_false fun hd => ?_
    rcases h with (⟨hle, -⟩ | ⟨hle, -⟩) | rfl
    · exact absurd (hle.trans hd.2) (by decide)
    · exact absurd (hle.trans hd.2) (by decide)
    · exact absurd hd.2 (by decide)
  rw [next_token]
  simp only [hl]
  rw [if_neg (hne _ (by decide)), if_neg (hne _ (by decide)), if_neg (hne _ (by decide)),
    if_neg (hne _ (by decide)), if_neg (hne _ (by decide)), if_neg (hne _ (by decide)),
    if_neg (hne _ (by decide)), if_neg, if_neg, if_pos h]
  · rw [hdigit]
    exact fun hsign => hsign.elim (hne _ (by decide)) Bool.false_ne_true
  · exact fun hquote => hquote.elim (hne _ (by decide)) (hne _ (by decide))

theorem next_token_number (hl : l.skip_whitespace.rest = ch :: more)
    (h : ch = 0x2d ∨ isDigit ch = true) : l.next_token = l.skip_whitespace.lex_number := by
  have hne : ∀ c : UInt8, c ≠ 0x2d → isDigit c = false → ch ≠ c := by
    rintro c hc hd rfl
    rcases h with h | h
    · exact hc h
    · rw [h] at hd
      cases hd
  rw [next_token]
  simp only [hl]
  rw [if_neg (hne _ (by decide) (by decide)), if_neg (hne _ (by decide) (by decide)),
    if_neg (hne _ (by decide) (by decide)), if_neg (hne _ (by decide) (by decide)),
    if_neg (hne _ (by decide) (by decide)), if_neg (hne _ (by decide) (by decide)),
    if_neg (hne _ (by decide) (by decide)), if_neg, if_pos h]
  exact fun hquote => hquote.elim (hne _ (by decide) (by decide)) (hne _ (by decide) (by decide))

/-- A word is a keyword or a name. -/
theorem lex_ident_eq {name : String} (hl : l.rest = word ++ rest)
    (hword : ∀ b ∈ word, isWordByte b = true) (hrest : Boundary rest)
    (hname : fromUtf8 word = some name) :
    l.lex_ident = .ok ((keyword (word.map upperByte)).getD (.Ident name), l.upTo rest) := by
  obtain ⟨htake, hdrop⟩ := takeWhile_boundary hword hrest (by decide)
  rw [lex_ident, hl, htake, hdrop, hname]

variable {n : Int64}

/-- A number is its sign and its digits. -/
theorem lex_number_parts {sign digits : List UInt8} (hl : l.rest = sign ++ (digits ++ rest))
    (hafter : (if l.rest.head? = some 0x2d then l.rest.tail else l.rest) = digits ++ rest)
    (hsign : ∀ b ∈ sign, b < 0x80) (hdigits : ∀ b ∈ digits, isDigit b = true)
    (hne : digits ≠ []) (hrest : Boundary rest)
    (hparse : parseI64 (sign ++ digits) = some n) :
    l.lex_number = .ok (.IntLit n, l.upTo rest) := by
  obtain ⟨htake, hdrop⟩ := takeWhile_boundary hdigits hrest (by decide)
  have hliteral : l.rest.take (l.rest.length - rest.length) = sign ++ digits := by
    rw [hl, ← append_assoc, List.length_append, Nat.add_sub_cancel, List.take_left]
  obtain ⟨digitsText, hdigitsText⟩ := fromUtf8_ascii _ fun b hb => isDigit_lt (hdigits b hb)
  obtain ⟨literalText, hliteralText⟩ := fromUtf8_ascii (sign ++ digits) fun b hb =>
    (List.mem_append.mp hb).elim (hsign b) fun hd => isDigit_lt (hdigits b hd)
  rw [lex_number, hafter]
  simp only [htake, hdrop, hliteral, hdigitsText, hliteralText, if_neg hne, hparse]

/-- A number is read as it was printed. -/
theorem lex_number_eq (hl : l.rest = printI64 n ++ rest) (hrest : Boundary rest) :
    l.lex_number = .ok (.IntLit n, l.upTo rest) := by
  have hround := parseI64_printI64 n
  have hdigits := all_isDigit_printNat n.toInt.natAbs
  have hne := printNat_ne_nil n.toInt.natAbs
  rw [printI64] at hl hround
  split_ifs at hl hround with hneg
  · have hsign : ∀ b ∈ [(0x2d : UInt8)], b < 0x80 := fun b hb => by
      rw [mem_singleton.mp hb]
      decide
    have hsplit : l.rest = [0x2d] ++ (printNat n.toInt.natAbs ++ rest) := hl
    refine lex_number_parts hsplit ?_ hsign hdigits hne hrest hround
    rw [hl]
    rfl
  · have hsplit : l.rest = [] ++ (printNat n.toInt.natAbs ++ rest) := hl
    refine lex_number_parts hsplit ?_ (fun b hb => absurd hb List.not_mem_nil) hdigits hne hrest
      hround
    obtain ⟨b, digits, hb⟩ := List.exists_cons_of_ne_nil hne
    have hhead : l.rest.head? ≠ some 0x2d := by
      rw [hl, hb]
      intro h
      obtain rfl := Option.some.inj h
      exact absurd (hdigits 0x2d (hb ▸ mem_cons_self)) (by decide)
    rw [if_neg hhead, hl]

theorem stringBody_plain {quote : UInt8} {tail : List UInt8} (hquote : b ≠ quote)
    (hslash : b ≠ 0x5c) (htail : tail ≠ []) :
    stringBody quote (b :: tail) = (stringBody quote tail).map fun r => (b :: r.1, r.2) := by
  obtain ⟨next, rest, rfl⟩ := List.exists_cons_of_ne_nil htail
  rw [stringBody, if_neg hquote, if_neg hslash]

/-- An escaped string is read as it was. -/
theorem stringBody_escape (bytes rest : List UInt8) :
    stringBody 0x22 (escape bytes ++ 0x22 :: rest) = .ok (bytes, rest) := by
  induction bytes with
  | nil =>
    cases rest with
    | nil => rfl
    | cons b rest => rfl
  | cons b bytes ih =>
    rw [escape, List.flatMap_cons, ← escape, append_assoc]
    split_ifs with hspecial
    · have hunescape : unescape b = [b] := by
        rcases hspecial with rfl | rfl
        · rfl
        · rfl
      rw [cons_append, cons_append, List.nil_append, stringBody, if_neg (by decide),
        if_pos rfl, ih, hunescape]
      rfl
    · rw [not_or] at hspecial
      rw [cons_append, List.nil_append, stringBody_plain hspecial.1 hspecial.2 (by simp), ih]
      rfl

theorem lex_string_eq (l : Lexer) (s : String) (rest : List UInt8) :
    l.lex_string 0x22 (escape (utf8 s) ++ 0x22 :: rest) = .ok (.StrLit s, l.upTo rest) := by
  rw [lex_string, stringBody_escape]
  dsimp only
  rw [fromUtf8_utf8]

end Lexer

/-- A token that has a text of its own. -/
def Token.Lexable : Token → Prop
  | .Ident name => FieldName name
  | .Eof => False
  | _ => True

/-- What reading a token leaves. -/
def ReadsToken (l : Lexer) (t : Token) (rest : List UInt8) : Prop :=
  ∃ l', l.next_token = .ok (t, l') ∧ l'.rest = rest

namespace Lexer

variable {b : UInt8} {l : Lexer} {t : Token}

/-- A keyword in capitals. -/
theorem readsToken_keyword {bs : List UInt8} (hl : l.skip_whitespace.rest = word ++ rest)
    (hword : word = b :: bs) (hletters : ∀ c ∈ word, isLetter c = true)
    (hkey : keyword (word.map upperByte) = some t) (hrest : Boundary rest) :
    ReadsToken l t rest := by
  have hbytes : ∀ c ∈ word, isWordByte c = true := fun c hc => by
    rw [isWordByte, hletters c hc, Bool.true_or]
  obtain ⟨name, hname⟩ := fromUtf8_ascii _ fun c hc => isWordByte_lt (hbytes c hc)
  have hfirst : isLetter b = true := hletters b (hword ▸ mem_cons_self)
  refine ⟨l.skip_whitespace.upTo rest, ?_, rfl⟩
  rw [next_token_letter (hl.trans (by rw [hword, cons_append])) hfirst,
    lex_ident_eq hl hbytes hrest hname, hkey, Option.getD_some]

theorem boundary_head (h : Boundary rest) : rest.head? ≠ some 0x3d := by
  intro heq
  exact absurd (h _ heq) (by decide)

theorem isSpace_of_isLetter (h : isLetter b = true) : isSpace b = false := by
  rw [Bool.eq_false_iff]
  intro hspace
  simp only [isSpace, Bool.or_eq_true, beq_iff_eq] at hspace
  rcases hspace with ((rfl | rfl) | rfl) | rfl
  all_goals exact absurd h (by decide)

theorem isSpace_of_number (h : b = 0x2d ∨ isDigit b = true) : isSpace b = false := by
  rw [Bool.eq_false_iff]
  intro hspace
  simp only [isSpace, Bool.or_eq_true, beq_iff_eq] at hspace
  rcases hspace with ((rfl | rfl) | rfl) | rfl
  all_goals exact absurd h (by decide)

/-- The first byte of a printed number. -/
theorem printI64_head (n : Int64) : ∃ b bs, printI64 n = b :: bs ∧
    (b = 0x2d ∨ isDigit b = true) := by
  rw [printI64]
  split_ifs
  · exact ⟨_, _, rfl, .inl rfl⟩
  · obtain ⟨b, bs, hb⟩ := List.exists_cons_of_ne_nil (printNat_ne_nil n.toInt.natAbs)
    exact ⟨b, bs, hb,
      .inr (all_isDigit_printNat n.toInt.natAbs b (hb ▸ mem_cons_self))⟩

/-- **Each token is read back from its text.** -/
theorem readsToken_bytes (ht : t.Lexable) {ws : List UInt8} (hl : l.rest = ws ++ (t.bytes ++ rest))
    (hws : ∀ b ∈ ws, isSpace b = true) (hrest : Boundary rest) : ReadsToken l t rest := by
  have hequal := boundary_head hrest
  have hskip : ∀ {b : UInt8} {bs : List UInt8}, t.bytes = b :: bs → isSpace b = false →
      l.skip_whitespace.rest = t.bytes ++ rest := by
    intro b bs hb hspace
    rw [hb, cons_append] at hl ⊢
    exact skip_whitespace_rest hl hws hspace
  -- a keyword is a word of capital letters
  have hword : ∀ {b : UInt8} {bs : List UInt8}, t.bytes = b :: bs →
      (b :: bs).all isLetter = true → keyword ((b :: bs).map upperByte) = some t →
      ReadsToken l t rest := by
    intro b bs hb hletters hkey
    have hletters := List.all_eq_true.mp hletters
    have hl' := hskip hb (isSpace_of_isLetter (hletters b mem_cons_self))
    rw [hb] at hl'
    exact readsToken_keyword hl' rfl hletters hkey hrest
  cases t with
  | Ident name =>
    obtain ⟨b, bs, hname, hletter⟩ := ht.first
    have hl' : l.skip_whitespace.rest = utf8 name ++ rest :=
      hskip hname (isSpace_of_isLetter hletter)
    have hhead : l.skip_whitespace.rest = b :: (bs ++ rest) := by rw [hl', hname]; rfl
    refine ⟨l.skip_whitespace.upTo rest, ?_, rfl⟩
    rw [next_token_letter hhead hletter, lex_ident_eq hl' ht.word hrest (fromUtf8_utf8 name),
      ht.not_keyword]
    rfl
  | StrLit s =>
    have hl' := hskip rfl (by decide)
    refine ⟨l.skip_whitespace.upTo rest, ?_, rfl⟩
    rw [Token.bytes, cons_append, append_assoc] at hl'
    rw [next_token]
    simp only [hl']
    exact lex_string_eq _ s rest
  | IntLit n =>
    obtain ⟨b, bs, hn, hb⟩ := printI64_head n
    have hl' : l.skip_whitespace.rest = printI64 n ++ rest :=
      hskip hn (isSpace_of_number hb)
    have hhead : l.skip_whitespace.rest = b :: (bs ++ rest) := by rw [hl', hn]; rfl
    exact ⟨_, by rw [next_token_number hhead hb, lex_number_eq hl' hrest], rfl⟩
  | BoolLit b =>
    cases b with
    | true | false => exact hword rfl (by decide) (by decide)
  | And | Or | Not | In => exact hword rfl (by decide) (by decide)
  | Eof => exact ht.elim
  | Eq =>
    have hl' : l.skip_whitespace.rest = 0x3d :: rest := hskip rfl (by decide)
    refine ⟨l.skip_whitespace.upTo rest, ?_, rfl⟩
    rw [next_token]
    simp only [hl']
    rfl
  | Ne =>
    have hl' : l.skip_whitespace.rest = 0x21 :: 0x3d :: rest := hskip rfl (by decide)
    refine ⟨l.skip_whitespace.upTo rest, ?_, rfl⟩
    rw [next_token]
    simp only [hl']
    rfl
  | Lt =>
    have hl' : l.skip_whitespace.rest = 0x3c :: rest := hskip rfl (by decide)
    have hshort : l.skip_whitespace.signOrEqual rest .Lt .Le =
        (.Lt, l.skip_whitespace.upTo rest) := if_neg hequal
    refine ⟨l.skip_whitespace.upTo rest, ?_, rfl⟩
    rw [next_token]
    simp only [hl']
    exact congrArg Except.ok hshort
  | Le =>
    have hl' : l.skip_whitespace.rest = 0x3c :: 0x3d :: rest := hskip rfl (by decide)
    refine ⟨l.skip_whitespace.upTo rest, ?_, rfl⟩
    rw [next_token]
    simp only [hl']
    rfl
  | Gt =>
    have hl' : l.skip_whitespace.rest = 0x3e :: rest := hskip rfl (by decide)
    have hshort : l.skip_whitespace.signOrEqual rest .Gt .Ge =
        (.Gt, l.skip_whitespace.upTo rest) := if_neg hequal
    refine ⟨l.skip_whitespace.upTo rest, ?_, rfl⟩
    rw [next_token]
    simp only [hl']
    exact congrArg Except.ok hshort
  | Ge =>
    have hl' : l.skip_whitespace.rest = 0x3e :: 0x3d :: rest := hskip rfl (by decide)
    refine ⟨l.skip_whitespace.upTo rest, ?_, rfl⟩
    rw [next_token]
    simp only [hl']
    rfl
  | LParen =>
    have hl' : l.skip_whitespace.rest = 0x28 :: rest := hskip rfl (by decide)
    refine ⟨l.skip_whitespace.upTo rest, ?_, rfl⟩
    rw [next_token]
    simp only [hl']
    rfl
  | RParen =>
    have hl' : l.skip_whitespace.rest = 0x29 :: rest := hskip rfl (by decide)
    refine ⟨l.skip_whitespace.upTo rest, ?_, rfl⟩
    rw [next_token]
    simp only [hl']
    rfl
  | Comma =>
    have hl' : l.skip_whitespace.rest = 0x2c :: rest := hskip rfl (by decide)
    refine ⟨l.skip_whitespace.upTo rest, ?_, rfl⟩
    rw [next_token]
    simp only [hl']
    rfl

end Lexer

/-- Tokens with a blank before each of them are read one by one, up to the end. -/
theorem reads_renderRest (hts : ∀ t ∈ ts, t.Lexable) {s : Stream} (hcurrent : s.current ≠ .Eof)
    (hrest : s.lexer.rest = renderRest ts) :
    ∃ s', Reads s (s.current :: ts) s' ∧ s'.current = .Eof := by
  induction ts generalizing s with
  | nil =>
    have hend : s.lexer.skip_whitespace.rest = [] := by
      rw [Lexer.skip_whitespace, Lexer.upTo, hrest]
      rfl
    have hnext : s.lexer.next_token = .ok (.Eof, s.lexer.skip_whitespace) := by
      rw [Lexer.next_token]
      simp only [hend]
    exact ⟨⟨s.lexer.skip_whitespace, .Eof, s.lexer.pos⟩,
      Reads.single hcurrent ⟨rfl, hnext, rfl⟩, rfl⟩
  | cons t ts ih =>
    have ht := hts t mem_cons_self
    have hsplit : s.lexer.rest = [0x20] ++ (t.bytes ++ renderRest ts) := hrest
    obtain ⟨l', hnext, hl'⟩ := Lexer.readsToken_bytes ht hsplit
      (List.forall_mem_singleton.mpr (by decide)) (boundary_renderRest ts)
    have hne : t ≠ .Eof := by
      rintro rfl
      exact ht
    obtain ⟨s', hreads, heof⟩ := ih (s := ⟨l', t, s.lexer.pos⟩)
      (fun u hu => hts u (mem_cons_of_mem _ hu)) hne hl'
    exact ⟨s', .cons hcurrent ⟨rfl, hnext, rfl⟩ hreads, heof⟩

/-- **Tokens are lexed back** from their text. -/
theorem lexes_render (hne : ts ≠ []) (hts : ∀ t ∈ ts, t.Lexable) : Lexes (render ts) ts := by
  obtain ⟨t, ts, rfl⟩ := List.exists_cons_of_ne_nil hne
  have ht := hts t mem_cons_self
  have hsplit : (Lexer.new (render (t :: ts))).rest = [] ++ (t.bytes ++ renderRest ts) := rfl
  obtain ⟨l, hnext, hl⟩ := Lexer.readsToken_bytes ht hsplit
    nofun (boundary_renderRest ts)
  have heof : t ≠ .Eof := by
    rintro rfl
    exact ht
  obtain ⟨s', hreads, hend⟩ := reads_renderRest (s := ⟨l, t, 0⟩)
    (fun u hu => hts u (mem_cons_of_mem _ hu)) heof hl
  exact ⟨⟨l, t, 0⟩, hnext, rfl, s', hreads, hend⟩

/-! ### Every token of a printable tree has a text -/

theorem lexable_parens (h : ∀ t ∈ ts, t.Lexable) :
    ∀ t ∈ Token.LParen :: (ts ++ [Token.RParen]), t.Lexable :=
  forall_mem_cons.mpr ⟨trivial,
    List.forall_mem_append.mpr ⟨h, List.forall_mem_singleton.mpr trivial⟩⟩

theorem lexable_inParens (h : ∀ t ∈ ts, t.Lexable) : ∀ t ∈ inParens needed ts, t.Lexable := by
  rw [inParens]
  split_ifs
  · exact lexable_parens h
  · exact h

theorem lexable_itemTokens (h : ∀ v ∈ items, v.IsScalar) : ∀ t ∈ itemTokens items, t.Lexable := by
  have hscalar : ∀ {v : RawValue}, v.IsScalar → v.token.Lexable := by
    intro v hv
    cases v with
    | List items => exact hv.elim
    | _ => trivial
  fun_induction itemTokens items with
  | case1 => exact nofun
  | case2 v =>
    intro t ht
    rw [mem_singleton.mp ht]
    exact hscalar (h v mem_cons_self)
  | case3 v w vs ih =>
    simp only [forall_mem_cons]
    exact ⟨hscalar (h v mem_cons_self), trivial,
      ih fun u hu => h u (mem_cons_of_mem _ hu)⟩

theorem lexable_valueTokens (h : v.Fits op) : ∀ t ∈ valueTokens v, t.Lexable := by
  cases v with
  | List items => exact lexable_parens (lexable_itemTokens h.2.2)
  | _ =>
    intro t ht
    rw [mem_singleton.mp ht]
    trivial

theorem RawExpr.lexable_tokens (h : e.Printable) : ∀ t ∈ e.tokens, t.Lexable := by
  induction e with
  | Or l r ihl ihr =>
    exact List.forall_mem_append.mpr ⟨ihl h.1,
      forall_mem_cons.mpr ⟨trivial, lexable_inParens (ihr h.2)⟩⟩
  | And l r ihl ihr =>
    exact List.forall_mem_append.mpr ⟨lexable_inParens (ihl h.1),
      forall_mem_cons.mpr ⟨trivial, lexable_inParens (ihr h.2)⟩⟩
  | Not e ih => exact forall_mem_cons.mpr ⟨trivial, lexable_inParens (ih h)⟩
  | Predicate field op value =>
    have hop : op.token.Lexable := by cases op <;> trivial
    exact forall_mem_cons.mpr ⟨h.1, forall_mem_cons.mpr ⟨hop, lexable_valueTokens h.2⟩⟩

theorem RawExpr.tokens_ne_nil (e : RawExpr) : e.tokens ≠ [] := by
  cases e with
  | And l r => simp [tokens]
  | Or l r => simp [tokens]
  | Not e | Predicate field op value => exact List.cons_ne_nil _ _

/-- **The round trip**: a printed tree is parsed back. -/
theorem parse_print_tree (h : e.Printable) (hdepth : e.openDepth ≤ MAX_PARSE_DEPTH)
    (hsize : e.size ≤ MAX_PARSE_NODES) : ∃ p, parse e.print = .ok e p :=
  parse_of_derives (lexes_render e.tokens_ne_nil (RawExpr.lexable_tokens h))
    (RawExpr.derives_tokens h hdepth).to_or hsize

example : RawExpr.print (.And (.Not (.Or (.Predicate "a" .Eq (.Int (-1)))
    (.Predicate "b" .In (.List [.Bool true])))) (.Predicate "c" .Ne (.Str "\""))) =
    utf8 "NOT ( a = -1 OR b IN ( TRUE ) ) AND c != \"\\\"\"" := by
  decide +kernel

/-- **Printing and parsing.** A printable tree within the limits is printed as a text that parses
back to it. Parsing any text ends in a tree or an error, neither in a panic nor out of fuel: a tree
is within the limits and derived by the tokens of the text, and no level is left open. And a tree
within the limits that the tokens derive is the one that parsing returns. -/
theorem parse_print :
    (∀ e : RawExpr, e.Printable → e.openDepth ≤ MAX_PARSE_DEPTH → e.size ≤ MAX_PARSE_NODES →
      ∃ text p, utf8 text = e.print ∧ parse (utf8 text) = .ok e p) ∧
    (∀ input : String,
      (∃ e p, parse (utf8 input) = .ok e p ∧ e.size ≤ MAX_PARSE_NODES ∧ p.depth = 0 ∧
        ∃ ts, Lexes (utf8 input) ts ∧ Derives .or MAX_PARSE_DEPTH ts e) ∨
      ∃ error p, parse (utf8 input) = .err error p) ∧
    ∀ (input : String) (ts : List Token) (e : RawExpr), Lexes (utf8 input) ts →
      Derives .or MAX_PARSE_DEPTH ts e → e.size ≤ MAX_PARSE_NODES →
      ∃ p, parse (utf8 input) = .ok e p := by
  refine ⟨fun e hprintable hdepth hsize => ?_, fun input => ?_,
    fun input ts e hlexes hderives hsize => parse_of_derives hlexes hderives hsize⟩
  · obtain ⟨text, htext⟩ := e.isText_print
    obtain ⟨p, hp⟩ := parse_print_tree hprintable hdepth hsize
    exact ⟨text, p, htext, htext ▸ hp⟩
  · have hholds := parse_holds (utf8 input)
    rcases hholds.ok_or_err with ⟨e, p, hparse⟩ | herror
    · obtain ⟨ts, hlexes, hderives, hsize, hdepth, -⟩ := hholds.of_eq_ok hparse
      exact .inl ⟨e, p, hparse, hsize, hdepth, ts, hlexes, hderives⟩
    · exact .inr herror

end Query

end Minnal
