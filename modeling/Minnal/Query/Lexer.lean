import Minnal.Library.ByteReads
import Minnal.Library.Decimal

/-!
# The query lexer

A query is a text, and the lexer reads its bytes token by token: white space apart, a token is a
sign, a quoted string with escapes, an integer or a word, which may be a keyword in any case. Each
token but the last takes at least one byte (`Lexer.next_token_spec`), and reading never panics: the
bytes the lexer takes for a text on the spot are ASCII.
-/

set_option linter.dupNamespace false

namespace Minnal

variable {b ch : UInt8} {rest : List UInt8}

namespace Query

open ByteReads Decimal

/-! ### Tokens and errors -/

inductive Token where
  | Ident (name : String)
  | StrLit (s : String)
  | IntLit (n : Int64)
  | BoolLit (b : Bool)
  | Eq
  | Ne
  | Lt
  | Le
  | Gt
  | Ge
  | And
  | Or
  | Not
  | In
  | LParen
  | RParen
  | Comma
  | Eof
  deriving DecidableEq

/-- What a syntax error says, with the token it was said of. -/
inductive SyntaxMsg where
  | expectedEqualAfterBang
  | unexpectedCharacter (ch : UInt8)
  | unterminatedString
  | unterminatedEscape
  | stringNotUtf8
  | expectedDigit
  | integerOutOfRange
  | unexpectedAfterExpression (tok : Token)
  | expectedRParen
  | expectedTerm (tok : Token)
  | expectedFieldName (tok : Token)
  | expectedOperator (tok : Token)
  | inRequiresList
  | expectedCommaOrRParen (tok : Token)
  | expectedLiteral (tok : Token)
  deriving DecidableEq

/-- Which limit a query exceeds. -/
inductive Complexity where
  | nesting (limit : ℕ)
  | terms (limit : ℕ)
  deriving DecidableEq

inductive QueryError where
  | Syntax (pos : ℕ) (msg : SyntaxMsg)
  | UnknownField (name : String)
  | InactiveField (field : String)
  | TypeMismatch (field expected got : String)
  | UnsupportedOp (op ty : String)
  | EmptyInList
  | TooComplex (msg : Complexity)
  deriving DecidableEq

/-- Why the lexer stops: with an error, or with a panic. -/
inductive LexStop where
  | error (e : QueryError)
  | panic
  deriving DecidableEq

/-! ### The lexer -/

/-- The bytes still to be read, and how many were. -/
structure Lexer where
  rest : List UInt8
  pos : ℕ
  deriving DecidableEq

namespace Lexer

def new (input : List UInt8) : Lexer := ⟨input, 0⟩

/-- The lexer that has still to read `rest`. -/
def upTo (l : Lexer) (rest : List UInt8) : Lexer := ⟨rest, l.pos + (l.rest.length - rest.length)⟩

def isSpace (b : UInt8) : Bool := b == 0x20 || b == 0x09 || b == 0x0a || b == 0x0d

def isLetter (b : UInt8) : Bool :=
  decide (0x61 ≤ b ∧ b ≤ 0x7a) || decide (0x41 ≤ b ∧ b ≤ 0x5a) || b == 0x5f

def isWordByte (b : UInt8) : Bool := isLetter b || Decimal.isDigit b

def skip_whitespace (l : Lexer) : Lexer := l.upTo (l.rest.dropWhile isSpace)

/-- An error at a position. -/
def syntaxError {α : Type} (pos : ℕ) (msg : SyntaxMsg) : Except LexStop α :=
  .error (.error (.Syntax pos msg))

/-- What an escape stands for: an unknown one for itself. -/
def unescape (ch : UInt8) : List UInt8 :=
  if ch = 0x27 then [0x27] else if ch = 0x22 then [0x22] else if ch = 0x6e then [0x0a]
  else if ch = 0x74 then [0x09] else if ch = 0x5c then [0x5c] else [0x5c, ch]

/-- The content of a string up to its closing quote, and what follows the quote. -/
def stringBody (quote : UInt8) : List UInt8 → Except SyntaxMsg (List UInt8 × List UInt8)
  | [] => .error .unterminatedString
  | [ch] =>
    if ch = quote then .ok ([], [])
    else if ch = 0x5c then .error .unterminatedEscape else .error .unterminatedString
  | ch :: next :: rest =>
    if ch = quote then .ok ([], next :: rest)
    else if ch = 0x5c then (stringBody quote rest).map fun r => (unescape next ++ r.1, r.2)
    else (stringBody quote (next :: rest)).map fun r => (ch :: r.1, r.2)

/-- A string, from behind its opening quote. -/
def lex_string (l : Lexer) (quote : UInt8) (body : List UInt8) : Except LexStop (Token × Lexer) :=
  match stringBody quote body with
  | .error msg => syntaxError l.pos msg
  | .ok (buf, rest) =>
    match fromUtf8 buf with
    | none => syntaxError l.pos .stringNotUtf8
    | some s => .ok (.StrLit s, l.upTo rest)

def lex_number (l : Lexer) : Except LexStop (Token × Lexer) :=
  let afterSign := if l.rest.head? = some 0x2d then l.rest.tail else l.rest
  let digits := afterSign.takeWhile Decimal.isDigit
  let rest := afterSign.dropWhile Decimal.isDigit
  let literal := l.rest.take (l.rest.length - rest.length)
  -- both are taken for a text at once
  match fromUtf8 digits, fromUtf8 literal with
  | some _, some _ =>
    if digits = [] then syntaxError l.pos .expectedDigit
    else match Decimal.parseI64 literal with
      | none => syntaxError l.pos .integerOutOfRange
      | some n => .ok (.IntLit n, l.upTo rest)
  | _, _ => .error .panic

def upperByte (b : UInt8) : UInt8 := if 0x61 ≤ b ∧ b ≤ 0x7a then b - 0x20 else b

/-- The keywords, in upper case: `AND`, `OR`, `NOT`, `IN`, `TRUE`, `FALSE`. -/
def keyword (upper : List UInt8) : Option Token :=
  if upper = [0x41, 0x4e, 0x44] then some .And
  else if upper = [0x4f, 0x52] then some .Or
  else if upper = [0x4e, 0x4f, 0x54] then some .Not
  else if upper = [0x49, 0x4e] then some .In
  else if upper = [0x54, 0x52, 0x55, 0x45] then some (.BoolLit true)
  else if upper = [0x46, 0x41, 0x4c, 0x53, 0x45] then some (.BoolLit false)
  else none

def lex_ident (l : Lexer) : Except LexStop (Token × Lexer) :=
  let word := l.rest.takeWhile isWordByte
  let rest := l.rest.dropWhile isWordByte
  -- the word is taken for a text at once
  match fromUtf8 word with
  | none => .error .panic
  | some name => .ok ((keyword (word.map upperByte)).getD (.Ident name), l.upTo rest)

/-- A token of one byte, or of two if `=` follows. -/
def signOrEqual (l : Lexer) (rest : List UInt8) (short long : Token) : Token × Lexer :=
  if rest.head? = some 0x3d then (long, l.upTo rest.tail) else (short, l.upTo rest)

def next_token (l : Lexer) : Except LexStop (Token × Lexer) :=
  let l := l.skip_whitespace
  match l.rest with
  | [] => .ok (.Eof, l)
  | ch :: rest =>
    if ch = 0x28 then .ok (.LParen, l.upTo rest)
    else if ch = 0x29 then .ok (.RParen, l.upTo rest)
    else if ch = 0x2c then .ok (.Comma, l.upTo rest)
    else if ch = 0x3d then .ok (.Eq, l.upTo rest)
    else if ch = 0x21 then
      if rest.head? = some 0x3d then .ok (.Ne, l.upTo rest.tail)
      else syntaxError l.pos .expectedEqualAfterBang
    else if ch = 0x3c then .ok (l.signOrEqual rest .Lt .Le)
    else if ch = 0x3e then .ok (l.signOrEqual rest .Gt .Ge)
    else if ch = 0x27 ∨ ch = 0x22 then l.lex_string ch rest
    else if ch = 0x2d ∨ Decimal.isDigit ch = true then l.lex_number
    else if isLetter ch = true then l.lex_ident
    else syntaxError l.pos (.unexpectedCharacter ch)

/-! ### What a token takes -/

theorem isDigit_lt (h : isDigit b = true) : b < 0x80 := by
  obtain ⟨-, hle⟩ := of_decide_eq_true h
  exact lt_of_le_of_lt hle (by decide)

theorem isWordByte_lt (h : isWordByte b = true) : b < 0x80 := by
  simp only [isWordByte, isLetter, Bool.or_eq_true, decide_eq_true_eq, beq_iff_eq] at h
  rcases h with ((⟨-, hle⟩ | ⟨-, hle⟩) | rfl) | hdigit
  · exact lt_of_le_of_lt hle (by decide)
  · exact lt_of_le_of_lt hle (by decide)
  · decide
  · exact isDigit_lt hdigit

theorem map_fst_eq_ok {x : Except SyntaxMsg (List UInt8 × List UInt8)} {g : List UInt8 → List UInt8}
    {buf : List UInt8} (h : (x.map fun r => (g r.1, r.2)) = .ok (buf, rest)) :
    ∃ buf', x = .ok (buf', rest) := by
  cases x with
  | error e => cases h
  | ok r => exact ⟨r.1, congrArg Except.ok (Prod.ext rfl (Prod.mk.inj (Except.ok.inj h)).2)⟩

/-- A string takes its closing quote. -/
theorem stringBody_length {quote : UInt8} : ∀ {body buf rest : List UInt8},
    stringBody quote body = .ok (buf, rest) → rest.length < body.length
  | [], _, _, h => nomatch h
  | [ch], buf, rest, h => by
    rw [stringBody] at h
    split_ifs at h
    obtain ⟨-, rfl⟩ := Prod.mk.inj (Except.ok.inj h)
    exact Nat.zero_lt_one
  | ch :: next :: body, buf, rest, h => by
    rw [stringBody] at h
    split_ifs at h
    · obtain ⟨-, rfl⟩ := Prod.mk.inj (Except.ok.inj h)
      exact Nat.lt_succ_self _
    · obtain ⟨buf', h⟩ := map_fst_eq_ok h
      exact (stringBody_length h).trans (by simp)
    · obtain ⟨buf', h⟩ := map_fst_eq_ok h
      exact (stringBody_length h).trans (Nat.lt_succ_self _)

/-- What reading a token does to the bytes: only the end takes none. -/
def TakesBytes (l : Lexer) (x : Except LexStop (Token × Lexer)) : Prop :=
  match x with
  | .ok (t, l') => (t = .Eof ∧ l'.rest = []) ∨ (t ≠ .Eof ∧ l'.rest.length < l.rest.length)
  | .error (.error _) => True
  | .error .panic => False

theorem length_dropWhile_lt {p : UInt8 → Bool} {bytes : List UInt8} (hb : p b = true) :
    ((b :: bytes).dropWhile p).length < (b :: bytes).length := by
  rw [List.dropWhile_cons_of_pos hb]
  exact Nat.lt_succ_of_le (List.length_dropWhile_le p bytes)

theorem takesBytes_lex_string (l : Lexer) {quote : UInt8} {body : List UInt8}
    (h : l.rest = quote :: body) : TakesBytes l (l.lex_string quote body) := by
  rw [lex_string]
  cases hbody : stringBody quote body with
  | error msg => trivial
  | ok r =>
    obtain ⟨buf, rest⟩ := r
    have hlen := stringBody_length hbody
    dsimp only
    cases fromUtf8 buf with
    | none => trivial
    | some s =>
      refine .inr ⟨nofun, ?_⟩
      rw [h]
      exact hlen.trans (Nat.lt_succ_self _)

theorem keyword_ne_eof (upper : List UInt8) : keyword upper ≠ some .Eof := by
  rw [keyword]
  split_ifs <;> nofun

theorem takesBytes_lex_ident (l : Lexer) (h : l.rest = ch :: rest) (hch : isLetter ch = true) :
    TakesBytes l l.lex_ident := by
  have hword : isWordByte ch = true := by rw [isWordByte, hch, Bool.true_or]
  obtain ⟨name, hname⟩ := fromUtf8_ascii (l.rest.takeWhile isWordByte) fun b hb =>
    isWordByte_lt (List.mem_takeWhile_imp hb)
  rw [lex_ident, hname]
  refine .inr ⟨?_, ?_⟩
  · cases hkey : keyword ((l.rest.takeWhile isWordByte).map upperByte) with
    | none => exact nofun
    | some t => exact fun ht => keyword_ne_eof _ (hkey.trans (congrArg some ht))
  · rw [h]
    exact length_dropWhile_lt hword

/-- The bytes of a number: its sign and its digits. -/
theorem number_split (bytes : List UInt8) :
    ∃ sign : List UInt8, (∀ b ∈ sign, b = 0x2d) ∧
      bytes = sign ++ (if bytes.head? = some 0x2d then bytes.tail else bytes) := by
  split_ifs with h
  · obtain ⟨rest, rfl⟩ := List.head?_eq_some_iff.mp h
    exact ⟨[0x2d], by simp, rfl⟩
  · exact ⟨[], by simp, rfl⟩

theorem takesBytes_lex_number (l : Lexer) : TakesBytes l l.lex_number := by
  rw [lex_number]
  obtain ⟨sign, hsign, hbytes⟩ := number_split l.rest
  generalize (if l.rest.head? = some 0x2d then l.rest.tail else l.rest) = afterSign at hbytes
  have hdigits : ∀ b ∈ afterSign.takeWhile isDigit, b < 0x80 := fun b hb =>
    isDigit_lt (List.mem_takeWhile_imp hb)
  have hliteral : l.rest.take (l.rest.length - (afterSign.dropWhile isDigit).length) =
      sign ++ afterSign.takeWhile isDigit := by
    have hsplit : l.rest = (sign ++ afterSign.takeWhile isDigit) ++
        afterSign.dropWhile isDigit := by
      rw [List.append_assoc, List.takeWhile_append_dropWhile]
      exact hbytes
    conv_lhs => rw [hsplit]
    rw [List.length_append, Nat.add_sub_cancel, List.take_left]
  obtain ⟨digitsText, hdigitsText⟩ := fromUtf8_ascii _ hdigits
  obtain ⟨literalText, hliteralText⟩ :=
    fromUtf8_ascii (sign ++ afterSign.takeWhile isDigit) fun b hb => by
      rcases List.mem_append.mp hb with hb | hb
      · rw [hsign b hb]
        decide
      · exact hdigits b hb
  simp only [hliteral, hdigitsText, hliteralText]
  split_ifs with hempty
  · trivial
  cases parseI64 (sign ++ afterSign.takeWhile isDigit) with
  | none => trivial
  | some n =>
    refine .inr ⟨nofun, ?_⟩
    have hlen := congrArg List.length (List.takeWhile_append_dropWhile
      (p := isDigit) (l := afterSign))
    have hpos := List.length_pos_iff.mpr hempty
    rw [List.length_append] at hlen
    change (afterSign.dropWhile isDigit).length < l.rest.length
    rw [hbytes, List.length_append]
    omega

theorem takesBytes_sign (l : Lexer) {rest' : List UInt8} (h : l.rest = ch :: rest)
    (hrest : rest'.length ≤ rest.length) {t : Token} (ht : t ≠ .Eof) :
    TakesBytes l (.ok (t, l.upTo rest')) := by
  refine .inr ⟨ht, ?_⟩
  rw [h]
  exact Nat.lt_succ_of_le hrest

theorem takesBytes_signOrEqual (l : Lexer) (h : l.rest = ch :: rest) {short long : Token}
    (hshort : short ≠ .Eof) (hlong : long ≠ .Eof) :
    TakesBytes l (.ok (l.signOrEqual rest short long)) := by
  rw [signOrEqual]
  split_ifs
  · exact takesBytes_sign l h (by simp) hlong
  · exact takesBytes_sign l h le_rfl hshort

theorem TakesBytes.of_length_le {l : Lexer} (l' : Lexer) {x : Except LexStop (Token × Lexer)}
    (h : TakesBytes l' x) (hle : l'.rest.length ≤ l.rest.length) : TakesBytes l x := by
  cases x with
  | error e => cases e with
    | error e => trivial
    | panic => exact h
  | ok r => exact h.imp id fun hlt => ⟨hlt.1, hlt.2.trans_le hle⟩

theorem TakesBytes.ite {l : Lexer} {c : Prop} [Decidable c] {x y : Except LexStop (Token × Lexer)}
    (hx : c → TakesBytes l x) (hy : TakesBytes l y) : TakesBytes l (if c then x else y) := by
  split
  · exact hx ‹c›
  · exact hy

/-- **One token.** Reading does not panic, and each token but the end takes at least a byte. -/
theorem next_token_spec (l : Lexer) : TakesBytes l l.next_token := by
  refine TakesBytes.of_length_le l.skip_whitespace ?_
    (List.length_dropWhile_le isSpace l.rest)
  rw [next_token]
  generalize l.skip_whitespace = l'
  split
  · rename_i h
    exact .inl ⟨rfl, h⟩
  rename_i ch rest h
  refine .ite (fun _ => takesBytes_sign l' h le_rfl nofun) ?_
  refine .ite (fun _ => takesBytes_sign l' h le_rfl nofun) ?_
  refine .ite (fun _ => takesBytes_sign l' h le_rfl nofun) ?_
  refine .ite (fun _ => takesBytes_sign l' h le_rfl nofun) ?_
  refine .ite (fun _ => .ite (fun _ => takesBytes_sign l' h (by simp) nofun) trivial) ?_
  refine .ite (fun _ => takesBytes_signOrEqual l' h nofun nofun) ?_
  refine .ite (fun _ => takesBytes_signOrEqual l' h nofun nofun) ?_
  refine .ite (fun _ => takesBytes_lex_string l' h) ?_
  refine .ite (fun _ => takesBytes_lex_number l') ?_
  exact .ite (fun hletter => takesBytes_lex_ident l' h hletter) trivial

end Lexer

end Query

end Minnal
