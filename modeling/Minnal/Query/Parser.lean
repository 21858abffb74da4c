import Minnal.Library.Outcomes
import Minnal.Query.Lexer

/-!
# The query parser

A recursive-descent parser over the token stream: `OR` binds loosest, then `AND`, and `NOT` binds
tightest; both binary operators are left-associative. Two budgets bound what it accepts: the `(` and
`NOT` levels that are open at once, and the nodes of the tree it builds.

The parser's loops and recursion run on **fuel**; `parse` gives as much as the length of the query
calls for. Its counters have 32 bits and panic where they would wrap.
-/

set_option linter.dupNamespace false

namespace Minnal

namespace Query

open Outcomes

/-! ### The tree -/

inductive Op where
  | Eq
  | Ne
  | Lt
  | Le
  | Gt
  | Ge
  | In
  deriving DecidableEq, Repr

inductive RawValue where
  | Str (s : String)
  | Int (n : Int64)
  | Bool (b : Bool)
  | List (items : List RawValue)

inductive RawExpr where
  | And (l r : RawExpr)
  | Or (l r : RawExpr)
  | Not (e : RawExpr)
  | Predicate (field : String) (op : Op) (value : RawValue)

/-- The number of nodes. -/
def RawExpr.size : RawExpr → ℕ
  | .And l r | .Or l r => l.size + r.size + 1
  | .Not e => e.size + 1
  | .Predicate .. => 1

def MAX_PARSE_DEPTH : ℕ := 64

def MAX_PARSE_NODES : ℕ := 512

/-! ### The parser's state -/

/-- Where the parser is in the token stream. -/
structure Stream where
  lexer : Lexer
  current : Token
  /-- The byte offset for error messages. -/
  tok_pos : ℕ

structure Parser extends Stream where
  depth : ℕ
  nodes : ℕ

abbrev Run (α : Type) := Outcome Parser QueryError α

namespace Parser

/-- The parser before its first token. -/
def blank (input : List UInt8) : Parser := ⟨⟨Lexer.new input, .Eof, 0⟩, 0, 0⟩

/-- `Parser::new`: read the first token. -/
def new (input : List UInt8) : Run Unit :=
  match (Lexer.new input).next_token with
  | .error .panic => .panic
  | .error (.error e) => .err e (blank input)
  | .ok (current, lexer) => .ok () ⟨⟨lexer, current, 0⟩, 0, 0⟩

/-- Consume the current token and return it. -/
def advance (p : Parser) : Run Token :=
  match p.lexer.next_token with
  | .error .panic => .panic
  | .error (.error e) => .err e { p with tok_pos := p.lexer.pos }
  | .ok (next, lexer) => .ok p.current { p with lexer, current := next, tok_pos := p.lexer.pos }

def syntaxError {α : Type} (p : Parser) (msg : SyntaxMsg) : Run α := .err (.Syntax p.tok_pos msg) p

/-- Open a level. -/
def enter (p : Parser) : Run Unit :=
  if 2 ^ 32 ≤ p.depth + 1 then .panic
  else if p.depth + 1 > MAX_PARSE_DEPTH then
    .err (.TooComplex (.nesting MAX_PARSE_DEPTH)) { p with depth := p.depth + 1 }
  else .ok () { p with depth := p.depth + 1 }

/-- Close a level. -/
def leave (p : Parser) : Run Unit :=
  if p.depth = 0 then .panic else .ok () { p with depth := p.depth - 1 }

/-- Account for a node about to be built. -/
def add_node (p : Parser) : Run Unit :=
  if 2 ^ 32 ≤ p.nodes + 1 then .panic
  else if p.nodes + 1 > MAX_PARSE_NODES then
    .err (.TooComplex (.terms MAX_PARSE_NODES)) { p with nodes := p.nodes + 1 }
  else .ok () { p with nodes := p.nodes + 1 }

/-! ### Predicates -/

def parse_scalar (p : Parser) : Run RawValue :=
  p.advance.bind fun tok p =>
    match tok with
    | .StrLit s => .ok (.Str s) p
    | .IntLit n => .ok (.Int n) p
    | .BoolLit b => .ok (.Bool b) p
    | tok => p.syntaxError (.expectedLiteral tok)

/-- The loop over the items of a list. -/
def list_loop : ℕ → List RawValue → Parser → Run (List RawValue)
  | 0, _, _ => .outOfFuel
  | fuel + 1, items, p =>
    p.parse_scalar.bind fun item p =>
      match p.current with
      | .Comma => p.advance.bind fun _ p => list_loop fuel (items ++ [item]) p
      | .RParen => p.advance.bind fun _ p => .ok (items ++ [item]) p
      | other => p.syntaxError (.expectedCommaOrRParen other)

def parse_in_list (fuel : ℕ) (p : Parser) : Run RawValue :=
  if p.current ≠ .LParen then p.syntaxError .inRequiresList
  else p.advance.bind fun _ p =>
    (list_loop fuel [] p).bind fun items p =>
      match items with
      | [] => .err .EmptyInList p
      | items => .ok (.List items) p

/-- The operator of a token. -/
def operator : Token → Option Op
  | .Eq => some .Eq
  | .Ne => some .Ne
  | .Lt => some .Lt
  | .Le => some .Le
  | .Gt => some .Gt
  | .Ge => some .Ge
  | .In => some .In
  | _ => none

def parse_predicate (fuel : ℕ) (p : Parser) : Run RawExpr :=
  p.advance.bind fun tok p =>
    match tok with
    | .Ident field =>
      p.advance.bind fun tok p =>
        match operator tok with
        | none => p.syntaxError (.expectedOperator tok)
        | some op =>
          (if op = .In then p.parse_in_list fuel else p.parse_scalar).bind fun value p =>
            p.add_node.bind fun _ p => .ok (.Predicate field op value) p
    | tok => p.syntaxError (.expectedFieldName tok)

/-! ### Expressions -/

mutual

/-- `or_expr = and_expr ( "OR" and_expr )*`, and so `parse_expr`. -/
def parse_or : ℕ → Parser → Run RawExpr
  | 0, _ => .outOfFuel
  | fuel + 1, p => (parse_and fuel p).bind fun left p => or_loop fuel left p

def or_loop : ℕ → RawExpr → Parser → Run RawExpr
  | 0, _, _ => .outOfFuel
  | fuel + 1, left, p =>
    if p.current = .Or then
      p.advance.bind fun _ p =>
        (parse_and fuel p).bind fun right p =>
          p.add_node.bind fun _ p => or_loop fuel (.Or left right) p
    else .ok left p

/-- `and_expr = term ( "AND" term )*`. -/
def parse_and : ℕ → Parser → Run RawExpr
  | 0, _ => .outOfFuel
  | fuel + 1, p => (parse_term fuel p).bind fun left p => and_loop fuel left p

def and_loop : ℕ → RawExpr → Parser → Run RawExpr
  | 0, _, _ => .outOfFuel
  | fuel + 1, left, p =>
    if p.current = .And then
      p.advance.bind fun _ p =>
        (parse_term fuel p).bind fun right p =>
          p.add_node.bind fun _ p => and_loop fuel (.And left right) p
    else .ok left p

/-- `term = "NOT" term | "(" or_expr ")" | predicate`. -/
def parse_term : ℕ → Parser → Run RawExpr
  | 0, _ => .outOfFuel
  | fuel + 1, p =>
    match p.current with
    | .Not =>
      p.advance.bind fun _ p =>
        p.enter.bind fun _ p =>
          ((parse_term fuel p).andFinally leave).bind fun inner p =>
            p.add_node.bind fun _ p => .ok (.Not inner) p
    | .LParen =>
      p.advance.bind fun _ p =>
        p.enter.bind fun _ p =>
          ((parse_or fuel p).andFinally leave).bind fun expr p =>
            if p.current ≠ .RParen then p.syntaxError .expectedRParen
            else p.advance.bind fun _ p => .ok expr p
    | .Ident _ => p.parse_predicate fuel
    | other => p.syntaxError (.expectedTerm other)

end

end Parser

/-- As much fuel as a query of that length calls for. -/
def fuelFor (input : List UInt8) : ℕ := 3 * input.length + 3

/-- `parse`, with the parser as it is at the end. -/
def parse (input : List UInt8) : Run RawExpr :=
  (Parser.new input).bind fun _ p =>
    (p.parse_or (fuelFor input)).bind fun expr p =>
      if p.current ≠ .Eof then p.syntaxError (.unexpectedAfterExpression p.current)
      else .ok expr p

end Query

end Minnal
