import Minnal.Query.Parser

/-!
# What the parser accepts

The documented grammar as a **derivation**: which token sequence derives which tree, at which level
of precedence, and within how many open `(` and `NOT`. Each function of the parser keeps one promise
(`Parsed`): with enough fuel it ends in a tree or an error, never in a panic, the tokens it took
derive the tree it built, its counter of levels is back where it was, and its counter of nodes went
up by the nodes of the tree.
-/

set_option linter.dupNamespace false

namespace Minnal

namespace Query

open Outcomes

/-! ### The grammar -/

/-- A literal and its token. -/
inductive Scalar : Token → RawValue → Prop where
  | str (s : String) : Scalar (.StrLit s) (.Str s)
  | int (n : Int64) : Scalar (.IntLit n) (.Int n)
  | bool (b : Bool) : Scalar (.BoolLit b) (.Bool b)

/-- Literals with commas between them, and at least one. -/
inductive Items : List Token → List RawValue → Prop where
  | one {t : Token} {v : RawValue} (h : Scalar t v) : Items [t] [v]
  | more {t : Token} {v : RawValue} {ts : List Token} {vs : List RawValue} (h : Scalar t v)
      (hrest : Items ts vs) : Items (t :: .Comma :: ts) (v :: vs)

/-- `VALUE`: a list behind `IN`, a literal behind every other operator. -/
inductive Value : Op → List Token → RawValue → Prop where
  | scalar {op : Op} {t : Token} {v : RawValue} (hop : op ≠ .In) (h : Scalar t v) : Value op [t] v
  | list {ts : List Token} {vs : List RawValue} (h : Items ts vs) :
      Value .In (.LParen :: (ts ++ [.RParen])) (.List vs)

/-- How tightly an expression binds. -/
inductive Level where
  | or
  | and
  | term

/-- **The grammar**, within `d` open `(` and `NOT`. -/
inductive Derives : Level → ℕ → List Token → RawExpr → Prop where
  | or_one {d : ℕ} {ts : List Token} {e : RawExpr} (h : Derives .and d ts e) : Derives .or d ts e
  | or_more {d : ℕ} {ts us : List Token} {l r : RawExpr} (hl : Derives .or d ts l)
      (hr : Derives .and d us r) : Derives .or d (ts ++ .Or :: us) (.Or l r)
  | and_one {d : ℕ} {ts : List Token} {e : RawExpr} (h : Derives .term d ts e) :
      Derives .and d ts e
  | and_more {d : ℕ} {ts us : List Token} {l r : RawExpr} (hl : Derives .and d ts l)
      (hr : Derives .term d us r) : Derives .and d (ts ++ .And :: us) (.And l r)
  | not {d : ℕ} {ts : List Token} {e : RawExpr} (h : Derives .term d ts e) :
      Derives .term (d + 1) (.Not :: ts) (.Not e)
  | paren {d : ℕ} {ts : List Token} {e : RawExpr} (h : Derives .or d ts e) :
      Derives .term (d + 1) (.LParen :: (ts ++ [.RParen])) e
  | predicate {d : ℕ} {field : String} {op : Op} {t : Token} {ts : List Token} {v : RawValue}
      (hop : Parser.operator t = some op) (hv : Value op ts v) :
      Derives .term d (.Ident field :: t :: ts) (.Predicate field op v)

/-! ### Reading tokens -/

/-- The current token is taken, and the next one read. -/
def Step (s : Stream) (t : Token) (s' : Stream) : Prop :=
  s.current = t ∧ s.lexer.next_token = .ok (s'.current, s'.lexer) ∧ s'.tok_pos = s.lexer.pos

/-- **The tokens** between two places of the stream, none of them the end. -/
inductive Reads : Stream → List Token → Stream → Prop where
  | nil (s : Stream) : Reads s [] s
  | cons {s s' s'' : Stream} {t : Token} {ts : List Token} (ht : t ≠ .Eof) (hstep : Step s t s')
      (h : Reads s' ts s'') : Reads s (t :: ts) s''

variable {s s' : Stream} {ts : List Token}

theorem Reads.append {s'' : Stream} {us : List Token} (h : Reads s ts s') (h' : Reads s' us s'') :
    Reads s (ts ++ us) s'' := by
  induction h with
  | nil => exact h'
  | cons ht hstep _ ih => exact .cons ht hstep (ih h')

variable {t : Token}

theorem Reads.single (ht : t ≠ .Eof) (hstep : Step s t s') :
    Reads s [t] s' := .cons ht hstep (.nil s')

/-- How many tokens there may still be. -/
def Stream.work (s : Stream) : ℕ := s.lexer.rest.length + if s.current = .Eof then 0 else 1

theorem Step.work_lt (ht : t ≠ .Eof) (h : Step s t s') : s'.work < s.work := by
  obtain ⟨hcurrent, hnext, -⟩ := h
  have hspec := Lexer.next_token_spec s.lexer
  rw [hnext] at hspec
  rw [Stream.work, Stream.work, hcurrent, if_neg ht]
  rcases hspec with ⟨heof, hrest⟩ | ⟨hmore, hlt⟩
  · rw [if_pos heof, hrest]
    exact Nat.succ_pos _
  · rw [if_neg hmore]
    exact Nat.succ_lt_succ hlt

theorem Reads.work_le (h : Reads s ts s') : s'.work ≤ s.work := by
  induction h with
  | nil => exact le_rfl
  | cons ht hstep _ ih => exact ih.trans (hstep.work_lt ht).le

/-! ### Promises -/

namespace Parser

/-- An error may come with levels that are still open, but closes none of the caller's. -/
def Deeper (p p' : Parser) : Prop := p.depth ≤ p'.depth

variable {p p' : Parser}

theorem Deeper.trans {p'' : Parser} (h : Deeper p p') (h' : Deeper p' p'') : Deeper p p'' :=
  Nat.le_trans h h'

/-- The parser took tokens, and its counters are what they were. -/
structure Moved (p : Parser) (ts : List Token) (p' : Parser) : Prop where
  reads : Reads p.toStream ts p'.toStream
  depth : p'.depth = p.depth
  nodes : p'.nodes = p.nodes

theorem Moved.append {p'' : Parser} {us : List Token} (h : p.Moved ts p') (h' : p'.Moved us p'') :
    p.Moved (ts ++ us) p'' where
  reads := h.reads.append h'.reads
  depth := h'.depth.trans h.depth
  nodes := h'.nodes.trans h.nodes

theorem Moved.deeper (h : p.Moved ts p') : Deeper p p' :=
  h.depth.ge

theorem Moved.work_le (h : p.Moved ts p') :
    p'.work ≤ p.work := h.reads.work_le

/-- The parser took its current token. -/
structure Took (p : Parser) (t : Token) (p' : Parser) : Prop where
  step : Step p.toStream t p'.toStream
  depth : p'.depth = p.depth
  nodes : p'.nodes = p.nodes

theorem Took.moved (h : p.Took t p') (ht : t ≠ .Eof) :
    p.Moved [t] p' := ⟨.cons ht h.step (.nil _), h.depth, h.nodes⟩

theorem Took.work_lt (h : p.Took t p') (ht : t ≠ .Eof) :
    p'.work < p.work := h.step.work_lt ht

theorem Took.deeper (h : p.Took t p') : Deeper p p' := h.depth.ge

theorem advance_took (p : Parser) : p.advance.Holds (fun t p' => p.Took t p') (Deeper p) := by
  have hspec := Lexer.next_token_spec p.lexer
  rw [advance]
  cases hnext : p.lexer.next_token with
  | error e =>
    cases e with
    | error e => exact Nat.le_refl p.depth
    | panic =>
      rw [hnext] at hspec
      exact hspec
  | ok r => exact ⟨⟨rfl, hnext, rfl⟩, rfl, rfl⟩

variable {q : Parser}

/-- Taking a token that is known, at a place the parser has come to. -/
theorem advance_moved (h : p.Moved ts q) (hcurrent : q.current = t) (ht : t ≠ .Eof) :
    q.advance.Holds (fun _ q' => p.Moved (ts ++ [t]) q' ∧ q'.work < q.work) (Deeper p) := by
  refine q.advance_took.mono (fun t' q' hq' => ?_) fun _ hs => h.deeper.trans hs
  obtain rfl : t' = t := hq'.step.1.symm.trans hcurrent
  exact ⟨h.append (hq'.moved ht), hq'.work_lt ht⟩

theorem add_node_holds (h : p.nodes ≤ MAX_PARSE_NODES) :
    p.add_node.Holds (fun _ p' => p' = { p with nodes := p.nodes + 1 } ∧
      p.nodes + 1 ≤ MAX_PARSE_NODES) (Deeper p) := by
  rw [add_node, if_neg (by rw [MAX_PARSE_NODES] at h; omega)]
  split_ifs with hmany
  · exact Nat.le_refl p.depth
  · exact ⟨rfl, not_lt.mp hmany⟩

theorem enter_holds (h : p.depth ≤ MAX_PARSE_DEPTH) :
    p.enter.Holds (fun _ p' => p' = { p with depth := p.depth + 1 } ∧
      p.depth + 1 ≤ MAX_PARSE_DEPTH) (Deeper p) := by
  rw [enter, if_neg (by rw [MAX_PARSE_DEPTH] at h; omega)]
  split_ifs with hdeep
  · exact Nat.le_succ p.depth
  · exact ⟨rfl, not_lt.mp hdeep⟩

theorem leave_holds (h : p.depth + 1 ≤ q.depth) :
    q.leave.Holds (fun _ q' => q' = { q with depth := q.depth - 1 } ∧ Deeper p q') (Deeper p) := by
  rw [leave, if_neg (by omega)]
  exact ⟨rfl, Nat.le_sub_one_of_lt h⟩

/-! ### Predicates -/

theorem parse_scalar_holds (p : Parser) :
    p.parse_scalar.Holds (fun v p' => ∃ t, Scalar t v ∧ p.Moved [t] p' ∧ p'.work < p.work)
      (Deeper p) := by
  refine p.advance_took.bind fun t q hq => ?_
  cases t with
  | StrLit s => exact ⟨_, .str s, hq.moved nofun, hq.work_lt nofun⟩
  | IntLit n => exact ⟨_, .int n, hq.moved nofun, hq.work_lt nofun⟩
  | BoolLit b => exact ⟨_, .bool b, hq.moved nofun, hq.work_lt nofun⟩
  | _ => exact hq.deeper

variable {fuel : ℕ}

/-- Before the items that are read come the ones that were. -/
theorem list_loop_holds {items : List RawValue} (hfuel : p.work < fuel) :
    (list_loop fuel items p).Holds (fun vs p' => ∃ ws ts, vs = items ++ ws ∧ Items ts ws ∧
      p.Moved (ts ++ [Token.RParen]) p') (Deeper p) := by
  induction fuel generalizing items p with
  | zero => exact absurd hfuel (Nat.not_lt_zero _)
  | succ fuel ih =>
    rw [list_loop]
    refine p.parse_scalar_holds.bind fun v q hq => ?_
    obtain ⟨t, hscalar, hmoved, hwork⟩ := hq
    split
    · rename_i hcomma
      refine (advance_moved hmoved hcomma nofun).bind fun _ q' hq' => ?_
      obtain ⟨hmoved', hwork'⟩ := hq'
      refine (ih (by omega)).mono ?_ fun s hs => hmoved'.deeper.trans hs
      rintro vs s ⟨ws, ts, rfl, hitems, hrest⟩
      exact ⟨v :: ws, t :: .Comma :: ts, by simp, .more hscalar hitems, hmoved'.append hrest⟩
    · rename_i hclose
      exact (advance_moved hmoved hclose nofun).bind fun _ q' hq' =>
        ⟨[v], [t], rfl, .one hscalar, hq'.1⟩
    · exact hmoved.deeper

theorem parse_in_list_holds (hfuel : p.work ≤ fuel) :
    (p.parse_in_list fuel).Holds (fun v p' => ∃ ts, Value .In ts v ∧ p.Moved ts p')
      (Deeper p) := by
  rw [parse_in_list]
  split_ifs with hopen
  · exact Nat.le_refl p.depth
  refine (advance_moved ⟨.nil _, rfl, rfl⟩ (not_not.mp hopen) nofun).bind fun _ q hq => ?_
  obtain ⟨hmoved, hwork⟩ := hq
  refine ((list_loop_holds (hwork.trans_le hfuel)).mono (fun _ _ h => h)
    fun _ hs => hmoved.deeper.trans hs).bind fun vs q' hq' => ?_
  obtain ⟨ws, ts, rfl, hitems, hrest⟩ := hq'
  cases hitems with
  | one h => exact ⟨_, .list (.one h), hmoved.append hrest⟩
  | more h h' => exact ⟨_, .list (.more h h'), hmoved.append hrest⟩

theorem parse_value_holds (op : Op) (hfuel : p.work ≤ fuel) :
    (if op = .In then p.parse_in_list fuel else p.parse_scalar).Holds
      (fun v p' => ∃ ts, Value op ts v ∧ p.Moved ts p') (Deeper p) := by
  split_ifs with hop
  · subst hop
    exact parse_in_list_holds hfuel
  · refine p.parse_scalar_holds.mono ?_ fun _ hs => hs
    rintro v q ⟨t, hscalar, hmoved, -⟩
    exact ⟨[t], .scalar hop hscalar, hmoved⟩

/-! ### Expressions -/

/-- **The promise** of a function that takes tokens for a tree. -/
structure Parsed (level : Level) (p : Parser) (e : RawExpr) (p' : Parser) : Prop where
  tokens : ∃ ts, Reads p.toStream ts p'.toStream ∧
    Derives level (MAX_PARSE_DEPTH - p.depth) ts e
  depth : p'.depth = p.depth
  nodes : p'.nodes = p.nodes + e.size
  bound : p'.nodes ≤ MAX_PARSE_NODES

/-- The promise of a loop that has `left` so far. -/
structure Continued (level : Level) (p : Parser) (left e : RawExpr) (p' : Parser) : Prop where
  tokens : ∃ ts, Reads p.toStream ts p'.toStream ∧
    ∀ us, Derives level (MAX_PARSE_DEPTH - p.depth) us left →
      Derives level (MAX_PARSE_DEPTH - p.depth) (us ++ ts) e
  depth : p'.depth = p.depth
  nodes : p'.nodes + left.size = p.nodes + e.size
  bound : p'.nodes ≤ MAX_PARSE_NODES

theorem operator_ne_eof {op : Op} (h : operator t = some op) : t ≠ .Eof := by
  rintro rfl
  cases h

theorem parse_predicate_holds (hfuel : p.work ≤ fuel) (hnodes : p.nodes ≤ MAX_PARSE_NODES) :
    (p.parse_predicate fuel).Holds (Parsed .term p) (Deeper p) := by
  refine p.advance_took.bind fun t q hq => ?_
  split
  · rename_i field
    have hfield := hq.moved (nofun : Token.Ident field ≠ .Eof)
    refine (q.advance_took.mono (fun _ _ h => h) fun _ hs => hq.deeper.trans hs).bind
      fun t q' hq' => ?_
    cases hop : operator t with
    | none => exact hq.deeper.trans hq'.deeper
    | some op =>
      have hmoved := hfield.append (hq'.moved (operator_ne_eof hop))
      have hwork : q'.work ≤ fuel := hmoved.work_le.trans hfuel
      refine ((parse_value_holds op hwork).mono (fun _ _ h => h)
        fun _ hs => hmoved.deeper.trans hs).bind fun v q'' hq'' => ?_
      obtain ⟨ts, hvalue, hrest⟩ := hq''
      have hall := hmoved.append hrest
      have hcount : q''.nodes ≤ MAX_PARSE_NODES := hall.nodes.trans_le hnodes
      refine ((add_node_holds hcount).mono (fun _ _ h => h) fun _ hs => hall.deeper.trans hs).bind
        fun _ r hr => ?_
      obtain ⟨rfl, hbound⟩ := hr
      refine ⟨⟨_, hall.reads, .predicate hop hvalue⟩, hall.depth, ?_, hbound⟩
      exact congrArg (· + 1) hall.nodes
  · exact hq.deeper

/-- What the functions promise with `fuel`: every tree takes a few steps for each token. -/
structure Promises (fuel : ℕ) : Prop where
  parse_or : ∀ p : Parser, 3 * p.work + 3 ≤ fuel → p.depth ≤ MAX_PARSE_DEPTH →
    p.nodes ≤ MAX_PARSE_NODES → (parse_or fuel p).Holds (Parsed .or p) (Deeper p)
  or_loop : ∀ (left : RawExpr) (p : Parser), 3 * p.work + 1 ≤ fuel → p.depth ≤ MAX_PARSE_DEPTH →
    p.nodes ≤ MAX_PARSE_NODES → (or_loop fuel left p).Holds (Continued .or p left) (Deeper p)
  parse_and : ∀ p : Parser, 3 * p.work + 2 ≤ fuel → p.depth ≤ MAX_PARSE_DEPTH →
    p.nodes ≤ MAX_PARSE_NODES → (parse_and fuel p).Holds (Parsed .and p) (Deeper p)
  and_loop : ∀ (left : RawExpr) (p : Parser), 3 * p.work + 1 ≤ fuel → p.depth ≤ MAX_PARSE_DEPTH →
    p.nodes ≤ MAX_PARSE_NODES → (and_loop fuel left p).Holds (Continued .and p left) (Deeper p)
  parse_term : ∀ p : Parser, 3 * p.work + 1 ≤ fuel → p.depth ≤ MAX_PARSE_DEPTH →
    p.nodes ≤ MAX_PARSE_NODES → (parse_term fuel p).Holds (Parsed .term p) (Deeper p)

variable {level : Level} {e : RawExpr}

theorem Parsed.deeper (h : Parsed level p e p') :
    Deeper p p' := h.depth.ge

theorem Parsed.work_le (h : Parsed level p e p') : p'.work ≤ p.work := by
  obtain ⟨ts, hreads, -⟩ := h.tokens
  exact hreads.work_le

variable {left : RawExpr}

/-- A first operand and the loop behind it. -/
theorem Parsed.extend {inner : Level}
    (hone : ∀ ts, Derives inner (MAX_PARSE_DEPTH - p.depth) ts left →
      Derives level (MAX_PARSE_DEPTH - p.depth) ts left) (h : Parsed inner p left q)
    (h' : Continued level q left e p') : Parsed level p e p' := by
  obtain ⟨ts, hreads, hts⟩ := h.tokens
  obtain ⟨us, hreads', hus⟩ := h'.tokens
  rw [h.depth] at hus
  have hcount := h.nodes
  have hcount' := h'.nodes
  refine ⟨⟨ts ++ us, hreads.append hreads', hus ts (hone ts hts)⟩, h'.depth.trans h.depth, ?_,
    h'.bound⟩
  omega

/-- **One round of a loop**: an operator, an operand and a node. -/
theorem Continued.round {inner : Level} {r : Parser} {right : RawExpr}
    {node : RawExpr → RawExpr → RawExpr}
    (hnode : ∀ us vs, Derives level (MAX_PARSE_DEPTH - p.depth) us left →
      Derives inner (MAX_PARSE_DEPTH - p.depth) vs right →
      Derives level (MAX_PARSE_DEPTH - p.depth) (us ++ t :: vs) (node left right))
    (hsize : (node left right).size = left.size + right.size + 1) (hq : p.Moved [t] q)
    (hr : Parsed inner q right r)
    (h : Continued level { r with nodes := r.nodes + 1 } (node left right) e p') :
    Continued level p left e p' := by
  obtain ⟨vs, hreads, hvs⟩ := hr.tokens
  obtain ⟨ws, hreads', hws⟩ := h.tokens
  have hdepth : r.depth = p.depth := hr.depth.trans hq.depth
  have hcount := h.nodes
  have hcount' := hr.nodes
  have hcount'' := hq.nodes
  rw [hq.depth] at hvs
  dsimp only at hws hcount
  rw [hdepth] at hws
  refine ⟨⟨t :: (vs ++ ws), ?_, fun us hus => ?_⟩, h.depth.trans hdepth, ?_, h.bound⟩
  · exact hq.reads.append (hreads.append hreads')
  · have hround := hws _ (hnode us vs hus hvs)
    rwa [List.append_assoc, List.cons_append] at hround
  · omega

/-- A loop that ends at once. -/
theorem Continued.stop (left : RawExpr) (h : p.nodes ≤ MAX_PARSE_NODES) :
    Continued level p left left p :=
  ⟨⟨[], .nil _, fun us hus => by rwa [List.append_nil]⟩, rfl, rfl, h⟩

/-- A part that starts where the parser has come to. -/
theorem Promises.shift {α : Type} {post : α → Parser → Prop} {x : Run α}
    (h : x.Holds post (Deeper q)) (hq : Deeper p q) : x.Holds post (Deeper p) :=
  h.mono (fun _ _ h => h) fun _ hs => hq.trans hs

theorem Promises.or_step (h : Promises fuel) (hfuel : 3 * p.work + 3 ≤ fuel + 1)
    (hdepth : p.depth ≤ MAX_PARSE_DEPTH) (hnodes : p.nodes ≤ MAX_PARSE_NODES) :
    (Parser.parse_or (fuel + 1) p).Holds (Parsed .or p) (Deeper p) := by
  rw [Parser.parse_or]
  refine (h.parse_and p (by omega) hdepth hnodes).bind fun left q hq => ?_
  have hwork := hq.work_le
  refine ((h.or_loop left q (by omega) (hq.depth.trans_le hdepth) hq.bound).mono
    (fun e p' h' => ?_) fun _ hs => hq.deeper.trans hs)
  exact hq.extend (fun _ hts => .or_one hts) h'

theorem Promises.and_step (h : Promises fuel) (hfuel : 3 * p.work + 2 ≤ fuel + 1)
    (hdepth : p.depth ≤ MAX_PARSE_DEPTH) (hnodes : p.nodes ≤ MAX_PARSE_NODES) :
    (Parser.parse_and (fuel + 1) p).Holds (Parsed .and p) (Deeper p) := by
  rw [Parser.parse_and]
  refine (h.parse_term p (by omega) hdepth hnodes).bind fun left q hq => ?_
  have hwork := hq.work_le
  refine ((h.and_loop left q (by omega) (hq.depth.trans_le hdepth) hq.bound).mono
    (fun e p' h' => ?_) fun _ hs => hq.deeper.trans hs)
  exact hq.extend (fun _ hts => .and_one hts) h'

/-- The round of the `OR` loop. -/
theorem Promises.or_loop_step (h : Promises fuel) (hfuel : 3 * p.work + 1 ≤ fuel + 1)
    (hdepth : p.depth ≤ MAX_PARSE_DEPTH) (hnodes : p.nodes ≤ MAX_PARSE_NODES) :
    (Parser.or_loop (fuel + 1) left p).Holds (Continued .or p left) (Deeper p) := by
  rw [Parser.or_loop]
  split_ifs with hor
  · refine (advance_moved ⟨.nil _, rfl, rfl⟩ hor nofun).bind fun _ q hq => ?_
    obtain ⟨hmoved, hwork⟩ := hq
    have hqdepth : q.depth ≤ MAX_PARSE_DEPTH := hmoved.depth.trans_le hdepth
    have hqnodes : q.nodes ≤ MAX_PARSE_NODES := hmoved.nodes.trans_le hnodes
    refine (shift (h.parse_and q (by omega) hqdepth hqnodes) hmoved.deeper).bind
      fun right r hr => ?_
    have hrwork := hr.work_le
    refine (shift (add_node_holds hr.bound) (hmoved.deeper.trans hr.deeper)).bind fun _ r' hr' => ?_
    obtain ⟨rfl, hbound⟩ := hr'
    have hrdepth : r.depth ≤ MAX_PARSE_DEPTH := hr.depth.trans_le hqdepth
    have hfuel' : 3 * r.work + 1 ≤ fuel := by omega
    refine (h.or_loop (.Or left right) { r with nodes := r.nodes + 1 } hfuel' hrdepth hbound).mono
      (fun e p' h' => ?_) fun _ hs => (hmoved.deeper.trans hr.deeper).trans hs
    exact Continued.round (fun us vs => .or_more) rfl hmoved hr h'
  · exact Continued.stop left hnodes

/-- The round of the `AND` loop. -/
theorem Promises.and_loop_step (h : Promises fuel) (hfuel : 3 * p.work + 1 ≤ fuel + 1)
    (hdepth : p.depth ≤ MAX_PARSE_DEPTH) (hnodes : p.nodes ≤ MAX_PARSE_NODES) :
    (Parser.and_loop (fuel + 1) left p).Holds (Continued .and p left) (Deeper p) := by
  rw [Parser.and_loop]
  split_ifs with hand
  · refine (advance_moved ⟨.nil _, rfl, rfl⟩ hand nofun).bind fun _ q hq => ?_
    obtain ⟨hmoved, hwork⟩ := hq
    have hqdepth : q.depth ≤ MAX_PARSE_DEPTH := hmoved.depth.trans_le hdepth
    have hqnodes : q.nodes ≤ MAX_PARSE_NODES := hmoved.nodes.trans_le hnodes
    refine (shift (h.parse_term q (by omega) hqdepth hqnodes) hmoved.deeper).bind
      fun right r hr => ?_
    have hrwork := hr.work_le
    refine (shift (add_node_holds hr.bound) (hmoved.deeper.trans hr.deeper)).bind fun _ r' hr' => ?_
    obtain ⟨rfl, hbound⟩ := hr'
    have hrdepth : r.depth ≤ MAX_PARSE_DEPTH := hr.depth.trans_le hqdepth
    have hfuel' : 3 * r.work + 1 ≤ fuel := by omega
    refine (h.and_loop (.And left right) { r with nodes := r.nodes + 1 } hfuel' hrdepth hbound).mono
      (fun e p' h' => ?_) fun _ hs => (hmoved.deeper.trans hr.deeper).trans hs
    exact Continued.round (fun us vs => .and_more) rfl hmoved hr h'
  · exact Continued.stop left hnodes

/-- What was parsed inside a level, with the level closed again. -/
structure Inside (level : Level) (p q : Parser) (e : RawExpr) (p' : Parser) : Prop where
  tokens : ∃ ts d, Reads q.toStream ts p'.toStream ∧ Derives level d ts e ∧
    MAX_PARSE_DEPTH - p.depth = d + 1
  depth : p'.depth = p.depth
  nodes : p'.nodes = p.nodes + e.size
  bound : p'.nodes ≤ MAX_PARSE_NODES

/-- **A level** is opened, something is parsed, and the level is closed again. -/
theorem level_holds (level : Level) {parse : Parser → Run RawExpr} (hmoved : p.Moved [t] q)
    (hdepth : p.depth ≤ MAX_PARSE_DEPTH)
    (hparse : ∀ r : Parser, r.toStream = q.toStream → r.depth ≤ MAX_PARSE_DEPTH →
      r.nodes = p.nodes → (parse r).Holds (Parsed level r) (Deeper r)) :
    (q.enter.bind fun _ r => (parse r).andFinally leave).Holds (Inside level p q) (Deeper p) := by
  have hqdepth := hmoved.depth
  refine (Promises.shift (enter_holds (hqdepth.trans_le hdepth)) hmoved.deeper).bind
    fun _ r hr => ?_
  obtain ⟨rfl, hbound⟩ := hr
  refine (hparse { q with depth := q.depth + 1 } rfl hbound hmoved.nodes).andFinally
    (fun e s hs => ?_) fun s hs => ?_
  · have hsdepth : s.depth = q.depth + 1 := hs.depth
    refine (leave_holds (by omega)).mono (fun _ s' hs' => ?_) fun _ h => h
    obtain ⟨rfl, -⟩ := hs'
    obtain ⟨ts, hreads, hts⟩ := hs.tokens
    refine ⟨⟨ts, _, hreads, hts, ?_⟩, ?_, ?_, hs.bound⟩
    · dsimp only
      omega
    · dsimp only
      omega
    · exact hs.nodes.trans (congrArg (· + e.size) hmoved.nodes)
  · have hsdepth : q.depth + 1 ≤ s.depth := hs
    exact (leave_holds (by omega)).mono (fun _ s' hs' => hs'.2) fun _ h => h

theorem Promises.term_step (h : Promises fuel) (hfuel : 3 * p.work + 1 ≤ fuel + 1)
    (hdepth : p.depth ≤ MAX_PARSE_DEPTH) (hnodes : p.nodes ≤ MAX_PARSE_NODES) :
    (Parser.parse_term (fuel + 1) p).Holds (Parsed .term p) (Deeper p) := by
  rw [Parser.parse_term]
  split
  · rename_i hnot
    refine (advance_moved ⟨.nil _, rfl, rfl⟩ hnot nofun).bind fun _ q hq => ?_
    obtain ⟨hmoved, hwork⟩ := hq
    rw [← Outcome.bind_assoc]
    refine (level_holds .term hmoved hdepth fun r hr hrdepth hrnodes => ?_).bind
      fun e s hs => ?_
    · have hrwork : r.work = q.work := congrArg Stream.work hr
      exact h.parse_term r (by omega) hrdepth (hrnodes.trans_le hnodes)
    · refine (Promises.shift (add_node_holds hs.bound) hs.depth.ge).bind fun _ s' hs' => ?_
      obtain ⟨rfl, hbound⟩ := hs'
      obtain ⟨ts, d, hreads, hts, hd⟩ := hs.tokens
      refine ⟨⟨.Not :: ts, hmoved.reads.append hreads, hd ▸ .not hts⟩, hs.depth, ?_, hbound⟩
      exact congrArg (· + 1) hs.nodes
  · rename_i hopen
    refine (advance_moved ⟨.nil _, rfl, rfl⟩ hopen nofun).bind fun _ q hq => ?_
    obtain ⟨hmoved, hwork⟩ := hq
    rw [← Outcome.bind_assoc]
    refine (level_holds .or hmoved hdepth fun r hr hrdepth hrnodes => ?_).bind
      fun e s hs => ?_
    · have hrwork : r.work = q.work := congrArg Stream.work hr
      exact h.parse_or r (by omega) hrdepth (hrnodes.trans_le hnodes)
    · split_ifs with hclose
      · exact hs.depth.ge
      obtain ⟨ts, d, hreads, hts, hd⟩ := hs.tokens
      refine (Promises.shift (advance_moved ⟨.nil _, rfl, rfl⟩ (not_not.mp hclose) nofun)
        hs.depth.ge).bind fun _ s' hs' => ?_
      obtain ⟨hmoved', -⟩ := hs'
      refine ⟨⟨.LParen :: (ts ++ [Token.RParen]), ?_, hd ▸ .paren hts⟩, ?_, ?_, ?_⟩
      · exact hmoved.reads.append (hreads.append hmoved'.reads)
      · exact hmoved'.depth.trans hs.depth
      · exact hmoved'.nodes.trans hs.nodes
      · exact hmoved'.nodes.trans_le hs.bound
  · exact parse_predicate_holds (by omega) hnodes
  · exact Nat.le_refl p.depth

/-- **Every function keeps its promise**, with fuel for the tokens that may be left. -/
theorem promises (fuel : ℕ) : Promises fuel := by
  induction fuel with
  | zero =>
    exact ⟨fun p hfuel => absurd hfuel (Nat.not_succ_le_zero _),
      fun _ p hfuel => absurd hfuel (Nat.not_succ_le_zero _),
      fun p hfuel => absurd hfuel (Nat.not_succ_le_zero _),
      fun _ p hfuel => absurd hfuel (Nat.not_succ_le_zero _),
      fun p hfuel => absurd hfuel (Nat.not_succ_le_zero _)⟩
  | succ fuel ih =>
    exact ⟨fun _ => ih.or_step, fun _ _ => ih.or_loop_step, fun _ => ih.and_step,
      fun _ _ => ih.and_loop_step, fun _ => ih.term_step⟩

end Parser

/-! ### Queries -/

/-- **The tokens of a text**, up to its end. -/
def Lexes (input : List UInt8) (ts : List Token) : Prop :=
  ∃ s : Stream, (Lexer.new input).next_token = .ok (s.current, s.lexer) ∧ s.tok_pos = 0 ∧
    ∃ s', Reads s ts s' ∧ s'.current = .Eof

/-- **Soundness.** Parsing ends in a tree or an error. A tree is one the tokens of the text derive,
within the limits, and the counters are where they should be. -/
theorem parse_holds (input : List UInt8) :
    (parse input).Holds (fun e p => ∃ ts, Lexes input ts ∧ Derives .or MAX_PARSE_DEPTH ts e ∧
      e.size ≤ MAX_PARSE_NODES ∧ p.depth = 0 ∧ p.nodes = e.size) fun _ => True := by
  have hspec := Lexer.next_token_spec (Lexer.new input)
  rw [parse, Parser.new]
  cases hnext : (Lexer.new input).next_token with
  | error e =>
    cases e with
    | error e => trivial
    | panic =>
      rw [hnext] at hspec
      exact hspec
  | ok r =>
    obtain ⟨current, lexer⟩ := r
    rw [hnext] at hspec
    dsimp only
    rw [Outcome.ok_bind]
    have hwork : (Stream.mk lexer current 0).work ≤ input.length := by
      rw [Stream.work]
      rcases hspec with ⟨heof, hrest⟩ | ⟨hmore, hlt⟩
      · rw [if_pos heof, hrest]
        exact Nat.zero_le _
      · rw [if_neg hmore]
        exact hlt
    have hfuel : 3 * (Stream.mk lexer current 0).work + 3 ≤ fuelFor input := by
      rw [fuelFor]
      omega
    refine (((Parser.promises (fuelFor input)).parse_or ⟨⟨lexer, current, 0⟩, 0, 0⟩ hfuel
      (Nat.zero_le _) (Nat.zero_le _)).mono (fun _ _ h => h) fun _ _ => trivial).bind
        fun e p hp => ?_
    split_ifs with heof
    · trivial
    · obtain ⟨ts, hreads, hts⟩ := hp.tokens
      have hnodes : p.nodes = e.size := hp.nodes.trans (Nat.zero_add _)
      exact ⟨ts, ⟨_, hnext, rfl, _, hreads, not_not.mp heof⟩, hts, hnodes ▸ hp.bound, hp.depth,
        hnodes⟩

end Query

end Minnal
