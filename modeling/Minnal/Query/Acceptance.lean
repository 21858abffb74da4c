import Minnal.Query.Grammar

/-!
# What the grammar derives is parsed

The other direction of soundness. A derivation within the limits says what the parser does on its
tokens, whatever follows them: at the level of a term the tree is returned, and at the levels of
`AND` and `OR` the parser comes to its loop with the tree in its hands (`Accepted`). The loops
associate to the left, and so does the grammar, which is why the induction over a derivation goes
through the loop.
-/

set_option linter.dupNamespace false

namespace Minnal

namespace Query

open Outcomes Outcome

namespace Parser

/-! ### Steps that succeed -/

variable {p : Parser} {t : Token} {s : Stream}

theorem advance_eq (h : Step p.toStream t s) : p.advance = .ok t ⟨s, p.depth, p.nodes⟩ := by
  obtain ⟨rfl, hnext, hpos⟩ := h
  rw [advance, hnext]
  cases s
  cases hpos
  rfl

theorem add_node_eq (h : p.nodes + 1 ≤ MAX_PARSE_NODES) :
    p.add_node = .ok () { p with nodes := p.nodes + 1 } := by
  rw [add_node, if_neg (by rw [MAX_PARSE_NODES] at h; omega), if_neg (not_lt.mpr h)]

theorem enter_eq (h : p.depth + 1 ≤ MAX_PARSE_DEPTH) :
    p.enter = .ok () { p with depth := p.depth + 1 } := by
  rw [enter, if_neg (by rw [MAX_PARSE_DEPTH] at h; omega), if_neg (not_lt.mpr h)]

theorem leave_eq (s : Stream) (depth nodes : ℕ) :
    leave ⟨s, depth + 1, nodes⟩ = .ok () ⟨s, depth, nodes⟩ := rfl

variable {ts : List Token}

/-- Tokens that are read are read one by one. -/
theorem reads_cons {s'' : Stream} (h : Reads s (t :: ts) s'') :
    ∃ s', t ≠ .Eof ∧ Step s t s' ∧ Reads s' ts s'' := by
  cases h with
  | cons ht hstep h => exact ⟨_, ht, hstep, h⟩

variable {us : List Token}

theorem reads_append {s'' : Stream} (h : Reads s (ts ++ us) s'') :
    ∃ s', Reads s ts s' ∧ Reads s' us s'' := by
  induction ts generalizing s with
  | nil => exact ⟨s, .nil s, h⟩
  | cons t ts ih =>
    obtain ⟨s₁, ht, hstep, hrest⟩ := reads_cons h
    obtain ⟨s₂, hts, hus⟩ := ih hrest
    exact ⟨s₂, .cons ht hstep hts, hus⟩

theorem reads_single {s' : Stream} (h : Reads s [t] s') : Step s t s' := by
  obtain ⟨s₁, -, hstep, hrest⟩ := reads_cons h
  cases hrest
  exact hstep

/-! ### Predicates -/

variable {v : RawValue}

theorem parse_scalar_eq (hv : Scalar t v) (h : Step p.toStream t s) :
    p.parse_scalar = .ok v ⟨s, p.depth, p.nodes⟩ := by
  rw [parse_scalar, advance_eq h]
  cases hv with
  | str s => rfl
  | int n => rfl
  | bool b => rfl

variable {fuel : ℕ}

theorem list_loop_eq {items vs : List RawValue} (hitems : Items ts vs)
    (h : Reads p.toStream (ts ++ [Token.RParen]) s) (hfuel : p.work < fuel) :
    list_loop fuel items p = .ok (items ++ vs) ⟨s, p.depth, p.nodes⟩ := by
  induction hitems generalizing fuel items p with
  | one hv =>
    obtain ⟨fuel, rfl⟩ := Nat.exists_eq_succ_of_ne_zero (Nat.ne_zero_of_lt hfuel)
    obtain ⟨s₁, -, hstep, hrest⟩ := reads_cons h
    have hclose := reads_single hrest
    rw [list_loop, parse_scalar_eq hv hstep, ok_bind]
    simp only [hclose.1]
    rw [advance_eq (p := ⟨s₁, p.depth, p.nodes⟩) hclose, ok_bind]
  | more hv _ ih =>
    obtain ⟨fuel, rfl⟩ := Nat.exists_eq_succ_of_ne_zero (Nat.ne_zero_of_lt hfuel)
    obtain ⟨s₁, ht, hstep, hrest⟩ := reads_cons h
    obtain ⟨s₂, hne, hcomma, hrest⟩ := reads_cons hrest
    have hwork := hstep.work_lt ht
    have hwork' := hcomma.work_lt hne
    rw [list_loop, parse_scalar_eq hv hstep, ok_bind]
    simp only [hcomma.1]
    rw [advance_eq (p := ⟨s₁, p.depth, p.nodes⟩) hcomma, ok_bind,
      ih (p := ⟨s₂, p.depth, p.nodes⟩) hrest (by dsimp only; omega), List.append_assoc]
    rfl

variable {op : Op}

theorem parse_value_eq (hv : Value op ts v) (h : Reads p.toStream ts s) (hfuel : p.work ≤ fuel) :
    (if op = .In then p.parse_in_list fuel else p.parse_scalar) =
      .ok v ⟨s, p.depth, p.nodes⟩ := by
  cases hv with
  | scalar hop hscalar => rw [if_neg hop, parse_scalar_eq hscalar (reads_single h)]
  | list hitems =>
    obtain ⟨s₁, hne, hopen, hrest⟩ := reads_cons h
    have hwork := hopen.work_lt hne
    rw [if_pos rfl, parse_in_list, if_neg (not_not.mpr hopen.1), advance_eq hopen, ok_bind,
      list_loop_eq (p := ⟨s₁, p.depth, p.nodes⟩) hitems hrest (hwork.trans_le hfuel),
      ok_bind]
    cases hitems with
    | one _ => rfl
    | more _ _ => rfl

theorem parse_predicate_eq {field : String} (hop : operator t = some op) (hv : Value op ts v)
    (h : Reads p.toStream (.Ident field :: t :: ts) s) (hfuel : p.work ≤ fuel)
    (hnodes : p.nodes + 1 ≤ MAX_PARSE_NODES) :
    p.parse_predicate fuel = .ok (.Predicate field op v) ⟨s, p.depth, p.nodes + 1⟩ := by
  obtain ⟨s₁, hne, hfield, hrest⟩ := reads_cons h
  obtain ⟨s₂, ht, hoperator, hrest⟩ := reads_cons hrest
  have hwork := hfield.work_lt hne
  have hwork' := hoperator.work_lt ht
  rw [parse_predicate, advance_eq hfield, ok_bind]
  dsimp only
  rw [advance_eq (p := ⟨s₁, p.depth, p.nodes⟩) hoperator, ok_bind, hop]
  dsimp only
  rw [parse_value_eq (p := ⟨s₂, p.depth, p.nodes⟩) hv hrest (by dsimp only; omega),
    ok_bind]
  dsimp only
  rw [add_node_eq (p := ⟨s, p.depth, p.nodes⟩) hnodes]
  rfl

/-! ### Expressions -/

/-- The parser behind the tokens of a tree. -/
def landed (p : Parser) (s : Stream) (e : RawExpr) : Parser := ⟨s, p.depth, p.nodes + e.size⟩

/-- **What a derivation says of the parser**, within the limits. -/
def Accepted : Level → ℕ → List Token → RawExpr → Prop
  | .or, d, ts, e => ∀ (p : Parser) (s : Stream), Reads p.toStream ts s → s.current ≠ .And →
      p.depth + d ≤ MAX_PARSE_DEPTH → p.nodes + e.size ≤ MAX_PARSE_NODES → ∀ result,
      (∀ fuel, 3 * s.work + 1 ≤ fuel → or_loop fuel e (p.landed s e) = result) →
      ∀ fuel, 3 * p.work + 3 ≤ fuel → parse_or fuel p = result
  | .and, d, ts, e => ∀ (p : Parser) (s : Stream), Reads p.toStream ts s →
      p.depth + d ≤ MAX_PARSE_DEPTH → p.nodes + e.size ≤ MAX_PARSE_NODES → ∀ result,
      (∀ fuel, 3 * s.work + 1 ≤ fuel → and_loop fuel e (p.landed s e) = result) →
      ∀ fuel, 3 * p.work + 2 ≤ fuel → parse_and fuel p = result
  | .term, d, ts, e => ∀ (p : Parser) (s : Stream), Reads p.toStream ts s →
      p.depth + d ≤ MAX_PARSE_DEPTH → p.nodes + e.size ≤ MAX_PARSE_NODES →
      ∀ fuel, 3 * p.work + 1 ≤ fuel → parse_term fuel p = .ok e (p.landed s e)

variable {e : RawExpr}

/-- The loops stop at any other token. -/
theorem or_loop_stop (h : p.current ≠ .Or) (hfuel : 0 < fuel) : or_loop fuel e p = .ok e p := by
  obtain ⟨fuel, rfl⟩ := Nat.exists_eq_succ_of_ne_zero hfuel.ne'
  rw [or_loop, if_neg h]

theorem and_loop_stop (h : p.current ≠ .And) (hfuel : 0 < fuel) : and_loop fuel e p = .ok e p := by
  obtain ⟨fuel, rfl⟩ := Nat.exists_eq_succ_of_ne_zero hfuel.ne'
  rw [and_loop, if_neg h]

variable {d : ℕ}

/-- An operand of `OR` that no `AND` follows. -/
theorem Accepted.and_operand (h : Accepted .and d ts e) (hreads : Reads p.toStream ts s)
    (hand : s.current ≠ .And) (hdepth : p.depth + d ≤ MAX_PARSE_DEPTH)
    (hnodes : p.nodes + e.size ≤ MAX_PARSE_NODES) (hfuel : 3 * p.work + 2 ≤ fuel) :
    parse_and fuel p = .ok e (p.landed s e) :=
  h p s hreads hdepth hnodes _
    (fun _ hf => and_loop_stop hand ((Nat.succ_pos _).trans_le hf)) fuel hfuel

theorem Accepted.or_one (h : Accepted .and d ts e) : Accepted .or d ts e := by
  intro p s hreads hand hdepth hnodes result hloop fuel hfuel
  obtain ⟨fuel, rfl⟩ := Nat.exists_eq_succ_of_ne_zero (by omega : fuel ≠ 0)
  have hwork := hreads.work_le
  rw [parse_or, h.and_operand hreads hand hdepth hnodes (by omega), ok_bind]
  exact hloop fuel (by omega)

theorem Accepted.and_one (h : Accepted .term d ts e) : Accepted .and d ts e := by
  intro p s hreads hdepth hnodes result hloop fuel hfuel
  obtain ⟨fuel, rfl⟩ := Nat.exists_eq_succ_of_ne_zero (by omega : fuel ≠ 0)
  have hwork := hreads.work_le
  rw [parse_and, h p s hreads hdepth hnodes fuel (by omega), ok_bind]
  exact hloop fuel (by omega)

variable {l r : RawExpr}

theorem landed_node {node : RawExpr} (s s' : Stream) (h : node.size = l.size + r.size + 1)
    (hnodes : p.nodes + node.size ≤ MAX_PARSE_NODES) :
    add_node (landed ⟨s, p.depth, p.nodes + l.size⟩ s' r) = .ok () (p.landed s' node) := by
  rw [add_node_eq]
  · rw [landed, landed, h]
    dsimp only
    rw [Nat.add_assoc, Nat.add_assoc, Nat.add_assoc]
  · rw [landed]
    dsimp only
    omega

theorem Accepted.or_more (hl : Accepted .or d ts l) (hr : Accepted .and d us r) :
    Accepted .or d (ts ++ .Or :: us) (.Or l r) := by
  intro p s hreads hand hdepth hnodes result hloop fuel hfuel
  have hsize : (RawExpr.Or l r).size = l.size + r.size + 1 := rfl
  obtain ⟨s₁, hts, hrest⟩ := reads_append hreads
  obtain ⟨s₂, hne, hor, hus⟩ := reads_cons hrest
  have hwork := hor.work_lt hne
  have hwork' := hus.work_le
  have hnot : s₁.current ≠ .And := fun h => nomatch hor.1.symm.trans h
  refine hl p s₁ hts hnot hdepth (by omega) result (fun fuel' hfuel' => ?_) fuel hfuel
  -- the round of the loop that takes the right operand
  obtain ⟨fuel', rfl⟩ := Nat.exists_eq_succ_of_ne_zero (by omega : fuel' ≠ 0)
  have hright : parse_and fuel' ⟨s₂, p.depth, p.nodes + l.size⟩ =
      .ok r (landed ⟨s₂, p.depth, p.nodes + l.size⟩ s r) := by
    refine hr.and_operand (p := ⟨s₂, p.depth, p.nodes + l.size⟩) hus hand hdepth ?_ ?_
    · dsimp only
      omega
    · dsimp only
      omega
  have hcurrent : (p.landed s₁ l).current = .Or := hor.1
  rw [or_loop, if_pos hcurrent, advance_eq (p := p.landed s₁ l) hor, ok_bind]
  dsimp only [landed] at hright ⊢
  rw [hright, ok_bind]
  have hnode := landed_node s₂ s hsize hnodes
  dsimp only [landed] at hnode
  rw [hnode, ok_bind]
  exact hloop fuel' (by omega)

theorem Accepted.and_more (hl : Accepted .and d ts l) (hr : Accepted .term d us r) :
    Accepted .and d (ts ++ .And :: us) (.And l r) := by
  intro p s hreads hdepth hnodes result hloop fuel hfuel
  have hsize : (RawExpr.And l r).size = l.size + r.size + 1 := rfl
  obtain ⟨s₁, hts, hrest⟩ := reads_append hreads
  obtain ⟨s₂, hne, hand, hus⟩ := reads_cons hrest
  have hwork := hand.work_lt hne
  have hwork' := hus.work_le
  refine hl p s₁ hts hdepth (by omega) result (fun fuel' hfuel' => ?_) fuel hfuel
  -- the round of the loop that takes the right operand
  obtain ⟨fuel', rfl⟩ := Nat.exists_eq_succ_of_ne_zero (by omega : fuel' ≠ 0)
  have hright : parse_term fuel' ⟨s₂, p.depth, p.nodes + l.size⟩ =
      .ok r (landed ⟨s₂, p.depth, p.nodes + l.size⟩ s r) := by
    refine hr ⟨s₂, p.depth, p.nodes + l.size⟩ s hus hdepth ?_ fuel' ?_
    · dsimp only
      omega
    · dsimp only
      omega
  have hcurrent : (p.landed s₁ l).current = .And := hand.1
  rw [and_loop, if_pos hcurrent, advance_eq (p := p.landed s₁ l) hand, ok_bind]
  dsimp only [landed] at hright ⊢
  rw [hright, ok_bind]
  have hnode := landed_node s₂ s hsize hnodes
  dsimp only [landed] at hnode
  rw [hnode, ok_bind]
  exact hloop fuel' (by omega)

theorem Accepted.not (h : Accepted .term d ts e) :
    Accepted .term (d + 1) (.Not :: ts) (.Not e) := by
  intro p s hreads hdepth hnodes fuel hfuel
  have hsize : (RawExpr.Not e).size = e.size + 1 := rfl
  obtain ⟨s₁, hne, hnot, hts⟩ := reads_cons hreads
  have hwork := hnot.work_lt hne
  obtain ⟨fuel, rfl⟩ := Nat.exists_eq_succ_of_ne_zero (by omega : fuel ≠ 0)
  have hinner := h ⟨s₁, p.depth + 1, p.nodes⟩ s hts (by dsimp only; omega) (by dsimp only; omega)
    fuel (by dsimp only; omega)
  rw [parse_term]
  simp only [hnot.1]
  rw [advance_eq hnot, ok_bind, enter_eq (by dsimp only; omega), ok_bind, hinner,
    ok_andFinally, landed]
  dsimp only
  rw [leave_eq, ok_bind, ok_bind, add_node_eq (by dsimp only; omega),
    ok_bind]
  rfl

theorem Accepted.paren (h : Accepted .or d ts e) :
    Accepted .term (d + 1) (.LParen :: (ts ++ [Token.RParen])) e := by
  intro p s hreads hdepth hnodes fuel hfuel
  obtain ⟨s₁, hne, hopen, hrest⟩ := reads_cons hreads
  obtain ⟨s₂, hts, hrest⟩ := reads_append hrest
  have hclose := reads_single hrest
  have hwork := hopen.work_lt hne
  have hwork' := hts.work_le
  obtain ⟨fuel, rfl⟩ := Nat.exists_eq_succ_of_ne_zero (by omega : fuel ≠ 0)
  have hinner : parse_or fuel ⟨s₁, p.depth + 1, p.nodes⟩ =
      .ok e (landed ⟨s₁, p.depth + 1, p.nodes⟩ s₂ e) := by
    refine h ⟨s₁, p.depth + 1, p.nodes⟩ s₂ hts (fun hand => nomatch hclose.1.symm.trans hand)
      (by dsimp only; omega) hnodes _ (fun fuel' hfuel' => ?_) fuel (by dsimp only; omega)
    exact or_loop_stop (fun hor => nomatch hclose.1.symm.trans hor)
      ((Nat.succ_pos _).trans_le hfuel')
  rw [parse_term]
  simp only [hopen.1]
  rw [advance_eq hopen, ok_bind, enter_eq (by dsimp only; omega), ok_bind, hinner,
    ok_andFinally, landed]
  dsimp only
  rw [leave_eq, ok_bind, ok_bind, if_neg (not_not.mpr hclose.1),
    advance_eq (p := ⟨s₂, p.depth, p.nodes + e.size⟩) hclose, ok_bind]
  rfl

theorem Accepted.predicate {field : String} (hop : operator t = some op) (hv : Value op ts v) :
    Accepted .term d (.Ident field :: t :: ts) (.Predicate field op v) := by
  intro p s hreads _ hnodes fuel hfuel
  obtain ⟨s₁, -, hfield, -⟩ := reads_cons hreads
  obtain ⟨fuel, rfl⟩ := Nat.exists_eq_succ_of_ne_zero (by omega : fuel ≠ 0)
  rw [parse_term]
  simp only [hfield.1]
  exact parse_predicate_eq hop hv hreads (by omega) hnodes

/-- **Every derivation** is accepted. -/
theorem accepted {level : Level} (h : Derives level d ts e) : Accepted level d ts e := by
  induction h with
  | or_one _ ih => exact ih.or_one
  | or_more _ _ ihl ihr => exact ihl.or_more ihr
  | and_one _ ih => exact ih.and_one
  | and_more _ _ ihl ihr => exact ihl.and_more ihr
  | not _ ih => exact ih.not
  | paren _ ih => exact ih.paren
  | predicate hop hv => exact Accepted.predicate hop hv

end Parser

/-- **Completeness.** If the tokens of a text derive a tree within the limits, parsing the text
returns it. -/
theorem parse_of_derives {input : List UInt8} {ts : List Token} {e : RawExpr}
    (hlexes : Lexes input ts) (h : Derives .or MAX_PARSE_DEPTH ts e)
    (hsize : e.size ≤ MAX_PARSE_NODES) : ∃ p, parse input = .ok e p := by
  obtain ⟨s, hnext, hpos, s', hreads, heof⟩ := hlexes
  have hspec := Lexer.next_token_spec (Lexer.new input)
  rw [hnext] at hspec
  have hwork : s.work ≤ input.length := by
    rw [Stream.work]
    rcases hspec with ⟨heof, hrest⟩ | ⟨hmore, hlt⟩
    · rw [if_pos heof, hrest]
      exact Nat.zero_le _
    · rw [if_neg hmore]
      exact hlt
  have hor : s'.current ≠ .Or := by
    rw [heof]
    decide
  have hparsed := Parser.accepted h ⟨s, 0, 0⟩ s' hreads (by rw [heof]; decide)
    (Nat.zero_add _).le ((Nat.zero_add _).trans_le hsize) _
    (fun fuel hfuel => Parser.or_loop_stop hor ((Nat.succ_pos _).trans_le hfuel)) (fuelFor input)
    (by rw [fuelFor]; dsimp only; omega)
  refine ⟨Parser.landed ⟨s, 0, 0⟩ s' e, ?_⟩
  have hend : ¬(Parser.landed ⟨s, 0, 0⟩ s' e).current ≠ .Eof := not_not.mpr heof
  cases s
  cases hpos
  rw [parse, Parser.new, hnext]
  dsimp only
  rw [ok_bind, hparsed, ok_bind, if_neg hend]

end Query

end Minnal
