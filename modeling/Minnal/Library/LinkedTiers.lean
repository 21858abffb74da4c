import Mathlib

/-!
# Linked lists in tiers

Nodes are named by indices and linked by a function `next`, with an index `none` that names no
node. `Linked next none x l` says that the links lead from `x` through the nodes of `l`, in order,
to the end.

A search follows the links as long as the nodes ahead lie **below** a target. Where the nodes below
come first, it stops at the last of them (`walkRight_eq`), and it may as well start from any of them
(`pred_walkRight`): a sparser tier of the same list gives a start for the denser one under it.
A node is linked in behind the node where the search stops (`Linked.insert`).
-/

namespace LinkedTiers

variable {ι : Type*}

section Links

variable (next : ι → ι) (none : ι)

/-- The links lead from `x` through the nodes of `l`, in order, to the end. -/
def Linked : ι → List ι → Prop
  | x, [] => next x = none
  | x, y :: l => next x = y ∧ y ≠ none ∧ Linked y l

variable [DecidableEq ι]

/-- The nodes from `x` on, at most `fuel` of them. -/
def follow : ℕ → ι → List ι
  | 0, _ => []
  | fuel + 1, x => if x = none then [] else x :: follow fuel (next x)

/-- Go on while the node ahead is below the target. -/
def walkRight (below : ι → Bool) : ℕ → ι → ι
  | 0, x => x
  | fuel + 1, x =>
    if next x = none then x else if below (next x) then walkRight below fuel (next x) else x

end Links

variable {next next' : ι → ι} {none x : ι} {below : ι → Bool}

/-- The last of the nodes below, or the node in front of them all. -/
def pred (below : ι → Bool) (x : ι) (l : List ι) : ι := (l.takeWhile below).getLastD x

variable {l : List ι}

theorem linked_cons {y : ι} :
    Linked next none x (y :: l) ↔ next x = y ∧ y ≠ none ∧ Linked next none y l := Iff.rfl

private theorem getLastD_append_cons (a : List ι) (y : ι) (b : List ι) (x : ι) :
    (a ++ y :: b).getLastD x = b.getLastD y := by
  induction a generalizing x with
  | nil => exact List.getLastD_cons
  | cons z a ih => rw [List.cons_append, List.getLastD_cons, ih]

variable {l₁ l₂ : List ι}

/-- What is linked from a node on. -/
theorem Linked.append (h : Linked next none x (l₁ ++ l₂)) :
    Linked next none (l₁.getLastD x) l₂ := by
  induction l₁ generalizing x with
  | nil => exact h
  | cons y l₁ ih =>
    have hrest := ih (linked_cons.mp h).2.2
    cases l₁ <;> exact hrest

variable {fuel : ℕ}

/-- The nodes behind `x`. -/
theorem Linked.follow_eq [DecidableEq ι] (h : Linked next none x l) (hfuel : l.length ≤ fuel) :
    follow next none fuel (next x) = l := by
  induction l generalizing x fuel with
  | nil =>
    have hend : next x = none := h
    cases fuel <;> simp [follow, hend]
  | cons y l ih =>
    obtain ⟨hy, hne, hrest⟩ := linked_cons.mp h
    rw [List.length_cons] at hfuel
    obtain ⟨fuel, rfl⟩ := Nat.exists_eq_succ_of_ne_zero (by omega : fuel ≠ 0)
    rw [hy, follow, if_neg hne, ih hrest (by omega)]

/-- The search stops at the last node below the target. -/
theorem Linked.walkRight_eq [DecidableEq ι] (h : Linked next none x l) (hfuel : l.length ≤ fuel) :
    walkRight next none below fuel x = pred below x l := by
  induction l generalizing x fuel with
  | nil =>
    have hend : next x = none := h
    cases fuel <;> simp [walkRight, pred, hend]
  | cons y l ih =>
    obtain ⟨hy, hne, hrest⟩ := linked_cons.mp h
    rw [List.length_cons] at hfuel
    obtain ⟨fuel, rfl⟩ := Nat.exists_eq_succ_of_ne_zero (by omega : fuel ≠ 0)
    rw [walkRight, hy, if_neg hne]
    by_cases hbelow : below y = true
    · rw [if_pos hbelow, ih hrest (by omega), pred, pred, List.takeWhile_cons_of_pos hbelow,
        List.getLastD_cons]
    · rw [if_neg hbelow, pred, List.takeWhile_cons_of_neg hbelow]
      rfl

/-- The next node behind the last one below the target. -/
theorem Linked.next_pred (h : Linked next none x l) (below : ι → Bool) :
    Linked next none (pred below x l) (l.dropWhile below) := by
  rw [← List.takeWhile_append_dropWhile (p := below) (l := l)] at h
  exact h.append

/-! ### Starting from a sparser tier -/

/-- Nodes below the target come before the others. -/
def BelowFirst (below : ι → Bool) (l : List ι) : Prop :=
  l.Pairwise fun a b => below b = true → below a = true

theorem BelowFirst.takeWhile_eq (h : BelowFirst below l) : l.takeWhile below = l.filter below := by
  induction l with
  | nil => rfl
  | cons a l ih =>
    obtain ⟨ha, hl⟩ := List.pairwise_cons.mp h
    by_cases hbelow : below a = true
    · rw [List.takeWhile_cons_of_pos hbelow, List.filter_cons_of_pos hbelow, ih hl]
    · have hnone : l.filter below = [] :=
        List.filter_eq_nil_iff.mpr fun b hb hbb => hbelow (ha b hb hbb)
      rw [List.takeWhile_cons_of_neg hbelow, List.filter_cons_of_neg hbelow, hnone]

theorem BelowFirst.dropWhile_eq (h : BelowFirst below l) :
    l.dropWhile below = l.filter fun a => !below a := by
  induction l with
  | nil => rfl
  | cons a l ih =>
    obtain ⟨ha, hl⟩ := List.pairwise_cons.mp h
    by_cases hbelow : below a = true
    · rw [List.dropWhile_cons_of_pos hbelow, List.filter_cons_of_neg (by simp [hbelow]), ih hl]
    · have hall : l.filter (fun b => !below b) = l := by
        refine List.filter_eq_self.mpr fun b hb => ?_
        have hnot : ¬ below b = true := fun hbb => hbelow (ha b hb hbb)
        simpa using hnot
      rw [List.dropWhile_cons_of_neg hbelow, List.filter_cons_of_pos (by simp [hbelow]), hall]

/-- The predecessor is the node in front, or one of the nodes below. -/
theorem pred_eq_or (below : ι → Bool) (x : ι) (l : List ι) :
    pred below x l = x ∨ pred below x l ∈ l ∧ below (pred below x l) = true := by
  cases hlast : (l.takeWhile below).getLast? with
  | none =>
    left
    rw [pred, List.getLastD_eq_getLast?, hlast, Option.getD_none]
  | some y =>
    right
    have hy := List.mem_of_getLast? hlast
    rw [pred, List.getLastD_eq_getLast?, hlast, Option.getD_some]
    exact ⟨(List.takeWhile_sublist _).subset hy, List.mem_takeWhile_imp hy⟩

/-- **From tier to tier.** The predecessor in a tier is a start for the search in any tier that
has its nodes. -/
theorem Linked.pred_walkRight [DecidableEq ι] (h : Linked next none x l₂)
    (hfirst : BelowFirst below l₂) (hsub : l₁ ⊆ l₂) (hfuel : l₂.length ≤ fuel) :
    walkRight next none below fuel (pred below x l₁) = pred below x l₂ := by
  obtain hx | ⟨hmem, hbelow⟩ := pred_eq_or below x l₁
  · rw [hx]
    exact h.walkRight_eq hfuel
  · generalize pred below x l₁ = y at hmem hbelow
    obtain ⟨a, b, rfl⟩ := List.append_of_mem (hsub hmem)
    have hb : Linked next none y b := by
      rw [List.append_cons] at h
      have hlinked := h.append
      rwa [getLastD_append_cons] at hlinked
    rw [List.length_append, List.length_cons] at hfuel
    rw [hb.walkRight_eq (by omega)]
    -- everything up to the start is below the target
    have ha : ∀ z ∈ a ++ [y], below z = true := by
      intro z hz
      obtain hz | hz := List.mem_append.mp hz
      · exact (List.pairwise_append.mp hfirst).2.2 z hz y List.mem_cons_self hbelow
      · rwa [List.mem_singleton.mp hz]
    rw [pred, pred, List.append_cons, List.takeWhile_append_of_pos ha, List.append_assoc]
    exact (getLastD_append_cons a y _ x).symm

/-! ### Linking a node in -/

theorem Linked.congr (h : Linked next none x l) (heq : ∀ y ∈ x :: l, next' y = next y) :
    Linked next' none x l := by
  induction l generalizing x with
  | nil => exact (heq x List.mem_cons_self).trans h
  | cons y l ih =>
    obtain ⟨hy, hne, hrest⟩ := linked_cons.mp h
    refine linked_cons.mpr ⟨(heq x List.mem_cons_self).trans hy, hne, ih hrest fun z hz => ?_⟩
    exact heq z (List.mem_cons_of_mem x hz)

/-- **Insertion** behind the last node of `l₁`. -/
theorem Linked.insert {new : ι} (h : Linked next none x (l₁ ++ l₂))
    (hnodup : (x :: (l₁ ++ l₂)).Nodup) (hfresh : new ∉ x :: (l₁ ++ l₂)) (hnew : new ≠ none)
    (hprev : next' (l₁.getLastD x) = new) (hnext : next' new = next (l₁.getLastD x))
    (hrest : ∀ y, y ≠ l₁.getLastD x → y ≠ new → next' y = next y) :
    Linked next' none x (l₁ ++ new :: l₂) := by
  induction l₁ generalizing x with
  | nil =>
    obtain ⟨hx, -⟩ := List.nodup_cons.mp hnodup
    refine linked_cons.mpr ⟨hprev, hnew, ?_⟩
    have hkeep : ∀ y ∈ l₂, next' y = next y := by
      intro y hy
      refine hrest y ?_ ?_
      · rintro rfl
        exact hx hy
      · rintro rfl
        exact hfresh (List.mem_cons_of_mem x hy)
    cases l₂ with
    | nil => exact hnext.trans h
    | cons y l₂ =>
      obtain ⟨hy, hne, hl₂⟩ := linked_cons.mp h
      exact linked_cons.mpr ⟨hnext.trans hy, hne, hl₂.congr hkeep⟩
  | cons y l₁ ih =>
    obtain ⟨hy, hne, hl⟩ := linked_cons.mp h
    have hlast : (y :: l₁).getLastD x = l₁.getLastD y := by cases l₁ <;> rfl
    rw [hlast] at hprev hnext hrest
    obtain ⟨hx, hnodup⟩ := List.nodup_cons.mp hnodup
    have hxlast : x ≠ l₁.getLastD y := by
      rintro rfl
      refine hx ?_
      cases hl₁ : l₁.getLast? with
      | none => simp [List.getLastD_eq_getLast?, hl₁]
      | some z =>
        rw [List.getLastD_eq_getLast?, hl₁]
        have hz := List.mem_of_getLast? hl₁
        simp [hz]
    have hxnew : x ≠ new := fun heq => hfresh (heq ▸ List.mem_cons_self)
    refine linked_cons.mpr ⟨(hrest x hxlast hxnew).trans hy, hne, ?_⟩
    exact ih hl hnodup (fun hmem => hfresh (List.mem_cons_of_mem x hmem)) hprev hnext hrest

end LinkedTiers
