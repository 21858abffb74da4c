import Mathlib

/-!
# Finite partial functions and their weights

A partial function that is defined at finitely many keys is listed by a **table**: its pairs,
each key once. Two tables of one function differ in their order only, so a sum over a table is
a quantity of the function, its **weight**. Changing the function at one key changes every
weight by what the key weighs now and what it weighed before (`IsTable.update`).
-/

namespace FiniteTable

variable {κ α : Type*}

/-- The list has the pairs of the function, each key once. -/
structure IsTable (l : List (κ × α)) (f : κ → Option α) : Prop where
  nodup : (l.map Prod.fst).Nodup
  mem : ∀ k a, (k, a) ∈ l ↔ f k = some a

/-- The sum of what the pairs weigh. -/
def weight (w : κ → α → ℕ) (l : List (κ × α)) : ℕ := (l.map fun x => w x.1 x.2).sum

variable {l l' : List (κ × α)} {f : κ → Option α}

@[simp] theorem weight_cons (w : κ → α → ℕ) (x : κ × α) (l : List (κ × α)) :
    weight w (x :: l) = w x.1 x.2 + weight w l := rfl

theorem isTable_nil : IsTable ([] : List (κ × α)) fun _ => none := ⟨List.nodup_nil, by simp⟩

/-- The weight of one key. -/
def weightAt (w : κ → α → ℕ) (k : κ) (o : Option α) : ℕ := o.elim 0 (w k)

@[simp] theorem weightAt_none (w : κ → α → ℕ) (k : κ) : weightAt w k none = 0 := rfl

@[simp] theorem weightAt_some (w : κ → α → ℕ) (k : κ) (a : α) : weightAt w k (some a) = w k a := rfl

private theorem weight_insert (w : κ → α → ℕ) (k : κ) (a : α) (l : List (κ × α)) :
    weight w ((k, a) :: l) = weight w l + weightAt w k (some a) :=
  Nat.add_comm _ _

/-- The weight does not depend on the table. -/
theorem IsTable.weight_eq (h : IsTable l f) (h' : IsTable l' f) (w : κ → α → ℕ) :
    weight w l = weight w l' := by
  have hperm : l.Perm l' := by
    refine (List.perm_ext_iff_of_nodup h.nodup.of_map h'.nodup.of_map).mpr fun x => ?_
    rw [h.mem x.1 x.2, h'.mem x.1 x.2]
  exact (hperm.map _).sum_eq

variable [DecidableEq κ]

theorem IsTable.erase (h : IsTable l f) (k : κ) :
    IsTable (l.filter fun x => decide (x.1 ≠ k)) (Function.update f k none) where
  nodup := h.nodup.sublist (List.filter_sublist.map _)
  mem j a := by
    rw [List.mem_filter, h.mem]
    by_cases hj : j = k <;> simp [hj]

theorem IsTable.insert (h : IsTable l f) {k : κ} (hk : f k = none) (a : α) :
    IsTable ((k, a) :: l) (Function.update f k (some a)) where
  nodup := by
    refine List.nodup_cons.mpr ⟨fun hmem => ?_, h.nodup⟩
    obtain ⟨x, hx, rfl⟩ := List.mem_map.mp hmem
    rw [(h.mem x.1 x.2).mp hx] at hk
    cases hk
  mem j b := by
    rw [List.mem_cons, h.mem, Prod.mk.injEq]
    by_cases hj : j = k
    · subst hj
      simp [hk, eq_comm]
    · simp [hj]

/-- **One change.** The function may be changed at one key. -/
theorem IsTable.update (h : IsTable l f) (k : κ) (o : Option α) :
    ∃ l', IsTable l' (Function.update f k o) ∧
      ∀ w, weight w l' + weightAt w k (f k) = weight w l + weightAt w k o := by
  -- first without the key, then with what it has now
  have herase := h.erase k
  have hgone : ∀ w : κ → α → ℕ, weight w (l.filter fun x => decide (x.1 ≠ k)) +
      weightAt w k (f k) = weight w l := by
    intro w
    cases hk : f k with
    | none =>
      have hsame : Function.update f k none = f := by rw [← hk, Function.update_eq_self]
      rw [hsame] at herase
      exact herase.weight_eq h w
    | some a =>
      have hback := herase.insert (Function.update_self k none f) a
      rw [Function.update_idem, ← hk, Function.update_eq_self] at hback
      rw [← hback.weight_eq h w, weight_insert]
  cases o with
  | none => exact ⟨_, herase, fun w => by rw [hgone, weightAt_none, Nat.add_zero]⟩
  | some a =>
    have hnew := herase.insert (Function.update_self k none f) a
    rw [Function.update_idem] at hnew
    refine ⟨_, hnew, fun w => ?_⟩
    rw [weight_insert, ← hgone w]
    omega

/-- One key weighs at most as much as all. -/
theorem IsTable.weightAt_le (h : IsTable l f) (w : κ → α → ℕ) (k : κ) :
    weightAt w k (f k) ≤ weight w l := by
  obtain ⟨l', -, hw⟩ := h.update k none
  have heq := hw w
  rw [weightAt_none] at heq
  omega

end FiniteTable
