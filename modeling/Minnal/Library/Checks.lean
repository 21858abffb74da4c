import Mathlib.Data.List.Nodup

/-!
# Chains of checks

A validation is a chain of **checks**: each passes or names an error, and the first error ends the
chain. The rules here say when a chain in `Except` passes, and when a loop does that checks each
element of a list and refuses a key it has seen before.
-/

namespace Checks

universe u v

variable {ε : Type u} {α β : Type v}

/-- A chain returns a value when its first part does and the rest does on that part's value. -/
theorem bind_eq_ok {x : Except ε α} {f : α → Except ε β} {b : β} :
    (x >>= f) = .ok b ↔ ∃ a, x = .ok a ∧ f a = .ok b := by
  cases x with
  | error e =>
    change Except.error e = Except.ok b ↔ _
    simp
  | ok a =>
    change f a = Except.ok b ↔ _
    simp

/-- A chain that begins with a check passes when the check does and the rest does. -/
theorem check_bind_eq_ok {β : Type} {x : Except ε Unit} {f : Unit → Except ε β} {b : β} :
    (x >>= f) = .ok b ↔ x = .ok () ∧ f () = .ok b := by
  rw [bind_eq_ok]
  exact ⟨fun ⟨_, hx, hf⟩ => ⟨hx, hf⟩, fun ⟨hx, hf⟩ => ⟨(), hx, hf⟩⟩

/-- The check that **refuses** what satisfies `p`. -/
def refuse (p : Prop) [Decidable p] (e : ε) : Except ε Unit := if p then .error e else .ok ()

@[simp] theorem refuse_eq_ok {p : Prop} [Decidable p] {e : ε} {u : Unit} :
    refuse p e = .ok u ↔ ¬p := by
  by_cases hp : p
  · simp [refuse, hp]
  · simp [refuse, hp]

theorem refuse_neg {p : Prop} [Decidable p] {e : ε} (h : ¬p) : refuse p e = .ok () := if_neg h

/-- A passed check followed by the rest is the rest. -/
@[simp] theorem ok_bind {a : α} {f : α → Except ε β} : ((.ok a : Except ε α) >>= f) = f a := rfl

/-- A failed check is what the whole chain returns. -/
@[simp] theorem error_bind {e : ε} {f : α → Except ε β} :
    ((.error e : Except ε α) >>= f) = .error e := rfl

/-! ### Loops that refuse a key seen before -/

section Distinct

variable {ι κ : Type} [DecidableEq κ]

/-- Check each element, refuse one whose key is already **seen**, check it again, and remember its
key. The loop returns the keys it has seen. -/
def checkDistinct (before after : ι → Except ε Unit) (key : ι → κ) (duplicate : ι → ε) :
    List κ → List ι → Except ε (List κ)
  | seen, [] => .ok seen
  | seen, a :: l => do
    before a
    refuse (key a ∈ seen) (duplicate a)
    after a
    checkDistinct before after key duplicate (key a :: seen) l

/-- The loop passes when every element passes its checks and the keys are new and distinct. -/
theorem checkDistinct_eq_ok {before after : ι → Except ε Unit} {key : ι → κ} {duplicate : ι → ε}
    {l : List ι} {seen out : List κ} :
    checkDistinct before after key duplicate seen l = .ok out ↔
      (∀ a ∈ l, before a = .ok () ∧ after a = .ok ()) ∧ (l.map key).Nodup ∧
        (∀ a ∈ l, key a ∉ seen) ∧ out = (l.map key).reverse ++ seen := by
  induction l generalizing seen with
  | nil =>
    simp only [checkDistinct, Except.ok.injEq]
    simp [eq_comm]
  | cons a l ih =>
    simp only [checkDistinct, check_bind_eq_ok, refuse_eq_ok, ih, List.forall_mem_cons,
      List.map_cons, List.nodup_cons, List.mem_map, not_exists, not_and, List.reverse_cons,
      List.append_assoc, List.singleton_append]
    simp only [List.mem_cons, not_or]
    constructor
    · rintro ⟨hbefore, hnew, hafter, hall, hnodup, hseen, rfl⟩
      exact ⟨⟨⟨hbefore, hafter⟩, hall⟩, ⟨fun b hb => (hseen b hb).1, hnodup⟩,
        ⟨hnew, fun b hb => (hseen b hb).2⟩, rfl⟩
    · rintro ⟨⟨⟨hbefore, hafter⟩, hall⟩, ⟨hkey, hnodup⟩, ⟨hnew, hseen⟩, rfl⟩
      exact ⟨hbefore, hnew, hafter, hall, hnodup, fun b hb => ⟨hkey b hb, hseen b hb⟩, rfl⟩

end Distinct

end Checks
