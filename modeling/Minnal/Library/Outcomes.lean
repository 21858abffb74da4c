import Mathlib.Logic.Basic

/-!
# Outcomes

A program over a state `σ` with recursion on fuel **ends** with a value, with an error, with a
panic or out of fuel; with a value or an error it leaves a state behind. Programs are put together
with `bind`, and with `andFinally` where a last step is made however the first part ended.

`Holds x post fail` says of an outcome that it is a value with `post` or an error with `fail`: so
neither a panic nor the end of the fuel. The rules follow the structure of the program.
-/

namespace Outcomes

variable {σ ε α β : Type}

inductive Outcome (σ ε α : Type) where
  | ok (a : α) (s : σ)
  | err (e : ε) (s : σ)
  | panic
  | outOfFuel
  deriving DecidableEq

variable {s : σ} {x : Outcome σ ε α}

namespace Outcome

/-- Go on with the value. -/
def bind (x : Outcome σ ε α) (f : α → σ → Outcome σ ε β) : Outcome σ ε β :=
  match x with
  | .ok a s => f a s
  | .err e s => .err e s
  | .panic => .panic
  | .outOfFuel => .outOfFuel

/-- Make a last step on the state, after a value and after an error. -/
def andFinally (x : Outcome σ ε α) (f : σ → Outcome σ ε Unit) : Outcome σ ε α :=
  match x with
  | .ok a s => (f s).bind fun _ s => .ok a s
  | .err e s => (f s).bind fun _ s => .err e s
  | .panic => .panic
  | .outOfFuel => .outOfFuel

@[simp] theorem ok_bind (a : α) (s : σ) (f : α → σ → Outcome σ ε β) :
    (ok a s : Outcome σ ε α).bind f = f a s := rfl

@[simp] theorem err_bind (e : ε) (s : σ) (f : α → σ → Outcome σ ε β) :
    (err e s : Outcome σ ε α).bind f = .err e s := rfl

@[simp] theorem ok_andFinally (a : α) (s : σ) (f : σ → Outcome σ ε Unit) :
    (ok a s : Outcome σ ε α).andFinally f = (f s).bind fun _ s => .ok a s := rfl

theorem bind_assoc {γ : Type} (x : Outcome σ ε α) (f : α → σ → Outcome σ ε β)
    (g : β → σ → Outcome σ ε γ) : (x.bind f).bind g = x.bind fun a s => (f a s).bind g := by
  cases x with
  | ok a s => rfl
  | err e s => rfl
  | panic => rfl
  | outOfFuel => rfl

/-- **The outcome** is a value with `post` or an error with `fail`. -/
def Holds (x : Outcome σ ε α) (post : α → σ → Prop) (fail : σ → Prop) : Prop :=
  match x with
  | .ok a s => post a s
  | .err _ s => fail s
  | .panic => False
  | .outOfFuel => False

variable {post : α → σ → Prop} {post' : β → σ → Prop} {fail fail' : σ → Prop}

@[simp] theorem holds_ok {a : α} : Holds (.ok a s : Outcome σ ε α) post fail ↔ post a s :=
  Iff.rfl

@[simp] theorem holds_err {e : ε} : Holds (.err e s : Outcome σ ε α) post fail ↔ fail s :=
  Iff.rfl

/-- The rule of consequence. -/
theorem Holds.mono {post' : α → σ → Prop} (h : x.Holds post fail)
    (hpost : ∀ a s, post a s → post' a s) (hfail : ∀ s, fail s → fail' s) :
    x.Holds post' fail' := by
  cases x with
  | ok a s => exact hpost a s h
  | err e s => exact hfail s h
  | panic => exact h
  | outOfFuel => exact h

/-- The rule of composition. -/
theorem Holds.bind {f : α → σ → Outcome σ ε β} (h : x.Holds post fail)
    (hf : ∀ a s, post a s → (f a s).Holds post' fail) : (x.bind f).Holds post' fail := by
  cases x with
  | ok a s => exact hf a s h
  | err e s => exact h
  | panic => exact h
  | outOfFuel => exact h

/-- The rule of a last step: it ends with a value, after a value and after an error. -/
theorem Holds.andFinally {f : σ → Outcome σ ε Unit} {post' : α → σ → Prop} (h : x.Holds post fail)
    (hpost : ∀ a s, post a s → (f s).Holds (fun _ s => post' a s) fail')
    (hfail : ∀ s, fail s → (f s).Holds (fun _ s => fail' s) fail') :
    (x.andFinally f).Holds post' fail' := by
  cases x with
  | ok a s => exact (hpost a s h).bind fun _ _ hs => hs
  | err e s => exact (hfail s h).bind fun _ _ hs => hs
  | panic => exact h
  | outOfFuel => exact h

/-- A value has what holds of the outcome. -/
theorem Holds.of_eq_ok {a : α} (h : x.Holds post fail) (hx : x = .ok a s) : post a s := by
  rw [hx] at h
  exact h

/-- The outcome is a value or an error. -/
theorem Holds.ok_or_err (h : x.Holds post fail) : (∃ a s, x = .ok a s) ∨ ∃ e s, x = .err e s := by
  cases x with
  | ok a s => exact .inl ⟨a, s, rfl⟩
  | err e s => exact .inr ⟨e, s, rfl⟩
  | panic => exact h.elim
  | outOfFuel => exact h.elim

end Outcome

end Outcomes
