import Mathlib.Tactic.Common

/-!
# Programs that may be cut short after any durable write

A **program** acts on a state that outlives it in part: its durable writes are what a crash leaves.
Running it gives the states after each of its durable writes, in order, and then a result and a
final state. A **triple** therefore has two postconditions, for a program that returns and for one
that fails, and a **crash condition** that holds after every durable write.

The rules are those of a Hoare logic, one for each way to build a program. A loop over a list is
proved with an invariant that speaks about what is left of the list.
-/

/-- What a program does on a state. -/
structure DurableRun (σ ε α : Type*) where
  /-- The states after the durable writes. -/
  written : List σ
  result : Except ε α
  final : σ

/-- A program over states `σ` that fails with `ε` or returns an `α`. -/
def DurableProgram (σ ε α : Type*) := σ → DurableRun σ ε α

namespace DurableProgram

universe u

variable {σ ε ι : Type*} {α β : Type u}

protected def pure (a : α) : DurableProgram σ ε α := fun s => ⟨[], .ok a, s⟩

protected def bind (x : DurableProgram σ ε α) (f : α → DurableProgram σ ε β) :
    DurableProgram σ ε β := fun s =>
  match x s with
  | ⟨written, .ok a, t⟩ =>
    let r := f a t
    ⟨written ++ r.written, r.result, r.final⟩
  | ⟨written, .error e, t⟩ => ⟨written, .error e, t⟩

instance : Monad (DurableProgram σ ε) where
  pure := DurableProgram.pure
  bind := DurableProgram.bind

/-- Read the state. -/
def get : DurableProgram σ ε σ := fun s => ⟨[], .ok s, s⟩

/-- A durable write. -/
def write (f : σ → σ) : DurableProgram σ ε Unit := fun s => ⟨[f s], .ok (), f s⟩

/-- A change in memory. -/
def modify (f : σ → σ) : DurableProgram σ ε Unit := fun s => ⟨[], .ok (), f s⟩

def fail (e : ε) : DurableProgram σ ε α := fun s => ⟨[], .error e, s⟩

/-- Do something for each element of a list. -/
def forEach : List ι → (ι → DurableProgram σ ε Unit) → DurableProgram σ ε Unit
  | [], _ => pure ()
  | i :: is, body => do
    body i
    forEach is body

/-! ### Triples -/

/-- **A triple.** From a state that meets `pre`, every durable write leads to a state that meets
`crash`, a return to one that meets `post`, and a failure to one that meets `fails`. -/
structure Triple (pre : σ → Prop) (x : DurableProgram σ ε α) (post : α → σ → Prop)
    (fails : ε → σ → Prop) (crash : σ → Prop) : Prop where
  written : ∀ s, pre s → ∀ t ∈ (x s).written, crash t
  returns : ∀ s, pre s → ∀ a, (x s).result = .ok a → post a (x s).final
  errs : ∀ s, pre s → ∀ e, (x s).result = .error e → fails e (x s).final

namespace Triple

variable {pre pre' : σ → Prop} {x : DurableProgram σ ε α} {f : α → DurableProgram σ ε β}
  {post post' : α → σ → Prop} {mid : α → σ → Prop} {last : β → σ → Prop}
  {fails fails' : ε → σ → Prop} {crash crash' : σ → Prop}

theorem mono (h : Triple pre x post fails crash) (hpre : ∀ s, pre' s → pre s)
    (hpost : ∀ a s, post a s → post' a s) (hfails : ∀ e s, fails e s → fails' e s)
    (hcrash : ∀ s, crash s → crash' s) : Triple pre' x post' fails' crash' where
  written s hs t ht := hcrash t (h.written s (hpre s hs) t ht)
  returns s hs a ha := hpost a _ (h.returns s (hpre s hs) a ha)
  errs s hs e he := hfails e _ (h.errs s (hpre s hs) e he)

theorem pure {a : α} (h : ∀ s, pre s → post a s) :
    Triple pre (Pure.pure a : DurableProgram σ ε α) post fails crash where
  written _ _ _ ht := by cases ht
  returns s hs a' ha' := by
    obtain rfl := Except.ok.inj ha'
    exact h s hs
  errs _ _ _ he := by cases he

theorem get {post : σ → σ → Prop} (h : ∀ s, pre s → post s s) :
    Triple pre (DurableProgram.get : DurableProgram σ ε σ) post fails crash where
  written _ _ _ ht := by cases ht
  returns s hs a' ha' := by
    obtain rfl := Except.ok.inj ha'
    exact h s hs
  errs _ _ _ he := by cases he

theorem write {g : σ → σ} {post : Unit → σ → Prop} (hcrash : ∀ s, pre s → crash (g s))
    (h : ∀ s, pre s → post () (g s)) :
    Triple pre (DurableProgram.write g : DurableProgram σ ε Unit) post fails crash where
  written s hs t ht := by
    obtain rfl := List.mem_singleton.mp ht
    exact hcrash s hs
  returns s hs _ _ := h s hs
  errs _ _ _ he := by cases he

theorem modify {g : σ → σ} {post : Unit → σ → Prop} (h : ∀ s, pre s → post () (g s)) :
    Triple pre (DurableProgram.modify g : DurableProgram σ ε Unit) post fails crash where
  written _ _ _ ht := by cases ht
  returns s hs _ _ := h s hs
  errs _ _ _ he := by cases he

theorem fail {e : ε} (h : ∀ s, pre s → fails e s) :
    Triple pre (DurableProgram.fail e : DurableProgram σ ε α) post fails crash where
  written _ _ _ ht := by cases ht
  returns _ _ _ ha := by cases ha
  errs s hs e' he' := by
    obtain rfl := Except.error.inj he'
    exact h s hs

/-- **Composition.** -/
theorem bind (hx : Triple pre x mid fails crash)
    (hf : ∀ a, Triple (mid a) (f a) last fails crash) :
    Triple pre (x >>= f) last fails crash := by
  have hrun : ∀ s, pre s → (∃ a, (x s).result = .ok a ∧
      (x >>= f) s = ⟨(x s).written ++ (f a (x s).final).written, (f a (x s).final).result,
        (f a (x s).final).final⟩) ∨
      ∃ e, (x s).result = .error e ∧ (x >>= f) s = ⟨(x s).written, .error e, (x s).final⟩ := by
    intro s _
    change (∃ a, _ ∧ DurableProgram.bind x f s = _) ∨ ∃ e, _ ∧ DurableProgram.bind x f s = _
    unfold DurableProgram.bind
    rcases x s with ⟨written, e | a, t⟩
    · exact .inr ⟨e, rfl, rfl⟩
    · exact .inl ⟨a, rfl, rfl⟩
  refine ⟨fun s hs t ht => ?_, fun s hs b hb => ?_, fun s hs e he => ?_⟩
  · rcases hrun s hs with ⟨a, ha, hr⟩ | ⟨e, -, hr⟩
    · rw [hr] at ht
      rcases List.mem_append.mp ht with ht | ht
      · exact hx.written s hs t ht
      · exact (hf a).written _ (hx.returns s hs a ha) t ht
    · rw [hr] at ht
      exact hx.written s hs t ht
  · rcases hrun s hs with ⟨a, ha, hr⟩ | ⟨e, -, hr⟩
    · rw [hr] at hb ⊢
      exact (hf a).returns _ (hx.returns s hs a ha) b hb
    · rw [hr] at hb
      cases hb
  · rcases hrun s hs with ⟨a, ha, hr⟩ | ⟨e', he', hr⟩
    · rw [hr] at he ⊢
      exact (hf a).errs _ (hx.returns s hs a ha) e he
    · rw [hr] at he ⊢
      obtain rfl := Except.error.inj he
      exact hx.errs s hs _ he'

/-- What the precondition implies is known. -/
theorem of_imp {p : Prop} (hp : ∀ s, pre s → p) (h : p → Triple pre x post fails crash) :
    Triple pre x post fails crash where
  written s hs := (h (hp s hs)).written s hs
  returns s hs := (h (hp s hs)).returns s hs
  errs s hs := (h (hp s hs)).errs s hs

/-- One state at a time. -/
theorem of_forall (h : ∀ s₀, pre s₀ → Triple (fun s => s = s₀) x post fails crash) :
    Triple pre x post fails crash where
  written s hs := (h s hs).written s rfl
  returns s hs := (h s hs).returns s rfl
  errs s hs := (h s hs).errs s rfl

/-- After reading the state, it is known. -/
theorem bind_get {τ γ : Type u} {pre : τ → Prop} {f : τ → DurableProgram τ ε γ}
    {last : γ → τ → Prop} {fails : ε → τ → Prop} {crash : τ → Prop}
    (h : ∀ s₀, pre s₀ → Triple (fun s => s = s₀) (f s₀) last fails crash) :
    Triple pre (DurableProgram.get >>= f) last fails crash := by
  refine of_forall fun s₀ hs₀ => ?_
  have hget : Triple (fun s => s = s₀) (DurableProgram.get : DurableProgram τ ε τ)
      (fun a s => a = s₀ ∧ s = s₀) fails crash := .get fun s hs => ⟨hs, hs⟩
  refine hget.bind fun a => .of_imp (fun s hs => hs.1) fun ha => ?_
  subst ha
  exact (h a hs₀).mono (fun s hs => hs.2) (fun _ _ => id) (fun _ _ => id) fun _ => id

/-- A branch on something known. -/
theorem ite {p : Prop} [Decidable p] {y : DurableProgram σ ε α}
    (hx : p → Triple pre x post fails crash) (hy : ¬ p → Triple pre y post fails crash) :
    Triple pre (if p then x else y) post fails crash := by
  split_ifs with hp
  · exact hx hp
  · exact hy hp

/-- **Loops.** The invariant speaks about the elements that are left. -/
theorem forEach (inv : List ι → σ → Prop) {body : ι → DurableProgram σ ε Unit} (is : List ι)
    (h : ∀ i rest, i :: rest <:+ is →
      Triple (inv (i :: rest)) (body i) (fun _ => inv rest) fails crash) :
    Triple (inv is) (DurableProgram.forEach is body) (fun _ => inv []) fails crash := by
  induction is with
  | nil => exact .pure fun s hs => hs
  | cons i is ih =>
    refine (h i is (List.suffix_refl _)).bind fun _ => ih fun j rest hsuffix => ?_
    exact h j rest (hsuffix.trans (List.suffix_cons i is))

end Triple

end DurableProgram
