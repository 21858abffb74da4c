import Mathlib.Data.List.Induction
import Mathlib.Data.Option.Basic

/-!
# Runs of a partial step function

A system is given by a **step** function that is undefined where an action is not enabled. A
run is a list of actions, each enabled where it is taken. Three induction rules cover what is
proved about runs: an invariant of the states, an invariant of the runs whose steps all meet a
condition, and an invariant that also speaks about the **history**, the actions taken so far.
-/

namespace StepRun

variable {σ α : Type*} (step : σ → α → Option σ)

/-- Take the actions in order; none if one of them is not enabled. -/
def run : σ → List α → Option σ
  | s, [] => some s
  | s, a :: as => (step s a).bind fun t => run t as

/-- Every step of the run meets the condition in the state it is taken in. -/
def along (p : σ → α → Bool) : σ → List α → Bool
  | _, [] => true
  | s, a :: as => p s a && (step s a).elim true fun t => along p t as

variable {step}

@[simp] theorem run_nil (s : σ) : run step s [] = some s := rfl

theorem run_cons (s : σ) (a : α) (as : List α) :
    run step s (a :: as) = (step s a).bind fun t => run step t as := rfl

theorem run_append (s : σ) (as bs : List α) :
    run step s (as ++ bs) = (run step s as).bind fun t => run step t bs := by
  induction as generalizing s with
  | nil => rfl
  | cons a as ih =>
    rw [List.cons_append, run_cons, run_cons, Option.bind_assoc]
    refine congrArg _ (funext fun t => ?_)
    exact ih t

/-- A run that is split somewhere passes through a state there. -/
theorem exists_of_run_append {s u : σ} {as bs : List α} (h : run step s (as ++ bs) = some u) :
    ∃ t, run step s as = some t ∧ run step t bs = some u := by
  rw [run_append] at h
  exact Option.bind_eq_some_iff.mp h

/-- **Invariants.** What every step keeps, a run keeps. -/
theorem invariant {Inv : σ → Prop} (hstep : ∀ s a t, Inv s → step s a = some t → Inv t) {s t : σ}
    (hs : Inv s) {as : List α} (h : run step s as = some t) : Inv t := by
  induction as generalizing s with
  | nil =>
    obtain rfl := Option.some.inj h
    exact hs
  | cons a as ih =>
    obtain ⟨m, hm, hrest⟩ := Option.bind_eq_some_iff.mp h
    exact ih (hstep s a m hs hm) hrest

/-- **Invariants under a condition.** What every step that meets the condition keeps, a run of
such steps keeps. -/
theorem invariant_along {Inv : σ → Prop} {p : σ → α → Bool}
    (hstep : ∀ s a t, Inv s → p s a = true → step s a = some t → Inv t) {s t : σ} (hs : Inv s)
    {as : List α} (hp : along step p s as = true) (h : run step s as = some t) : Inv t := by
  induction as generalizing s with
  | nil =>
    obtain rfl := Option.some.inj h
    exact hs
  | cons a as ih =>
    obtain ⟨m, hm, hrest⟩ := Option.bind_eq_some_iff.mp h
    rw [along, hm, Option.elim_some, Bool.and_eq_true] at hp
    exact ih (hstep s a m hs hp.1 hm) hp.2 hrest

/-- **Invariants of some actions.** What every action of a kind keeps, a run of such actions
keeps. -/
theorem invariant_of_mem {Inv : σ → Prop} {q : α → Bool}
    (hstep : ∀ s a t, Inv s → q a = true → step s a = some t → Inv t) {s t : σ} (hs : Inv s)
    {as : List α} (hq : ∀ a ∈ as, q a = true) (h : run step s as = some t) : Inv t := by
  induction as generalizing s with
  | nil =>
    obtain rfl := Option.some.inj h
    exact hs
  | cons a as ih =>
    obtain ⟨m, hm, hrest⟩ := Option.bind_eq_some_iff.mp h
    obtain ⟨ha, has⟩ := List.forall_mem_cons.mp hq
    exact ih (hstep s a m hs ha hm) has hrest

/-- Two conditions may be asked for one after the other. -/
theorem along_both {p q : σ → α → Bool} {s : σ} {as : List α} (hp : along step p s as = true)
    (hq : along step q s as = true) : along step (fun s a => p s a && q s a) s as = true := by
  induction as generalizing s with
  | nil => rfl
  | cons a as ih =>
    rw [along, Bool.and_eq_true] at hp hq ⊢
    refine ⟨by rw [hp.1, hq.1]; rfl, ?_⟩
    cases hst : step s a with
    | none => rfl
    | some t =>
      rw [hst, Option.elim_some] at hp hq
      exact ih hp.2 hq.2

/-- A condition on the actions alone may be asked of the list. -/
theorem along_and {p : σ → α → Bool} {q : α → Bool} {s : σ} {as : List α}
    (hp : along step p s as = true) (hq : ∀ a ∈ as, q a = true) :
    along step (fun s a => p s a && q a) s as = true := by
  induction as generalizing s with
  | nil => rfl
  | cons a as ih =>
    rw [along, Bool.and_eq_true] at hp ⊢
    refine ⟨by rw [hp.1, hq a List.mem_cons_self]; rfl, ?_⟩
    cases hst : step s a with
    | none => rfl
    | some t =>
      rw [hst, Option.elim_some] at hp
      exact ih hp.2 fun b hb => hq b (List.mem_cons_of_mem _ hb)

/-- **Invariants with history.** What holds before the first action and is kept by one more
action after any run, holds after every run. -/
theorem history_invariant {s : σ} {Inv : List α → σ → Prop} (hinit : Inv [] s)
    (hstep : ∀ as t a u, run step s as = some t → Inv as t → step t a = some u →
      Inv (as ++ [a]) u) {as : List α} {t : σ} (h : run step s as = some t) : Inv as t := by
  induction as using List.reverseRecOn generalizing t with
  | nil =>
    obtain rfl := Option.some.inj h
    exact hinit
  | append_singleton as a ih =>
    obtain ⟨m, hm, hlast⟩ := exists_of_run_append h
    rw [run_cons] at hlast
    obtain ⟨u, hu, htu⟩ := Option.bind_eq_some_iff.mp hlast
    obtain rfl := Option.some.inj htu
    exact hstep as m a u hm (ih hm) hu

end StepRun
