import Minnal.Db.CommitRounds

/-!
# No commit is left waiting

A caller that waits for a round wakes when it is **notified**: by the leader when it publishes the
round's outcome, and by `poison`. No wakeup is lost: a caller that waits and has not been notified
waits for a round that runs (`Awake`), and whoever leads the round or holds the lock can go on.
-/

namespace Minnal

namespace CommitRounds

/-- Waiting for a round. -/
def Caller.waits : Caller → Bool
  | .waiting _ => true
  | _ => false

/-- In a call of `commit`. -/
def Caller.inCall : Caller → Bool
  | .idle | .returned _ _ => false
  | _ => true

/-- The rounds, and which of the waiting callers have been notified. -/
structure Notifying where
  sys : Sys
  notified : ℕ → Bool

namespace Notifying

/-- `notify_all`. -/
def notifyAll (s : Sys) : Notifying := ⟨s, fun j => (s.callers j).waits⟩

inductive Event where
  | act (a : Act)
  /-- `poison` has recorded its reason and notifies. -/
  | notify

variable (w : Notifying)

/-- A waiting caller wakes when it has been notified. -/
def mayTake : Act → Bool
  | .wake i => w.notified i
  | _ => true

/-- What a step does to the notifications: publishing a round notifies everybody. -/
def after (s : Sys) : Act → Notifying
  | .wake i => ⟨s, Function.update w.notified i false⟩
  | .publish _ => notifyAll s
  | _ => ⟨s, w.notified⟩

def step : Event → Option Notifying
  | .act a => if w.mayTake a then (CommitRounds.step w.sys a).map fun s => w.after s a else none
  | .notify => if w.sys.holder = none then some (notifyAll w.sys) else none

def new (durable tail : ℕ) : Notifying := ⟨CommitRounds.new durable tail, fun _ => false⟩

/-- The step is one of a caller in its call. -/
def goesOn : Act → Bool
  | .write _ | .enter _ _ | .advance _ | .poison _ => false
  | _ => true

variable {w w' : Notifying} {s t : Sys} {a : Act} {e : Event} {i : ℕ}

@[simp] theorem sys_after (s : Sys) (a : Act) : (w.after s a).sys = s := by cases a <;> rfl

theorem notified_after (hn : w.notified i = true) (hne : a ≠ .wake i)
    (hw : (s.callers i).waits = true) : (w.after s a).notified i = true := by
  cases a with
  | wake j => exact (Function.update_of_ne (fun h => hne (congrArg _ h.symm)) ..).trans hn
  | publish _ => exact hw
  | _ => exact hn

theorem of_notified_after (hn : (w.after s a).notified i = true) :
    w.notified i = true ∧ a ≠ .wake i ∨ (s.callers i).waits = true := by
  cases a with
  | wake j =>
    have hne : i ≠ j := by
      rintro rfl
      cases (Function.update_self ..).symm.trans hn
    exact .inl ⟨(Function.update_of_ne hne ..).symm.trans hn, fun h => hne (Act.wake.inj h).symm⟩
  | publish _ => exact .inr hn
  | _ => exact .inl ⟨hn, Act.noConfusion⟩

theorem step_act (h : w.step (.act a) = some w') :
    ∃ s, Step w.sys a s ∧ w' = w.after s a := by
  obtain ⟨-, h⟩ := Option.ite_none_right_eq_some.mp h
  obtain ⟨s, hs, rfl⟩ := Option.map_eq_some_iff.mp h
  exact ⟨s, step_cases hs, rfl⟩

/-! ### No wakeup is lost -/

/-- **Nobody waits for nothing.** Whoever holds the lock can go on, a round that runs has a leader,
and a caller that waits has been notified or a round runs. -/
structure Awake (w : Notifying) : Prop where
  held : LockHeld w.sys
  holder : ∀ i, w.sys.holder = some i → (w.sys.callers i).holds = true
  leader : w.sys.state.running = true → ∃ i, (w.sys.callers i).leads = true
  waiter : ∀ i, (w.sys.callers i).waits = true → w.notified i = true ∨ w.sys.state.running = true
  notified : ∀ i, w.notified i = true → (w.sys.callers i).waits = true

theorem awake_new (durable tail : ℕ) : Awake (new durable tail) := by
  have hrun : StepRun.run CommitRounds.step (CommitRounds.new durable tail) [] =
      some (new durable tail).sys := rfl
  refine ⟨lockHeld_run hrun, fun _ h => ?_, fun h => ?_, fun _ h => ?_, fun _ h => ?_⟩ <;> cases h

/-- A leader leads until it publishes, and whoever is elected leads. -/
theorem leader_step (hst : Step s a t) (hrun : t.state.running = true)
    (hlead : s.state.running = true → ∃ i, (s.callers i).leads = true) :
    ∃ i, (t.callers i).leads = true := by
  by_cases hnew : ∃ i, a = .decide i ∧ (t.callers i).leads = true
  · obtain ⟨i, -, hi⟩ := hnew
    exact ⟨i, hi⟩
  · have hbefore : s.state.running = true := by cases hst <;> grind -ring -linarith [Caller.leads, State.advance]
    obtain ⟨i, hi⟩ := hlead hbefore
    refine ⟨i, ?_⟩
    cases hst <;> grind -ring -linarith [Caller.leads]

theorem holds_step (hst : Step s a t) (hheld : LockHeld s)
    (h : ∀ i, s.holder = some i → (s.callers i).holds = true) (i : ℕ) (hi : t.holder = some i) :
    (t.callers i).holds = true := by
  cases hst <;> grind -ring -linarith [Caller.holds, LockHeld]

/-- A caller that waits goes on waiting until it wakes. -/
theorem waits_step (hst : Step s a t) (hw : (s.callers i).waits = true) (hne : a ≠ .wake i) :
    (t.callers i).waits = true := by
  cases hst <;> grind [Caller.waits]

/-- A caller waits for a round that runs. -/
theorem waits_before (hst : Step s a t) (hw : (t.callers i).waits = true) :
    (s.callers i).waits = true ∧ a ≠ .wake i ∨ t.state.running = true := by
  cases hst <;> grind [Caller.waits]

theorem running_step (hst : Step s a t) (h : s.state.running = true) :
    t.state.running = true ∨ ∃ i, a = .publish i := by
  cases hst <;> grind [State.advance]

theorem Awake.step (h : Awake w) (hstep : w.step e = some w') : Awake w' := by
  cases e with
  | notify =>
    obtain ⟨-, rfl⟩ := Option.ite_some_none_eq_some.mp hstep
    exact { h with waiter := fun _ hi => .inl hi, notified := fun _ hi => hi }
  | act a =>
    obtain ⟨s, hst, rfl⟩ := step_act hstep
    obtain ⟨hheld, hholder, hleader, hwaiter, hnotified⟩ := h
    constructor
    all_goals simp only [sys_after]
    · exact hheld.step hst
    · exact holds_step hst hheld hholder
    · exact fun hrun => leader_step hst hrun hleader
    · intro i hi
      obtain ⟨hwas, hne⟩ | hrun := waits_before hst hi
      · obtain hn | hrun := hwaiter i hwas
        · exact .inl (notified_after hn hne hi)
        · obtain hrun | ⟨j, rfl⟩ := running_step hst hrun
          · exact .inr hrun
          · exact .inl hi
      · exact .inr hrun
    · intro i hi
      obtain ⟨hn, hne⟩ | hw := of_notified_after hi
      · exact waits_step hst (hnotified i hn) hne
      · exact hw

/-! ### Somebody goes on -/

/-- Some caller in its call can take its next step. -/
def SomebodyGoesOn (w : Notifying) : Prop :=
  ∃ a, goesOn a = true ∧ w.mayTake a = true ∧ (CommitRounds.step w.sys a).isSome = true

/-- A leader goes on while nobody holds the lock. -/
theorem leader_goes_on (hfree : w.sys.holder = none) (hlead : (w.sys.callers i).leads = true) :
    SomebodyGoesOn w := by
  cases hi : w.sys.callers i with
  | leading _ => exact ⟨.startRound i, rfl, rfl, by rw [CommitRounds.step, hi]; rfl⟩
  | syncing _ _ => exact ⟨.finishRound i (.ok ()), rfl, rfl, by rw [CommitRounds.step, hi]; rfl⟩
  | synced _ r =>
    refine ⟨.settle i, rfl, rfl, ?_⟩
    rw [CommitRounds.step, hi]
    cases r <;> grind
  | settled _ r =>
    refine ⟨.publish i, rfl, rfl, ?_⟩
    rw [CommitRounds.step, hi, hfree]
    cases r <;> grind
  | _ =>
    rw [hi] at hlead
    cases hlead

/-- **Somebody goes on** while a commit is under way. -/
theorem Awake.goes_on (h : Awake w) (hi : (w.sys.callers i).inCall = true) : SomebodyGoesOn w := by
  cases hholder : w.sys.holder with
  | some k =>
    have hk := h.holder k hholder
    cases hpc : w.sys.callers k <;> rw [hpc] at hk <;> cases hk
    · refine ⟨.check k, rfl, rfl, ?_⟩
      rw [CommitRounds.step, hpc]
      grind
    · refine ⟨.decide k, rfl, rfl, ?_⟩
      rw [CommitRounds.step, hpc]
      grind
  | none =>
    cases hpc : w.sys.callers i with
    | entering _ => exact ⟨.lock i, rfl, rfl, by rw [CommitRounds.step, hpc, hholder]; rfl⟩
    | waiting _ =>
      obtain hnotified | hrun := h.waiter i (by rw [hpc]; rfl)
      · exact ⟨.wake i, rfl, hnotified, by rw [CommitRounds.step, hpc, hholder]; rfl⟩
      · obtain ⟨k, hk⟩ := h.leader hrun
        exact leader_goes_on hholder hk
    | atHead _ | checked _ =>
      have hheld := h.held i (by rw [hpc]; rfl)
      rw [hholder] at hheld
      cases hheld
    | idle | returned _ _ =>
      rw [hpc] at hi
      cases hi
    | _ => exact leader_goes_on hholder (by rw [hpc]; rfl)

/-- **No commit is left waiting.** In every run of concurrent commits, whatever the rounds' outcomes
and whoever poisons the log: while a commit is under way some caller in its call can go on. -/
theorem commits_go_on {durable tail i : ℕ} {es : List Event} {w : Notifying}
    (h : StepRun.run step (new durable tail) es = some w)
    (hi : (w.sys.callers i).inCall = true) : SomebodyGoesOn w :=
  (StepRun.invariant (fun _ _ _ hawake hstep => hawake.step hstep) (awake_new durable tail) h).goes_on
    hi

/-- A caller waits for a round, and its leader can go on. -/
theorem commits_go_on_waiting : ∃ w, StepRun.run step (new 0 0)
    ((sharedRound.take 10).map .act) = some w ∧ w.sys.callers 1 = .waiting 7 ∧ SomebodyGoesOn w :=
  ⟨_, rfl, rfl, @commits_go_on 0 0 1 ((sharedRound.take 10).map .act) _ rfl rfl⟩

end Notifying

end CommitRounds

end Minnal
