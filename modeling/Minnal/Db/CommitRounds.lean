import Mathlib.Order.MinMax
import Minnal.Library.StepRun

/-!
# Commit rounds

Concurrent callers share one fsync of a log. A caller of `commit` that needs everything below
a position durable finds that it is, waits for the round that is running, or leads one: it runs
the log's **round** step (take the tail under the log's lock, fsync outside every lock) and
publishes the position covered. A failed round, or a call of `poison` from elsewhere, poisons
the rounds for good.

The code is cut where it takes or releases one of its two locks, the state and the poison. A
caller is at one of the places of `Caller`; `step` moves one caller, or lets the log grow, the
durable position advance or the poison arrive, and `StepRun.run` takes any such steps in any
order. A waiting caller may wake at any time, so notifications need no step of their own.
-/

namespace Minnal

open StepRun Function

variable {s t : Sys} {a : Act} {i j durable tail position endPos : ℕ} {c : Caller} {acts : List Act}

namespace CommitRounds

/-! ### The rounds and their callers -/

/-- What the state lock protects. -/
structure State where
  /-- Every byte below this position is fsynced. -/
  durable : ℕ
  /-- A leader is fsyncing; others wait for it to finish. -/
  running : Bool
  /-- Callers waiting for a round. -/
  waiting : ℕ

/-- Where a call of `commit` is, with the position it needs durable. -/
inductive Caller where
  /-- Not called yet. -/
  | idle
  /-- About to take the state lock. -/
  | entering (endPos : ℕ)
  /-- At the head of the loop, holding the state lock. -/
  | atHead (endPos : ℕ)
  /-- Past the check for poison, holding the state lock. -/
  | checked (endPos : ℕ)
  /-- Waiting for a round, without the lock. -/
  | waiting (endPos : ℕ)
  /-- Elected leader, lock released, round not begun. -/
  | leading (endPos : ℕ)
  /-- In the round, with the tail it took. -/
  | syncing (endPos tail : ℕ)
  /-- The round has returned. -/
  | synced (endPos : ℕ) (result : Except String ℕ)
  /-- The poison is looked at or recorded; about to take the state lock. -/
  | settled (endPos : ℕ) (covered : Except String ℕ)
  /-- Returned; `true` if it led a round. -/
  | returned (endPos : ℕ) (result : Except String Bool)
  deriving DecidableEq

/-- The rounds, the tail of their log, and all callers. -/
structure Sys where
  state : State
  /-- Who holds the state lock. -/
  holder : Option ℕ
  /-- Set by the first failed round. -/
  poisoned : Option String
  /-- Bytes written to the log. -/
  tail : ℕ
  callers : ℕ → Caller

/-- Rounds whose log is durable below `durable`. -/
def new (durable tail : ℕ) : Sys where
  state := ⟨durable, false, 0⟩
  holder := none
  poisoned := none
  tail := tail
  callers := fun _ => .idle

/-- One step of a caller or of its surroundings. -/
inductive Act where
  /-- The log grows. -/
  | write (n : ℕ)
  /-- A call of `commit` for bytes that are written. -/
  | enter (i endPos : ℕ)
  | lock (i : ℕ)
  | check (i : ℕ)
  | decide (i : ℕ)
  | wake (i : ℕ)
  | startRound (i : ℕ)
  | finishRound (i : ℕ) (result : Except String Unit)
  | settle (i : ℕ)
  | publish (i : ℕ)
  | advance (position : ℕ)
  | poison (why : String)

/-- Move one caller. -/
def Sys.move (s : Sys) (i : ℕ) (c : Caller) : Sys :=
  { s with callers := Function.update s.callers i c }

/-- Record that everything below `position` is durable. -/
def State.advance (st : State) (position : ℕ) : State := { st with durable := max st.durable position }

/-- One step, where it is enabled. -/
def step (s : Sys) : Act → Option Sys
  | .write n => some { s with tail := s.tail + n }
  | .enter i endPos =>
    if s.callers i = .idle ∧ endPos ≤ s.tail then some (s.move i (.entering endPos)) else none
  | .lock i =>
    match s.callers i, s.holder with
    | .entering endPos, none => some { s.move i (.atHead endPos) with holder := some i }
    | _, _ => none
  | .check i =>
    match s.callers i with
    | .atHead endPos =>
      match s.poisoned with
      | none => some (s.move i (.checked endPos))
      | some why => some { s.move i (.returned endPos (.error why)) with holder := none }
    | _ => none
  | .decide i =>
    match s.callers i with
    | .checked endPos =>
      if endPos ≤ s.state.durable then
        some { s.move i (.returned endPos (.ok false)) with holder := none }
      else if s.state.running then
        some { s.move i (.waiting endPos) with
          holder := none
          state := { s.state with waiting := s.state.waiting + 1 } }
      else
        some { s.move i (.leading endPos) with
          holder := none
          state := { s.state with running := true } }
    | _ => none
  | .wake i =>
    match s.callers i, s.holder with
    | .waiting endPos, none =>
      some { s.move i (.atHead endPos) with
        holder := some i
        state := { s.state with waiting := s.state.waiting - 1 } }
    | _, _ => none
  | .startRound i =>
    match s.callers i with
    | .leading endPos => some (s.move i (.syncing endPos s.tail))
    | _ => none
  | .finishRound i result =>
    match s.callers i with
    | .syncing endPos tail => some (s.move i (.synced endPos (result.map fun _ => tail)))
    | _ => none
  | .settle i =>
    match s.callers i with
    | .synced endPos (.ok position) =>
      -- a round that succeeded is not trusted if the log was poisoned while it ran
      match s.poisoned with
      | none => some (s.move i (.settled endPos (.ok position)))
      | some why => some (s.move i (.settled endPos (.error why)))
    | .synced endPos (.error why) =>
      some { s.move i (.settled endPos (.error (s.poisoned.getD why))) with
        poisoned := some (s.poisoned.getD why) }
    | _ => none
  | .publish i =>
    match s.callers i, s.holder with
    | .settled endPos (.ok position), none =>
      let state := { s.state.advance position with running := false }
      if endPos ≤ state.durable then
        some { s.move i (.returned endPos (.ok true)) with state := state }
      else some { s.move i (.atHead endPos) with state := state, holder := some i }
    | .settled endPos (.error why), none =>
      some { s.move i (.returned endPos (.error why)) with
        state := { s.state with running := false } }
    | _, _ => none
  | .advance position =>
    if s.holder = none then some { s with state := s.state.advance position } else none
  | .poison why => some { s with poisoned := some (s.poisoned.getD why) }

section Move

variable (s : Sys) (i : ℕ) (c : Caller)

@[grind =] theorem Sys.callers_move (j : ℕ) :
    (s.move i c).callers j = if j = i then c else s.callers j :=
  update_apply ..

@[grind =] theorem Sys.state_move : (s.move i c).state = s.state := rfl

@[grind =] theorem Sys.holder_move : (s.move i c).holder = s.holder := rfl

@[grind =] theorem Sys.poisoned_move : (s.move i c).poisoned = s.poisoned := rfl

end Move

/-! ### What a step can do -/

/-- The steps as a relation, one rule for each way through the code. -/
inductive Step (s : Sys) : Act → Sys → Prop
  | write (n : ℕ) : Step s (.write n) { s with tail := s.tail + n }
  | enter {i endPos : ℕ} (hi : s.callers i = .idle) (hend : endPos ≤ s.tail) :
      Step s (.enter i endPos) (s.move i (.entering endPos))
  | lock {i endPos : ℕ} (hi : s.callers i = .entering endPos) (hfree : s.holder = none) :
      Step s (.lock i) { s.move i (.atHead endPos) with holder := some i }
  | pass {i endPos : ℕ} (hi : s.callers i = .atHead endPos) (hclean : s.poisoned = none) :
      Step s (.check i) (s.move i (.checked endPos))
  | refuse {i endPos : ℕ} {why : String} (hi : s.callers i = .atHead endPos)
      (hwhy : s.poisoned = some why) :
      Step s (.check i) { s.move i (.returned endPos (.error why)) with holder := none }
  | already {i endPos : ℕ} (hi : s.callers i = .checked endPos) (hend : endPos ≤ s.state.durable) :
      Step s (.decide i) { s.move i (.returned endPos (.ok false)) with holder := none }
  | wait {i endPos : ℕ} (hi : s.callers i = .checked endPos) (hrun : s.state.running = true) :
      Step s (.decide i) { s.move i (.waiting endPos) with
        holder := none
        state := { s.state with waiting := s.state.waiting + 1 } }
  | lead {i endPos : ℕ} (hi : s.callers i = .checked endPos) (hrun : s.state.running = false) :
      Step s (.decide i) { s.move i (.leading endPos) with
        holder := none
        state := { s.state with running := true } }
  | wake {i endPos : ℕ} (hi : s.callers i = .waiting endPos) (hfree : s.holder = none) :
      Step s (.wake i) { s.move i (.atHead endPos) with
        holder := some i
        state := { s.state with waiting := s.state.waiting - 1 } }
  | startRound {i endPos : ℕ} (hi : s.callers i = .leading endPos) :
      Step s (.startRound i) (s.move i (.syncing endPos s.tail))
  | finishRound {i endPos tail : ℕ} (hi : s.callers i = .syncing endPos tail)
      (result : Except String Unit) :
      Step s (.finishRound i result) (s.move i (.synced endPos (result.map fun _ => tail)))
  | trust {i endPos position : ℕ} (hi : s.callers i = .synced endPos (.ok position))
      (hclean : s.poisoned = none) :
      Step s (.settle i) (s.move i (.settled endPos (.ok position)))
  | distrust {i endPos position : ℕ} {why : String}
      (hi : s.callers i = .synced endPos (.ok position)) (hwhy : s.poisoned = some why) :
      Step s (.settle i) (s.move i (.settled endPos (.error why)))
  | record {i endPos : ℕ} {why : String} (hi : s.callers i = .synced endPos (.error why)) :
      Step s (.settle i) { s.move i (.settled endPos (.error (s.poisoned.getD why))) with
        poisoned := some (s.poisoned.getD why) }
  | publish {i endPos position : ℕ} (hi : s.callers i = .settled endPos (.ok position))
      (hfree : s.holder = none) (hend : endPos ≤ max s.state.durable position) :
      Step s (.publish i) { s.move i (.returned endPos (.ok true)) with
        state := { s.state.advance position with running := false } }
  | again {i endPos position : ℕ} (hi : s.callers i = .settled endPos (.ok position))
      (hfree : s.holder = none) :
      Step s (.publish i) { s.move i (.atHead endPos) with
        state := { s.state.advance position with running := false }
        holder := some i }
  | fail {i endPos : ℕ} {why : String} (hi : s.callers i = .settled endPos (.error why))
      (hfree : s.holder = none) :
      Step s (.publish i) { s.move i (.returned endPos (.error why)) with
        state := { s.state with running := false } }
  | advance (position : ℕ) : Step s (.advance position) { s with state := s.state.advance position }
  | poison (why : String) :
      Step s (.poison why) { s with poisoned := some (s.poisoned.getD why) }

theorem step_cases (h : step s a = some t) : Step s a t := by
  cases a with
  | write n =>
    obtain rfl := Option.some.inj h
    exact .write n
  | enter i endPos =>
    rw [step] at h
    split_ifs at h with hguard
    obtain rfl := Option.some.inj h
    exact .enter hguard.1 hguard.2
  | lock i =>
    rw [step] at h
    split at h
    case h_1 endPos hi hfree =>
      obtain rfl := Option.some.inj h
      exact .lock hi hfree
    case h_2 => cases h
  | check i =>
    rw [step] at h
    split at h
    case h_1 endPos hi =>
      split at h
      case h_1 hclean =>
        obtain rfl := Option.some.inj h
        exact .pass hi hclean
      case h_2 why hwhy =>
        obtain rfl := Option.some.inj h
        exact .refuse hi hwhy
    case h_2 => cases h
  | decide i =>
    rw [step] at h
    split at h
    case h_1 endPos hi =>
      split_ifs at h with hend hrun
      · obtain rfl := Option.some.inj h
        exact .already hi hend
      · obtain rfl := Option.some.inj h
        exact .wait hi hrun
      · obtain rfl := Option.some.inj h
        exact .lead hi (Bool.eq_false_iff.mpr hrun)
    case h_2 => cases h
  | wake i =>
    rw [step] at h
    split at h
    case h_1 endPos hi hfree =>
      obtain rfl := Option.some.inj h
      exact .wake hi hfree
    case h_2 => cases h
  | startRound i =>
    rw [step] at h
    split at h
    case h_1 endPos hi =>
      obtain rfl := Option.some.inj h
      exact .startRound hi
    case h_2 => cases h
  | finishRound i result =>
    rw [step] at h
    split at h
    case h_1 endPos tail hi =>
      obtain rfl := Option.some.inj h
      exact .finishRound hi result
    case h_2 => cases h
  | settle i =>
    rw [step] at h
    split at h
    case h_1 endPos position hi =>
      split at h
      case h_1 hclean =>
        obtain rfl := Option.some.inj h
        exact .trust hi hclean
      case h_2 why hwhy =>
        obtain rfl := Option.some.inj h
        exact .distrust hi hwhy
    case h_2 endPos why hi =>
      obtain rfl := Option.some.inj h
      exact .record hi
    case h_3 => cases h
  | publish i =>
    rw [step] at h
    split at h
    case h_1 endPos position hi hfree =>
      simp only at h
      split_ifs at h with hend
      · obtain rfl := Option.some.inj h
        exact .publish hi hfree hend
      · obtain rfl := Option.some.inj h
        exact .again hi hfree
    case h_2 endPos why hi hfree =>
      obtain rfl := Option.some.inj h
      exact .fail hi hfree
    case h_3 => cases h
  | advance position =>
    rw [step] at h
    split_ifs at h
    obtain rfl := Option.some.inj h
    exact .advance position
  | poison why =>
    obtain rfl := Option.some.inj h
    exact .poison why

/-! ### One round at a time -/

/-- From its election to the publication of the outcome a caller is the leader. -/
def Caller.leads : Caller → Bool
  | .leading _ => true
  | .syncing _ _ => true
  | .synced _ _ => true
  | .settled _ _ => true
  | _ => false

/-- There is at most one leader, and `running` is set while there is one. -/
structure OneLeader (s : Sys) : Prop where
  unique : ∀ i j, (s.callers i).leads = true → (s.callers j).leads = true → i = j
  running : ∀ i, (s.callers i).leads = true → s.state.running = true

private theorem leads_update {callers : ℕ → Caller}
    (h : (update callers i c j).leads = true) :
    (j = i ∧ c.leads = true) ∨ (callers j).leads = true := by
  by_cases hj : j = i
  · subst hj
    rw [update_self] at h
    exact .inl ⟨rfl, h⟩
  · rw [update_of_ne hj] at h
    exact .inr h

/-- A caller that does not become the leader. -/
private theorem OneLeader.of_move (h : OneLeader s)
    (hcallers : t.callers = update s.callers i c)
    (hlead : c.leads = true → (s.callers i).leads = true)
    (hrun : s.state.running = true → t.state.running = true) : OneLeader t := by
  have hback : ∀ j, (t.callers j).leads = true → (s.callers j).leads = true := by
    intro j hj
    rw [hcallers] at hj
    obtain ⟨rfl, hc⟩ | hj := leads_update hj
    · exact hlead hc
    · exact hj
  exact ⟨fun j k hj hk => h.unique j k (hback j hj) (hback k hk),
    fun j hj => hrun (h.running j (hback j hj))⟩

/-- The leader stops being one. -/
private theorem OneLeader.of_leave (h : OneLeader s) (hi : (s.callers i).leads = true)
    (hcallers : t.callers = update s.callers i c) (hc : c.leads = false) :
    OneLeader t := by
  have hnone : ∀ j, (t.callers j).leads = false := by
    intro j
    refine Bool.eq_false_iff.mpr fun hj => ?_
    rw [hcallers] at hj
    by_cases hji : j = i
    · subst hji
      rw [update_self, hc] at hj
      cases hj
    · rw [update_of_ne hji] at hj
      exact hji (h.unique j i hj hi)
  exact ⟨fun j k hj => absurd hj (by simp [hnone j]), fun j hj => absurd hj (by simp [hnone j])⟩

theorem OneLeader.step (h : OneLeader s) (hst : Step s a t) : OneLeader t := by
  cases hst with
  | write n => exact ⟨h.unique, h.running⟩
  | enter hi hend | lock hi hfree | pass hi hclean | refuse hi hwhy | already hi hend
    | wait hi hrun => exact h.of_move rfl (fun hc => by cases hc) id
  | @lead i endPos hi hrun =>
    -- nobody led, since `running` was not set
    have hnone : ∀ j, (s.callers j).leads = false := by
      intro j
      refine Bool.eq_false_iff.mpr fun hj => ?_
      rw [h.running j hj] at hrun
      cases hrun
    have honly : ∀ j, (update s.callers i (.leading endPos) j).leads = true → j = i := by
      intro j hj
      obtain ⟨hji, -⟩ | hj := leads_update hj
      · exact hji
      · rw [hnone j] at hj
        cases hj
    exact ⟨fun j k hj hk => (honly j hj).trans (honly k hk).symm, fun _ _ => rfl⟩
  | wake hi hfree => exact h.of_move rfl (fun hc => by cases hc) id
  | startRound hi | finishRound hi result | trust hi hclean | distrust hi hwhy | record hi =>
    exact h.of_move rfl (fun _ => by rw [hi]; rfl) id
  | publish hi hfree hend | again hi hfree | fail hi hfree =>
    exact h.of_leave (by rw [hi]; rfl) rfl rfl
  | advance position | poison why => exact ⟨h.unique, h.running⟩

theorem oneLeader_run (h : run step (new durable tail) acts = some s) : OneLeader s := by
  refine StepRun.invariant (fun s a t (hs : OneLeader s) ha => hs.step (step_cases ha)) ?_ h
  exact ⟨fun i j hi => absurd hi (by simp [new, Caller.leads]),
    fun i hi => absurd hi (by simp [new, Caller.leads])⟩

/-! ### What makes a position durable -/

/-- **Covered.** The position was durable from the start, was reported durable, or lies below
the tail that a successful round took when it started. -/
def Covered (durable tail : ℕ) (acts : List Act) (position : ℕ) : Prop :=
  position ≤ durable ∨ (∃ reported, Act.advance reported ∈ acts ∧ position ≤ reported) ∨
    ∃ before during after i s, acts = before ++ Act.startRound i ::
        (during ++ Act.finishRound i (.ok ()) :: after) ∧
      (∀ result, Act.finishRound i result ∉ during) ∧
      run step (new durable tail) before = some s ∧ position ≤ s.tail

theorem Covered.append (h : Covered durable tail acts position) (more : List Act) :
    Covered durable tail (acts ++ more) position := by
  obtain h | ⟨reported, hmem, hle⟩ | ⟨before, during, after, i, s, rfl, hsame, hrun, hle⟩ := h
  · exact .inl h
  · exact .inr (.inl ⟨reported, List.mem_append_left _ hmem, hle⟩)
  · refine .inr (.inr ⟨before, during, after ++ more, i, s, ?_, hsame, hrun, hle⟩)
    simp

theorem Covered.mono {lower : ℕ} (h : Covered durable tail acts position) (hle : lower ≤ position) :
    Covered durable tail acts lower := by
  obtain h | ⟨reported, hmem, hpos⟩ | ⟨before, during, after, i, s, heq, hsame, hrun, hpos⟩ := h
  · exact .inl (hle.trans h)
  · exact .inr (.inl ⟨reported, hmem, hle.trans hpos⟩)
  · exact .inr (.inr ⟨before, during, after, i, s, heq, hsame, hrun, hle.trans hpos⟩)

theorem covered_max {other : ℕ} (h : Covered durable tail acts position)
    (h' : Covered durable tail acts other) : Covered durable tail acts (max position other) := by
  rcases max_choice position other with hm | hm
  · rwa [hm]
  · rwa [hm]

/-- A caller's part of the bookkeeping: where its round started, what it covers. -/
def CallerCovered (durable tail : ℕ) (acts : List Act) (i : ℕ) : Caller → Prop
  | .syncing _ taken => ∃ before during s, acts = before ++ .startRound i :: during ∧
      (∀ result, Act.finishRound i result ∉ during) ∧
      run step (new durable tail) before = some s ∧ s.tail = taken
  | .synced _ (.ok position) => Covered durable tail acts position
  | .settled _ (.ok position) => Covered durable tail acts position
  | .returned endPos (.ok _) => Covered durable tail acts endPos
  | _ => True

/-- The durable position and what every caller is about to say of one are covered. -/
structure AllCovered (durable tail : ℕ) (acts : List Act) (s : Sys) : Prop where
  state : Covered durable tail acts s.state.durable
  callers : ∀ i, CallerCovered durable tail acts i (s.callers i)

/-- What another action leaves true of a caller. -/
private theorem CallerCovered.append (h : CallerCovered durable tail acts i c)
    (ha : ∀ result, a ≠ .finishRound i result) : CallerCovered durable tail (acts ++ [a]) i c := by
  cases c with
  | syncing endPos taken =>
    obtain ⟨before, during, s, rfl, hsame, hrun, htail⟩ := h
    refine ⟨before, during ++ [a], s, by simp, fun result hmem => ?_, hrun, htail⟩
    rcases List.mem_append.mp hmem with hmem | hmem
    · exact hsame result hmem
    · exact ha result (List.mem_singleton.mp hmem).symm
  | synced endPos result | settled endPos result =>
    cases result with
    | error why => trivial
    | ok position => exact Covered.append h [a]
  | returned endPos result =>
    cases result with
    | error why => trivial
    | ok led => exact Covered.append h [a]
  | idle | entering endPos | atHead endPos | checked endPos | waiting endPos | leading endPos =>
    trivial

/-- One caller moves. -/
private theorem AllCovered.of_move (h : AllCovered durable tail acts s)
    (hcallers : t.callers = update s.callers i c)
    (hother : ∀ j, j ≠ i → ∀ result, a ≠ .finishRound j result)
    (hi : CallerCovered durable tail (acts ++ [a]) i c)
    (hstate : Covered durable tail (acts ++ [a]) t.state.durable) :
    AllCovered durable tail (acts ++ [a]) t := by
  refine ⟨hstate, fun j => ?_⟩
  rw [hcallers]
  by_cases hj : j = i
  · subst hj
    rw [update_self]
    exact hi
  · rw [update_of_ne hj]
    exact (h.callers j).append (hother j hj)

theorem AllCovered.step (hrun : run step (new durable tail) acts = some s)
    (h : AllCovered durable tail acts s) (hst : Step s a t) :
    AllCovered durable tail (acts ++ [a]) t := by
  have hdurable : Covered durable tail (acts ++ [a]) s.state.durable := h.state.append [a]
  cases hst with
  | write n => exact ⟨hdurable, fun j => (h.callers j).append (by simp)⟩
  | enter hi hend | lock hi hfree | pass hi hclean | refuse hi hwhy =>
    exact h.of_move rfl (by simp) trivial hdurable
  | already hi hend => exact h.of_move rfl (by simp) (hdurable.mono hend) hdurable
  | wait hi hrun | lead hi hrun | wake hi hfree => exact h.of_move rfl (by simp) trivial hdurable
  | startRound hi =>
    exact h.of_move rfl (by simp) ⟨acts, [], s, rfl, by simp, hrun, rfl⟩ hdurable
  | @finishRound i endPos taken hi result =>
    have hsync := h.callers i
    rw [hi] at hsync
    obtain ⟨before, during, u, hacts, hsame, hbefore, htail⟩ := hsync
    refine h.of_move rfl (fun j hj result' heq => ?_) ?_ hdurable
    · cases heq
      exact hj rfl
    · rcases result with why | ⟨⟩
      · trivial
      · refine .inr (.inr ⟨before, during, [], i, u, ?_, hsame, hbefore, htail.ge⟩)
        rw [hacts]
        simp
  | @trust i endPos position hi hclean =>
    have hsynced := h.callers i
    rw [hi] at hsynced
    exact h.of_move rfl (by simp) (Covered.append hsynced _) hdurable
  | distrust hi hwhy | record hi => exact h.of_move rfl (by simp) trivial hdurable
  | @publish i endPos position hi hfree hend =>
    have hsettled := h.callers i
    rw [hi] at hsettled
    have hmax := covered_max hdurable (Covered.append hsettled [.publish i])
    exact h.of_move rfl (by simp) (hmax.mono hend) hmax
  | @again i endPos position hi hfree =>
    have hsettled := h.callers i
    rw [hi] at hsettled
    have hmax := covered_max hdurable (Covered.append hsettled [.publish i])
    exact h.of_move rfl (by simp) trivial hmax
  | fail hi hfree => exact h.of_move rfl (by simp) trivial hdurable
  | advance position =>
    have hmax := covered_max hdurable (.inr (.inl ⟨position, by simp, le_rfl⟩))
    exact ⟨hmax, fun j => (h.callers j).append (by simp)⟩
  | poison why => exact ⟨hdurable, fun j => (h.callers j).append (by simp)⟩

theorem allCovered_run (h : run step (new durable tail) acts = some s) :
    AllCovered durable tail acts s := by
  refine StepRun.history_invariant ⟨.inl le_rfl, fun _ => trivial⟩
    (fun as t a u ht hall ha => AllCovered.step ht hall (step_cases ha)) h

/-! ### After a failure -/

theorem durable_le_step (hst : Step s a t) : s.state.durable ≤ t.state.durable := by
  cases hst with
  | publish hi hfree hend | again hi hfree | advance position => exact le_max_left _ _
  | _ => exact le_rfl

theorem durable_le_run (h : run step s acts = some t) : s.state.durable ≤ t.state.durable := by
  have hkeep : ∀ u a v, s.state.durable ≤ u.state.durable → step u a = some v →
      s.state.durable ≤ v.state.durable :=
    fun u a v hu ha => hu.trans (durable_le_step (step_cases ha))
  exact StepRun.invariant hkeep le_rfl h

/-- A leader was leading or past the check before. -/
theorem Step.leading_of (hst : Step s a t) (ht : t.callers i = .leading endPos) :
    s.callers i = .leading endPos ∨ s.callers i = .checked endPos := by
  cases hst <;> grind

/-- Nobody passes the check once the poison is there. -/
theorem Step.checked_of (hst : Step s a t) (ht : t.callers i = .checked endPos) :
    s.callers i = .checked endPos ∨ s.poisoned = none := by
  cases hst <;> grind

/-- No round is trusted once the poison is there. -/
theorem Step.settled_of (hst : Step s a t) (ht : t.callers i = .settled endPos (.ok position)) :
    s.callers i = .settled endPos (.ok position) ∨ s.poisoned = none := by
  cases hst <;> grind

/-- `Ok` is returned from past the check, or by a leader whose round was trusted. -/
theorem Step.ok_of (hst : Step s a t) {led : Bool} (ht : t.callers i = .returned endPos (.ok led)) :
    s.callers i = .returned endPos (.ok led) ∨ s.callers i = .checked endPos ∨
      ∃ position, s.callers i = .settled endPos (.ok position) := by
  cases hst <;> grind

/-- The poison stays. -/
theorem Step.poisoned_of (hst : Step s a t) (hs : s.poisoned.isSome = true) :
    t.poisoned.isSome = true := by
  cases hst <;> grind

/-- How callers stand against an earlier state that was poisoned: nobody has passed the check
since, so leaders were leading or past the check then, and so were callers that return `Ok`. -/
structure AfterPoison (s t : Sys) : Prop where
  poisoned : t.poisoned.isSome = true
  checked : ∀ i endPos, t.callers i = .checked endPos → s.callers i = .checked endPos
  leading : ∀ i endPos, t.callers i = .leading endPos →
    s.callers i = .leading endPos ∨ s.callers i = .checked endPos
  settled : ∀ i endPos position, t.callers i = .settled endPos (.ok position) →
    s.callers i = .settled endPos (.ok position)
  ok : ∀ i endPos led, t.callers i = .returned endPos (.ok led) →
    s.callers i = .returned endPos (.ok led) ∨ s.callers i = .checked endPos ∨
      ∃ position, s.callers i = .settled endPos (.ok position)

theorem AfterPoison.step {u : Sys} (h : AfterPoison s t) (hst : Step t a u) : AfterPoison s u := by
  have hdirty : t.poisoned ≠ none := Option.isSome_iff_ne_none.mp h.poisoned
  refine ⟨hst.poisoned_of h.poisoned, fun i endPos hi => ?_, fun i endPos hi => ?_,
    fun i endPos position hi => ?_, fun i endPos led hi => ?_⟩
  · exact h.checked i endPos ((hst.checked_of hi).resolve_right hdirty)
  · obtain hi | hi := hst.leading_of hi
    · exact h.leading i endPos hi
    · exact .inr (h.checked i endPos hi)
  · exact h.settled i endPos position ((hst.settled_of hi).resolve_right hdirty)
  · obtain hi | hi | ⟨position, hi⟩ := hst.ok_of hi
    · exact h.ok i endPos led hi
    · exact .inr (.inl (h.checked i endPos hi))
    · exact .inr (.inr ⟨position, h.settled i endPos position hi⟩)

theorem afterPoison_run (hpoison : s.poisoned.isSome = true) (h : run step s acts = some t) :
    AfterPoison s t := by
  refine StepRun.invariant (fun u a v (hu : AfterPoison s u) ha => hu.step (step_cases ha)) ?_ h
  exact ⟨hpoison, fun _ _ h => h, fun _ _ h => .inl h, fun _ _ _ h => h, fun _ _ _ h => .inl h⟩

/-- Whether the caller holds the state lock. -/
def Caller.holds : Caller → Bool
  | .atHead _ => true
  | .checked _ => true
  | _ => false

/-- Whoever is at the head of the loop or past the check is the holder of the lock. -/
def LockHeld (s : Sys) : Prop := ∀ i, (s.callers i).holds = true → s.holder = some i

theorem LockHeld.step (h : LockHeld s) (hst : Step s a t) : LockHeld t := by
  intro j hj
  have hbefore := h j
  cases hst <;> grind -ring -linarith [Caller.holds, LockHeld]

theorem lockHeld_run (h : run step (new durable tail) acts = some s) : LockHeld s := by
  refine StepRun.invariant (fun s a t (hs : LockHeld s) ha => hs.step (step_cases ha)) ?_ h
  intro i hi
  cases hi

/-- After a failed round: its leader still leads, holding the failure, or the failure is
recorded and nobody leads or is about to. -/
def Failed (s : Sys) : Prop :=
  (∃ j endPos why, s.callers j = .synced endPos (.error why)) ∨
    s.poisoned.isSome = true ∧ ((∃ j endPos why, s.callers j = .settled endPos (.error why)) ∨
      ∀ i endPos, s.callers i ≠ .leading endPos ∧ s.callers i ≠ .checked endPos)

/-- Nobody is at the start of a round. -/
theorem Failed.not_leading (h : Failed s) (hone : OneLeader s) (i endPos : ℕ) :
    s.callers i ≠ .leading endPos := by
  intro hi
  have hlead : (s.callers i).leads = true := by
    rw [hi]
    rfl
  obtain ⟨j, e, why, hj⟩ | ⟨-, ⟨j, e, why, hj⟩ | hnone⟩ := h
  · obtain rfl := hone.unique i j hlead (by rw [hj]; rfl)
    rw [hi] at hj
    cases hj
  · obtain rfl := hone.unique i j hlead (by rw [hj]; rfl)
    rw [hi] at hj
    cases hj
  · exact (hnone i endPos).1 hi

/-- A failed round's leader records the failure next. -/
theorem Step.synced_error (hst : Step s a t) {why : String}
    (hj : s.callers j = .synced endPos (.error why)) :
    t.callers j = .synced endPos (.error why) ∨
      t.poisoned.isSome = true ∧ ∃ why', t.callers j = .settled endPos (.error why') := by
  cases hst <;> grind

/-- With the failure recorded it returns it, once the state lock is free. -/
theorem Step.settled_error (hst : Step s a t) {why : String}
    (hj : s.callers j = .settled endPos (.error why)) :
    t.callers j = .settled endPos (.error why) ∨ s.holder = none ∧
      ∀ i, t.callers i = if i = j then .returned endPos (.error why) else s.callers i := by
  cases hst <;> grind

theorem Failed.step (h : Failed s) (hone : OneLeader s) (hlock : LockHeld s) (hst : Step s a t) :
    Failed t := by
  obtain ⟨j, e, why, hj⟩ | ⟨hpoison, ⟨j, e, why, hj⟩ | hnone⟩ := h
  · obtain hj | ⟨hpoison, why', hj⟩ := hst.synced_error hj
    · exact .inl ⟨j, e, why, hj⟩
    · exact .inr ⟨hpoison, .inl ⟨j, e, why', hj⟩⟩
  · obtain hj' | ⟨hfree, hcallers⟩ := hst.settled_error hj
    · exact .inr ⟨hst.poisoned_of hpoison, .inl ⟨j, e, why, hj'⟩⟩
    · -- the lock was free, so nobody was past the check, and `j` alone was leading
      refine .inr ⟨hst.poisoned_of hpoison, .inr fun i endPos => ⟨fun hi => ?_, fun hi => ?_⟩⟩
      · rw [hcallers] at hi
        split_ifs at hi with hij
        exact hij (hone.unique i j (by rw [hi]; rfl) (by rw [hj]; rfl))
      · rw [hcallers] at hi
        split_ifs at hi with hij
        have hheld := hlock i (by rw [hi]; rfl)
        rw [hfree] at hheld
        cases hheld
  · refine .inr ⟨hst.poisoned_of hpoison, .inr fun i endPos => ⟨fun hi => ?_, fun hi => ?_⟩⟩
    · obtain hi | hi := hst.leading_of hi
      · exact (hnone i endPos).1 hi
      · exact (hnone i endPos).2 hi
    · obtain hi | hclean := hst.checked_of hi
      · exact (hnone i endPos).2 hi
      · rw [hclean] at hpoison
        cases hpoison

theorem failed_run (hfailed : Failed s) (hone : OneLeader s) (hlock : LockHeld s)
    (h : run step s acts = some t) : Failed t ∧ OneLeader t := by
  have hkeep : ∀ u a v, Failed u ∧ OneLeader u ∧ LockHeld u → step u a = some v →
      Failed v ∧ OneLeader v ∧ LockHeld v := by
    intro u a v hu ha
    have hst := step_cases ha
    exact ⟨hu.1.step hu.2.1 hu.2.2 hst, hu.2.1.step hst, hu.2.2.step hst⟩
  obtain ⟨hfailed', hone', -⟩ := StepRun.invariant hkeep ⟨hfailed, hone, hlock⟩ h
  exact ⟨hfailed', hone'⟩

/-! ### Group commit -/

/-- **Group commit safety.** In every run: at most one caller leads a round; a caller that has
returned `Ok` asked for a position that is covered; the durable position never decreases and is
covered; after a failed round no round starts; and after the poison is there, a round that
still starts is led by, and an `Ok` still returned goes to, a caller already past its check. -/
theorem commit_safe {durable tail : ℕ} {acts : List Act} {s : Sys}
    (h : run step (new durable tail) acts = some s) :
    (∀ i j, (s.callers i).leads = true → (s.callers j).leads = true → i = j) ∧
    (∀ i endPos led, s.callers i = .returned endPos (.ok led) →
      Covered durable tail acts endPos) ∧
    Covered durable tail acts s.state.durable ∧
    (∀ before after m, acts = before ++ after → run step (new durable tail) before = some m →
      m.state.durable ≤ s.state.durable) ∧
    (∀ before after i why, acts = before ++ .finishRound i (.error why) :: after →
      ∀ j, Act.startRound j ∉ after) ∧
    (∀ before after m, acts = before ++ after → run step (new durable tail) before = some m →
      m.poisoned.isSome = true →
      (∀ j, Act.startRound j ∈ after → ∃ endPos, m.callers j = .leading endPos ∨
        m.callers j = .checked endPos) ∧
      ∀ i endPos led, s.callers i = .returned endPos (.ok led) →
        m.callers i = .returned endPos (.ok led) ∨ m.callers i = .checked endPos ∨
          ∃ position, m.callers i = .settled endPos (.ok position)) := by
  have hcovered := allCovered_run h
  refine ⟨(oneLeader_run h).unique, fun i endPos led hi => ?_, hcovered.state, ?_, ?_, ?_⟩
  · have hi' := hcovered.callers i
    rw [hi] at hi'
    exact hi'
  · rintro before after m rfl hm
    obtain ⟨m', hm', hafter⟩ := exists_of_run_append h
    obtain rfl := Option.some.inj (hm.symm.trans hm')
    exact durable_le_run hafter
  · rintro before after i why rfl j hmem
    obtain ⟨m, hm, hrest⟩ := exists_of_run_append h
    obtain ⟨m', hm', hafter⟩ := Option.bind_eq_some_iff.mp hrest
    have hfailed : Failed m' := by
      cases step_cases hm' with
      | @finishRound _ endPos taken hi => exact .inl ⟨i, endPos, why, by simp [Sys.move, Except.map]⟩
    have hst := step_cases hm'
    obtain ⟨early, late, rfl⟩ := List.append_of_mem hmem
    obtain ⟨u, hu, hlate⟩ := exists_of_run_append hafter
    obtain ⟨hfailed', hone'⟩ := failed_run hfailed ((oneLeader_run hm).step hst)
      ((lockHeld_run hm).step hst) hu
    obtain ⟨v, hv, -⟩ := Option.bind_eq_some_iff.mp hlate
    cases step_cases hv with
    | @startRound _ endPos hj => exact hfailed'.not_leading hone' j endPos hj
  · rintro before after m rfl hm hpoison
    obtain ⟨m', hm', hafter⟩ := exists_of_run_append h
    obtain rfl := Option.some.inj (hm.symm.trans hm')
    refine ⟨fun j hmem => ?_, (afterPoison_run hpoison hafter).ok⟩
    obtain ⟨early, late, rfl⟩ := List.append_of_mem hmem
    obtain ⟨u, hu, hrest⟩ := exists_of_run_append hafter
    obtain ⟨v, hv, -⟩ := Option.bind_eq_some_iff.mp hrest
    cases step_cases hv with
    | @startRound _ endPos hi => exact ⟨endPos, (afterPoison_run hpoison hu).leading j endPos hi⟩

/-- Two callers share one round: the second is written while the first leads, and waits. -/
def sharedRound : List Act :=
  [.write 3, .enter 0 3, .lock 0, .check 0, .decide 0, .write 4, .enter 1 7, .lock 1, .check 1,
    .decide 1, .startRound 0, .finishRound 0 (.ok ()), .settle 0, .publish 0, .wake 1, .check 1,
    .decide 1]

/-- Both return `Ok`, the second without a round of its own. -/
theorem commit_safe_sharedRound :
    (∃ s, run step (new 0 0) sharedRound = some s ∧ s.callers 0 = .returned 3 (.ok true) ∧
      s.callers 1 = .returned 7 (.ok false)) ∧ Covered 0 0 sharedRound 7 := by
  have hrun : run step (new 0 0) sharedRound =
      some ((run step (new 0 0) sharedRound).get (by rfl)) := (Option.some_get _).symm
  exact ⟨⟨_, hrun, rfl, rfl⟩, (commit_safe hrun).2.1 1 7 false rfl⟩

/-- The poison may come between a caller's check and what the caller does next: then a round
starts after it, and a caller returns `Ok` after it. -/
theorem poison_after_check :
    (run step (new 0 0) [.write 1, .enter 0 1, .lock 0, .check 0, .decide 0, .poison "rotation",
      .startRound 0]).isSome = true ∧
    ((run step (new 1 1) [.enter 0 1, .lock 0, .check 0, .poison "rotation", .decide 0]).map
      fun s => (s.poisoned, s.callers 0)) = some (some "rotation", .returned 1 (.ok false)) := by
  decide

end CommitRounds

end Minnal
