import Minnal.Db.SerialWrites

/-!
# No writer waits for ever

The locks of a write are taken in one order: the key's stripe, then the WAL lock, which is free
again before the bucket of the value log is locked. Whoever has the WAL lock or a bucket can go on
(`Owners`), so a thread that waits for a stripe waits, over at most one other thread, for one that
can. And no thread takes more than eight steps (`Pc.rank`).
-/

namespace Minnal

namespace SerialWrites

variable {ν : Type} {prog : Tid → Op ν} {l : Locks} {s t : State ν} {i : Tid}

/-! ### Who has a lock can go on -/

/-- The thread is where the WAL lock is held. -/
def Pc.logs : Pc ν → Bool
  | .logging _ | .allocated _ _ => true
  | _ => false

/-- The thread is where it may have its bucket. -/
def Pc.expires : Pc ν → Bool
  | .compared | .numbered _ _ => true
  | _ => false

/-- **The owners** of the WAL lock and of the buckets. -/
structure Owners (prog : Tid → Op ν) (l : Locks) (s : State ν) : Prop where
  wal : ∀ j, s.walLock = some j → (s.pc j).logs = true
  bucket : ∀ b j, s.buckets b = some j → (s.pc j).expires = true ∧ l.bucketOf (prog j).key = b

theorem owners_init : Owners prog l State.init := ⟨nofun, nofun⟩

@[grind =] theorem State.walLock_goto (q : Pc ν) : (s.goto i q).walLock = s.walLock := rfl

@[grind =] theorem State.buckets_goto (q : Pc ν) (b : ℕ) :
    (s.goto i q).buckets b = s.buckets b := rfl

@[grind =] theorem State.pc_alloc (j : Tid) : (s.alloc i).pc j = s.pc j := rfl

theorem Owners.step {a : Act} (h : Owners prog l s) (hstep : SerialWrites.step prog l s a = some t) :
    Owners prog l t := by
  have hwal := h.wal
  have hbucket := h.bucket
  cases a with
  | sealMemtable ns =>
    obtain rfl := Option.some.inj hstep
    exact ⟨hwal, hbucket⟩
  | thread i =>
    cases move_of_step hstep with
    | @work s' q hw =>
      cases hp : s.pc i <;> rw [hp] at hw <;> cases hw
      all_goals refine ⟨fun j hj => ?_, fun b j hj => ?_⟩
      all_goals simp only [State.pc_goto, State.alloc] at hj ⊢
      all_goals grind -ring -linarith [Pc.logs, Pc.expires]
    | _ =>
      refine ⟨fun j hj => ?_, fun b j hj => ?_⟩
      all_goals simp only [applyWrite, State.pc_goto, State.insertWithSeq] at hj ⊢
      all_goals grind -ring -linarith [Pc.logs, Pc.expires]

/-- Whoever has the WAL lock or a bucket can go on. -/
theorem Owners.goes_on (h : Owners prog l s) {k : Tid}
    (hk : s.walLock = some k ∨ ∃ b, s.buckets b = some k) :
    (threadStep prog l s k).isSome = true := by
  obtain hlogs | ⟨b, hb⟩ := hk
  · have hpc := h.wal k hlogs
    cases hp : s.pc k <;> rw [hp] at hpc <;> cases hpc
    all_goals rw [threadStep, hp]; rfl
  · obtain ⟨hpc, hown⟩ := h.bucket b k hb
    cases hp : s.pc k <;> rw [hp] at hpc <;> cases hpc
    · rw [threadStep, hp, hown]
      simp [hb]
    · rw [threadStep, hp]
      rfl

/-- The thread can go on, or waits for one that can. -/
def GoesOn (prog : Tid → Op ν) (l : Locks) (s : State ν) (j : Tid) : Prop :=
  ∃ k, (k = j ∨ s.walLock = some k ∨ s.buckets (l.bucketOf (prog j).key) = some k) ∧
    (threadStep prog l s k).isSome = true

/-- Inside its stripe, a thread waits at most for the WAL lock or for its bucket. -/
theorem Owners.inStripe (h : Owners prog l s) {j : Tid} (hj : (s.pc j).inStripe = true) :
    GoesOn prog l s j := by
  have hself : (threadStep prog l s j).isSome = true → GoesOn prog l s j := fun hstep =>
    ⟨j, .inl rfl, hstep⟩
  rw [threadStep] at hself
  cases hp : s.pc j with
  | idle | judged _ | done =>
    rw [hp] at hj
    cases hj
  | logging _ | allocated _ _ | appended _ _ | compared | finished =>
    rw [hp] at hself
    exact hself rfl
  | writing v =>
    cases hk : s.walLock with
    | some k => exact ⟨k, .inr (.inl hk), h.goes_on (.inl hk)⟩
    | none =>
      refine hself ?_
      simp only [hp, hk]
      split <;> rfl
  | holding _ | numbered _ _ =>
    cases hk : s.buckets (l.bucketOf (prog j).key) with
    | some k => exact ⟨k, .inr (.inr hk), h.goes_on (.inr ⟨_, hk⟩)⟩
    | none =>
      refine hself ?_
      rw [hp]
      grind -ring -linarith

/-! ### Every run -/

/-- How many steps a thread has before it at most. -/
def Pc.rank : Pc ν → ℕ
  | .idle => 8
  | .holding none => 7
  | .writing _ => 6
  | .judged _ | .logging _ => 5
  | .holding (some _) | .allocated _ _ => 4
  | .appended _ _ | .compared => 3
  | .numbered _ _ => 2
  | .finished => 1
  | .done => 0

theorem rank_lt (h : Move prog l s i t) (j : Tid) :
    (t.pc j).rank + (if j = i then 1 else 0) ≤ (s.pc j).rank := by
  cases h with
  | work hw =>
    cases hp : s.pc i <;> rw [hp] at hw <;> cases hw
    all_goals grind [Pc.rank, State.pc_goto]
  | _ =>
    simp only [applyWrite, State.pc_goto, State.insertWithSeq]
    grind [Pc.rank]

/-- Whether the thread takes the step. -/
def Act.isOf (i : Tid) : Act → Bool
  | .thread j => decide (j = i)
  | .sealMemtable _ => false

/-- **Every write ends**, in every interleaving: a thread that is not done can go on, or waits,
over at most its stripe's owner, for one that can; and no thread takes more than eight steps. -/
theorem writes_end (prog : Tid → Op ν) (l : Locks) {s : State ν} {as : List Act}
    (h : StepRun.run (step prog l) State.init as = some s) (i : Tid) :
    (s.pc i = .done ∨ GoesOn prog l s i ∨
      ∃ j, s.stripes (l.stripeOf (prog i).key) = some j ∧ GoesOn prog l s j) ∧
    as.countP (Act.isOf i) + (s.pc i).rank ≤ 8 := by
  have howners : Owners prog l s :=
    StepRun.invariant (fun _ _ _ ho hstep => ho.step hstep) owners_init h
  have hturns : Turns prog l s :=
    (StepRun.invariant (fun _ _ _ hinv hstep => Inv.step hinv hstep) (inv_init prog l) h).turns
  constructor
  · by_cases hin : (s.pc i).inStripe = true
    · exact .inr (.inl (howners.inStripe hin))
    cases hst : s.stripes (l.stripeOf (prog i).key) with
    | some j => exact .inr (.inr ⟨j, rfl, howners.inStripe (hturns.owner _ _ hst).1⟩)
    | none =>
      -- outside, with the stripe free, a thread that is not done takes it or leaves
      refine or_iff_not_imp_left.mpr fun hdone => .inl ⟨i, .inl rfl, ?_⟩
      rw [threadStep]
      cases hp : s.pc i with
      | idle | judged r => grind [acquire]
      | done => exact absurd hp hdone
      | _ => grind [Pc.inStripe]
  · refine @StepRun.history_invariant _ _ _ _ (fun as s => as.countP (Act.isOf i) + (s.pc i).rank ≤ 8)
      (Nat.le_refl 8) (fun as s a t _ hle hstep => ?_) _ _ h
    rw [List.countP_append, List.countP_singleton]
    cases a with
    | sealMemtable ns =>
      obtain rfl := Option.some.inj hstep
      exact hle
    | thread j =>
      have hlt := rank_lt (move_of_step hstep) i
      grind [Act.isOf]

private def twoPuts : Tid → Op ℕ := fun _ => .putNs (0, [107]) 5 1

private def oneStripe : Locks := ⟨fun _ => 0, fun _ => 0⟩

/-- A writer waits for another one at its key, which can go on. -/
theorem writes_end_waiting : ∃ s, StepRun.run (step twoPuts oneStripe) State.init [.thread 0] = some s ∧
    threadStep twoPuts oneStripe s 1 = none ∧ (s.pc 1 = .done ∨ GoesOn twoPuts oneStripe s 1 ∨
      ∃ j, s.stripes 0 = some j ∧ GoesOn twoPuts oneStripe s j) :=
  ⟨_, rfl, rfl, (@writes_end _ twoPuts oneStripe _ [.thread 0] rfl 1).1⟩

end SerialWrites

end Minnal
