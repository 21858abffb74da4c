import Minnal.Db.DroppedNamespaces

/-!
# Creating and removing a namespace when a step fails

The registry is kept in memory, in a file, and as the set of open **stores**. `createNamespace`
changes the maps in memory, saves the file, and opens the store, in this order; `removeNamespace`
changes the maps, saves the file, and closes the store. The state is **good** when all three agree
(`State.Good`).

Nothing is undone when a later step fails. A call that fails before it changed anything leaves a
good state; a call that fails at the save or at the store never does, and its retry sees the maps
it left (`atomic_on_error_iff`).
-/

namespace Minnal

namespace Namespaces

namespace Failures

/-! ### The calls -/

inductive NamespaceError where
  | databaseClosed
  | registry (e : RegistryError)
  /-- The registry could not be saved. -/
  | persist
  /-- `KVStore::open` failed. -/
  | openStore
  | namespaceNotFound (id : ℕ)
  deriving DecidableEq

/-- How the registry file's replacement ends: a failure may come before the rename or after it, at
the directory's fsync. -/
inductive Save where
  | done
  | failedBefore
  | failedAfter
  deriving DecidableEq

/-- What the file system answers during a call. -/
structure Answers where
  save : Save
  storeOpens : Bool

/-- The registry in memory and in its file, and the ids of the open stores. -/
structure State where
  closed : Bool
  registry : Registry
  file : Registry
  stores : List ℕ

namespace State

/-- A new database: the two namespaces that are always there. -/
def new : State := { closed := false, registry := .new, file := .new, stores := [0, 1] }

/-- The maps in memory are changed, then the file is replaced; whether that succeeds. -/
def persist (s : State) (r : Registry) : Save → State × Bool
  | .done => ({ s with registry := r, file := r }, true)
  | .failedBefore => ({ s with registry := r }, false)
  | .failedAfter => ({ s with registry := r, file := r }, false)

def createNamespace (s : State) (io : Answers) (name : String) :
    State × Except NamespaceError ℕ :=
  if s.closed then (s, .error .databaseClosed)
  else
    match s.registry.getId name with
    | some existing => (s, .ok existing)
    | none =>
      match s.registry.create name with
      | .error e => (s, .error (.registry e))
      | .ok (r, id) =>
        let (s, saved) := s.persist r io.save
        if !saved then (s, .error .persist)
        else if io.storeOpens then ({ s with stores := id :: s.stores }, .ok id)
        else (s, .error .openStore)

/-- The store's shutdown and the deletion of its files are best effort. -/
def removeNamespace (s : State) (io : Answers) (name : String) :
    State × Except NamespaceError ℕ :=
  if s.closed then (s, .error .databaseClosed)
  else
    match s.registry.remove name with
    | .error e => (s, .error (.registry e))
    | .ok (r, id) =>
      let (s, saved) := s.persist r io.save
      if !saved then (s, .error .persist)
      else ({ s with stores := s.stores.filter fun i => decide (i ≠ id) }, .ok id)

/-- With no creation under way, a miss in the stores is final. -/
def getStore (s : State) (id : ℕ) : Except NamespaceError ℕ :=
  if id ∈ s.stores then .ok id else .error (.namespaceNotFound id)

/-- **The three agree**: the file holds the registry in memory, and the open stores are those of
the registered ids. -/
structure Good (s : State) : Prop where
  wf : s.registry.WF
  file_eq : s.file = s.registry
  stores : ∀ id, id ∈ s.stores ↔ ∃ name, s.registry.getId name = some id

end State

inductive Call where
  | create (name : String)
  | remove (name : String)
  deriving DecidableEq

def exec (s : State) (io : Answers) : Call → State × Except NamespaceError ℕ
  | .create name => s.createNamespace io name
  | .remove name => s.removeNamespace io name

/-- **The call fails before it changes anything, or no step of it fails.** -/
def Spared (s : State) (io : Answers) : Call → Prop
  | .create name => s.closed = true ∨ (s.registry.getId name).isSome ∨
      io.save = .done ∧ io.storeOpens = true
  | .remove name => s.closed = true ∨ name = "default" ∨ name = "system" ∨
      s.registry.getId name = none ∨ io.save = .done

instance (s : State) (io : Answers) : DecidablePred (Spared s io)
  | .create name => inferInstanceAs (Decidable (s.closed = true ∨ (s.registry.getId name).isSome ∨
      io.save = .done ∧ io.storeOpens = true))
  | .remove name => inferInstanceAs (Decidable (s.closed = true ∨ name = "default" ∨
      name = "system" ∨ s.registry.getId name = none ∨ io.save = .done))

/-- One call of a run. -/
def step (s : State) (c : Answers × Call) : Option State := some (exec s c.1 c.2).1

/-- **Atomic on error**: after an error the state is good, and every registered name has a store
that can be had. -/
def AtomicOnError (r : State × Except NamespaceError ℕ) : Prop :=
  ∀ e, r.2 = .error e → r.1.Good ∧
    ∀ name id, r.1.registry.getId name = some id → r.1.getStore id = .ok id

namespace State

variable {s : State}

theorem Good.getStore (h : s.Good) {name : String} {id : ℕ}
    (hid : s.registry.getId name = some id) : s.getStore id = .ok id :=
  if_pos ((h.stores id).mpr ⟨name, hid⟩)

theorem Good.atomic (h : s.Good) (r : Except NamespaceError ℕ) : AtomicOnError (s, r) :=
  fun _ _ => ⟨h, fun _ _ => h.getStore⟩

theorem atomic_of_ok (id : ℕ) : AtomicOnError (s, .ok id) := nofun

/-- A name registered without a store, or a store whose name is gone. -/
theorem not_atomic {e : NamespaceError} (h : ¬s.Good) : ¬AtomicOnError (s, .error e) :=
  fun hatomic => h (hatomic e rfl).1

end State

/-! ### What a failed step leaves -/

variable {t : State}

section
variable {s : State} {io : Answers} {name : String} {r : Registry} {id : ℕ}

/-- The registry that a save leaves in memory, and the stores, which it does not touch. -/
theorem persist_registry (s : State) (r : Registry) (save : Save) :
    (s.persist r save).1.registry = r ∧ (s.persist r save).1.stores = s.stores := by
  cases save <;> exact ⟨rfl, rfl⟩

/-- **A new name has no store yet**, so a creation that stops there leaves no good state. -/
theorem not_good_of_create (h : s.Good) (hcreate : s.registry.create name = .ok (r, id))
    (save : Save) : ¬(s.persist r save).1.Good := by
  intro hgood
  obtain ⟨hreg, hstores⟩ := persist_registry s r save
  obtain ⟨-, rfl, hnone, -, -, hget⟩ := h.wf.create hcreate
  have hnew : r.getId name = some s.registry.nextId := by rw [hget, if_pos rfl]
  have hmem := (hgood.stores s.registry.nextId).mpr ⟨name, by rw [hreg, hnew]⟩
  rw [hstores] at hmem
  obtain ⟨other, hother⟩ := (h.stores _).mp hmem
  exact absurd (h.wf.getId_lt hother) (lt_irrefl _)

/-- **The store of a removed name is still open**, so a removal that stops there leaves no good
state. -/
theorem not_good_of_remove (h : s.Good) (hremove : s.registry.remove name = .ok (r, id))
    (save : Save) : ¬(s.persist r save).1.Good := by
  intro hgood
  obtain ⟨hreg, hstores⟩ := persist_registry s r save
  obtain ⟨hwf, hid, -, hget⟩ := h.wf.remove hremove
  have hmem := (h.stores id).mpr ⟨name, hid⟩
  rw [← hstores] at hmem
  obtain ⟨other, hother⟩ := (hgood.stores id).mp hmem
  rw [hreg, hget] at hother
  split_ifs at hother with hne
  -- two names never share an id
  have hname := h.wf.getName_eq_some_iff.mpr hid
  rw [h.wf.getName_eq_some_iff.mpr hother] at hname
  exact hne (Option.some.inj hname)

theorem remove_isOk_iff (r : Registry) (name : String) :
    (∃ p, r.remove name = .ok p) ↔ name ≠ "default" ∧ name ≠ "system" ∧ (r.getId name).isSome := by
  rw [Registry.remove]
  split_ifs with hdefault hsystem
  · simp [hdefault]
  · simp [hsystem]
  · cases hid : r.getId name <;> simp [hdefault, hsystem]

theorem create_isOk (hnone : s.registry.getId name = none) :
    ∃ p, s.registry.create name = .ok p := by
  rw [Registry.create, hnone]
  exact ⟨_, rfl⟩

theorem createNamespace_atomic_iff (h : s.Good) :
    AtomicOnError (s.createNamespace io name) ↔ Spared s io (.create name) := by
  unfold State.createNamespace
  by_cases hclosed : s.closed = true
  · rw [if_pos hclosed]
    exact ⟨fun _ => Or.inl hclosed, fun _ => h.atomic _⟩
  · rw [if_neg hclosed]
    cases hid : s.registry.getId name with
    | some existing =>
      have hsome : (s.registry.getId name).isSome = true := by rw [hid]; rfl
      exact ⟨fun _ => Or.inr (.inl hsome), fun _ => State.atomic_of_ok existing⟩
    | none =>
      obtain ⟨⟨r, id⟩, hcreate⟩ := create_isOk hid
      have hbad := not_good_of_create h hcreate
      have hspared : Spared s io (.create name) ↔ io.save = .done ∧ io.storeOpens = true := by
        simp [Spared, hclosed, hid]
      rw [hcreate, hspared]
      obtain ⟨save, opens⟩ := io
      cases save with
      | done =>
        cases opens with
        | true => exact ⟨fun _ => ⟨rfl, rfl⟩, fun _ => State.atomic_of_ok id⟩
        | false => exact ⟨fun ha => absurd ha (State.not_atomic (hbad .done)), nofun⟩
      | failedBefore => exact ⟨fun ha => absurd ha (State.not_atomic (hbad .failedBefore)), nofun⟩
      | failedAfter => exact ⟨fun ha => absurd ha (State.not_atomic (hbad .failedAfter)), nofun⟩

theorem removeNamespace_atomic_iff (h : s.Good) :
    AtomicOnError (s.removeNamespace io name) ↔ Spared s io (.remove name) := by
  unfold State.removeNamespace
  by_cases hclosed : s.closed = true
  · rw [if_pos hclosed]
    exact ⟨fun _ => Or.inl hclosed, fun _ => h.atomic _⟩
  · rw [if_neg hclosed]
    cases hremove : s.registry.remove name with
    | error e =>
      refine ⟨fun _ => ?_, fun _ => h.atomic _⟩
      have hnot := (remove_isOk_iff s.registry name).not.mp (by rw [hremove]; nofun)
      by_contra hspared
      refine hnot ⟨fun hname => hspared (Or.inr (.inl hname)),
        fun hname => hspared (Or.inr (.inr (.inl hname))), ?_⟩
      rw [Option.isSome_iff_ne_none]
      exact fun hid => hspared (Or.inr (.inr (.inr (.inl hid))))
    | ok p =>
      obtain ⟨r, id⟩ := p
      have hbad := not_good_of_remove h hremove
      obtain ⟨hdefault, hsystem, hsome⟩ := (remove_isOk_iff s.registry name).mp ⟨_, hremove⟩
      have hspared : Spared s io (.remove name) ↔ io.save = .done := by
        simp [Spared, hclosed, hdefault, hsystem, Option.isSome_iff_ne_none.mp hsome]
      rw [hspared]
      obtain ⟨save, opens⟩ := io
      cases save with
      | done => exact ⟨fun _ => rfl, fun _ => State.atomic_of_ok id⟩
      | failedBefore => exact ⟨fun ha => absurd ha (State.not_atomic (hbad .failedBefore)), nofun⟩
      | failedAfter => exact ⟨fun ha => absurd ha (State.not_atomic (hbad .failedAfter)), nofun⟩

/-- A creation that succeeds leaves a good state. -/
theorem good_of_create_ok (h : s.Good) (hok : s.createNamespace io name = (t, .ok id)) :
    t.Good := by
  unfold State.createNamespace at hok
  split at hok
  · cases hok
  · split at hok
    · obtain ⟨rfl, -⟩ := Prod.mk.inj hok
      exact h
    · split at hok
      · cases hok
      · next r new hcreate =>
        cases hsave : io.save <;> rw [hsave] at hok <;> try cases hok
        cases hopens : io.storeOpens <;> rw [hopens] at hok <;> cases hok
        obtain ⟨hwf, rfl, hnone, -, -, hget⟩ := h.wf.create hcreate
        refine ⟨hwf, rfl, fun i => ?_⟩
        change i ∈ s.registry.nextId :: s.stores ↔ ∃ other, r.getId other = some i
        rw [List.mem_cons, h.stores]
        constructor
        · rintro (rfl | ⟨other, hother⟩)
          · exact ⟨name, by rw [hget, if_pos rfl]⟩
          · refine ⟨other, ?_⟩
            rw [hget, if_neg, hother]
            rintro rfl
            rw [hnone] at hother
            cases hother
        · rintro ⟨other, hother⟩
          rw [hget] at hother
          split_ifs at hother with heq
          · exact .inl (Option.some.inj hother).symm
          · exact .inr ⟨other, hother⟩

/-- A removal that succeeds leaves a good state. -/
theorem good_of_remove_ok (h : s.Good) (hok : s.removeNamespace io name = (t, .ok id)) :
    t.Good := by
  unfold State.removeNamespace at hok
  split at hok
  · cases hok
  · split at hok
    · cases hok
    · next r gone hremove =>
      cases hsave : io.save <;> rw [hsave] at hok <;> cases hok
      obtain ⟨hwf, hid, -, hget⟩ := h.wf.remove hremove
      refine ⟨hwf, rfl, fun i => ?_⟩
      change i ∈ s.stores.filter (fun i => decide (i ≠ id)) ↔ ∃ other, r.getId other = some i
      rw [List.mem_filter, decide_eq_true_eq, h.stores]
      constructor
      · rintro ⟨⟨other, hother⟩, hne⟩
        refine ⟨other, ?_⟩
        rw [hget, if_neg, hother]
        rintro rfl
        rw [hid] at hother
        exact hne (Option.some.inj hother).symm
      · rintro ⟨other, hother⟩
        rw [hget] at hother
        split_ifs at hother with hne
        refine ⟨⟨other, hother⟩, ?_⟩
        rintro rfl
        have hname := h.wf.getName_eq_some_iff.mpr hid
        rw [h.wf.getName_eq_some_iff.mpr hother] at hname
        exact hne (Option.some.inj hname)

end

/-! ### Every call and every run -/

variable {s : State} {io : Answers} {call : Call}

theorem atomic_of_spared (h : s.Good) (hs : Spared s io call) : AtomicOnError (exec s io call) := by
  cases call with
  | create name => exact (createNamespace_atomic_iff h).mpr hs
  | remove name => exact (removeNamespace_atomic_iff h).mpr hs

/-- **Creation and removal are atomic on error exactly when no step after the first change fails**:
from a good state, a call is atomic on error if and only if it fails before it changes anything or
neither the registry's save nor the opening of the store fails in it. -/
theorem atomic_on_error_iff {s : State} (h : s.Good) (io : Answers) (call : Call) :
    AtomicOnError (exec s io call) ↔ Spared s io call := by
  cases call with
  | create name => exact createNamespace_atomic_iff h
  | remove name => exact removeNamespace_atomic_iff h

theorem good_new : State.new.Good where
  wf := Registry.wf_new
  file_eq := rfl
  stores id := by
    have hget : ∀ name, Registry.new.getId name = some id ↔
        (name, id) = ("default", 0) ∨ (name, id) = ("system", 1) := fun name =>
      Registry.wf_new.getId_eq_some_iff.trans List.mem_pair
    change id ∈ [0, 1] ↔ ∃ name, Registry.new.getId name = some id
    simp only [hget, List.mem_pair, Prod.mk.injEq]
    constructor
    · rintro (rfl | rfl)
      · exact ⟨_, .inl ⟨rfl, rfl⟩⟩
      · exact ⟨_, .inr ⟨rfl, rfl⟩⟩
    · rintro ⟨-, ⟨-, rfl⟩ | ⟨-, rfl⟩⟩
      · exact .inl rfl
      · exact .inr rfl

/-- A spared call leaves a good state, whether it succeeds or not. -/
theorem good_exec (h : s.Good) (hs : Spared s io call) : (exec s io call).1.Good := by
  rcases hr : (exec s io call).2 with e | id
  · exact (atomic_of_spared h hs e hr).1
  · cases call with
    | create name => exact good_of_create_ok h (Prod.ext rfl hr)
    | remove name => exact good_of_remove_ok h (Prod.ext rfl hr)

/-- **Runs**: as long as every call is spared, the state is good, and every name in the file has a
store of its own. -/
theorem stores_agree (h : s.Good) (calls : List (Answers × Call))
    (hspared : StepRun.along step (fun s c => decide (Spared s c.1 c.2)) s calls = true)
    (hrun : StepRun.run step s calls = some t) :
    t.Good ∧ ∀ name id, t.file.getId name = some id →
      t.getStore id = .ok id ∧ ∀ other, t.file.getId other = some id → other = name := by
  have hgood : t.Good := by
    refine StepRun.invariant_along (fun s c t hs hc hstep => ?_) h hspared hrun
    obtain rfl := Option.some.inj hstep
    exact good_exec hs (of_decide_eq_true hc)
  refine ⟨hgood, fun name id hid => ?_⟩
  rw [hgood.file_eq] at hid ⊢
  refine ⟨hgood.getStore hid, fun other hother => ?_⟩
  have hname := hgood.wf.getName_eq_some_iff.mpr hid
  rw [hgood.wf.getName_eq_some_iff.mpr hother] at hname
  exact Option.some.inj hname

/-- A creation, and a removal that is refused while no file can be written. -/
def createAndRefuse : List (Answers × Call) :=
  [(⟨.done, true⟩, .create "a"), (⟨.failedBefore, false⟩, .remove "default")]

theorem stores_agree_createAndRefuse : ∃ t, StepRun.run step .new createAndRefuse = some t ∧
    t.file.getId "a" = some 2 ∧ t.getStore 2 = .ok 2 :=
  ⟨_, rfl, rfl, ((stores_agree good_new createAndRefuse (by decide +kernel) rfl).2 "a" 2 rfl).1⟩

/-- A removal that is refused changes nothing; a creation whose store does not open does. -/
theorem atomic_on_error_iff_new :
    AtomicOnError (exec State.new ⟨.failedBefore, false⟩ (.remove "default")) ∧
      ¬AtomicOnError (exec State.new ⟨.done, false⟩ (.create "a")) :=
  ⟨(atomic_on_error_iff good_new _ _).mpr (Or.inr (.inl rfl)),
    fun h => by
      rcases (atomic_on_error_iff good_new _ _).mp h with h | h | ⟨-, h⟩
      · cases h
      · exact absurd h (by decide)
      · cases h⟩

/-- **A failed creation is reported as done by its retry.** The store of a new namespace does not
open; the name stays, the retry answers with its id, and no store can ever be had for it. A removal
whose save fails leaves the name in the file, gone from memory, where the retry misses it. -/
theorem failed_call_then_retry :
    let sound : Answers := ⟨.done, true⟩
    let created := exec State.new ⟨.done, false⟩ (.create "a")
    let registered := (exec State.new sound (.create "a")).1
    let removed := exec registered ⟨.failedBefore, true⟩ (.remove "a")
    created.2 = .error .openStore ∧ ¬AtomicOnError created ∧
      (exec created.1 sound (.create "a")).2 = .ok 2 ∧
      (exec created.1 sound (.create "a")).1.getStore 2 = .error (.namespaceNotFound 2) ∧
      removed.2 = .error .persist ∧ removed.1.file.getId "a" = some 2 ∧
      (exec removed.1 sound (.remove "a")).2 = .error (.registry (.doesNotExist "a")) := by
  refine ⟨rfl, fun h => ?_, rfl, rfl, rfl, rfl, rfl⟩
  have hget := (h .openStore rfl).2 "a" 2 rfl
  cases hget

end Failures

end Namespaces

end Minnal
