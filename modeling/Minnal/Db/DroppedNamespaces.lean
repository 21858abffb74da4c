import Mathlib.Data.List.MinMax
import Mathlib.Data.List.Nodup
import Minnal.Library.StepRun

/-!
# Dropped namespaces

The registry file maps the name of a namespace to its id. Ids are never used again, but the
directory of a namespace, with its SSTables, value logs and `config.json`, is found by its
**name**. `removeNamespace` saves the registry without the name first and deletes the directory
last, as far as that succeeds; `createNamespace` opens a store on whatever directory it finds.

A record and a field definition carry the id of the namespace they were **written** under, and so
does a WAL entry. Nothing of a dropped namespace is visible in a state in which every registered
set_option linter.dupNamespace false

namespace shows its own records and fields only (`State.OnlyOwn`). Recovery keeps to that by
itself, as it goes by ids; `createNamespace` does if the directory it finds is not there or
empty, with nothing that a power loss could bring back.
-/

namespace Minnal

open Function
open List (mem_singleton mem_append not_mem_nil mem_of_mem_filter mem_map mem_cons)
open Option (map_eq_some_iff bind_eq_some_iff ite_none_left_eq_some)

namespace Namespaces

/-! ### The registry and the schema -/

inductive RegistryError where
  | alreadyExists (name : String)
  | removesDefault
  | removesSystem
  | doesNotExist (name : String)
  | typeMismatch (fieldName : String)
  deriving DecidableEq

/-- Names with their ids, and the TTL settings (milliseconds, deletes in one run) by id. -/
structure Registry where
  nextId : ℕ
  namespaces : List (String × ℕ)
  ttlConfigs : List (ℕ × ℕ × ℕ)

namespace Registry

def new : Registry := ⟨2, [("default", 0), ("system", 1)], []⟩

def getId (r : Registry) (name : String) : Option ℕ :=
  (r.namespaces.find? fun e => decide (e.1 = name)).map Prod.snd

def getName (r : Registry) (id : ℕ) : Option String :=
  (r.namespaces.find? fun e => decide (e.2 = id)).map Prod.fst

def create (r : Registry) (name : String) : Except RegistryError (Registry × ℕ) :=
  if (r.getId name).isSome then .error (.alreadyExists name)
  else .ok ({ r with nextId := r.nextId + 1, namespaces := r.namespaces ++ [(name, r.nextId)] },
    r.nextId)

def remove (r : Registry) (name : String) : Except RegistryError (Registry × ℕ) :=
  if name = "default" then .error .removesDefault
  else if name = "system" then .error .removesSystem
  else
    match r.getId name with
    | none => .error (.doesNotExist name)
    | some id => .ok ({ r with
        namespaces := r.namespaces.filter fun e => decide (e.1 ≠ name)
        ttlConfigs := r.ttlConfigs.filter fun c => decide (c.1 ≠ id) }, id)

def ttlConfig (r : Registry) (id : ℕ) : Option (ℕ × ℕ) :=
  (r.ttlConfigs.find? fun c => decide (c.1 = id)).map Prod.snd

def removeTtlConfig (r : Registry) (id : ℕ) : Registry :=
  { r with ttlConfigs := r.ttlConfigs.filter fun c => decide (c.1 ≠ id) }

def setTtlConfig (r : Registry) (id ttl maxDeletes : ℕ) : Registry :=
  { r with ttlConfigs := (id, ttl, maxDeletes) :: (r.removeTtlConfig id).ttlConfigs }

end Registry

inductive IndexValueType where
  | bool
  | int
  | str
  deriving DecidableEq

/-- The definition of an indexed field, and the namespace it was registered under. -/
structure FieldMeta where
  fieldId : ℕ
  fieldName : String
  fieldType : IndexValueType
  dropped : Bool
  writer : ℕ
  deriving DecidableEq

structure NamespaceSchema where
  fields : List FieldMeta
  nextFieldId : ℕ
  deriving DecidableEq

namespace NamespaceSchema

def new : NamespaceSchema := ⟨[], 0⟩

/-- Register a field; one already there under that name and type is live again. -/
def registerField (s : NamespaceSchema) (writer : ℕ) (fieldName : String)
    (fieldType : IndexValueType) : Except RegistryError NamespaceSchema :=
  match s.fields.find? fun f => decide (f.fieldName = fieldName) with
  | some f =>
    if f.fieldType = fieldType then
      .ok { s with fields := s.fields.map fun f =>
        if f.fieldName = fieldName then { f with dropped := false } else f }
    else .error (.typeMismatch fieldName)
  | none => .ok ⟨s.fields ++ [⟨s.nextFieldId, fieldName, fieldType, false, writer⟩], s.nextFieldId + 1⟩

/-- Mark a field's index as dropped; the definition stays. -/
def markFieldDropped (s : NamespaceSchema) (fieldId : ℕ) : NamespaceSchema :=
  { s with fields := s.fields.map fun f =>
      if f.fieldId = fieldId then { f with dropped := true } else f }

end NamespaceSchema

/-! ### The disk -/

abbrev Key := List UInt8

/-- A write; none is a tombstone. In the WAL, `writer` is the entry's namespace id. -/
structure Record where
  writer : ℕ
  key : Key
  seq : ℕ
  value : Option (List UInt8)
  deriving DecidableEq

/-- A file of a namespace's directory. -/
inductive NamespaceFile where
  | sstable (records : List Record)
  | config (schema : NamespaceSchema)
  deriving DecidableEq

namespace NamespaceFile

def records : NamespaceFile → List Record
  | .sstable rs => rs
  | .config _ => []

def schema : NamespaceFile → Option NamespaceSchema
  | .sstable _ => none
  | .config s => some s

end NamespaceFile

/-- Registry file, directories by name, and the WAL above the cut. -/
structure Disk where
  registry : Registry
  dirs : String → Option (List NamespaceFile)
  /-- Files unlinked from a directory by calls that no fsync has made final. -/
  unlinked : String → List NamespaceFile
  wal : List Record

namespace Disk

/-- The files of a directory. -/
def files (d : Disk) (name : String) : List NamespaceFile := (d.dirs name).getD []

/-- Save the registry. The fsync of the database directory makes the removal of whole
directories final. -/
def saveRegistry (d : Disk) (r : Registry) : Disk :=
  { d with
    registry := r
    unlinked := fun name => if (d.dirs name).isNone then [] else d.unlinked name }

def setFiles (d : Disk) (name : String) (files : List NamespaceFile) : Disk :=
  { d with dirs := Function.update d.dirs name (some files) }

def loadConfig (d : Disk) (name : String) : NamespaceSchema :=
  ((d.files name).findSome? NamespaceFile.schema).getD NamespaceSchema.new

/-- Replace `config.json`. -/
def persistSchema (d : Disk) (name : String) (s : NamespaceSchema) : Disk :=
  d.setFiles name (((d.files name).filter fun f => f.schema.isNone) ++ [.config s])

/-- Write a memtable out as a new SSTable. -/
def flush (d : Disk) (name : String) (memtable : List Record) : Disk :=
  d.setFiles name (d.files name ++ [.sstable memtable])

end Disk

/-! ### The database -/

/-- An open store and its namespace's schema; the rest of the store is in its directory. -/
structure Store where
  memtable : List Record
  schema : NamespaceSchema

structure State where
  disk : Disk
  /-- The open stores by id; none while the database is not open. -/
  stores : Option (ℕ → Option Store)
  nextSeq : ℕ

namespace State

/-- An empty directory; the registry file is created by the first open. -/
def init : State := ⟨⟨Registry.new, fun _ => none, fun _ => [], []⟩, none, 1⟩

/-- The store of a registered namespace at open: its share of the WAL replayed. -/
def openStore (d : Disk) (id : ℕ) : Option Store :=
  (d.registry.getName id).map fun name =>
    ⟨d.wal.filter fun r => decide (r.writer = id), d.loadConfig name⟩

/-- Opening a store creates the directory. -/
def openDirs (d : Disk) : Disk :=
  { d with dirs := fun name =>
      if (d.registry.getId name).isSome then some (d.files name) else d.dirs name }

/-- The store of a namespace and the namespace's name. -/
def store (s : State) (id : ℕ) : Option (String × Store) :=
  (s.stores.bind fun stores => stores id).bind fun st =>
    (s.disk.registry.getName id).map fun name => (name, st)

def setStore (s : State) (id : ℕ) (st : Option Store) : State :=
  { s with stores := s.stores.map fun stores => Function.update stores id st }

/-- The store's shutdown, which may or may not flush. -/
def shutdown (s : State) (d : Disk) (name : String) (id : ℕ) (flushed : Bool) : Disk :=
  match s.store id with
  | none => d
  | some (_, st) => if flushed then d.flush name st.memtable else d

/-! ### What is visible -/

/-- All records a store answers from. -/
def records (s : State) (name : String) : List Record :=
  match s.disk.registry.getId name with
  | none => []
  | some id =>
    match s.store id with
    | none => []
    | some (_, st) => st.memtable ++ (s.disk.files name).flatMap NamespaceFile.records

/-- The newest record of a key. -/
def newest (s : State) (name : String) (key : Key) : Option Record :=
  ((s.records name).filter fun r => decide (r.key = key)).argmax Record.seq

def get (s : State) (name : String) (key : Key) : Option (List UInt8) :=
  (s.newest name key).bind Record.value

def fields (s : State) (name : String) : List FieldMeta :=
  match s.disk.registry.getId name with
  | none => []
  | some id => (s.store id).elim [] fun st => st.2.schema.fields

def ttl (s : State) (name : String) : Option (ℕ × ℕ) :=
  (s.disk.registry.getId name).bind s.disk.registry.ttlConfig

/-! ### Steps -/

end State

/-- What a run does next. -/
inductive Act where
  | openDb
  /-- Without `opened`, the store is not opened after the registry is saved. -/
  | createNamespace (name : String) (opened : Bool)
  | write (id : ℕ) (key : Key) (value : Option (List UInt8)) (logged : Bool)
  | flush (id : ℕ)
  | registerField (id : ℕ) (fieldName : String) (fieldType : IndexValueType)
  | dropField (id fieldId : ℕ)
  | setTtl (id ttl maxDeletes : ℕ)
  | removeTtl (id : ℕ)
  /-- Whether the store's shutdown flushed its memtable, and what is left of the directory: a
  removal that fails, or that a crash after this step cuts off, leaves some of the files. -/
  | removeNamespace (name : String) (flushed : Bool) (left : Option (List NamespaceFile))
  /-- The process ends. After a power loss, files whose unlinking was not final are back. -/
  | crash (back : List (String × NamespaceFile))

open State in
/-- One step of a run. -/
def step (s : State) : Act → Option State
  | .openDb =>
    if s.stores.isSome then none
    else some { s with disk := openDirs s.disk, stores := some (openStore s.disk) }
  | .createNamespace name opened =>
    if s.stores.isNone then none
    else
      match s.disk.registry.create name with
      | .error _ => some s
      | .ok (r, id) =>
        let disk := s.disk.saveRegistry r
        if opened then
          some ({ s with disk := disk.setFiles name (disk.files name) }.setStore id
            (some ⟨[], NamespaceSchema.new⟩))
        else some { s with disk := disk }
  | .write id key value logged =>
    (s.store id).map fun (_, st) =>
      let r : Record := ⟨id, key, s.nextSeq, value⟩
      { s with
        disk := { s.disk with wal := if logged then s.disk.wal ++ [r] else s.disk.wal }
        nextSeq := s.nextSeq + 1 }.setStore id (some { st with memtable := r :: st.memtable })
  | .flush id =>
    (s.store id).map fun (name, st) =>
      -- what was flushed is below the namespace's safe offset and not replayed
      let disk := s.disk.flush name st.memtable
      { s with disk := { disk with wal := disk.wal.filter fun r => decide (r.writer ≠ id) } }.setStore
        id (some { st with memtable := [] })
  | .registerField id fieldName fieldType =>
    (s.store id).bind fun (name, st) =>
      match st.schema.registerField id fieldName fieldType with
      | .error _ => some s
      | .ok schema => some ({ s with disk := s.disk.persistSchema name schema }.setStore id
          (some { st with schema := schema }))
  | .dropField id fieldId =>
    (s.store id).map fun (name, st) =>
      let schema := st.schema.markFieldDropped fieldId
      { s with disk := s.disk.persistSchema name schema }.setStore id
        (some { st with schema := schema })
  | .setTtl id ttl maxDeletes =>
    (s.store id).map fun _ =>
      { s with disk := s.disk.saveRegistry (s.disk.registry.setTtlConfig id ttl maxDeletes) }
  | .removeTtl id =>
    (s.store id).map fun _ =>
      { s with disk := s.disk.saveRegistry (s.disk.registry.removeTtlConfig id) }
  | .removeNamespace name flushed left =>
    if s.stores.isNone then none
    else
      match s.disk.registry.remove name with
      | .error _ => some s
      | .ok (r, id) =>
        let disk := s.shutdown (s.disk.saveRegistry r) name id flushed
        let files := disk.files name
        if (left.getD []).all fun f => decide (f ∈ files) then
          some ({ s with disk := { disk with
            dirs := Function.update disk.dirs name left
            unlinked := Function.update disk.unlinked name
              (disk.unlinked name ++ files.filter fun f => decide (f ∉ left.getD [])) } }.setStore
            id none)
        else none
  | .crash back =>
    if back.all fun x => decide (x.2 ∈ s.disk.unlinked x.1) then
      some { s with
        stores := none
        disk := { s.disk with
          unlinked := fun _ => []
          dirs := fun name =>
            let files := (back.filter fun x => decide (x.1 = name)).map Prod.snd
            if files = [] then s.disk.dirs name else some (s.disk.files name ++ files) } }
    else none

/-! ### Lookups in the registry -/

private theorem find_key_eq_some_iff {α κ : Type*} [DecidableEq κ] {f : α → κ} {l : List α}
    (hnodup : (l.map f).Nodup) {k : κ} {x : α} :
    l.find? (fun e => decide (f e = k)) = some x ↔ x ∈ l ∧ f x = k := by
  constructor
  · intro h
    have hkey := List.find?_some h
    exact ⟨List.mem_of_find?_eq_some h, of_decide_eq_true hkey⟩
  · rintro ⟨hx, rfl⟩
    have hsome : (l.find? fun e => decide (f e = f x)).isSome = true :=
      List.find?_isSome.mpr ⟨x, hx, by simp⟩
    obtain ⟨y, hy⟩ := Option.isSome_iff_exists.mp hsome
    have hkey := List.find?_some hy
    have hfy : f y = f x := of_decide_eq_true hkey
    rw [hy, List.inj_on_of_nodup_map hnodup (List.mem_of_find?_eq_some hy) hx hfy]

namespace Registry

/-- Every name and every id is there once, and all ids were given out. -/
structure WF (r : Registry) : Prop where
  names : (r.namespaces.map Prod.fst).Nodup
  ids : (r.namespaces.map Prod.snd).Nodup
  lt : ∀ e ∈ r.namespaces, e.2 < r.nextId
  ttls : ∀ c ∈ r.ttlConfigs, c.1 < r.nextId

theorem wf_new : new.WF := ⟨by decide, by decide, by decide, by simp [new]⟩

variable {r r' : Registry} {name : String} {id : ℕ}

theorem WF.getId_eq_some_iff (h : r.WF) : r.getId name = some id ↔ (name, id) ∈ r.namespaces := by
  rw [getId, map_eq_some_iff]
  constructor
  · rintro ⟨⟨n, i⟩, hfind, rfl⟩
    obtain ⟨hmem, rfl⟩ := (find_key_eq_some_iff h.names).mp hfind
    exact hmem
  · exact fun hmem => ⟨(name, id), (find_key_eq_some_iff h.names).mpr ⟨hmem, rfl⟩, rfl⟩

theorem WF.getName_eq_some_iff (h : r.WF) : r.getName id = some name ↔ r.getId name = some id := by
  rw [h.getId_eq_some_iff, getName, map_eq_some_iff]
  constructor
  · rintro ⟨⟨n, i⟩, hfind, rfl⟩
    obtain ⟨hmem, rfl⟩ := (find_key_eq_some_iff h.ids).mp hfind
    exact hmem
  · exact fun hmem => ⟨(name, id), (find_key_eq_some_iff h.ids).mpr ⟨hmem, rfl⟩, rfl⟩

theorem WF.getId_lt (h : r.WF) (hid : r.getId name = some id) : id < r.nextId :=
  h.lt _ (h.getId_eq_some_iff.mp hid)

theorem WF.ttlConfig_fresh (h : r.WF) : r.ttlConfig r.nextId = none := by
  rw [ttlConfig, Option.map_eq_none_iff, List.find?_eq_none]
  intro c hc heq
  exact absurd (of_decide_eq_true heq) (h.ttls c hc).ne

private theorem WF.append (h : r.WF) (hname : name ∉ r.namespaces.map Prod.fst) :
    WF { r with nextId := r.nextId + 1, namespaces := r.namespaces ++ [(name, r.nextId)] } where
  names := by
    rw [List.map_append, List.nodup_append]
    refine ⟨h.names, List.nodup_singleton _, ?_⟩
    rintro a ha b hb rfl
    exact hname ((mem_singleton.mp hb : a = name) ▸ ha)
  ids := by
    rw [List.map_append, List.nodup_append]
    refine ⟨h.ids, List.nodup_singleton _, ?_⟩
    rintro a ha b hb rfl
    obtain ⟨e, he, heq⟩ := mem_map.mp (mem_singleton.mp hb ▸ ha)
    exact absurd heq (h.lt e he).ne
  lt e he := by
    rcases mem_append.mp he with hold | hnew
    · exact Nat.lt_succ_of_lt (h.lt e hold)
    · rw [mem_singleton.mp hnew]
      exact Nat.lt_succ_self _
  ttls c hc := Nat.lt_succ_of_lt (h.ttls c hc)

private theorem WF.filter (h : r.WF) (name : String) (i : ℕ) :
    WF { r with
      namespaces := r.namespaces.filter fun e => decide (e.1 ≠ name)
      ttlConfigs := r.ttlConfigs.filter fun c => decide (c.1 ≠ i) } where
  names := h.names.sublist (List.filter_sublist.map _)
  ids := h.ids.sublist (List.filter_sublist.map _)
  lt e he := h.lt e (mem_of_mem_filter he)
  ttls c hc := h.ttls c (mem_of_mem_filter hc)

/-- **Ids are fresh**: a new namespace gets an id no namespace had, and no other changes. -/
theorem WF.create (h : r.WF) (hcreate : r.create name = .ok (r', id)) :
    r'.WF ∧ id = r.nextId ∧ r.getId name = none ∧ r'.nextId = r.nextId + 1 ∧
      r'.ttlConfigs = r.ttlConfigs ∧
        ∀ n, r'.getId n = if n = name then some id else r.getId n := by
  rw [Registry.create] at hcreate
  split_ifs at hcreate with hnew
  obtain ⟨rfl, rfl⟩ := Prod.mk.inj (Except.ok.inj hcreate)
  have hnone : r.getId name = none := Option.not_isSome_iff_eq_none.mp hnew
  have hname : name ∉ r.namespaces.map Prod.fst := by
    intro hmem
    obtain ⟨⟨n, i⟩, he, rfl⟩ := mem_map.mp hmem
    rw [h.getId_eq_some_iff.mpr he] at hnone
    cases hnone
  have hwf := h.append hname
  refine ⟨hwf, rfl, hnone, rfl, rfl, fun n => Option.ext fun i => ?_⟩
  rw [hwf.getId_eq_some_iff, mem_append, mem_singleton, Prod.mk.injEq]
  split_ifs with hn
  · subst hn
    rw [← h.getId_eq_some_iff, hnone, Option.some.injEq]
    simp [eq_comm]
  · rw [h.getId_eq_some_iff]
    simp [hn]

theorem WF.remove (h : r.WF) (hremove : r.remove name = .ok (r', id)) :
    r'.WF ∧ r.getId name = some id ∧ r'.nextId = r.nextId ∧
      ∀ n, r'.getId n = if n = name then none else r.getId n := by
  rw [Registry.remove] at hremove
  split_ifs at hremove with hdefault hsystem
  cases hid : r.getId name with
  | none =>
    rw [hid] at hremove
    cases hremove
  | some i =>
    rw [hid] at hremove
    obtain ⟨rfl, rfl⟩ := Prod.mk.inj (Except.ok.inj hremove)
    have hwf := h.filter name i
    refine ⟨hwf, rfl, rfl, fun n => Option.ext fun j => ?_⟩
    rw [hwf.getId_eq_some_iff, List.mem_filter, decide_eq_true_eq]
    split_ifs with hn
    · simp [hn]
    · rw [h.getId_eq_some_iff]
      simp [hn]

theorem WF.setTtlConfig (h : r.WF) {ttl maxDeletes : ℕ} (hid : id < r.nextId) :
    (r.setTtlConfig id ttl maxDeletes).WF where
  names := h.names
  ids := h.ids
  lt := h.lt
  ttls c hc := by
    rcases mem_cons.mp hc with rfl | hmem
    · exact hid
    · exact h.ttls c (mem_of_mem_filter hmem)

theorem WF.removeTtlConfig (h : r.WF) : (r.removeTtlConfig id).WF where
  names := h.names
  ids := h.ids
  lt := h.lt
  ttls c hc := h.ttls c (mem_of_mem_filter hc)

end Registry

/-! ### Who wrote what -/

/-- Everything in the file was written under this id. -/
def NamespaceFile.OwnedBy (id : ℕ) (f : NamespaceFile) : Prop :=
  (∀ r ∈ f.records, r.writer = id) ∧ ∀ s, f.schema = some s → ∀ m ∈ s.fields, m.writer = id

/-- The directory of every registered name holds what was written under its id. -/
def Disk.Own (d : Disk) : Prop :=
  ∀ name id, d.registry.getId name = some id → ∀ f ∈ d.files name, f.OwnedBy id

/-- Everything in the store's memory was written under this id. -/
structure Store.OwnedBy (id : ℕ) (st : Store) : Prop where
  memtable : ∀ r ∈ st.memtable, r.writer = id
  fields : ∀ m ∈ st.schema.fields, m.writer = id

/-- **Ownership.** What the steps keep. -/
structure Inv (s : State) : Prop where
  registry : s.disk.registry.WF
  wal : ∀ r ∈ s.disk.wal, r.writer < s.disk.registry.nextId
  dirs : s.disk.Own
  /-- Nothing can come back into a registered namespace's directory. -/
  final : ∀ name, (s.disk.registry.getId name).isSome = true → s.disk.unlinked name = []
  stores : ∀ stores, s.stores = some stores → ∀ id st, stores id = some st →
    id < s.disk.registry.nextId ∧ st.OwnedBy id

section Ownership

variable {d : Disk} {name : String} {id : ℕ} {fs : List NamespaceFile}

theorem Disk.files_setFiles (d : Disk) (name n : String) (fs : List NamespaceFile) :
    (d.setFiles name fs).files n = if n = name then fs else d.files n := by
  rw [Disk.files, Disk.setFiles]
  dsimp only
  rw [update_apply]
  split_ifs <;> rfl

/-- A directory may be given other files written under its namespace's id. -/
theorem Disk.Own.setFiles (h : d.Own) (hid : d.registry.getId name = some id)
    (hfs : ∀ f ∈ fs, f.OwnedBy id) : (d.setFiles name fs).Own := by
  intro n i hi f hf
  rw [Disk.files_setFiles] at hf
  split_ifs at hf with hn
  · have hi' : d.registry.getId n = some i := hi
    rw [hn, hid, Option.some.injEq] at hi'
    exact hi' ▸ hfs f hf
  · exact h n i hi f hf

theorem Disk.Own.flush (h : d.Own) (hid : d.registry.getId name = some id) {rs : List Record}
    (hrs : ∀ r ∈ rs, r.writer = id) : (d.flush name rs).Own := by
  refine h.setFiles hid fun f hf => ?_
  rcases mem_append.mp hf with hold | hnew
  · exact h name id hid f hold
  · rw [mem_singleton.mp hnew]
    exact ⟨hrs, fun s hs => by cases hs⟩

theorem Disk.Own.persistSchema (h : d.Own) (hid : d.registry.getId name = some id)
    {s : NamespaceSchema} (hs : ∀ m ∈ s.fields, m.writer = id) : (d.persistSchema name s).Own := by
  refine h.setFiles hid fun f hf => ?_
  rcases mem_append.mp hf with hold | hnew
  · exact h name id hid f (mem_of_mem_filter hold)
  · rw [mem_singleton.mp hnew]
    refine ⟨nofun, fun s' hs' => ?_⟩
    obtain rfl := Option.some.inj hs'
    exact hs

theorem Disk.Own.loadConfig (h : d.Own) (hid : d.registry.getId name = some id) :
    ∀ m ∈ (d.loadConfig name).fields, m.writer = id := by
  rw [Disk.loadConfig]
  cases hfind : (d.files name).findSome? NamespaceFile.schema with
  | none => exact nofun
  | some s =>
    obtain ⟨f, hf, hs⟩ := List.exists_of_findSome?_eq_some hfind
    exact (h name id hid f hf).2 s hs

theorem NamespaceSchema.registerField_fields {s t : NamespaceSchema} {fieldName : String}
    {fieldType : IndexValueType} (hs : ∀ m ∈ s.fields, m.writer = id)
    (hreg : s.registerField id fieldName fieldType = .ok t) : ∀ m ∈ t.fields, m.writer = id := by
  rw [NamespaceSchema.registerField] at hreg
  split at hreg
  · split_ifs at hreg
    obtain rfl := Except.ok.inj hreg
    intro m hm
    obtain ⟨f, hf, rfl⟩ := mem_map.mp hm
    split_ifs <;> exact hs f hf
  · obtain rfl := Except.ok.inj hreg
    intro m hm
    rcases mem_append.mp hm with hold | hnew
    · exact hs m hold
    · rw [mem_singleton.mp hnew]

theorem NamespaceSchema.markFieldDropped_fields {s : NamespaceSchema} (fieldId : ℕ)
    (hs : ∀ m ∈ s.fields, m.writer = id) : ∀ m ∈ (s.markFieldDropped fieldId).fields, m.writer = id := by
  intro m hm
  obtain ⟨f, hf, rfl⟩ := mem_map.mp hm
  split_ifs <;> exact hs f hf

end Ownership

variable {s t : State} {id : ℕ} {name : String} {st : Store}

theorem inv_init : Inv State.init where
  registry := Registry.wf_new
  wal r hr := absurd hr not_mem_nil
  dirs name id _ f hf := absurd hf not_mem_nil
  final _ _ := rfl
  stores stores h := by cases h

/-- An open store is its namespace's: by name, and in what it holds. -/
theorem Inv.of_store (h : Inv s) (hst : s.store id = some (name, st)) :
    s.disk.registry.getId name = some id ∧ id < s.disk.registry.nextId ∧ st.OwnedBy id := by
  obtain ⟨st', hst', hname⟩ := bind_eq_some_iff.mp hst
  obtain ⟨stores, hstores, hid⟩ := bind_eq_some_iff.mp hst'
  obtain ⟨n, hn, heq⟩ := map_eq_some_iff.mp hname
  obtain ⟨rfl, rfl⟩ := Prod.mk.inj heq
  exact ⟨h.registry.getName_eq_some_iff.mp hn, h.stores stores hstores id st' hid⟩

/-- The stores after one of them changed. -/
theorem stores_setStore {s' : State} {n : ℕ} {o : Option Store}
    (h : ∀ stores, s'.stores = some stores → ∀ i x, stores i = some x → i < n ∧ x.OwnedBy i)
    (ho : ∀ x, o = some x → id < n ∧ x.OwnedBy id) :
    ∀ stores, (s'.setStore id o).stores = some stores → ∀ i x, stores i = some x →
      i < n ∧ x.OwnedBy i := by
  intro stores hstores i x hx
  obtain ⟨f, hf, rfl⟩ := map_eq_some_iff.mp hstores
  rw [update_apply] at hx
  split_ifs at hx with hi
  · exact hi ▸ ho x hx
  · exact h f hf i x hx

/-! ### Steps keep ownership -/

/-- **The directory is clear**: a namespace is created where its directory is not there, or is
empty with nothing that could come back. -/
def clear (s : State) : Act → Bool
  | .createNamespace name _ => (s.disk.registry.getId name).isSome || (s.disk.dirs name).isNone ||
      ((s.disk.files name).isEmpty && (s.disk.unlinked name).isEmpty)
  | _ => true

theorem Inv.openDb (h : Inv s) :
    Inv { s with disk := State.openDirs s.disk, stores := some (State.openStore s.disk) } where
  registry := h.registry
  wal := h.wal
  dirs n i hi f hf := by
    have hfiles : (State.openDirs s.disk).files n = s.disk.files n := by
      rw [Disk.files, State.openDirs]
      dsimp only
      split_ifs <;> rfl
    exact h.dirs n i hi f (hfiles ▸ hf)
  final := h.final
  stores stores hstores i x hx := by
    obtain rfl := Option.some.inj hstores
    obtain ⟨n, hn, rfl⟩ := map_eq_some_iff.mp hx
    have hi := h.registry.getName_eq_some_iff.mp hn
    exact ⟨h.registry.getId_lt hi,
      fun r hr => of_decide_eq_true (List.mem_filter.mp hr).2, h.dirs.loadConfig hi⟩

/-- What an fsync of the database directory leaves to come back. -/
theorem Disk.unlinked_saveRegistry (d : Disk) (r : Registry) (n : String) :
    (d.saveRegistry r).unlinked n = if (d.dirs n).isNone then [] else d.unlinked n := rfl

variable {d : Disk}

private theorem unlinked_saveRegistry_eq_nil {n : String} (h : d.unlinked n = []) (r : Registry) :
    (d.saveRegistry r).unlinked n = [] := by
  rw [Disk.unlinked_saveRegistry, h, ite_self]

variable {r : Registry} {opened : Bool}

/-- The registry with a new name, saved: the directory must be clear. -/
theorem Inv.saveCreated (h : Inv s) (hcreate : s.disk.registry.create name = .ok (r, id))
    (hclear : clear s (.createNamespace name opened) = true) :
    Inv { s with disk := s.disk.saveRegistry r } ∧ s.disk.files name = [] := by
  obtain ⟨hwf, rfl, hnone, hnext, -, hget⟩ := h.registry.create hcreate
  rw [clear, hnone, Option.isSome_none, Bool.false_or, Bool.or_eq_true, Bool.and_eq_true,
    List.isEmpty_iff, List.isEmpty_iff] at hclear
  have hempty : s.disk.files name = [] := by
    rcases hclear with hdir | ⟨hfiles, -⟩
    · rw [Disk.files, Option.isNone_iff_eq_none.mp hdir]
      rfl
    · exact hfiles
  refine ⟨⟨hwf, fun x hx => ?_, fun n i hi f hf => ?_, fun n hn => ?_, fun stores hst i x hx => ?_⟩,
    hempty⟩
  · exact (h.wal x hx).trans_le (hnext ▸ Nat.le_succ _)
  · have hi' : r.getId n = some i := hi
    rw [hget] at hi'
    split_ifs at hi' with hname
    · have hf' : f ∈ s.disk.files n := hf
      rw [hname, hempty] at hf'
      exact absurd hf' not_mem_nil
    · exact h.dirs n i hi' f hf
  · have hn' : (r.getId n).isSome = true := hn
    rw [hget] at hn'
    split_ifs at hn' with hname
    · subst hname
      rcases hclear with hdir | ⟨-, hback⟩
      · exact if_pos hdir
      · exact unlinked_saveRegistry_eq_nil hback r
    · exact unlinked_saveRegistry_eq_nil (h.final n hn') r
  · obtain ⟨hlt, hown⟩ := h.stores stores hst i x hx
    exact ⟨hlt.trans_le (hnext ▸ Nat.le_succ _), hown⟩

/-- A change of the TTL settings, saved. -/
theorem Inv.saveTtl (h : Inv s) (hwf : r.WF) (hnames : r.namespaces = s.disk.registry.namespaces)
    (hnext : r.nextId = s.disk.registry.nextId) : Inv { s with disk := s.disk.saveRegistry r } := by
  have hget : ∀ n, r.getId n = s.disk.registry.getId n := fun n => by
    rw [Registry.getId, Registry.getId, hnames]
  refine ⟨hwf, fun x hx => hnext ▸ h.wal x hx, fun n i hi f hf => ?_, fun n hn => ?_,
    fun stores hst i x hx => hnext ▸ h.stores stores hst i x hx⟩
  · exact h.dirs n i ((hget n).symm.trans hi) f hf
  · have hn' : (r.getId n).isSome = true := hn
    exact unlinked_saveRegistry_eq_nil (h.final n (hget n ▸ hn')) r

/-- A shutdown changes one directory only. -/
theorem State.shutdown_spec (s : State) (d : Disk) (name : String) (id : ℕ) (flushed : Bool) :
    (s.shutdown d name id flushed).registry = d.registry ∧
      (s.shutdown d name id flushed).wal = d.wal ∧
        (∀ n, n ≠ name → (s.shutdown d name id flushed).files n = d.files n) ∧
          (s.shutdown d name id flushed).unlinked = d.unlinked := by
  rw [State.shutdown]
  split
  · exact ⟨rfl, rfl, fun _ _ => rfl, rfl⟩
  · split_ifs
    · exact ⟨rfl, rfl, fun n hn => (Disk.files_setFiles d name n _).trans (if_neg hn), rfl⟩
    · exact ⟨rfl, rfl, fun _ _ => rfl, rfl⟩

/-- A name is removed, whatever happens to its directory. -/
theorem Inv.removeNamespace (h : Inv s) (hremove : s.disk.registry.remove name = .ok (r, id))
    (hreg : d.registry = r) (hwal : d.wal = s.disk.wal)
    (hdirs : ∀ n, n ≠ name → d.files n = s.disk.files n)
    (hback : ∀ n, n ≠ name → s.disk.unlinked n = [] → d.unlinked n = []) :
    Inv ({ s with disk := d }.setStore id none) := by
  obtain ⟨hwf, -, hnext, hget⟩ := h.registry.remove hremove
  have hkept : ∀ n, (d.registry.getId n).isSome = true →
      n ≠ name ∧ d.registry.getId n = s.disk.registry.getId n := by
    intro n hn
    rw [hreg, hget] at hn ⊢
    split_ifs at hn ⊢ with hname
    · cases hn
    · exact ⟨hname, rfl⟩
  refine ⟨?_, ?_, ?_, ?_, stores_setStore ?_ fun x hx => by cases hx⟩
  · exact (show d.registry.WF from hreg ▸ hwf)
  · intro x hx
    have hx' : x ∈ d.wal := hx
    rw [hwal] at hx'
    exact (h.wal x hx').trans_eq ((hnext ▸ hreg ▸ rfl : s.disk.registry.nextId = d.registry.nextId))
  · intro n i hi f hf
    have hi' : d.registry.getId n = some i := hi
    obtain ⟨hname, heq⟩ := hkept n (by rw [hi']; rfl)
    exact h.dirs n i (heq ▸ hi') f (hdirs n hname ▸ hf)
  · intro n hn
    obtain ⟨hname, heq⟩ := hkept n hn
    exact hback n hname (h.final n (heq ▸ hn))
  · intro stores hst i x hx
    obtain ⟨hlt, hown⟩ := h.stores stores hst i x hx
    exact ⟨hlt.trans_eq (hnext ▸ hreg ▸ rfl : s.disk.registry.nextId = d.registry.nextId), hown⟩

/-- After a crash, what comes back comes back into directories of names that are not registered. -/
theorem Inv.crash (h : Inv s) {back : List (String × NamespaceFile)}
    (hback : ∀ x ∈ back, x.2 ∈ s.disk.unlinked x.1) (ht : step s (.crash back) = some t) : Inv t := by
  rw [step] at ht
  obtain ⟨_, rfl⟩ := Option.ite_some_none_eq_some.mp ht
  refine ⟨h.registry, h.wal, fun n i hi f hf => ?_, fun _ _ => rfl, fun stores hst => by cases hst⟩
  have hi' : s.disk.registry.getId n = some i := hi
  have hnone : back.filter (fun x => decide (x.1 = n)) = [] := by
    rw [List.filter_eq_nil_iff]
    intro x hx hxn
    have hmem := hback x hx
    rw [of_decide_eq_true hxn, h.final n (by rw [hi']; rfl)] at hmem
    exact absurd hmem not_mem_nil
  rw [Disk.files] at hf
  dsimp only at hf
  rw [hnone, List.map_nil, if_pos rfl] at hf
  exact h.dirs n i hi' f hf

/-- **One step.** With a clear directory wherever a namespace is created, a step keeps
ownership. -/
theorem inv_step {a : Act} (h : Inv s) (hclear : clear s a = true) (hstep : step s a = some t) :
    Inv t := by
  cases a with
  | openDb =>
    rw [step] at hstep
    obtain ⟨_, heq⟩ := ite_none_left_eq_some.mp hstep
    obtain rfl := Option.some.inj heq
    exact h.openDb
  | createNamespace name opened =>
    rw [step] at hstep
    obtain ⟨_, hstep⟩ := ite_none_left_eq_some.mp hstep
    cases hcreate : s.disk.registry.create name with
    | error e =>
      rw [hcreate] at hstep
      obtain rfl := Option.some.inj hstep
      exact h
    | ok new =>
      obtain ⟨r, id⟩ := new
      obtain ⟨hsaved, hempty⟩ := h.saveCreated hcreate hclear
      obtain ⟨hwf, rfl, -, hnext, -, hget⟩ := h.registry.create hcreate
      rw [hcreate] at hstep
      dsimp only at hstep
      split_ifs at hstep with hopened
      · obtain rfl := Option.some.inj hstep
        have hid : (s.disk.saveRegistry r).registry.getId name = some s.disk.registry.nextId := by
          exact (hget name).trans (if_pos rfl)
        refine ⟨hsaved.registry, hsaved.wal, hsaved.dirs.setFiles hid fun f hf => ?_, hsaved.final,
          stores_setStore hsaved.stores fun x hx => ?_⟩
        · have hf' : f ∈ s.disk.files name := hf
          rw [hempty] at hf'
          exact absurd hf' not_mem_nil
        · obtain rfl := Option.some.inj hx
          exact ⟨hnext ▸ Nat.lt_succ_self _, nofun,
            nofun⟩
      · obtain rfl := Option.some.inj hstep
        exact hsaved
  | write id key value logged =>
    rw [step] at hstep
    obtain ⟨⟨name, st⟩, hst, rfl⟩ := map_eq_some_iff.mp hstep
    obtain ⟨-, hlt, hown⟩ := h.of_store hst
    refine ⟨h.registry, fun r hr => ?_, h.dirs, h.final, stores_setStore h.stores fun x hx => ?_⟩
    · have hr' : r ∈ if logged then s.disk.wal ++ [⟨id, key, s.nextSeq, value⟩] else s.disk.wal := hr
      split_ifs at hr'
      · rcases mem_append.mp hr' with hold | hnew
        · exact h.wal r hold
        · rw [mem_singleton.mp hnew]
          exact hlt
      · exact h.wal r hr'
    · obtain rfl := Option.some.inj hx
      refine ⟨hlt, fun r hr => ?_, hown.fields⟩
      rcases mem_cons.mp hr with rfl | hold
      · rfl
      · exact hown.memtable r hold
  | flush id =>
    rw [step] at hstep
    obtain ⟨⟨name, st⟩, hst, rfl⟩ := map_eq_some_iff.mp hstep
    obtain ⟨hid, hlt, hown⟩ := h.of_store hst
    refine ⟨h.registry, fun r hr => h.wal r (mem_of_mem_filter hr), ?_, h.final,
      stores_setStore h.stores fun x hx => ?_⟩
    · exact h.dirs.flush hid hown.memtable
    · obtain rfl := Option.some.inj hx
      exact ⟨hlt, nofun, hown.fields⟩
  | registerField id fieldName fieldType =>
    rw [step] at hstep
    obtain ⟨⟨name, st⟩, hst, hstep⟩ := bind_eq_some_iff.mp hstep
    obtain ⟨hid, hlt, hown⟩ := h.of_store hst
    dsimp only at hstep
    cases hreg : st.schema.registerField id fieldName fieldType with
    | error e =>
      rw [hreg] at hstep
      obtain rfl := Option.some.inj hstep
      exact h
    | ok schema =>
      rw [hreg] at hstep
      obtain rfl := Option.some.inj hstep
      have hfields := NamespaceSchema.registerField_fields hown.fields hreg
      refine ⟨h.registry, h.wal, h.dirs.persistSchema hid hfields, h.final,
        stores_setStore h.stores fun x hx => ?_⟩
      obtain rfl := Option.some.inj hx
      exact ⟨hlt, hown.memtable, hfields⟩
  | dropField id fieldId =>
    rw [step] at hstep
    obtain ⟨⟨name, st⟩, hst, rfl⟩ := map_eq_some_iff.mp hstep
    obtain ⟨hid, hlt, hown⟩ := h.of_store hst
    have hfields := NamespaceSchema.markFieldDropped_fields fieldId hown.fields
    refine ⟨h.registry, h.wal, h.dirs.persistSchema hid hfields, h.final,
      stores_setStore h.stores fun x hx => ?_⟩
    obtain rfl := Option.some.inj hx
    exact ⟨hlt, hown.memtable, hfields⟩
  | setTtl id ttl maxDeletes =>
    rw [step] at hstep
    obtain ⟨⟨name, st⟩, hst, rfl⟩ := map_eq_some_iff.mp hstep
    obtain ⟨-, hlt, -⟩ := h.of_store hst
    exact h.saveTtl (h.registry.setTtlConfig hlt) rfl rfl
  | removeTtl id =>
    rw [step] at hstep
    obtain ⟨_, _, rfl⟩ := map_eq_some_iff.mp hstep
    exact h.saveTtl h.registry.removeTtlConfig rfl rfl
  | removeNamespace name flushed left =>
    rw [step] at hstep
    obtain ⟨_, hstep⟩ := ite_none_left_eq_some.mp hstep
    cases hremove : s.disk.registry.remove name with
    | error e =>
      rw [hremove] at hstep
      obtain rfl := Option.some.inj hstep
      exact h
    | ok gone =>
      obtain ⟨r, id⟩ := gone
      rw [hremove] at hstep
      dsimp only at hstep
      obtain ⟨_, rfl⟩ := Option.ite_some_none_eq_some.mp hstep
      obtain ⟨hreg, hwal, hfiles, hunlinked⟩ :=
        s.shutdown_spec (s.disk.saveRegistry r) name id flushed
      refine h.removeNamespace hremove hreg hwal (fun n hn => ?_) fun n hn hback => ?_
      · rw [Disk.files]
        dsimp only
        rw [update_of_ne hn]
        exact hfiles n hn
      · dsimp only
        rw [update_of_ne hn, hunlinked]
        exact unlinked_saveRegistry_eq_nil hback r
  | crash back =>
    refine h.crash (fun x hx => ?_) hstep
    rw [step] at hstep
    obtain ⟨hall, _⟩ := Option.ite_none_right_eq_some.mp hstep
    exact of_decide_eq_true (List.all_eq_true.mp hall x hx)

/-! ### Dropped namespaces stay dropped -/

namespace State

/-- **Only its own.** Every registered namespace shows records and fields written under its own
id only. -/
def OnlyOwn (s : State) : Prop :=
  ∀ name id, s.disk.registry.getId name = some id →
    (∀ key r, s.newest name key = some r → r.writer = id) ∧ ∀ m ∈ s.fields name, m.writer = id

/-- The namespace has no record, no field and no TTL. -/
def Vacant (s : State) (name : String) : Prop :=
  (∀ key, s.newest name key = none) ∧ s.fields name = [] ∧ s.ttl name = none

end State

theorem State.records_eq (hid : s.disk.registry.getId name = some id) :
    s.records name = (s.store id).elim [] fun st =>
      st.2.memtable ++ (s.disk.files name).flatMap NamespaceFile.records := by
  rw [State.records, hid]
  dsimp only
  cases s.store id <;> rfl

theorem State.fields_eq (hid : s.disk.registry.getId name = some id) :
    s.fields name = (s.store id).elim [] fun st => st.2.schema.fields := by
  rw [State.fields, hid]

/-- The records a namespace answers from were written under its id. -/
theorem Inv.writer_of_mem_records (h : Inv s) (hid : s.disk.registry.getId name = some id) {r : Record}
    (hr : r ∈ s.records name) : r.writer = id := by
  rw [State.records_eq hid] at hr
  cases hst : s.store id with
  | none =>
    rw [hst] at hr
    exact absurd hr not_mem_nil
  | some x =>
    obtain ⟨n, st⟩ := x
    rw [hst] at hr
    rcases mem_append.mp hr with hmem | hfile
    · exact (h.of_store hst).2.2.memtable r hmem
    · obtain ⟨f, hf, hrf⟩ := List.mem_flatMap.mp hfile
      exact (h.dirs name id hid f hf).1 r hrf

theorem Inv.onlyOwn (h : Inv s) : s.OnlyOwn := by
  refine fun name id hid => ⟨fun key r hr => ?_, fun m hm => ?_⟩
  · have hmem := List.argmax_mem (f := Record.seq) hr
    exact h.writer_of_mem_records hid (mem_of_mem_filter hmem)
  · rw [State.fields_eq hid] at hm
    cases hst : s.store id with
    | none =>
      rw [hst] at hm
      exact absurd hm not_mem_nil
    | some x =>
      rw [hst] at hm
      exact (h.of_store hst).2.2.fields m hm

/-- A new namespace has a new id and nothing in it. -/
theorem Inv.vacant_of_create (h : Inv s) (hclear : clear s (.createNamespace name opened) = true)
    (hnew : s.disk.registry.getId name = none)
    (hstep : step s (.createNamespace name opened) = some t) :
    t.disk.registry.getId name = some s.disk.registry.nextId ∧ t.Vacant name := by
  rw [step] at hstep
  obtain ⟨_, hstep⟩ := ite_none_left_eq_some.mp hstep
  cases hcreate : s.disk.registry.create name with
  | error e =>
    rw [Registry.create, hnew] at hcreate
    cases hcreate
  | ok new =>
    obtain ⟨r, id⟩ := new
    obtain ⟨-, hempty⟩ := h.saveCreated hcreate hclear
    obtain ⟨hwf, rfl, -, -, httl, hget⟩ := h.registry.create hcreate
    have hid : r.getId name = some s.disk.registry.nextId := (hget name).trans (if_pos rfl)
    have hreg : t.disk.registry = r := by
      rw [hcreate] at hstep
      dsimp only at hstep
      split_ifs at hstep <;> obtain rfl := Option.some.inj hstep <;> rfl
    have hfiles : t.disk.files name = [] := by
      rw [hcreate] at hstep
      dsimp only at hstep
      split_ifs at hstep <;> obtain rfl := Option.some.inj hstep
      · exact (Disk.files_setFiles _ name name _).trans ((if_pos rfl).trans hempty)
      · exact hempty
    -- the store is not open, or open with nothing in memory
    have hstore : ∀ x, t.store s.disk.registry.nextId = some x →
        x.2.memtable = [] ∧ x.2.schema.fields = [] := by
      intro x hx
      rw [hcreate] at hstep
      dsimp only at hstep
      obtain ⟨st, hst, hname⟩ := bind_eq_some_iff.mp hx
      obtain ⟨n, -, rfl⟩ := map_eq_some_iff.mp hname
      obtain ⟨stores, hstores, hsome⟩ := bind_eq_some_iff.mp hst
      split_ifs at hstep <;> obtain rfl := Option.some.inj hstep
      · obtain ⟨f, -, rfl⟩ := map_eq_some_iff.mp hstores
        rw [update_self] at hsome
        obtain rfl := Option.some.inj hsome
        exact ⟨rfl, rfl⟩
      · exact absurd (h.stores stores hstores _ st hsome).1 (lt_irrefl _)
    have hrecords : t.records name = [] := by
      rw [State.records_eq (hreg ▸ hid), hfiles]
      cases hst : t.store s.disk.registry.nextId with
      | none => rfl
      | some x =>
        rw [Option.elim_some, (hstore x hst).1]
        rfl
    refine ⟨hreg ▸ hid, fun key => ?_, ?_, ?_⟩
    · rw [State.newest, hrecords]
      rfl
    · rw [State.fields_eq (hreg ▸ hid)]
      cases hst : t.store s.disk.registry.nextId with
      | none => rfl
      | some x => exact (hstore x hst).2
    · rw [State.ttl, hreg, hid, Option.bind_some, Registry.ttlConfig, httl]
      exact h.registry.ttlConfig_fresh

/-- **A dropped namespace stays dropped.** In every run that creates namespaces on clear
directories only, every state shows each namespace its own records and fields, and a namespace
that is created is empty, under an id that was not used before. -/
theorem dropped_stays_dropped {acts : List Act} (hclear : StepRun.along step clear State.init acts = true)
    (hrun : StepRun.run step State.init acts = some s) :
    s.OnlyOwn ∧ ∀ name opened t, s.disk.registry.getId name = none →
      clear s (.createNamespace name opened) = true →
        step s (.createNamespace name opened) = some t →
          t.disk.registry.getId name = some s.disk.registry.nextId ∧ t.Vacant name := by
  have h : Inv s :=
    StepRun.invariant_along (fun _ _ _ hs hc hst => inv_step hs hc hst) inv_init hclear hrun
  exact ⟨h.onlyOwn, fun name opened t hnew hc hst => h.vacant_of_create hc hnew hst⟩

/-- A namespace with one key and one field; it is dropped, and its directory removed or left as
it is. -/
def dropUsers (left : Option (List NamespaceFile)) : List Act :=
  [.openDb, .createNamespace "users" true, .registerField 2 "age" .int, .write 2 [107] (some [1]) true,
    .flush 2, .removeNamespace "users" false left]

/-- What the directory held. -/
def usersFiles : List NamespaceFile :=
  [.config ⟨[⟨0, "age", .int, false, 2⟩], 1⟩, .sstable [⟨2, [107], 1, some [1]⟩]]

theorem dropped_stays_dropped_removed :
    ∃ s, StepRun.run step State.init (dropUsers none) = some s ∧ s.OnlyOwn ∧
      ∀ t, step s (.createNamespace "users" true) = some t →
        t.disk.registry.getId "users" = some 3 ∧ t.Vacant "users" := by
  have hrun : (StepRun.run step State.init (dropUsers none)).map (fun s =>
      (s.disk.registry.getId "users", s.disk.registry.nextId, (s.disk.dirs "users").isNone)) =
        some (none, 3, true) := by decide +kernel
  obtain ⟨s, hrun, hs⟩ := map_eq_some_iff.mp hrun
  obtain ⟨hnew, hs⟩ := Prod.mk.inj hs
  obtain ⟨hnext, hdir⟩ := Prod.mk.inj hs
  obtain ⟨hown, hcreate⟩ := dropped_stays_dropped (by decide +kernel) hrun
  refine ⟨s, hrun, hown, fun t ht => ?_⟩
  rw [← hnext]
  exact hcreate "users" true t hnew (by rw [clear, hdir, Bool.or_true, Bool.true_or]) ht

/-- The process ends after the registry was saved and before the directory is removed: created
again, the namespace still has the key, and after a restart the field. -/
theorem dropped_comes_back :
    (StepRun.run step State.init (dropUsers (some usersFiles) ++ [.crash [], .openDb,
        .createNamespace "users" true])).map
          (fun s => (s.disk.registry.getId "users", s.get "users" [107], (s.fields "users").length)) =
      some (some 3, some [1], 0) ∧
    (StepRun.run step State.init (dropUsers (some usersFiles) ++ [.crash [], .openDb,
        .createNamespace "users" true, .crash [], .openDb])).map
          (fun s => (s.disk.registry.getId "users", s.get "users" [107], s.fields "users")) =
      some (some 3, some [1], [⟨0, "age", .int, false, 2⟩]) := by
  constructor <;> decide +kernel

end Namespaces

end Minnal
