import Minnal.Library.DurableProgram
import Mathlib.Data.List.Nodup
import Mathlib.Data.List.Perm.Subperm

/-!
# Rebuilding every field index

`reindex-all` drops every field index of a store, frees its row ids and adds every index again. An
**intent file** lists the indexes and how far the run got, and the next start finishes a run that a
crash cut short: it drops what the schema still lists, resets the row map, and adds what the schema
does not list.

The programs are modelled write by write (`DurableProgram`), so that a crash can be placed after any
of them. This module has the programs, what a crash leaves (`Crashed`), and the steps of the engine;
the run and its resume are in `Minnal.DocStore.ReindexResume`.
-/

namespace Minnal

variable {f : FieldMeta} {i spec : IndexSpec} {id : ℕ}

namespace ReindexAll

open DurableProgram Function

/-! ### Schema, configuration and index directories -/

abbrev FieldName := List Char

inductive IndexType where
  | bool
  | int
  | str
  deriving DecidableEq, Repr

structure IndexSpec where
  field : FieldName
  indexType : IndexType
  deriving DecidableEq, Repr

structure AttributeDef where
  name : FieldName
  attrType : IndexType
  description : Option String
  deriving DecidableEq, Repr

inductive KeyType where
  | u64
  | u128
  | uuid
  | str
  deriving DecidableEq, Repr

/-- A field of the namespace's configuration. It stays there when its index is dropped. -/
structure FieldMeta where
  fieldId : ℕ
  fieldName : FieldName
  fieldType : IndexType
  dropped : Bool
  deriving DecidableEq, Repr

inductive BuildStatus where
  | inProgress
  | complete
  | failed
  deriving DecidableEq, Repr

/-- `build_progress.json` of a field. -/
structure DiskBuildProgress where
  status : BuildStatus
  total : ℕ
  indexed : ℕ
  lastKey : Option (List UInt8)
  error : Option String
  deriving DecidableEq, Repr

/-- The directory of a field index, with its build's record. -/
structure IndexDir where
  progress : Option DiskBuildProgress
  /-- How often the row map had been reset when the directory was made. -/
  resets : ℕ
  deriving DecidableEq, Repr

/-- How far a run got. -/
inductive Phase where
  | dropping
  | readding
  deriving DecidableEq, Repr

structure Intent where
  specs : List IndexSpec
  phase : Phase
  deriving DecidableEq, Repr

/-- What is on disk of one store. -/
structure Disk where
  keyType : KeyType
  indices : List IndexSpec
  attributes : List AttributeDef
  fields : List FieldMeta
  nextFieldId : ℕ
  dirs : ℕ → Option IndexDir
  /-- How often the row map has been reset. -/
  resets : ℕ
  intent : Option Intent

/-- A store: the disk, the fields that are active, and the fields whose builds this process runs. -/
structure State where
  disk : Disk
  active : List ℕ
  builds : List FieldName

inductive DocStoreError where
  | indexNotFound (field : FieldName)
  | indexAlreadyExists (field : FieldName)
  | tooManyIndices (count max : ℕ)
  | invalidFieldName (field : FieldName) (reason : String)
  | indexBuildInProgress (field : FieldName)
  | reRegistered (field : FieldName) (old new : IndexType)
  | notRegistered (fieldId : ℕ)
  | typeMismatch (field : FieldName) (fieldId : ℕ) (registered supplied : IndexType)
  | wasDropped (field : FieldName) (fieldId : ℕ)
  /-- The fields that still exist. -/
  | cannotResetRowmap (fields : List FieldName)
  deriving DecidableEq, Repr

abbrev Program := DurableProgram State DocStoreError

def maxIndices : ℕ := 5

/-! ### Durable writes -/

namespace Disk

/-- A field that is registered again is live. -/
def undropField (d : Disk) (field : FieldName) : Disk :=
  { d with fields := d.fields.map fun f =>
      if f.fieldName = field then { f with dropped := false } else f }

def registerNewField (d : Disk) (field : FieldName) (fieldType : IndexType) : Disk :=
  { d with
    fields := d.fields ++ [⟨d.nextFieldId, field, fieldType, false⟩]
    nextFieldId := d.nextFieldId + 1 }

def markFieldDropped (d : Disk) (fieldId : ℕ) : Disk :=
  { d with fields := d.fields.map fun f =>
      if f.fieldId = fieldId then { f with dropped := true } else f }

/-- Make the field's directory if it is not there. -/
def ensureFieldPath (d : Disk) (fieldId : ℕ) : Disk :=
  let dir : IndexDir := (d.dirs fieldId).getD ⟨none, d.resets⟩
  { d with dirs := Function.update d.dirs fieldId (some dir) }

def removeFieldPath (d : Disk) (fieldId : ℕ) : Disk :=
  { d with dirs := Function.update d.dirs fieldId none }

def writeProgress (d : Disk) (fieldId : ℕ) (p : DiskBuildProgress) : Disk :=
  let resets : ℕ := ((d.dirs fieldId).map IndexDir.resets).getD d.resets
  { d with dirs := Function.update d.dirs fieldId (some ⟨some p, resets⟩) }

def resetRowmap (d : Disk) : Disk := { d with resets := d.resets + 1 }

/-- The index becomes a plain attribute. -/
def demote (d : Disk) (spec : IndexSpec) : Disk :=
  { d with
    indices := d.indices.eraseP fun i => i.field = spec.field
    attributes :=
      if d.attributes.any fun a => a.name = spec.field then d.attributes
      else d.attributes ++ [⟨spec.field, spec.indexType,
        some "previously indexed; field data is still present in stored documents"⟩] }

/-- The attribute, if there is one, becomes an index. -/
def promote (d : Disk) (spec : IndexSpec) : Disk :=
  { d with
    indices := d.indices ++ [spec]
    attributes := d.attributes.filter fun a => a.name ≠ spec.field }

def setIntent (d : Disk) (intent : Option Intent) : Disk := { d with intent := intent }

/-- The field's build has a record that says it is in progress. -/
def buildInProgress (d : Disk) (fieldId : ℕ) : Bool :=
  ((d.dirs fieldId).bind IndexDir.progress).any fun p => p.status = .inProgress

/-- The fields that are not dropped. -/
def liveFields (d : Disk) : List FieldName :=
  (d.fields.filter fun f => !f.dropped).map FieldMeta.fieldName

/-- The schema lists an index of the field. -/
def lists (d : Disk) (field : FieldName) : Bool := d.indices.any fun i => i.field = field

end Disk

def onDisk (f : Disk → Disk) : Program Unit := write fun s => { s with disk := f s.disk }

/-! ### The engine -/

/-- `register_index_field`: a field that was registered before keeps its id and is live again. -/
def registerIndexField (field : FieldName) (fieldType : IndexType) : Program ℕ := do
  let s ← get
  match s.disk.fields.find? fun f => f.fieldName = field with
  | some f =>
    if f.fieldType ≠ fieldType then fail (.reRegistered field f.fieldType fieldType)
    else do
      onDisk fun d => d.undropField field
      onDisk fun d => d.ensureFieldPath f.fieldId
      pure f.fieldId
  | none => do
    onDisk fun d => d.registerNewField field fieldType
    onDisk fun d => d.ensureFieldPath s.disk.nextFieldId
    pure s.disk.nextFieldId

/-- `activate_field_index`. -/
def activateFieldIndex (fieldId : ℕ) (valueType : IndexType) : Program Unit := do
  let s ← get
  match s.disk.fields.find? fun f => f.fieldId = fieldId with
  | none => fail (.notRegistered fieldId)
  | some f =>
    if f.fieldType ≠ valueType then fail (.typeMismatch f.fieldName fieldId f.fieldType valueType)
    else if f.dropped then fail (.wasDropped f.fieldName fieldId)
    else modify fun s => { s with active := fieldId :: s.active }

/-- `drop_field_index`: persist the mark, deactivate, and remove the directory. -/
def dropFieldIndex (fieldId : ℕ) : Program Unit := do
  onDisk fun d => d.markFieldDropped fieldId
  modify fun s => { s with active := s.active.filter fun id => id ≠ fieldId }
  onDisk fun d => d.removeFieldPath fieldId

/-- `reset_rowmap`: only a store whose row ids do not come from its keys has a row map, and only one
without field indexes may lose it. -/
def resetRowmap : Program Bool := do
  let s ← get
  if s.disk.keyType = .u64 then pure false
  else if s.active ≠ [] ∨ s.disk.liveFields ≠ [] then fail (.cannotResetRowmap s.disk.liveFields)
  else do
    onDisk Disk.resetRowmap
    pure true

/-! ### Adding and dropping an index -/

/-- `validate_index_field_name`. -/
def validateIndexFieldName (field : FieldName) : Option DocStoreError :=
  match field with
  | [] => some (.invalidFieldName field "an index field name must start with a letter or '_'")
  | c :: cs =>
    if ¬ (c.isAlpha || c = '_') then
      some (.invalidFieldName field "an index field name must start with a letter or '_'")
    else if ¬ cs.all fun c => c.isAlphanum || c = '_' then
      some (.invalidFieldName field
        "an index field name may contain only letters, digits and '_' (no '.', '-' or spaces)")
    else if queryKeywords.any fun k => k == field.map Char.toLower then
      some (.invalidFieldName field
        "an index field name cannot be a query keyword (AND, OR, NOT, IN, TRUE, FALSE)")
    else none
where
  queryKeywords : List FieldName :=
    [['a', 'n', 'd'], ['o', 'r'], ['n', 'o', 't'], ['i', 'n'], ['t', 'r', 'u', 'e'],
      ['f', 'a', 'l', 's', 'e']]

/-- `drop_index`: the schema first, then the engine. -/
def dropIndex (field : FieldName) : Program Unit := do
  let s ← get
  match s.disk.indices.find? fun i => i.field = field with
  | none => fail (.indexNotFound field)
  | some spec => do
    onDisk fun d => d.demote spec
    match s.disk.fields.find? fun f => f.fieldName = field with
    | some f => dropFieldIndex f.fieldId
    | none => pure ()

/-- The record of a build that has not begun. -/
def DiskBuildProgress.initial : DiskBuildProgress := ⟨.inProgress, 0, 0, none, none⟩

/-- The checks of an index against the schema, made when an add starts and again when it saves. -/
def checkAddable (d : Disk) (spec : IndexSpec) : Option DocStoreError :=
  if d.lists spec.field then some (.indexAlreadyExists spec.field)
  else if maxIndices ≤ d.indices.length then
    some (.tooManyIndices (d.indices.length + 1) maxIndices)
  else none

/-- `add_index_inner`. -/
def addIndexInner (spec : IndexSpec) (resuming : Bool) : Program Unit := do
  let s ← get
  match (validateIndexFieldName spec.field).or (checkAddable s.disk spec) with
  | some e => fail e
  | none => do
    refuseSecondBuild
    let fieldId ← registerIndexField spec.field spec.indexType
    activateFieldIndex fieldId spec.indexType
    recordInProgress fieldId
    saveSchema
    modify fun s => { s with builds := spec.field :: s.builds }
where
  /-- A caller's add of a field that is being built is refused. -/
  refuseSecondBuild : Program Unit :=
    if resuming then pure ()
    else do
      let fieldId ← registerIndexField spec.field spec.indexType
      let s ← get
      if s.disk.buildInProgress fieldId then fail (.indexBuildInProgress spec.field) else pure ()
  /-- A record of a build that is in progress is kept. -/
  recordInProgress (fieldId : ℕ) : Program Unit := do
    let s ← get
    if s.disk.buildInProgress fieldId then pure ()
    else onDisk fun d => d.writeProgress fieldId .initial
  saveSchema : Program Unit := do
    let s ← get
    match checkAddable s.disk spec with
    | some e => fail e
    | none => onDisk fun d => d.promote spec

/-! ### The run and its resume -/

/-- `drive_reindex_all`: run or resume. -/
def driveReindexAll (intent : Intent) : Program Unit := do
  dropAll
  forEach intent.specs addOne
  onDisk fun d => d.setIntent none
where
  /-- Drop the indexes and reset the row map, unless the run is past that. -/
  dropAll : Program Unit :=
    if intent.phase = .dropping then do
      forEach intent.specs dropOne
      let _ ← resetRowmap
      onDisk fun d => d.setIntent (some { intent with phase := .readding })
    else pure ()
  /-- Drop the index unless it was dropped before. -/
  dropOne (spec : IndexSpec) : Program Unit := do
    let s ← get
    if s.disk.lists spec.field then dropIndex spec.field else pure ()
  /-- Add the index unless it was added before. -/
  addOne (spec : IndexSpec) : Program Unit := do
    let s ← get
    if s.disk.lists spec.field then pure () else addIndexInner spec true

/-- `reindex_all_attribute_indices`. -/
def reindexAllAttributeIndices : Program Unit := do
  let s ← get
  if s.disk.indices = [] then pure ()
  else do
    let intent : Intent := ⟨s.disk.indices, .dropping⟩
    onDisk fun d => d.setIntent (some intent)
    driveReindexAll intent

/-- Opening the store finishes interrupted drops of fields and activates the schema's indexes. -/
def openStore : Program Unit := do
  let s ← get
  forEach (s.disk.fields.filter FieldMeta.dropped) fun f =>
    onDisk fun d => d.removeFieldPath f.fieldId
  forEach s.disk.indices activate
where
  activate (spec : IndexSpec) : Program Unit := do
    let fieldId ← registerIndexField spec.field spec.indexType
    activateFieldIndex fieldId spec.indexType

/-- `resume_pending_builds`: first an interrupted run, then the builds it has not started. -/
def resumePendingBuilds : Program Unit := do
  resumeInterruptedReindexAll
  let s ← get
  forEach s.disk.indices (resumeBuild s.builds)
where
  resumeInterruptedReindexAll : Program Unit := do
    let s ← get
    match s.disk.intent with
    | some intent => driveReindexAll intent
    | none => pure ()
  resumeBuild (started : List FieldName) (spec : IndexSpec) : Program Unit :=
    if started.contains spec.field then pure ()
    else do
      let fieldId ← registerIndexField spec.field spec.indexType
      let s ← get
      if s.disk.buildInProgress fieldId then
        modify fun s => { s with builds := spec.field :: s.builds }
      else pure ()

/-- A start of the store. -/
def restart (d : Disk) : DurableRun State DocStoreError Unit :=
  (do openStore; resumePendingBuilds : Program Unit) ⟨d, [], []⟩

/-! ### What a crash leaves -/

/-- Builds that run in the background have got on, or are complete. -/
def Disk.advance (d : Disk) (g : ℕ → DiskBuildProgress → DiskBuildProgress) : Disk :=
  { d with dirs := fun id => (d.dirs id).map fun dir =>
      { dir with progress := dir.progress.map fun p =>
          if p.status = .inProgress then g id p else p } }

/-- Builds get on or are complete. -/
def BuildsGetOn (g : ℕ → DiskBuildProgress → DiskBuildProgress) : Prop :=
  ∀ id p, (g id p).status = .inProgress ∨ (g id p).status = .complete

/-- **The disks that crashes leave**: the run is cut short after a durable write, and then any
number of starts are. -/
inductive Crashed (s₀ : State) : Disk → Prop
  | run {t : State} {g : ℕ → DiskBuildProgress → DiskBuildProgress} (hg : BuildsGetOn g)
    (h : t ∈ (reindexAllAttributeIndices s₀).written) : Crashed s₀ (t.disk.advance g)
  | restart {d : Disk} {t : State} {g : ℕ → DiskBuildProgress → DiskBuildProgress}
    (hg : BuildsGetOn g) (hd : Crashed s₀ d) (h : t ∈ (restart d).written) :
    Crashed s₀ (t.disk.advance g)

/-- **The crash point that goes wrong**: before the row map was reset, the schema does not list a
field that the configuration has not marked as dropped. -/
def Disk.orphaned (d : Disk) : Bool :=
  d.keyType ≠ .u64 && d.intent.any (fun intent => intent.phase = .dropping) &&
    d.fields.any fun f => !f.dropped && !d.lists f.fieldName

/-- The field's build was finished. -/
def Disk.buildComplete (d : Disk) (fieldId : ℕ) : Bool :=
  ((d.dirs fieldId).bind IndexDir.progress).any fun p => p.status = .complete

/-- **Rebuilt.** There is no intent file, the schema lists every index once and no other, each with
a build that this process runs or that was finished, and the row map was reset and no index has a
directory from before. -/
structure Rebuilt (specs : List IndexSpec) (resets : ℕ) (s : State) : Prop where
  intent : s.disk.intent = none
  listed : ∀ spec ∈ specs, s.disk.indices.count spec = 1
  noOther : ∀ i ∈ s.disk.indices, i ∈ specs
  built : ∀ spec ∈ specs, ∃ f ∈ s.disk.fields, f.fieldName = spec.field ∧ f.dropped = false ∧
    (spec.field ∈ s.builds ∨ s.disk.buildComplete f.fieldId = true)
  reset : s.disk.keyType = .u64 ∨ resets < s.disk.resets ∧
    ∀ id dir, s.disk.dirs id = some dir → dir.resets = s.disk.resets

/-! ### What is true of the disk throughout -/

/-- Indexes that can be rebuilt: distinct, not too many, with valid names. -/
structure Rebuildable (specs : List IndexSpec) : Prop where
  nodup : (specs.map IndexSpec.field).Nodup
  length_le : specs.length ≤ maxIndices
  valid : ∀ spec ∈ specs, validateIndexFieldName spec.field = none

/-- **The metadata agree.** Fields are told apart by name and by id, the indexes to rebuild are
registered, those the schema lists are among them and live, and directories belong to fields. -/
structure Agree (specs : List IndexSpec) (resets : ℕ) (d : Disk) : Prop where
  names : (d.fields.map FieldMeta.fieldName).Nodup
  ids : (d.fields.map FieldMeta.fieldId).Nodup
  registered : ∀ spec ∈ specs, ∃ f ∈ d.fields,
    f.fieldName = spec.field ∧ f.fieldType = spec.indexType
  listed : ∀ i ∈ d.indices, i ∈ specs
  nodup : d.indices.Nodup
  live : ∀ i ∈ d.indices, ∀ f ∈ d.fields, f.fieldName = i.field → f.dropped = false
  dirs : ∀ id, d.dirs id ≠ none → ∃ f ∈ d.fields, f.fieldId = id
  resets_le : resets ≤ d.resets

/-- No index has a directory from before the row map was reset. -/
def Fresh (resets : ℕ) (d : Disk) : Prop :=
  d.keyType = .u64 ∨ resets < d.resets ∧ ∀ id dir, d.dirs id = some dir → dir.resets = d.resets

/-- Every index that is listed has a build that is in progress or finished. -/
def Recorded (d : Disk) : Prop :=
  ∀ i ∈ d.indices, ∀ f ∈ d.fields, f.fieldName = i.field →
    d.buildInProgress f.fieldId = true ∨ d.buildComplete f.fieldId = true

/-- A run is dropping the indexes. -/
structure Dropping (specs : List IndexSpec) (resets : ℕ) (d : Disk) : Prop where
  agree : Agree specs resets d
  intent : d.intent = some ⟨specs, .dropping⟩

/-- A run is adding the indexes, or has added them (`intent = none`). -/
structure Readding (specs : List IndexSpec) (resets : ℕ) (intent : Option Intent) (d : Disk) :
    Prop where
  agree : Agree specs resets d
  intent : d.intent = intent
  fresh : Fresh resets d
  recorded : Recorded d

/-- **What crashes keep.** -/
inductive Interrupted (specs : List IndexSpec) (resets : ℕ) (d : Disk) : Prop
  | dropping (h : Dropping specs resets d)
  | readding (h : Readding specs resets (some ⟨specs, .readding⟩) d)
  | over (h : Readding specs resets none d) (hall : ∀ spec ∈ specs, spec ∈ d.indices)

/-- **An open store**: dropped fields have no directories, and active fields have indexes. -/
structure Opened (s : State) : Prop where
  dropped : ∀ f ∈ s.disk.fields, f.dropped = true → s.disk.dirs f.fieldId = none
  active : ∀ id ∈ s.active, ∃ i ∈ s.disk.indices, ∃ f ∈ s.disk.fields,
    f.fieldName = i.field ∧ f.fieldId = id

/-- **A start**: an open store whose metadata agree. -/
structure Start (s : State) : Prop where
  rebuildable : Rebuildable s.disk.indices
  agree : Agree s.disk.indices s.disk.resets s.disk
  opened : Opened s

section Fields

variable {specs : List IndexSpec} {resets : ℕ} {d : Disk}

/-- Fields are told apart by name. -/
theorem Agree.eq_of_fieldName (h : Agree specs resets d) {g : FieldMeta} (hf : f ∈ d.fields)
    (hg : g ∈ d.fields) (hname : f.fieldName = g.fieldName) : f = g :=
  List.inj_on_of_nodup_map h.names hf hg hname

/-- Fields are told apart by id. -/
theorem Agree.eq_of_fieldId (h : Agree specs resets d) {g : FieldMeta} (hf : f ∈ d.fields)
    (hg : g ∈ d.fields) (hid : f.fieldId = g.fieldId) : f = g :=
  List.inj_on_of_nodup_map h.ids hf hg hid

theorem Agree.find_fieldName (h : Agree specs resets d) (hf : f ∈ d.fields) :
    (d.fields.find? fun g => g.fieldName = f.fieldName) = some f := by
  obtain ⟨g, hg⟩ := Option.isSome_iff_exists.mp
    (List.find?_isSome.mpr ⟨f, hf, decide_eq_true rfl⟩ :
      (d.fields.find? fun g => g.fieldName = f.fieldName).isSome = true)
  have hname : g.fieldName = f.fieldName := by simpa using List.find?_some hg
  rw [hg, h.eq_of_fieldName (List.mem_of_find?_eq_some hg) hf hname]

theorem Agree.find_fieldId (h : Agree specs resets d) (hf : f ∈ d.fields) :
    (d.fields.find? fun g => g.fieldId = f.fieldId) = some f := by
  obtain ⟨g, hg⟩ := Option.isSome_iff_exists.mp
    (List.find?_isSome.mpr ⟨f, hf, decide_eq_true rfl⟩ :
      (d.fields.find? fun g => g.fieldId = f.fieldId).isSome = true)
  have hid : g.fieldId = f.fieldId := by simpa using List.find?_some hg
  rw [hg, h.eq_of_fieldId (List.mem_of_find?_eq_some hg) hf hid]

/-- Indexes to rebuild are told apart by field. -/
theorem Rebuildable.eq_of_field (hspecs : Rebuildable specs) {j : IndexSpec} (hi : i ∈ specs)
    (hj : j ∈ specs) (hfield : i.field = j.field) : i = j :=
  List.inj_on_of_nodup_map hspecs.nodup hi hj hfield

/-- What an update of the directories must keep. -/
theorem Agree.setDirs (h : Agree specs resets d) {dirs : ℕ → Option IndexDir}
    (hdirs : ∀ id, dirs id ≠ none → ∃ f ∈ d.fields, f.fieldId = id) :
    Agree specs resets { d with dirs := dirs } :=
  ⟨h.names, h.ids, h.registered, h.listed, h.nodup, h.live, hdirs, h.resets_le⟩

theorem Agree.update (h : Agree specs resets d) {dir : Option IndexDir}
    (hid : dir ≠ none → ∃ f ∈ d.fields, f.fieldId = id) :
    Agree specs resets { d with dirs := update d.dirs id dir } := by
  refine h.setDirs fun id' hid' => ?_
  by_cases heq : id' = id
  · subst heq
    rw [update_self] at hid'
    exact hid hid'
  · rw [update_of_ne heq] at hid'
    exact h.dirs id' hid'

/-- What a change of the fields' marks must keep. -/
theorem Agree.flag (h : Agree specs resets d) {g : FieldMeta → FieldMeta}
    (hname : ∀ f, (g f).fieldName = f.fieldName) (hid : ∀ f, (g f).fieldId = f.fieldId)
    (htype : ∀ f, (g f).fieldType = f.fieldType)
    (hlive : ∀ i ∈ d.indices, ∀ f ∈ d.fields, f.fieldName = i.field → (g f).dropped = false) :
    Agree specs resets { d with fields := d.fields.map g } where
  names := by
    rw [List.map_map, show FieldMeta.fieldName ∘ g = FieldMeta.fieldName from funext hname]
    exact h.names
  ids := by
    rw [List.map_map, show FieldMeta.fieldId ∘ g = FieldMeta.fieldId from funext hid]
    exact h.ids
  registered spec hspec := by
    obtain ⟨f, hf, hn, ht⟩ := h.registered spec hspec
    exact ⟨g f, List.mem_map_of_mem hf, (hname f).trans hn, (htype f).trans ht⟩
  listed := h.listed
  nodup := h.nodup
  live i hi f' hf' hn := by
    obtain ⟨f, hf, rfl⟩ := List.mem_map.mp hf'
    exact hlive i hi f hf ((hname f).symm.trans hn)
  dirs id hdir := by
    obtain ⟨f, hf, rfl⟩ := h.dirs id hdir
    exact ⟨g f, List.mem_map_of_mem hf, hid f⟩
  resets_le := h.resets_le

/-- What a change of the schema's indexes must keep. -/
theorem Agree.setIndices (h : Agree specs resets d) {indices : List IndexSpec}
    {attributes : List AttributeDef} (hlisted : ∀ i ∈ indices, i ∈ specs) (hnodup : indices.Nodup)
    (hlive : ∀ i ∈ indices, ∀ f ∈ d.fields, f.fieldName = i.field → f.dropped = false) :
    Agree specs resets { d with indices := indices, attributes := attributes } :=
  ⟨h.names, h.ids, h.registered, hlisted, hnodup, hlive, h.dirs, h.resets_le⟩

theorem lists_iff {field : FieldName} :
    d.lists field = true ↔ ∃ i ∈ d.indices, i.field = field := by
  simp [Disk.lists]

/-- A field of the schema is registered, and live. -/
theorem Agree.field_of_listed (h : Agree specs resets d) (hi : i ∈ d.indices) :
    ∃ f ∈ d.fields, f.fieldName = i.field ∧ f.fieldType = i.indexType ∧ f.dropped = false := by
  obtain ⟨f, hf, hname, htype⟩ := h.registered i (h.listed i hi)
  exact ⟨f, hf, hname, htype, h.live i hi f hf hname⟩

/-- A field that is live stays as it is when it is registered again. -/
theorem Agree.undropField_eq (h : Agree specs resets d) (hf : f ∈ d.fields)
    (hlive : f.dropped = false) : d.undropField f.fieldName = d := by
  have hmap : (d.fields.map fun g =>
      if g.fieldName = f.fieldName then { g with dropped := false } else g) = d.fields := by
    refine (List.map_congr_left fun g hg => ?_).trans (List.map_id d.fields)
    split_ifs with hname
    · obtain rfl := h.eq_of_fieldName hg hf hname
      rw [← hlive]
      rfl
    · rfl
  rw [Disk.undropField, hmap]

/-- What a drop takes out of the schema. -/
theorem mem_demote (hspecs : Rebuildable specs) (h : Agree specs resets d) :
    i ∈ (d.demote spec).indices ↔ i ∈ d.indices ∧ i.field ≠ spec.field := by
  constructor
  · intro hi
    have hmem : i ∈ d.indices := List.mem_of_mem_eraseP hi
    refine ⟨hmem, fun hfield => ?_⟩
    -- the one that is erased is `i`, and the schema has it once
    obtain ⟨j, l₁, l₂, -, hj, hsplit, herase⟩ := @List.exists_of_eraseP _
      (fun i : IndexSpec => i.field = spec.field) _ _ hmem (decide_eq_true hfield)
    have hji : j = i := hspecs.eq_of_field (h.listed j (by simp [hsplit])) (h.listed i hmem)
      ((of_decide_eq_true hj).trans hfield.symm)
    have hnodup := h.nodup
    rw [hsplit, List.nodup_middle, List.nodup_cons, ← herase, hji] at hnodup
    exact hnodup.1 hi
  · rintro ⟨hi, hfield⟩
    exact (List.mem_eraseP_of_neg (by simpa using hfield)).mpr hi

theorem Agree.demote (h : Agree specs resets d) (spec : IndexSpec) :
    Agree specs resets (d.demote spec) :=
  h.setIndices (fun i hi => h.listed i (List.mem_of_mem_eraseP hi)) (h.nodup.eraseP _)
    fun i hi => h.live i (List.mem_of_mem_eraseP hi)

/-- An index that may be added to the schema. -/
theorem Agree.promote (h : Agree specs resets d) (hspec : spec ∈ specs)
    (hnot : d.lists spec.field = false) (hf : f ∈ d.fields) (hname : f.fieldName = spec.field)
    (hlive : f.dropped = false) : Agree specs resets (d.promote spec) := by
  refine h.setIndices (fun i hi => ?_) ?_ fun i hi g hg hn => ?_
  · rcases List.mem_append.mp hi with hi | hi
    · exact h.listed i hi
    · obtain rfl := List.mem_singleton.mp hi
      exact hspec
  · refine h.nodup.append (List.nodup_singleton spec) fun i hi hi' => ?_
    obtain rfl := List.mem_singleton.mp hi'
    rw [lists_iff.mpr ⟨i, hi, rfl⟩] at hnot
    cases hnot
  · rcases List.mem_append.mp hi with hi | hi
    · exact h.live i hi g hg hn
    · obtain rfl := List.mem_singleton.mp hi
      rw [h.eq_of_fieldName hg hf (hn.trans hname.symm)]
      exact hlive

theorem Agree.undropField (h : Agree specs resets d) (field : FieldName) :
    Agree specs resets (d.undropField field) := by
  refine h.flag (fun f => ?_) (fun f => ?_) (fun f => ?_) fun i hi f hf hn => ?_
  all_goals split_ifs
  all_goals first | rfl | exact h.live i hi f hf hn

theorem Agree.ensureFieldPath (h : Agree specs resets d) (hf : f ∈ d.fields) :
    Agree specs resets (d.ensureFieldPath f.fieldId) :=
  h.update fun _ => ⟨f, hf, rfl⟩

theorem Agree.writeProgress (h : Agree specs resets d) (hf : f ∈ d.fields) (p : DiskBuildProgress) :
    Agree specs resets (d.writeProgress f.fieldId p) :=
  h.update fun _ => ⟨f, hf, rfl⟩

theorem Agree.removeFieldPath (h : Agree specs resets d) (id : ℕ) :
    Agree specs resets (d.removeFieldPath id) :=
  h.update fun hnone => absurd rfl hnone

/-- A field may be marked that the schema does not list. -/
theorem Agree.markFieldDropped (h : Agree specs resets d) (hf : f ∈ d.fields)
    (hnot : d.lists f.fieldName = false) : Agree specs resets (d.markFieldDropped f.fieldId) := by
  refine h.flag (fun f => ?_) (fun f => ?_) (fun f => ?_) fun i hi g hg hn => ?_
  all_goals split_ifs with hid
  any_goals rfl
  · -- the field would be listed
    rw [← h.eq_of_fieldId hg hf hid, lists_iff.mpr ⟨i, hi, hn.symm⟩] at hnot
    cases hnot
  · exact h.live i hi g hg hn

theorem Agree.setIntent (h : Agree specs resets d) (intent : Option Intent) :
    Agree specs resets (d.setIntent intent) :=
  ⟨h.names, h.ids, h.registered, h.listed, h.nodup, h.live, h.dirs, h.resets_le⟩

theorem Agree.resetRowmap (h : Agree specs resets d) : Agree specs resets d.resetRowmap :=
  ⟨h.names, h.ids, h.registered, h.listed, h.nodup, h.live, h.dirs,
    Nat.le_succ_of_le h.resets_le⟩

theorem dirs_ensureFieldPath (d : Disk) (id id' : ℕ) : (d.ensureFieldPath id).dirs id' =
    if id' = id then some ((d.dirs id).getD ⟨none, d.resets⟩) else d.dirs id' :=
  update_apply ..

theorem dirs_removeFieldPath (d : Disk) (id id' : ℕ) :
    (d.removeFieldPath id).dirs id' = if id' = id then none else d.dirs id' :=
  update_apply ..

/-! ### Records of builds -/

/-- A new directory has no record. -/
theorem progress_ensureFieldPath (d : Disk) (id id' : ℕ) :
    ((d.ensureFieldPath id).dirs id').bind IndexDir.progress
      = (d.dirs id').bind IndexDir.progress := by
  rw [dirs_ensureFieldPath]
  split_ifs with heq
  · subst heq
    rcases d.dirs id' with _ | dir <;> rfl
  · rfl

@[simp]
theorem buildInProgress_ensureFieldPath (d : Disk) (id id' : ℕ) :
    (d.ensureFieldPath id).buildInProgress id' = d.buildInProgress id' := by
  rw [Disk.buildInProgress, progress_ensureFieldPath, Disk.buildInProgress]

@[simp]
theorem buildComplete_ensureFieldPath (d : Disk) (id id' : ℕ) :
    (d.ensureFieldPath id).buildComplete id' = d.buildComplete id' := by
  rw [Disk.buildComplete, progress_ensureFieldPath, Disk.buildComplete]

theorem buildInProgress_writeProgress (d : Disk) (id : ℕ) {p : DiskBuildProgress}
    (hp : p.status = .inProgress) : (d.writeProgress id p).buildInProgress id = true := by
  simp [Disk.buildInProgress, Disk.writeProgress, hp]

theorem recorded_writeProgress_of_ne {id' : ℕ} (hne : id' ≠ id) (p : DiskBuildProgress)
    (h : d.buildInProgress id' = true ∨ d.buildComplete id' = true) :
    (d.writeProgress id p).buildInProgress id' = true ∨
      (d.writeProgress id p).buildComplete id' = true := by
  have hdir : (d.writeProgress id p).dirs id' = d.dirs id' := update_of_ne hne _ _
  unfold Disk.buildInProgress Disk.buildComplete
  rw [hdir]
  exact h

/-- A recorded build has its directory. -/
theorem ensureFieldPath_eq_of_recorded (h : d.buildInProgress id = true ∨ d.buildComplete id = true)
    : d.ensureFieldPath id = d := by
  rcases hdir : d.dirs id with _ | dir
  · unfold Disk.buildInProgress Disk.buildComplete at h
    rw [hdir] at h
    simp at h
  · unfold Disk.ensureFieldPath
    rw [hdir]
    exact congrArg (fun dirs => ({ d with dirs := dirs } : Disk))
      (update_eq_self_iff.mpr hdir.symm)

/-! ### Adding an index keeps what is added -/

/-- A new directory, or a record, belongs to the row map as it is now. -/
theorem Fresh.update (h : Fresh resets d) {dir : IndexDir}
    (hdir : dir.resets = ((d.dirs id).map IndexDir.resets).getD d.resets) :
    Fresh resets { d with dirs := update d.dirs id (some dir) } := by
  refine h.imp_right fun ⟨hlt, hall⟩ => ⟨hlt, fun id' dir' hdir' => ?_⟩
  by_cases heq : id' = id
  · subst heq
    obtain rfl : dir = dir' :=
      Option.some.inj ((update_self id' (some dir) d.dirs).symm.trans hdir')
    rw [hdir]
    rcases hold : d.dirs id' with _ | old
    · rfl
    · exact hall id' old hold
  · exact hall id' dir' ((update_of_ne heq (some dir) d.dirs).symm.trans hdir')

theorem Fresh.ensureFieldPath (h : Fresh resets d) (id : ℕ) :
    Fresh resets (d.ensureFieldPath id) := by
  refine h.update ?_
  rcases d.dirs id with _ | dir <;> rfl

variable {intent : Option Intent}

theorem Readding.undropField (h : Readding specs resets intent d) (field : FieldName) :
    Readding specs resets intent (d.undropField field) := by
  refine ⟨h.agree.undropField field, h.intent, h.fresh, fun i hi f' hf' hname => ?_⟩
  obtain ⟨f, hf, rfl⟩ := List.mem_map.mp hf'
  split_ifs at hname ⊢ <;> exact h.recorded i hi f hf hname

theorem Readding.ensureFieldPath (h : Readding specs resets intent d) (hf : f ∈ d.fields) :
    Readding specs resets intent (d.ensureFieldPath f.fieldId) := by
  refine ⟨h.agree.ensureFieldPath hf, h.intent, h.fresh.ensureFieldPath _,
    fun i hi g hg hname => ?_⟩
  rw [buildInProgress_ensureFieldPath, buildComplete_ensureFieldPath]
  exact h.recorded i hi g hg hname

theorem Readding.writeProgress (h : Readding specs resets intent d) (hf : f ∈ d.fields)
    (hnot : d.lists f.fieldName = false) (p : DiskBuildProgress) :
    Readding specs resets intent (d.writeProgress f.fieldId p) := by
  refine ⟨h.agree.writeProgress hf p, h.intent, h.fresh.update rfl, fun i hi g hg hname => ?_⟩
  refine recorded_writeProgress_of_ne (fun hid => ?_) p (h.recorded i hi g hg hname)
  have hlists : d.lists g.fieldName = true := lists_iff.mpr ⟨i, hi, hname.symm⟩
  rw [h.agree.eq_of_fieldId hg hf hid, hnot] at hlists
  cases hlists

theorem Readding.promote (h : Readding specs resets intent d) (hspec : spec ∈ specs)
    (hnot : d.lists spec.field = false) (hf : f ∈ d.fields) (hname : f.fieldName = spec.field)
    (hlive : f.dropped = false) (hbuild : d.buildInProgress f.fieldId = true) :
    Readding specs resets intent (d.promote spec) := by
  refine ⟨h.agree.promote hspec hnot hf hname hlive, h.intent, h.fresh, fun i hi g hg hn => ?_⟩
  rcases List.mem_append.mp hi with hi | hi
  · exact h.recorded i hi g hg hn
  · obtain rfl := List.mem_singleton.mp hi
    rw [h.agree.eq_of_fieldName hg hf (hn.trans hname.symm)]
    exact .inl hbuild

theorem Readding.setIntent (h : Readding specs resets intent d) (intent' : Option Intent) :
    Readding specs resets intent' (d.setIntent intent') :=
  ⟨h.agree.setIntent intent', rfl, h.fresh, h.recorded⟩

end Fields

/-! ### What the engine's operations do -/

section Engine

variable {specs : List IndexSpec} {resets : ℕ} (s₀ : State)

/-- A registered field. -/
theorem triple_registerIndexField (h : Agree specs resets s₀.disk) (hf : f ∈ s₀.disk.fields) :
    Triple (fun s => s = s₀) (registerIndexField f.fieldName f.fieldType)
      (fun id s => id = f.fieldId ∧ s = { s₀ with
        disk := (s₀.disk.undropField f.fieldName).ensureFieldPath f.fieldId })
      (fun _ _ => False)
      (fun s => s.disk = s₀.disk.undropField f.fieldName ∨
        s.disk = (s₀.disk.undropField f.fieldName).ensureFieldPath f.fieldId) := by
  refine .bind_get fun s hs => ?_
  subst hs
  rw [h.find_fieldName hf]
  refine .ite (fun hne => absurd rfl hne) fun _ => ?_
  have hundrop : Triple (fun t => t = s) (onDisk fun d => d.undropField f.fieldName)
      (fun _ t => t = { s with disk := s.disk.undropField f.fieldName }) (fun _ _ => False)
      (fun t => t.disk = s.disk.undropField f.fieldName ∨
        t.disk = (s.disk.undropField f.fieldName).ensureFieldPath f.fieldId) :=
    .write (fun t ht => .inl (by rw [ht])) fun t ht => by rw [ht]
  refine hundrop.bind fun _ => ?_
  have hensure : Triple (fun t => t = { s with disk := s.disk.undropField f.fieldName })
      (onDisk fun d => d.ensureFieldPath f.fieldId)
      (fun _ t => t = { s with
        disk := (s.disk.undropField f.fieldName).ensureFieldPath f.fieldId }) (fun _ _ => False)
      (fun t => t.disk = s.disk.undropField f.fieldName ∨
        t.disk = (s.disk.undropField f.fieldName).ensureFieldPath f.fieldId) :=
    .write (fun t ht => .inr (by rw [ht])) fun t ht => by rw [ht]
  exact hensure.bind fun _ => .pure fun t ht => ⟨rfl, ht⟩

/-- A field that the schema lists: its directory is there afterwards. -/
theorem triple_registerIndexField_live (h : Agree specs resets s₀.disk) (hf : f ∈ s₀.disk.fields)
    (hlive : f.dropped = false) :
    Triple (fun s => s = s₀) (registerIndexField f.fieldName f.fieldType)
      (fun id s => id = f.fieldId ∧ s = { s₀ with disk := s₀.disk.ensureFieldPath f.fieldId })
      (fun _ _ => False)
      (fun s => s.disk = s₀.disk ∨ s.disk = s₀.disk.ensureFieldPath f.fieldId) := by
  have heq := h.undropField_eq hf hlive
  have htriple := triple_registerIndexField s₀ h hf
  rw [heq] at htriple
  exact htriple

theorem triple_activateFieldIndex (h : Agree specs resets s₀.disk) (hf : f ∈ s₀.disk.fields)
    (hlive : f.dropped = false) (crash : State → Prop) :
    Triple (fun s => s = s₀) (activateFieldIndex f.fieldId f.fieldType)
      (fun _ s => s = { s₀ with active := f.fieldId :: s₀.active }) (fun _ _ => False) crash := by
  refine .bind_get fun s hs => ?_
  subst hs
  rw [h.find_fieldId hf]
  refine .ite (fun hne => absurd rfl hne) fun _ => ?_
  rw [hlive]
  exact .modify fun t ht => by rw [ht]

theorem triple_dropFieldIndex (id : ℕ) :
    Triple (fun s => s = s₀) (dropFieldIndex id)
      (fun _ s => s = { s₀ with
        disk := (s₀.disk.markFieldDropped id).removeFieldPath id
        active := s₀.active.filter fun id' => id' ≠ id })
      (fun _ _ => False)
      (fun s => s.disk = s₀.disk.markFieldDropped id ∨
        s.disk = (s₀.disk.markFieldDropped id).removeFieldPath id) := by
  have hmark : Triple (fun s => s = s₀) (onDisk fun d => d.markFieldDropped id)
      (fun _ s => s = { s₀ with disk := s₀.disk.markFieldDropped id }) (fun _ _ => False)
      (fun s => s.disk = s₀.disk.markFieldDropped id ∨
        s.disk = (s₀.disk.markFieldDropped id).removeFieldPath id) :=
    .write (fun s hs => .inl (by rw [hs])) fun s hs => by rw [hs]
  have hdeactivate : Triple (fun s => s = { s₀ with disk := s₀.disk.markFieldDropped id })
      (modify fun s => { s with active := s.active.filter fun id' => id' ≠ id } : Program Unit)
      (fun _ s => s = { s₀ with
        disk := s₀.disk.markFieldDropped id
        active := s₀.active.filter fun id' => id' ≠ id }) (fun _ _ => False)
      (fun s => s.disk = s₀.disk.markFieldDropped id ∨
        s.disk = (s₀.disk.markFieldDropped id).removeFieldPath id) :=
    .modify fun s hs => by rw [hs]
  exact hmark.bind fun _ => hdeactivate.bind fun _ =>
    .write (fun s hs => .inr (by rw [hs])) fun s hs => by rw [hs]

end Engine

end ReindexAll

end Minnal
