import Minnal.DocStore.ReindexAll
import Mathlib.Tactic.IntervalCases

/-!
# Resuming a rebuild of the field indexes

A rebuild is the work of two metadata files. A drop first takes the index out of the **schema** and
then marks the field as dropped in the **configuration**. The resume goes by the schema alone: after
a crash between the two it takes the drop for done, the reset of the row map finds a field that is
not dropped, and fails, at this start and at every later one (`orphaned_stays`). From every other
crash point it gets to the end (`resume_iff`).
-/

namespace Minnal

open List (mem_cons not_mem_nil mem_cons_self mem_filter mem_map)

variable {f g : FieldMeta} {s s₀ : State} {i spec : IndexSpec} {d : Disk}

namespace ReindexAll

open DurableProgram

/-! ### Opening the store -/

section Opening

variable {specs : List IndexSpec} {resets : ℕ} {d₀ d : Disk}

/-- What opening the store changes: it removes directories of dropped fields, and makes missing ones
of live fields. -/
structure OpenedFrom (d₀ d : Disk) : Prop where
  eq : d = { d₀ with dirs := d.dirs }
  dirs : ∀ id, d.dirs id = d₀.dirs id ∨
    (d.dirs id = none ∧ ∃ f ∈ d₀.fields, f.fieldId = id ∧ f.dropped = true) ∨
    (d₀.dirs id = none ∧ d.dirs id = some ⟨none, d₀.resets⟩ ∧
      ∃ f ∈ d₀.fields, f.fieldId = id ∧ f.dropped = false)

theorem OpenedFrom.refl (d : Disk) : OpenedFrom d d := ⟨rfl, fun _ => .inl rfl⟩

theorem OpenedFrom.agree (h : OpenedFrom d₀ d) (hd : Agree specs resets d₀) :
    Agree specs resets d := by
  rw [h.eq]
  refine hd.setDirs fun id hid => ?_
  rcases h.dirs id with hsame | ⟨hnone, -⟩ | ⟨-, -, f, hf, hid', -⟩
  · exact hd.dirs id (hsame ▸ hid)
  · exact absurd hnone hid
  · exact ⟨f, hf, hid'⟩

theorem OpenedFrom.fields_eq (h : OpenedFrom d₀ d) : d.fields = d₀.fields := by
  rw [h.eq]

theorem OpenedFrom.indices_eq (h : OpenedFrom d₀ d) : d.indices = d₀.indices := by
  rw [h.eq]

theorem OpenedFrom.intent_eq (h : OpenedFrom d₀ d) : d.intent = d₀.intent := by
  rw [h.eq]

theorem OpenedFrom.keyType_eq (h : OpenedFrom d₀ d) : d.keyType = d₀.keyType := by
  rw [h.eq]

theorem OpenedFrom.resets_eq (h : OpenedFrom d₀ d) : d.resets = d₀.resets := by
  rw [h.eq]

theorem OpenedFrom.readding (h : OpenedFrom d₀ d) {intent : Option Intent}
    (hd : Readding specs resets intent d₀) : Readding specs resets intent d := by
  refine ⟨h.agree hd.agree, h.intent_eq.trans hd.intent, ?_, fun i hi f hf hname => ?_⟩
  · rw [Fresh, h.keyType_eq, h.resets_eq]
    refine hd.fresh.imp_right fun ⟨hlt, hall⟩ => ⟨hlt, fun id dir hdir => ?_⟩
    rcases h.dirs id with hsame | ⟨hnone, -⟩ | ⟨-, hnew, -⟩
    · exact hall id dir (hsame ▸ hdir)
    · rw [hnone] at hdir
      cases hdir
    · rw [hnew] at hdir
      obtain rfl := Option.some.inj hdir
      rfl
  · rw [h.indices_eq] at hi
    rw [h.fields_eq] at hf
    have hrecorded := hd.recorded i hi f hf hname
    have hsame : d.dirs f.fieldId = d₀.dirs f.fieldId := by
      rcases h.dirs f.fieldId with hsame | ⟨-, g, hg, hid, hdropped⟩ | ⟨hnone, -⟩
      · exact hsame
      · -- a field of the schema is not a dropped one
        obtain rfl := hd.agree.eq_of_fieldId hg hf hid
        rw [hd.agree.live i hi g hf hname] at hdropped
        cases hdropped
      · unfold Disk.buildInProgress Disk.buildComplete at hrecorded
        rw [hnone] at hrecorded
        simp at hrecorded
    unfold Disk.buildInProgress Disk.buildComplete
    rw [hsame]
    exact hrecorded

theorem OpenedFrom.dropping (h : OpenedFrom d₀ d) (hd : Dropping specs resets d₀) :
    Dropping specs resets d :=
  ⟨h.agree hd.agree, h.intent_eq.trans hd.intent⟩

theorem OpenedFrom.interrupted (h : OpenedFrom d₀ d) (hd : Interrupted specs resets d₀) :
    Interrupted specs resets d := by
  rcases hd with hd | hd | ⟨hd, hall⟩
  · exact .dropping (h.dropping hd)
  · exact .readding (h.readding hd)
  · refine .over (h.readding hd) fun spec hspec => ?_
    rw [h.indices_eq]
    exact hall spec hspec

/-- A dropped field's directory is removed. -/
theorem OpenedFrom.removeFieldPath (h : OpenedFrom d₀ d) (hf : f ∈ d₀.fields)
    (hdropped : f.dropped = true) : OpenedFrom d₀ (d.removeFieldPath f.fieldId) := by
  refine ⟨by rw [Disk.removeFieldPath, h.eq], fun id => ?_⟩
  rw [dirs_removeFieldPath]
  split_ifs with hid
  · exact .inr (.inl ⟨rfl, f, hf, hid.symm, hdropped⟩)
  · exact h.dirs id

/-- A live field gets its directory. -/
theorem OpenedFrom.ensureFieldPath (h : OpenedFrom d₀ d) (hd : Agree specs resets d₀)
    (hf : f ∈ d₀.fields) (hlive : f.dropped = false) :
    OpenedFrom d₀ (d.ensureFieldPath f.fieldId) := by
  refine ⟨by rw [Disk.ensureFieldPath, h.eq], fun id => ?_⟩
  rw [dirs_ensureFieldPath]
  split_ifs with hid
  · subst hid
    rcases h.dirs f.fieldId with hsame | ⟨-, g, hg, hid, hdropped⟩ | ⟨hnone, hnew, hg⟩
    · rcases hdir : d₀.dirs f.fieldId with _ | dir
      · refine .inr (.inr ⟨rfl, ?_, f, hf, rfl, hlive⟩)
        rw [hsame, hdir, h.resets_eq]
        rfl
      · refine .inl ?_
        rw [hsame, hdir]
        rfl
    · obtain rfl := hd.eq_of_fieldId hg hf hid
      rw [hlive] at hdropped
      cases hdropped
    · refine .inr (.inr ⟨hnone, ?_, hg⟩)
      rw [hnew]
      rfl
  · exact h.dirs id

/-- What holds while the store is being opened, with the dropped fields and then the indexes that
are left. -/
structure Opening (d₀ : Disk) (left : List FieldMeta) (s : State) : Prop where
  disk : OpenedFrom d₀ s.disk
  builds : s.builds = []
  dropped : ∀ f ∈ d₀.fields, f.dropped = true → f ∉ left → s.disk.dirs f.fieldId = none
  active : ∀ id ∈ s.active, ∃ i ∈ d₀.indices, ∃ f ∈ d₀.fields,
    f.fieldName = i.field ∧ f.fieldId = id

theorem Opening.opened (h : Opening d₀ [] s) : Opened s where
  dropped f hf hdropped := by
    rw [h.disk.fields_eq] at hf
    exact h.dropped f hf hdropped (not_mem_nil)
  active id hid := by
    rw [h.disk.fields_eq, h.disk.indices_eq]
    exact h.active id hid

/-- Removing the directories of dropped fields. -/
theorem triple_removeFieldPaths (left : List FieldMeta)
    (hleft : ∀ f ∈ left, f ∈ d₀.fields ∧ f.dropped = true) :
    Triple (Opening d₀ left) (forEach left fun f => onDisk fun d => d.removeFieldPath f.fieldId)
      (fun _ => Opening d₀ []) (fun _ _ => False) (fun s => OpenedFrom d₀ s.disk) := by
  refine Triple.forEach (Opening d₀) left fun f rest hrest => ?_
  obtain ⟨hf, hdropped⟩ := hleft f (hrest.mem (mem_cons_self ..))
  refine .write (fun s hs => hs.disk.removeFieldPath hf hdropped) fun s hs => ?_
  refine ⟨hs.disk.removeFieldPath hf hdropped, hs.builds, fun g hg hg' hnot => ?_, hs.active⟩
  change (s.disk.removeFieldPath f.fieldId).dirs g.fieldId = none
  rw [dirs_removeFieldPath]
  split_ifs with hid
  · rfl
  · refine hs.dropped g hg hg' fun hmem => ?_
    rcases mem_cons.mp hmem with rfl | hmem
    · exact hid rfl
    · exact hnot hmem

/-- Activating the schema's indexes. -/
theorem triple_activate (hd : Agree specs resets d₀) (hi : i ∈ d₀.indices) :
    Triple (Opening d₀ []) (openStore.activate i) (fun _ => Opening d₀ []) (fun _ _ => False)
      (fun s => OpenedFrom d₀ s.disk) := by
  obtain ⟨f, hf, hname, htype, hlive⟩ := hd.field_of_listed hi
  refine .of_forall fun s hs => ?_
  have hf' : f ∈ s.disk.fields := by
    rw [hs.disk.fields_eq]
    exact hf
  have hensured : OpenedFrom d₀ (s.disk.ensureFieldPath f.fieldId) :=
    hs.disk.ensureFieldPath hd hf hlive
  have hregister := triple_registerIndexField_live s (hs.disk.agree hd) hf' hlive
  rw [hname, htype] at hregister
  refine (hregister.mono (fun _ => id) (fun _ _ => id) (fun _ _ => id) ?_).bind fun fieldId => ?_
  · rintro t (ht | ht)
    · rw [ht]
      exact hs.disk
    · rw [ht]
      exact hensured
  refine .of_imp (fun t ht => ht.1) ?_
  rintro rfl
  have hactivate := triple_activateFieldIndex { s with disk := s.disk.ensureFieldPath f.fieldId }
    (hensured.agree hd) hf' hlive fun s => OpenedFrom d₀ s.disk
  rw [htype] at hactivate
  refine hactivate.mono (fun t ht => ht.2) (fun _ t ht => ?_) (fun _ _ => id) fun _ => id
  subst ht
  refine ⟨hensured, hs.builds, fun g hg hdropped _ => ?_, fun id hid => ?_⟩
  · change (s.disk.ensureFieldPath f.fieldId).dirs g.fieldId = none
    rw [dirs_ensureFieldPath, if_neg]
    · exact hs.dropped g hg hdropped (not_mem_nil)
    · intro hid
      rw [hd.eq_of_fieldId hg hf hid, hlive] at hdropped
      cases hdropped
  · rcases mem_cons.mp hid with rfl | hid
    · exact ⟨i, hi, f, hf, hname, rfl⟩
    · exact hs.active id hid

/-- **Opening the store** changes directories only. -/
theorem triple_openStore (hd : Agree specs resets d₀) :
    Triple (fun s => s = ⟨d₀, [], []⟩) openStore
      (fun _ s => OpenedFrom d₀ s.disk ∧ Opened s ∧ s.builds = []) (fun _ _ => False)
      (fun s => OpenedFrom d₀ s.disk) := by
  refine .bind_get fun s hs => ?_
  subst hs
  have hremove := triple_removeFieldPaths (d₀.fields.filter FieldMeta.dropped)
    fun f hf => mem_filter.mp hf
  refine (hremove.mono (fun s hs => ?_) (fun _ _ => id) (fun _ _ => id) fun _ => id).bind
    fun _ => ?_
  · subst hs
    refine ⟨.refl d₀, rfl, fun f hf hdropped hnot => ?_, fun id hid => ?_⟩
    · exact absurd (mem_filter.mpr ⟨hf, hdropped⟩) hnot
    · cases hid
  · have hloop : Triple (Opening d₀ []) (forEach d₀.indices openStore.activate)
        (fun _ => Opening d₀ []) (fun _ _ => False) (fun s => OpenedFrom d₀ s.disk) :=
      .forEach (fun _ => Opening d₀ []) d₀.indices fun i rest hrest =>
        triple_activate hd (hrest.mem (mem_cons_self ..))
    exact hloop.mono (fun _ => id) (fun _ s hs => ⟨hs.disk, hs.opened, hs.builds⟩) (fun _ _ => id)
      fun _ => id

end Opening

/-! ### Dropping the indexes -/

section Drop

variable {specs : List IndexSpec} {resets : ℕ}

/-- The fields that are not dropped and not in the schema. -/
def Disk.strays (d : Disk) : Set FieldName :=
  { name | ∃ f ∈ d.fields, f.fieldName = name ∧ f.dropped = false ∧ d.lists name = false }

theorem Dropping.orphaned_iff (h : Dropping specs resets d) :
    d.orphaned = true ↔ d.keyType ≠ .u64 ∧ d.strays ≠ ∅ := by
  simp only [Disk.orphaned, h.intent, ← Set.nonempty_iff_ne_empty]
  constructor
  · intro horphaned
    obtain ⟨⟨hkey, -⟩, hany⟩ := by simpa only [Bool.and_eq_true] using horphaned
    obtain ⟨f, hf, hstray⟩ := List.any_eq_true.mp hany
    obtain ⟨hlive, hnot⟩ := by simpa only [Bool.and_eq_true, Bool.not_eq_true'] using hstray
    exact ⟨by simpa using hkey, f.fieldName, f, hf, rfl, hlive, hnot⟩
  · rintro ⟨hkey, name, f, hf, rfl, hlive, hnot⟩
    rw [Bool.and_eq_true, Bool.and_eq_true]
    refine ⟨⟨by simpa using hkey, rfl⟩, List.any_eq_true.mpr ⟨f, hf, ?_⟩⟩
    rw [hlive, hnot]
    rfl

theorem Dropping.demote (h : Dropping specs resets d) (spec : IndexSpec) :
    Dropping specs resets (d.demote spec) :=
  ⟨h.agree.demote spec, h.intent⟩

theorem Dropping.markFieldDropped (h : Dropping specs resets d) (hf : f ∈ d.fields)
    (hnot : d.lists f.fieldName = false) : Dropping specs resets (d.markFieldDropped f.fieldId) :=
  ⟨h.agree.markFieldDropped hf hnot, h.intent⟩

theorem Dropping.removeFieldPath (h : Dropping specs resets d) (id : ℕ) :
    Dropping specs resets (d.removeFieldPath id) :=
  ⟨h.agree.removeFieldPath id, h.intent⟩

/-- The disk after an index is dropped. -/
def Disk.afterDrop (d : Disk) (spec : IndexSpec) (fieldId : ℕ) : Disk :=
  ((d.demote spec).markFieldDropped fieldId).removeFieldPath fieldId

theorem strays_demote (d : Disk) (spec : IndexSpec) : d.strays ⊆ (d.demote spec).strays := by
  rintro name ⟨f, hf, hname, hlive, hnot⟩
  refine ⟨f, hf, hname, hlive, Bool.eq_false_iff.mpr fun hlists => ?_⟩
  obtain ⟨j, hj, hfield⟩ := lists_iff.mp hlists
  rw [lists_iff.mpr ⟨j, List.mem_of_mem_eraseP hj, hfield⟩] at hnot
  cases hnot

/-- What it takes to drop the index `i`, whose field is `f`. -/
structure Droppable (specs : List IndexSpec) (resets : ℕ) (d : Disk) (i : IndexSpec)
    (f : FieldMeta) : Prop where
  rebuildable : Rebuildable specs
  dropping : Dropping specs resets d
  index : i ∈ d.indices
  field : f ∈ d.fields
  fieldName : f.fieldName = i.field

section Droppable

variable {d : Disk} {i : IndexSpec} {f : FieldMeta}

theorem Droppable.mem_indices (h : Droppable specs resets d i f) {j : IndexSpec} :
    j ∈ (d.afterDrop i f.fieldId).indices ↔ j ∈ d.indices ∧ j.field ≠ i.field :=
  mem_demote h.rebuildable h.dropping.agree

theorem mem_fields_afterDrop {id : ℕ} : g ∈ (d.afterDrop i id).fields ↔
    ∃ g' ∈ d.fields, (if g'.fieldId = id then { g' with dropped := true } else g') = g :=
  mem_map

/-- The field is not in the schema any more. -/
theorem Droppable.lists_demote (h : Droppable specs resets d i f) :
    (d.demote i).lists f.fieldName = false := by
  refine Bool.eq_false_iff.mpr fun hlists => ?_
  obtain ⟨j, hj, hfield⟩ := lists_iff.mp hlists
  exact ((mem_demote h.rebuildable h.dropping.agree).mp hj).2 (hfield.trans h.fieldName)

theorem Droppable.marked (h : Droppable specs resets d i f) :
    Dropping specs resets ((d.demote i).markFieldDropped f.fieldId) :=
  (h.dropping.demote i).markFieldDropped h.field h.lists_demote

theorem Droppable.afterDrop (h : Droppable specs resets d i f) :
    Dropping specs resets (d.afterDrop i f.fieldId) :=
  h.marked.removeFieldPath _

/-- A field that is not dropped afterwards is another one. -/
theorem Droppable.live (h : Droppable specs resets d i f)
    (hg : g ∈ (d.afterDrop i f.fieldId).fields) (hlive : g.dropped = false) :
    g ∈ d.fields ∧ g.fieldName ≠ i.field := by
  obtain ⟨g, hg', rfl⟩ := mem_fields_afterDrop.mp hg
  split_ifs at hlive ⊢ with hid
  refine ⟨hg', fun hname => hid ?_⟩
  rw [h.dropping.agree.eq_of_fieldName hg' h.field (hname.trans h.fieldName.symm)]

/-- Another field is as it was. -/
theorem Droppable.mem_fields (h : Droppable specs resets d i f) (hg : g ∈ d.fields)
    (hname : g.fieldName ≠ i.field) : g ∈ (d.afterDrop i f.fieldId).fields := by
  refine mem_fields_afterDrop.mpr ⟨g, hg, if_neg fun hid => hname ?_⟩
  rw [h.dropping.agree.eq_of_fieldId hg h.field hid, h.fieldName]

/-- A whole drop adds no stray. -/
theorem Droppable.strays_afterDrop (h : Droppable specs resets d i f) :
    (d.afterDrop i f.fieldId).strays = d.strays := by
  ext name
  constructor
  · rintro ⟨g, hg, rfl, hlive, hnot⟩
    obtain ⟨hg', hname⟩ := h.live hg hlive
    refine ⟨g, hg', rfl, hlive, Bool.eq_false_iff.mpr fun hlists => ?_⟩
    obtain ⟨j, hj, hfield⟩ := lists_iff.mp hlists
    rw [lists_iff.mpr ⟨j, h.mem_indices.mpr ⟨hj, fun hji => hname (hfield.symm.trans hji)⟩,
      hfield⟩] at hnot
    cases hnot
  · rintro ⟨g, hg, rfl, hlive, hnot⟩
    refine ⟨g, h.mem_fields hg fun hname => ?_, rfl, hlive, Bool.eq_false_iff.mpr fun hlists => ?_⟩
    · rw [lists_iff.mpr ⟨i, h.index, hname.symm⟩] at hnot
      cases hnot
    · obtain ⟨j, hj, hfield⟩ := lists_iff.mp hlists
      rw [lists_iff.mpr ⟨j, (h.mem_indices.mp hj).1, hfield⟩] at hnot
      cases hnot

end Droppable

/-- **Dropping an index** of the schema. Cut short, it leaves at most one stray more. -/
theorem triple_dropIndex (s₀ : State) (h : Droppable specs resets s₀.disk i f) :
    Triple (fun s => s = s₀) (dropIndex i.field)
      (fun _ s => s = { s₀ with
        disk := s₀.disk.afterDrop i f.fieldId
        active := s₀.active.filter fun id => id ≠ f.fieldId })
      (fun _ _ => False)
      (fun s => s.disk.keyType = s₀.disk.keyType ∧ Dropping specs resets s.disk ∧
        s₀.disk.strays ⊆ s.disk.strays) := by
  refine .bind_get fun s hs => ?_
  subst hs
  have hfind : (s.disk.indices.find? fun j => j.field = i.field) = some i := by
    obtain ⟨j, hj⟩ := Option.isSome_iff_exists.mp
      (List.find?_isSome.mpr ⟨i, h.index, decide_eq_true rfl⟩ :
        (s.disk.indices.find? fun j => j.field = i.field).isSome = true)
    have hfield : j.field = i.field := by simpa using List.find?_some hj
    have hlisted := h.dropping.agree.listed
    rw [hj, h.rebuildable.eq_of_field (hlisted j (List.mem_of_find?_eq_some hj))
      (hlisted i h.index) hfield]
  have hfind' : (s.disk.fields.find? fun g => g.fieldName = i.field) = some f := by
    rw [← h.fieldName]
    exact h.dropping.agree.find_fieldName h.field
  rw [hfind, hfind']
  have hschema : Triple (fun t => t = s) (onDisk fun d => d.demote i)
      (fun _ t => t = { s with disk := s.disk.demote i }) (fun _ _ => False)
      (fun t => t.disk.keyType = s.disk.keyType ∧ Dropping specs resets t.disk ∧
        s.disk.strays ⊆ t.disk.strays) := by
    refine .write (fun t ht => ?_) fun t ht => by rw [ht]
    subst ht
    exact ⟨rfl, h.dropping.demote i, strays_demote t.disk i⟩
  refine hschema.bind fun _ => ?_
  refine (triple_dropFieldIndex { s with disk := s.disk.demote i } f.fieldId).mono
    (fun _ => id) (fun _ _ => id) (fun _ _ => id) ?_
  rintro t (ht | ht)
  · rw [ht]
    exact ⟨rfl, h.marked, h.strays_afterDrop.superset⟩
  · rw [ht]
    exact ⟨rfl, h.afterDrop, h.strays_afterDrop.superset⟩

/-- What holds while the indexes are being dropped, with those that are left. -/
structure DroppingLoop (specs : List IndexSpec) (resets : ℕ) (keyType : KeyType)
    (strays : Set FieldName) (left : List IndexSpec) (s : State) : Prop where
  keyType : s.disk.keyType = keyType
  dropping : Dropping specs resets s.disk
  opened : Opened s
  left : ∀ i ∈ s.disk.indices, i ∈ left
  strays : s.disk.strays = strays

variable {keyType : KeyType} {strays : Set FieldName}

/-- What a crash leaves while the indexes are being dropped. -/
def DroppingCrash (specs : List IndexSpec) (resets : ℕ) (keyType : KeyType)
    (strays : Set FieldName) (s : State) : Prop :=
  s.disk.keyType = keyType ∧ Dropping specs resets s.disk ∧ strays ⊆ s.disk.strays

theorem DroppingLoop.crash {left : List IndexSpec}
    (h : DroppingLoop specs resets keyType strays left s) :
    DroppingCrash specs resets keyType strays s :=
  ⟨h.keyType, h.dropping, h.strays.superset⟩

/-- An open store stays one when an index is dropped. -/
theorem Opened.afterDrop (h : Opened s) (hdrop : Droppable specs resets s.disk i f) :
    Opened { s with
      disk := s.disk.afterDrop i f.fieldId
      active := s.active.filter fun id => id ≠ f.fieldId } where
  dropped g hg hdropped := by
    change (((s.disk.demote i).markFieldDropped f.fieldId).removeFieldPath f.fieldId).dirs
      g.fieldId = none
    rw [dirs_removeFieldPath]
    split_ifs with hid
    · rfl
    · obtain ⟨g, hg', rfl⟩ := mem_fields_afterDrop.mp hg
      split_ifs at hid hdropped ⊢ with hid'
      · exact absurd hid' hid
      · exact h.dropped g hg' hdropped
  active id hid := by
    obtain ⟨hid, hne⟩ := mem_filter.mp hid
    obtain ⟨j, hj, g, hg, hname, rfl⟩ := h.active id hid
    have hne : g.fieldId ≠ f.fieldId := of_decide_eq_true hne
    have hfield : j.field ≠ i.field := by
      intro hji
      refine hne ?_
      rw [hdrop.dropping.agree.eq_of_fieldName hg hdrop.field
        (hname.trans (hji.trans hdrop.fieldName.symm))]
    exact ⟨j, hdrop.mem_indices.mpr ⟨hj, hfield⟩, g, hdrop.mem_fields hg (hname ▸ hfield), hname,
      rfl⟩

theorem triple_dropOne (hspecs : Rebuildable specs) (spec : IndexSpec) (left : List IndexSpec) :
    Triple (DroppingLoop specs resets keyType strays (spec :: left))
      (driveReindexAll.dropOne spec) (fun _ => DroppingLoop specs resets keyType strays left)
      (fun _ _ => False) (DroppingCrash specs resets keyType strays) := by
  refine .bind_get fun s hs => .ite (fun hlists => ?_) fun hlists => .pure ?_
  · obtain ⟨i, hi, hfield⟩ := lists_iff.mp hlists
    obtain ⟨f, hf, hname, -⟩ := hs.dropping.agree.field_of_listed hi
    have hdrop : Droppable specs resets s.disk i f := ⟨hspecs, hs.dropping, hi, hf, hname⟩
    rw [← hfield]
    refine (triple_dropIndex s hdrop).mono (fun _ => id) (fun _ t ht => ?_) (fun _ _ => id)
      fun t ht => ⟨ht.1.trans hs.keyType, ht.2.1, hs.strays.superset.trans ht.2.2⟩
    subst ht
    refine ⟨hs.keyType, hdrop.afterDrop, hs.opened.afterDrop hdrop, fun j hj => ?_,
      hdrop.strays_afterDrop.trans hs.strays⟩
    obtain ⟨hj, hne⟩ := hdrop.mem_indices.mp hj
    refine (mem_cons.mp (hs.left j hj)).resolve_left ?_
    rintro rfl
    exact hne hfield.symm
  · intro t ht
    subst ht
    refine ⟨hs.keyType, hs.dropping, hs.opened, fun i hi => ?_, hs.strays⟩
    refine (mem_cons.mp (hs.left i hi)).resolve_left ?_
    rintro rfl
    exact hlists (lists_iff.mpr ⟨i, hi, rfl⟩)

/-- **The reset** fails if and only if there are strays. -/
theorem triple_resetRowmap :
    Triple (DroppingLoop specs resets keyType strays []) resetRowmap
      (fun _ s => (keyType = .u64 ∨ strays = ∅) ∧ Dropping specs resets s.disk ∧
        s.disk.indices = [] ∧ Fresh resets s.disk)
      (fun _ s => ¬ (keyType = .u64 ∨ strays = ∅) ∧ DroppingCrash specs resets keyType strays s)
      (fun s => Dropping specs resets s.disk ∧ (keyType = .u64 ∨ strays = ∅)) := by
  refine .bind_get fun s hs => ?_
  have hindices : s.disk.indices = [] :=
    List.eq_nil_iff_forall_not_mem.mpr fun i hi => not_mem_nil (hs.left i hi)
  have hactive : s.active = [] := by
    refine List.eq_nil_iff_forall_not_mem.mpr fun id hid => ?_
    obtain ⟨i, hi, -⟩ := hs.opened.active id hid
    exact not_mem_nil (hs.left i hi)
  have hlive : s.disk.liveFields = [] ↔ strays = ∅ := by
    have hnot : ∀ name, s.disk.lists name = false := fun name => by
      rw [Disk.lists, hindices]
      rfl
    rw [← hs.strays, List.eq_nil_iff_forall_not_mem, Set.eq_empty_iff_forall_notMem]
    refine forall_congr' fun name => not_congr ?_
    simp [Disk.liveFields, Disk.strays, hnot, and_comm, and_left_comm, and_assoc]
  refine .ite (fun hkey => .pure fun t ht => ?_) fun hkey => .ite (fun hnot => ?_) fun hnot => ?_
  · subst ht
    exact ⟨.inl (hs.keyType.symm.trans hkey), hs.dropping, hindices, .inl hkey⟩
  · refine .fail fun t ht => ?_
    subst ht
    refine ⟨?_, hs.crash⟩
    rintro (hu64 | hempty)
    · exact hkey (hs.keyType.trans hu64)
    · exact hnot.elim (fun h => h hactive) fun h => h (hlive.mpr hempty)
  · have hempty : strays = ∅ := hlive.mp (not_not.mp (not_or.mp hnot).2)
    have hdropping : Dropping specs resets s.disk.resetRowmap :=
      ⟨hs.dropping.agree.resetRowmap, hs.dropping.intent⟩
    have hfresh : Fresh resets s.disk.resetRowmap := by
      refine .inr ⟨Nat.lt_succ_of_le hs.dropping.agree.resets_le, fun id dir hdir => ?_⟩
      -- every field is dropped, and dropped fields have no directories
      have hdir : s.disk.dirs id = some dir := hdir
      obtain ⟨f, hf, rfl⟩ := hs.dropping.agree.dirs id (by rw [hdir]; exact Option.some_ne_none _)
      have hdropped : f.dropped = true := by
        by_contra hlive'
        refine List.ne_nil_of_mem (a := f.fieldName) (List.mem_map_of_mem ?_) (hlive.mpr hempty)
        exact mem_filter.mpr ⟨hf, by simpa using hlive'⟩
      rw [hs.opened.dropped f hf hdropped] at hdir
      cases hdir
    have hreset : Triple (fun t => t = s) (onDisk Disk.resetRowmap)
        (fun _ t => (keyType = .u64 ∨ strays = ∅) ∧ Dropping specs resets t.disk ∧
          t.disk.indices = [] ∧ Fresh resets t.disk)
        (fun _ s => ¬ (keyType = .u64 ∨ strays = ∅) ∧ DroppingCrash specs resets keyType strays s)
        (fun t => Dropping specs resets t.disk ∧ (keyType = .u64 ∨ strays = ∅)) := by
      refine .write (fun t ht => ?_) fun t ht => ?_
      · subst ht
        exact ⟨hdropping, .inr hempty⟩
      · subst ht
        exact ⟨.inr hempty, hdropping, hindices, hfresh⟩
    exact hreset.bind fun _ => .pure fun t ht => ht

end Drop

/-! ### Adding the indexes -/

section Add

variable {specs : List IndexSpec} {resets : ℕ} {intent : Option Intent}

theorem checkAddable_eq_none (hspecs : Rebuildable specs) (h : Agree specs resets d)
    (hspec : spec ∈ specs) (hnot : d.lists spec.field = false) : checkAddable d spec = none := by
  have hnodup : (spec :: d.indices).Nodup := by
    refine List.nodup_cons.mpr ⟨fun hmem => ?_, h.nodup⟩
    rw [lists_iff.mpr ⟨spec, hmem, rfl⟩] at hnot
    cases hnot
  have hlt : d.indices.length < specs.length := by
    refine (List.subperm_of_subset hnodup fun i hi => ?_).length_le
    rcases mem_cons.mp hi with rfl | hi
    · exact hspec
    · exact h.listed i hi
  rw [checkAddable, if_neg (by rw [hnot]; exact Bool.false_ne_true),
    if_neg (Nat.not_le_of_lt (Nat.lt_of_lt_of_le hlt hspecs.length_le))]

/-- The record that a build has begun. -/
theorem triple_recordInProgress (s₀ : State) (h : Readding specs resets intent s₀.disk)
    (hf : f ∈ s₀.disk.fields) (hnot : s₀.disk.lists f.fieldName = false) :
    Triple (fun s => s = s₀) (addIndexInner.recordInProgress f.fieldId)
      (fun _ s => Readding specs resets intent s.disk ∧ s.disk.indices = s₀.disk.indices ∧
        f ∈ s.disk.fields ∧ s.disk.buildInProgress f.fieldId = true ∧ s.builds = s₀.builds)
      (fun _ _ => False) (fun s => Readding specs resets intent s.disk) := by
  refine .bind_get fun s hs => ?_
  subst hs
  refine .ite (fun hprogress => .pure fun t ht => ?_) fun hprogress => .write (fun t ht => ?_)
    fun t ht => ?_
  · subst ht
    exact ⟨h, rfl, hf, hprogress, rfl⟩
  · subst ht
    exact h.writeProgress hf hnot _
  · subst ht
    exact ⟨h.writeProgress hf hnot _, rfl, hf, buildInProgress_writeProgress _ _ rfl, rfl⟩

/-- The schema gets the index. -/
theorem triple_saveSchema (hspecs : Rebuildable specs) (s₀ : State)
    (h : Readding specs resets intent s₀.disk) (hspec : spec ∈ specs)
    (hnot : s₀.disk.lists spec.field = false) (hf : f ∈ s₀.disk.fields)
    (hname : f.fieldName = spec.field) (hlive : f.dropped = false)
    (hbuild : s₀.disk.buildInProgress f.fieldId = true) :
    Triple (fun s => s = s₀) (addIndexInner.saveSchema spec)
      (fun _ s => Readding specs resets intent s.disk ∧
        s.disk.indices = s₀.disk.indices ++ [spec] ∧ s.builds = s₀.builds)
      (fun _ _ => False) (fun s => Readding specs resets intent s.disk) := by
  refine .bind_get fun s hs => ?_
  subst hs
  rw [checkAddable_eq_none hspecs h.agree hspec hnot]
  have hpromoted := h.promote hspec hnot hf hname hlive hbuild
  refine .write (fun t ht => ?_) fun t ht => ?_
  · subst ht
    exact hpromoted
  · subst ht
    exact ⟨hpromoted, rfl, rfl⟩

/-- **Adding an index** that the schema does not list. -/
theorem triple_addIndexInner (hspecs : Rebuildable specs) (s₀ : State)
    (h : Readding specs resets intent s₀.disk) (hspec : spec ∈ specs)
    (hnot : s₀.disk.lists spec.field = false) :
    Triple (fun s => s = s₀) (addIndexInner spec true)
      (fun _ s => Readding specs resets intent s.disk ∧
        s.disk.indices = s₀.disk.indices ++ [spec] ∧ s.builds = spec.field :: s₀.builds)
      (fun _ _ => False) (fun s => Readding specs resets intent s.disk) := by
  refine .bind_get fun s hs => ?_
  subst hs
  rw [hspecs.valid spec hspec, checkAddable_eq_none hspecs h.agree hspec hnot]
  have hresuming : Triple (fun t => t = s) (addIndexInner.refuseSecondBuild spec true)
      (fun _ t => t = s) (fun _ _ => False) (fun t => Readding specs resets intent t.disk) :=
    .pure fun t ht => ht
  refine hresuming.bind fun _ => ?_
  obtain ⟨f, hf, hname, htype⟩ := h.agree.registered spec hspec
  -- the field is live again and has its directory
  let g : FieldMeta := { f with dropped := false }
  have hundropped : Readding specs resets intent (s.disk.undropField f.fieldName) :=
    h.undropField _
  have hg : g ∈ (s.disk.undropField f.fieldName).fields :=
    mem_map.mpr ⟨f, hf, if_pos rfl⟩
  have hensured : Readding specs resets intent
      ((s.disk.undropField f.fieldName).ensureFieldPath g.fieldId) := hundropped.ensureFieldPath hg
  have hregister := (triple_registerIndexField s h.agree hf).mono (fun _ => id) (fun _ _ => id)
    (fun _ _ => id) fun t ht => (show Readding specs resets intent t.disk by
      rcases ht with ht | ht <;> rw [ht]
      exacts [hundropped, hensured])
  rw [hname, htype] at hregister
  refine hregister.bind fun fieldId => .of_imp (fun t ht => ht.1) ?_
  rintro rfl
  rw [hname] at hensured hg
  let registered : State := { s with
    disk := (s.disk.undropField spec.field).ensureFieldPath g.fieldId }
  have hactivate := triple_activateFieldIndex registered hensured.agree hg rfl
    fun t => Readding specs resets intent t.disk
  rw [show g.fieldType = spec.indexType from htype] at hactivate
  refine (hactivate.mono (fun t ht => ht.2) (fun _ _ => id) (fun _ _ => id) fun _ => id).bind
    fun _ => ?_
  have hrecord := triple_recordInProgress
    { registered with active := g.fieldId :: registered.active } hensured hg (hname.symm ▸ hnot)
  refine hrecord.bind fun _ => .of_forall fun t ht => ?_
  obtain ⟨hreadding, hindices, hgt, hbuild, hbuilds⟩ := ht
  have hlists : t.disk.lists spec.field = false := by
    rw [Disk.lists, hindices]
    exact hnot
  refine (triple_saveSchema hspecs t hreadding hspec hlists hgt hname rfl hbuild).bind fun _ =>
    .modify fun u hu => ?_
  obtain ⟨hu, huindices, hubuilds⟩ := hu
  refine ⟨hu, ?_, ?_⟩
  · rw [huindices, hindices]
    rfl
  · rw [hubuilds, hbuilds]

/-- What holds while the indexes are being added, with those that are left. -/
structure ReaddingLoop (specs : List IndexSpec) (resets : ℕ) (intent : Option Intent)
    (left : List IndexSpec) (s : State) : Prop where
  readding : Readding specs resets intent s.disk
  added : ∀ spec ∈ specs, spec ∉ left → spec ∈ s.disk.indices

theorem triple_addOne (hspecs : Rebuildable specs) (spec : IndexSpec)
    (hspec : spec ∈ specs) (left : List IndexSpec) :
    Triple (ReaddingLoop specs resets intent (spec :: left))
      (driveReindexAll.addOne spec) (fun _ => ReaddingLoop specs resets intent left)
      (fun _ _ => False) (fun s => Readding specs resets intent s.disk) := by
  have hadded : ∀ s, ReaddingLoop specs resets intent (spec :: left) s →
      ∀ indices : List IndexSpec, s.disk.indices ⊆ indices → spec ∈ indices →
        ∀ spec' ∈ specs, spec' ∉ left → spec' ∈ indices := by
    intro s hs indices hsubset hmem spec' hspec' hnot
    by_cases heq : spec' = spec
    · exact heq ▸ hmem
    · exact hsubset (hs.added spec' hspec' fun hleft =>
        (mem_cons.mp hleft).elim heq hnot)
  refine .bind_get fun s hs => .ite (fun hlists => .pure fun t ht => ?_) fun hlists => ?_
  · subst ht
    obtain ⟨i, hi, hfield⟩ := lists_iff.mp hlists
    obtain rfl := hspecs.eq_of_field (hs.readding.agree.listed i hi) hspec hfield
    exact ⟨hs.readding, hadded _ hs _ (fun _ => id) hi⟩
  · refine (triple_addIndexInner hspecs s hs.readding hspec (by simpa using hlists)).mono
      (fun _ => id) (fun _ t ht => ⟨ht.1, ?_⟩) (fun _ _ => id) fun _ => id
    rw [ht.2.1]
    exact hadded s hs _ (List.subset_append_left _ _) (by simp)

end Add

/-! ### The run -/

section Run

variable {specs : List IndexSpec} {resets : ℕ}

/-- A run is over: every index is added. -/
def Over (specs : List IndexSpec) (resets : ℕ) (d : Disk) : Prop :=
  Readding specs resets none d ∧ ∀ spec ∈ specs, spec ∈ d.indices

/-- **The second half** of a run. -/
theorem triple_addAll (hspecs : Rebuildable specs) :
    Triple (fun s => Readding specs resets (some ⟨specs, .readding⟩) s.disk)
      (do
        forEach specs (driveReindexAll.addOne)
        onDisk fun d => d.setIntent none : Program Unit)
      (fun _ s => Over specs resets s.disk) (fun _ _ => False)
      (fun s => Interrupted specs resets s.disk) := by
  have hloop : Triple (ReaddingLoop specs resets (some ⟨specs, .readding⟩) specs)
      (forEach specs driveReindexAll.addOne)
      (fun _ => ReaddingLoop specs resets (some ⟨specs, .readding⟩) []) (fun _ _ => False)
      (fun s => Readding specs resets (some ⟨specs, .readding⟩) s.disk) :=
    .forEach (ReaddingLoop specs resets (some ⟨specs, .readding⟩)) specs fun spec rest hrest =>
      triple_addOne hspecs spec (hrest.mem (mem_cons_self ..)) rest
  refine (hloop.mono (fun s hs => ⟨hs, fun spec hspec hnot => absurd hspec hnot⟩)
    (fun _ _ => id) (fun _ _ => id) fun s hs => .readding hs).bind fun _ => ?_
  have hall : ∀ s, ReaddingLoop specs resets (some ⟨specs, .readding⟩) [] s →
      Over specs resets (s.disk.setIntent none) := fun s hs =>
    ⟨hs.readding.setIntent none, fun spec hspec => hs.added spec hspec (not_mem_nil)⟩
  exact .write (fun s hs => .over (hall s hs).1 (hall s hs).2) hall

variable {keyType : KeyType} {strays : Set FieldName}

/-- What a crash leaves of a run: as long as there are strays, the disk is orphaned. -/
def RunCrash (specs : List IndexSpec) (resets : ℕ) (keyType : KeyType) (strays : Set FieldName)
    (s : State) : Prop :=
  Interrupted specs resets s.disk ∧ ((keyType = .u64 ∨ strays = ∅) ∨ s.disk.orphaned = true)

theorem DroppingCrash.run (h : DroppingCrash specs resets keyType strays s) :
    RunCrash specs resets keyType strays s := by
  obtain ⟨hkey, hdropping, hstrays⟩ := h
  refine ⟨.dropping hdropping, or_iff_not_imp_left.mpr fun hnot => ?_⟩
  rw [not_or] at hnot
  rw [hdropping.orphaned_iff, hkey]
  exact ⟨hnot.1, fun hempty => hnot.2 (Set.subset_eq_empty hstrays hempty)⟩

/-- **The first half** of a run returns if there are no strays, and fails if there are. -/
theorem triple_dropAll (hspecs : Rebuildable specs) :
    Triple (DroppingLoop specs resets keyType strays specs)
      (driveReindexAll.dropAll ⟨specs, .dropping⟩)
      (fun _ s => (keyType = .u64 ∨ strays = ∅) ∧
        Readding specs resets (some ⟨specs, .readding⟩) s.disk)
      (fun _ _ => ¬ (keyType = .u64 ∨ strays = ∅)) (RunCrash specs resets keyType strays) := by
  have hloop : Triple (DroppingLoop specs resets keyType strays specs)
      (forEach specs driveReindexAll.dropOne)
      (fun _ => DroppingLoop specs resets keyType strays []) (fun _ _ => False)
      (DroppingCrash specs resets keyType strays) :=
    .forEach (DroppingLoop specs resets keyType strays) specs fun spec rest _ =>
      triple_dropOne hspecs spec rest
  refine .ite (fun _ => ?_) fun hphase => absurd rfl hphase
  refine (hloop.mono (fun _ => id) (fun _ _ => id) (fun _ _ h => h.elim)
    fun s hs => hs.run).bind fun _ => ?_
  refine (triple_resetRowmap.mono (fun _ => id) (fun _ _ => id) (fun _ _ h => h.1)
    fun s hs => ⟨.dropping hs.1, .inl hs.2⟩).bind fun _ => ?_
  have hreset : ∀ s : State, ((keyType = .u64 ∨ strays = ∅) ∧ Dropping specs resets s.disk ∧
      s.disk.indices = [] ∧ Fresh resets s.disk) →
      Readding specs resets (some ⟨specs, .readding⟩)
        (s.disk.setIntent (some ⟨specs, .readding⟩)) := by
    rintro s ⟨-, hdropping, hindices, hfresh⟩
    refine ⟨hdropping.agree.setIntent _, rfl, hfresh, fun i hi => ?_⟩
    rw [show (s.disk.setIntent (some ⟨specs, .readding⟩)).indices = [] from hindices] at hi
    cases hi
  exact .write (fun s hs => ⟨.readding (hreset s hs), .inl hs.1⟩) fun s hs => ⟨hs.1, hreset s hs⟩

/-- **A run from its beginning**, in an open store. -/
theorem triple_drive_dropping (hspecs : Rebuildable specs) :
    Triple (DroppingLoop specs resets keyType strays specs) (driveReindexAll ⟨specs, .dropping⟩)
      (fun _ s => (keyType = .u64 ∨ strays = ∅) ∧ Over specs resets s.disk)
      (fun _ _ => ¬ (keyType = .u64 ∨ strays = ∅)) (RunCrash specs resets keyType strays) :=
  (triple_dropAll hspecs).bind fun _ => .of_imp (fun _ hs => hs.1) fun hnone =>
    (triple_addAll hspecs).mono (fun _ hs => hs.2) (fun _ _ hs => ⟨hnone, hs⟩)
      (fun _ _ h => h.elim) fun _ hs => ⟨hs, .inl hnone⟩

/-- **A run from its second half.** -/
theorem triple_drive_readding (hspecs : Rebuildable specs) :
    Triple (fun s => Readding specs resets (some ⟨specs, .readding⟩) s.disk)
      (driveReindexAll ⟨specs, .readding⟩) (fun _ s => Over specs resets s.disk) (fun _ _ => False)
      (fun s => Interrupted specs resets s.disk) := by
  have hskip : Triple (fun s => Readding specs resets (some ⟨specs, .readding⟩) s.disk)
      (driveReindexAll.dropAll ⟨specs, .readding⟩)
      (fun _ s => Readding specs resets (some ⟨specs, .readding⟩) s.disk) (fun _ _ => False)
      (fun s => Interrupted specs resets s.disk) := .pure fun s hs => hs
  exact hskip.bind fun _ => triple_addAll hspecs

/-- **A run** leaves nothing that a resume does not know, wherever it is cut short. -/
theorem triple_reindexAll (h : Start s₀) :
    Triple (fun s => s = s₀) reindexAllAttributeIndices (fun _ _ => True) (fun _ _ => True)
      (fun s => Interrupted s₀.disk.indices s₀.disk.resets s.disk) := by
  refine .bind_get fun s hs => .ite (fun _ => .pure fun _ _ => trivial) fun _ => ?_
  subst hs
  have hintent : Dropping s.disk.indices s.disk.resets
      (s.disk.setIntent (some ⟨s.disk.indices, .dropping⟩)) := ⟨h.agree.setIntent _, rfl⟩
  have hwrite : Triple (fun t => t = s)
      (onDisk fun d => d.setIntent (some ⟨s.disk.indices, .dropping⟩))
      (fun _ => DroppingLoop s.disk.indices s.disk.resets s.disk.keyType s.disk.strays
        s.disk.indices)
      (fun _ _ => True) (fun t => Interrupted s.disk.indices s.disk.resets t.disk) := by
    refine .write (fun t ht => ?_) fun t ht => ?_
    · subst ht
      exact .dropping hintent
    · subst ht
      exact ⟨rfl, hintent, ⟨h.opened.dropped, h.opened.active⟩, fun i hi => hi, rfl⟩
  exact hwrite.bind fun _ => (triple_drive_dropping h.rebuildable).mono (fun _ => id)
    (fun _ _ _ => trivial) (fun _ _ _ => trivial) fun s hs => hs.1

end Run

/-! ### The next start -/

section Restart

variable {specs : List IndexSpec} {resets : ℕ} {d₀ : Disk}

/-- The index has a build that this process runs or that was finished. -/
def Built (d : Disk) (builds : List FieldName) (i : IndexSpec) : Prop :=
  ∃ f ∈ d.fields, f.fieldName = i.field ∧ f.dropped = false ∧
    (i.field ∈ builds ∨ d.buildComplete f.fieldId = true)

/-- What holds while builds are resumed, with the indexes that are left. -/
structure ResumeLoop (d : Disk) (started : List FieldName) (left : List IndexSpec) (s : State) :
    Prop where
  disk : s.disk = d
  started : started ⊆ s.builds
  built : ∀ i ∈ d.indices, i ∉ left → Built d s.builds i

/-- A build that this process did not start, and whose record says it is in progress, is resumed. -/
theorem triple_resumeBuild (hd : Over specs resets d) {started : List FieldName}
    (hi : i ∈ d.indices) (left : List IndexSpec) :
    Triple (ResumeLoop d started (i :: left)) (resumePendingBuilds.resumeBuild started i)
      (fun _ => ResumeLoop d started left) (fun _ _ => False) (fun s => s.disk = d) := by
  obtain ⟨f, hf, hname, htype, hlive⟩ := hd.1.agree.field_of_listed hi
  have hstep : ∀ s : State, ResumeLoop d started (i :: left) s → ∀ builds, s.builds ⊆ builds →
      Built d builds i → ResumeLoop d started left { s with builds := builds } := by
    refine fun s hs builds hsubset hbuilt =>
      ⟨hs.disk, fun field hfield => hsubset (hs.started hfield), fun j hj hnot => ?_⟩
    by_cases heq : j = i
    · exact heq ▸ hbuilt
    · obtain ⟨g, hg, hname', hlive', hbuild⟩ := hs.built j hj fun hmem =>
        (mem_cons.mp hmem).elim heq hnot
      exact ⟨g, hg, hname', hlive', hbuild.imp_left fun h => hsubset h⟩
  refine .ite (fun hstarted => .pure fun s hs => ?_) fun _ => .of_forall fun s hs => ?_
  · exact hstep s hs s.builds (fun _ => id)
      ⟨f, hf, hname, hlive, .inl (hs.started (List.contains_iff_mem.mp hstarted))⟩
  · -- the field is registered and has its directory, so nothing is written that was not there
    have hdisk := hs.disk
    have hrecorded := hd.1.recorded i hi f hf hname
    have hregister := triple_registerIndexField_live s (hdisk ▸ hd.1.agree) (hdisk ▸ hf) hlive
    rw [hdisk, ensureFieldPath_eq_of_recorded hrecorded, hname, htype] at hregister
    refine (hregister.mono (fun _ => id) (fun _ _ => id) (fun _ _ => id)
      fun t ht => ht.elim id id).bind fun fieldId => .of_imp (fun t ht => ht.1) ?_
    rintro rfl
    refine .bind_get fun t ht => ?_
    obtain rfl : t = s := ht.2.trans (by rw [← hdisk])
    refine .ite (fun _ => .modify fun u hu => ?_) fun hprogress => .pure fun u hu => ?_
    · subst hu
      exact hstep u hs _ (List.subset_cons_self ..)
        ⟨f, hf, hname, hlive, .inl (mem_cons_self ..)⟩
    · subst hu
      refine hstep u hs u.builds (fun _ => id) ⟨f, hf, hname, hlive, .inr ?_⟩
      rw [hdisk] at hprogress
      exact hrecorded.resolve_left hprogress

/-- **Resuming the builds** once a run is over. -/
theorem triple_resumeBuilds :
    Triple (fun s => Over specs resets s.disk)
      (do
        let s ← get
        forEach s.disk.indices (resumePendingBuilds.resumeBuild s.builds) : Program Unit)
      (fun _ s => Rebuilt specs resets s) (fun _ _ => False)
      (fun s => Interrupted specs resets s.disk) := by
  refine .bind_get fun s hs => ?_
  have hloop : Triple (ResumeLoop s.disk s.builds s.disk.indices)
      (forEach s.disk.indices (resumePendingBuilds.resumeBuild s.builds))
      (fun _ => ResumeLoop s.disk s.builds []) (fun _ _ => False) (fun t => t.disk = s.disk) :=
    .forEach (ResumeLoop s.disk s.builds) s.disk.indices fun i rest hrest =>
      triple_resumeBuild hs (hrest.mem (mem_cons_self ..)) rest
  refine hloop.mono (fun t ht => ?_) (fun _ t ht => ?_) (fun _ _ => id) fun t ht => ?_
  · subst ht
    exact ⟨rfl, fun _ => id, fun i hi hnot => absurd hi hnot⟩
  · obtain ⟨hover, hall⟩ := hs
    have hdisk := ht.disk
    refine ⟨by rw [hdisk]; exact hover.intent, fun spec hspec => ?_, fun i hi => ?_,
      fun spec hspec => ?_, ?_⟩
    · rw [hdisk]
      exact List.count_eq_one_of_mem hover.agree.nodup (hall spec hspec)
    · rw [hdisk] at hi
      exact hover.agree.listed i hi
    · rw [hdisk]
      exact ht.built spec (hall spec hspec) (not_mem_nil)
    · rw [hdisk]
      exact hover.fresh
  · rw [ht]
    exact .over hs.1 hs.2

/-- What a crash leaves of a start: an orphaned disk stays orphaned. -/
def RestartCrash (specs : List IndexSpec) (resets : ℕ) (d₀ : Disk) (s : State) : Prop :=
  Interrupted specs resets s.disk ∧ (d₀.orphaned = false ∨ s.disk.orphaned = true)

theorem OpenedFrom.orphaned_eq (h : OpenedFrom d₀ d) : d.orphaned = d₀.orphaned := by
  rw [h.eq]
  rfl

theorem Readding.orphaned_eq {intent : Option Intent} (h : Readding specs resets intent d)
    (hintent : ∀ i, intent = some i → i.phase = .readding) : d.orphaned = false := by
  have hany : (intent.any fun i => i.phase = .dropping) = false := by
    rcases intent with _ | i
    · rfl
    · simp [hintent i rfl]
  rw [Disk.orphaned, h.intent, hany, Bool.and_false, Bool.false_and]

theorem Dropping.orphaned_eq_false_iff (h : Dropping specs resets d) :
    d.orphaned = false ↔ d.keyType = .u64 ∨ d.strays = ∅ := by
  rw [← Bool.not_eq_true, h.orphaned_iff, not_and_or, not_not, not_not]

/-- **Finishing an interrupted run** succeeds unless the disk is orphaned. -/
theorem triple_resumeInterrupted (hspecs : Rebuildable specs) (hd : Interrupted specs resets d₀) :
    Triple (fun s => OpenedFrom d₀ s.disk ∧ Opened s)
      resumePendingBuilds.resumeInterruptedReindexAll
      (fun _ s => d₀.orphaned = false ∧ Over specs resets s.disk) (fun _ _ => d₀.orphaned = true)
      (RestartCrash specs resets d₀) := by
  refine .bind_get fun s ⟨hfrom, hopened⟩ => ?_
  rcases hfrom.interrupted hd with hdropping | hreadding | ⟨hover, hall⟩
  · rw [hdropping.intent, ← hfrom.orphaned_eq]
    have hrun : Triple _ _ _ _ (RunCrash specs resets s.disk.keyType s.disk.strays) :=
      triple_drive_dropping hspecs
    refine hrun.mono (fun t ht => ?_) (fun _ t ht => ?_) (fun _ t ht => ?_) fun t ht => ?_
    · subst ht
      exact ⟨rfl, hdropping, hopened, hdropping.agree.listed, rfl⟩
    · exact ⟨hdropping.orphaned_eq_false_iff.mpr ht.1, ht.2⟩
    · rw [← hdropping.orphaned_eq_false_iff] at ht
      simpa using ht
    · rw [RestartCrash, ← hfrom.orphaned_eq, hdropping.orphaned_eq_false_iff]
      exact ht
  · have hno : d₀.orphaned = false := by
      rw [← hfrom.orphaned_eq]
      exact hreadding.orphaned_eq fun i hi => by
        obtain rfl := Option.some.inj hi
        rfl
    rw [hreadding.intent]
    refine (triple_drive_readding hspecs).mono (fun t ht => ?_) (fun _ t ht => ⟨hno, ht⟩)
      (fun _ _ h => h.elim) fun t ht => ⟨ht, .inl hno⟩
    subst ht
    exact hreadding
  · have hno : d₀.orphaned = false := by
      rw [← hfrom.orphaned_eq]
      exact hover.orphaned_eq fun i hi => by cases hi
    rw [hover.intent]
    refine .pure fun t ht => ?_
    subst ht
    exact ⟨hno, hover, hall⟩

/-- **The next start** rebuilds everything unless the disk is orphaned; then it fails, and leaves
the disk orphaned. -/
theorem triple_restart (hspecs : Rebuildable specs) (hd : Interrupted specs resets d₀) :
    Triple (fun s => s = ⟨d₀, [], []⟩) (do openStore; resumePendingBuilds : Program Unit)
      (fun _ s => d₀.orphaned = false ∧ Rebuilt specs resets s) (fun _ _ => d₀.orphaned = true)
      (RestartCrash specs resets d₀) := by
  have hagree : Agree specs resets d₀ := by
    rcases hd with hd | hd | ⟨hd, -⟩
    · exact hd.agree
    · exact hd.agree
    · exact hd.agree
  have hopen := (triple_openStore hagree).mono (fun _ => id)
    (fun _ s hs => (⟨hs.1, hs.2.1⟩ : OpenedFrom d₀ s.disk ∧ Opened s))
    (fun _ _ (h : False) => (h.elim : d₀.orphaned = true)) fun s hs =>
      (⟨hs.interrupted hd, by rw [hs.orphaned_eq]; exact (Bool.eq_false_or_eq_true _).symm⟩ :
        RestartCrash specs resets d₀ s)
  refine hopen.bind fun _ => (triple_resumeInterrupted hspecs hd).bind fun _ =>
    .of_imp (fun s hs => hs.1) fun hno => ?_
  exact triple_resumeBuilds.mono (fun s hs => hs.2) (fun _ s hs => ⟨hno, hs⟩)
    (fun _ _ h => h.elim) fun s hs => ⟨hs, .inl hno⟩

/-! ### Every crash -/

theorem Interrupted.advance (h : Interrupted specs resets d)
    {g : ℕ → DiskBuildProgress → DiskBuildProgress} (hg : BuildsGetOn g) :
    Interrupted specs resets (d.advance g) := by
  have hagree : Agree specs resets d → Agree specs resets (d.advance g) := fun hd =>
    hd.setDirs fun id hid => hd.dirs id fun hnone => hid (by rw [hnone]; rfl)
  have hreadding : ∀ intent, Readding specs resets intent d →
      Readding specs resets intent (d.advance g) := by
    intro intent hd
    refine ⟨hagree hd.agree, hd.intent, ?_, fun i hi f hf hname => ?_⟩
    · refine hd.fresh.imp_right fun ⟨hlt, hall⟩ => ⟨hlt, fun id dir hdir => ?_⟩
      obtain ⟨old, hold, rfl⟩ := Option.map_eq_some_iff.mp hdir
      exact hall id old hold
    · have hrecorded := hd.recorded i hi f hf hname
      unfold Disk.buildInProgress Disk.buildComplete at hrecorded ⊢
      unfold Disk.advance
      dsimp only
      rcases hdir : d.dirs f.fieldId with _ | ⟨_ | p, n⟩ <;> rw [hdir] at hrecorded
      · simp at hrecorded
      · simp at hrecorded
      · by_cases hp : p.status = .inProgress
        · simpa [hp] using hg f.fieldId p
        · simpa [hp] using hrecorded
  rcases h with h | h | ⟨h, hall⟩
  · exact .dropping ⟨hagree h.agree, h.intent⟩
  · exact .readding (hreadding _ h)
  · exact .over (hreadding _ h) hall

/-- **What crashes leave** is one of the known states. -/
theorem Crashed.interrupted (h : Start s₀) (hd : Crashed s₀ d) :
    Interrupted s₀.disk.indices s₀.disk.resets d := by
  induction hd with
  | run hg ht => exact ((triple_reindexAll h).written s₀ rfl _ ht).advance hg
  | restart hg _ ht ih =>
    exact ((triple_restart h.rebuildable ih).written _ rfl _ ht).1.advance hg

/-- **`reindex-all` can be resumed from a crash point if and only if** the crash has not left the
disk orphaned. -/
theorem resume_iff {s₀ : State} (h : Start s₀) {d : Disk} (hd : Crashed s₀ d) :
    ((restart d).result = .ok () ∧
      Rebuilt s₀.disk.indices s₀.disk.resets (restart d).final) ↔ d.orphaned = false := by
  have hrestart := triple_restart h.rebuildable (hd.interrupted h)
  constructor
  · exact fun hok => (hrestart.returns _ rfl () hok.1).1
  · intro hno
    rcases hresult : (restart d).result with e | u
    · have horphaned : d.orphaned = true := hrestart.errs _ rfl e hresult
      rw [hno] at horphaned
      cases horphaned
    · exact ⟨rfl, (hrestart.returns _ rfl u hresult).2⟩

/-- The disks that later starts leave, whole or cut short after a durable write. -/
inductive Later (d : Disk) : Disk → Prop
  | now : Later d d
  | start {e : Disk} {t : State} {g : ℕ → DiskBuildProgress → DiskBuildProgress}
    (hg : BuildsGetOn g) (he : Later d e) (h : t ∈ (restart e).written) :
    Later d (t.disk.advance g)

/-- **An orphaned disk stays orphaned**, and every later start fails. -/
theorem orphaned_stays (h : Start s₀) {e : Disk} (hd : Crashed s₀ d) (horphaned : d.orphaned = true)
    (he : Later d e) : e.orphaned = true ∧ ∃ err, (restart e).result = .error err := by
  have hstays : Crashed s₀ e ∧ e.orphaned = true := by
    induction he with
    | now => exact ⟨hd, horphaned⟩
    | @start e t g hg _ ht ih =>
      obtain ⟨hcrashed, hbefore⟩ := ih
      have hrestart := triple_restart h.rebuildable (hcrashed.interrupted h)
      refine ⟨.restart hg hcrashed ht, (hrestart.written _ rfl t ht).2.resolve_left fun hno => ?_⟩
      rw [hno] at hbefore
      cases hbefore
  have hrestart := triple_restart h.rebuildable (hstays.1.interrupted h)
  refine ⟨hstays.2, ?_⟩
  rcases hresult : (restart e).result with err | u
  · exact ⟨err, rfl⟩
  · have hno : e.orphaned = false := (hrestart.returns _ rfl u hresult).1
    exact absurd (hno.symm.trans hstays.2) Bool.false_ne_true

end Restart

/-! ### Two crash points -/

section Examples

/-- A store of string keys with two indexes, both built. -/
def twoIndexes : State where
  disk :=
    { keyType := .str
      indices := [⟨['a'], .bool⟩, ⟨['b'], .int⟩]
      attributes := []
      fields := [⟨0, ['a'], .bool, false⟩, ⟨1, ['b'], .int, false⟩]
      nextFieldId := 2
      dirs := fun id => if id < 2 then some ⟨some ⟨.complete, 5, 5, none, none⟩, 0⟩ else none
      resets := 0
      intent := none }
  active := [0, 1]
  builds := []

theorem twoIndexes_start : Start twoIndexes where
  rebuildable := ⟨by decide, by decide, by decide +kernel⟩
  agree :=
    { names := by decide
      ids := by decide
      registered := by decide
      listed := fun _ => id
      nodup := by decide
      live := by decide
      dirs := fun id hid => by
        have hlt : id < 2 := by
          by_contra hge
          exact hid (if_neg hge)
        interval_cases id
        · exact ⟨⟨0, ['a'], .bool, false⟩, by decide, rfl⟩
        · exact ⟨⟨1, ['b'], .int, false⟩, by decide, rfl⟩
      resets_le := le_rfl }
  opened := ⟨by decide, by decide⟩

/-- The disk after a number of durable writes of a run, with the builds that run then finished. -/
def crashedAfter (writes : ℕ) : Option Disk :=
  (reindexAllAttributeIndices twoIndexes).written[writes - 1]?.map fun s =>
    s.disk.advance fun _ p => { p with status := .complete }

theorem crashed_of_crashedAfter {writes : ℕ} (h : crashedAfter writes = some d) :
    Crashed twoIndexes d := by
  obtain ⟨s, hs, rfl⟩ := Option.map_eq_some_iff.mp h
  exact .run (fun _ _ => .inr rfl) (List.mem_of_getElem? hs)

/-- Cut short while it adds the second index, the run is finished by the next start. -/
theorem resume_iff_crashedAfter : ∃ d, crashedAfter 13 = some d ∧ d.indices = [⟨['a'], .bool⟩] ∧
    (restart d).result = .ok () ∧ Rebuilt twoIndexes.disk.indices 0 (restart d).final := by
  have hsome : crashedAfter 13 = some ((crashedAfter 13).get (by decide +kernel)) :=
    (Option.some_get _).symm
  refine ⟨_, hsome, by decide +kernel, ?_⟩
  exact (resume_iff twoIndexes_start (crashed_of_crashedAfter hsome)).mpr (by decide +kernel)

/-- **Cut short inside a drop**, the run is not finished: the next start fails. -/
theorem restart_fails_inside_drop : ∃ d, Crashed twoIndexes d ∧
    (restart d).result = .error (.cannotResetRowmap [['a']]) := by
  have hsome : crashedAfter 2 = some ((crashedAfter 2).get (by decide +kernel)) :=
    (Option.some_get _).symm
  exact ⟨_, crashed_of_crashedAfter hsome, by decide +kernel⟩

/-- The start after that is cut short too, and the next one fails like it. -/
theorem orphaned_stays_inside_drop : ∃ d t err, crashedAfter 2 = some d ∧
    t ∈ (restart d).written ∧
      (restart (t.disk.advance fun _ p => { p with status := .complete })).result = .error err := by
  have hsome : crashedAfter 2 = some ((crashedAfter 2).get (by decide +kernel)) :=
    (Option.some_get _).symm
  have hwritten : (restart ((crashedAfter 2).get (by decide +kernel))).written ≠ [] := by
    decide +kernel
  obtain ⟨t, ht⟩ := List.exists_mem_of_ne_nil _ hwritten
  obtain ⟨-, err, herr⟩ := orphaned_stays twoIndexes_start (crashed_of_crashedAfter hsome)
    (by decide +kernel)
    (.start (g := fun _ p => { p with status := .complete }) (fun _ _ => .inr rfl) .now ht)
  exact ⟨_, t, err, hsome, ht, herr⟩

end Examples

end ReindexAll

end Minnal
