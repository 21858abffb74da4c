import Minnal.DocStore.Schema
import Minnal.DocStore.SettledSettings

/-!
# What the changes of a schema leave

A refused change leaves the schema as it was. A change that succeeds keeps the rules when it is
**safe**: five of the changes do not check a rule that another part of the schema relies on. An
attribute may be added under an empty name; an embedding field may be dotted; an embedding field in
use may be given another type, be removed, or be taken by an index; and embedding fields left over
from a time when semantic search was off are taken over unchecked. `Safe` names these cases, and the
results say that a valid schema stays valid in a run just when every successful change of it is
safe.
-/

namespace Minnal

open List (mem_append map_append mem_map mem_cons_self mem_append_right append_assoc nodup_append'
  mem_cons mem_append_left mem_filter mem_singleton forall_mem_singleton append_nil map_cons
  nodup_singleton nodup_cons any_eq_true)

variable {s s' : DocStoreSchema} {amendment : SchemaAmendment} {fields : List Text} {name : Text}
  {attr_type : AttributeType} {description : Option Text} {spec : VectorIndexSpec}

namespace StoreSchema

open VectorSettings Checks DocStoreSchema

variable {casing : Casing}

/-! ### Refused changes -/

/-- An amendment that is refused leaves the schema as it was. -/
theorem apply_amendment_error {e : SchemaError}
    (h : (s.apply_amendment casing amendment).2 = .error e) :
    (s.apply_amendment casing amendment).1 = s := by
  cases amendment with
  | AddAttribute name attr_type description =>
    simp only [apply_amendment] at h ⊢
    split_ifs at h ⊢ <;> rfl
  | RemoveAttribute name =>
    simp only [apply_amendment] at h ⊢
    split_ifs at h ⊢ with hindexed hlength
    · rfl
    · -- nothing was filtered out
      rw [List.length_filter_eq_length_iff] at hlength
      rw [List.filter_eq_self.mpr hlength]
  | UpdateAttribute name attr_type description =>
    simp only [apply_amendment] at h ⊢
    split_ifs at h ⊢ <;> rfl
  | AddEmbeddingAttribute name description vector_index =>
    simp only [apply_amendment] at h ⊢
    split_ifs at h ⊢ <;> try rfl
    cases hset : settle casing s.vector_index vector_index {} with
    | error e => rfl
    | ok settled =>
      rw [hset] at h
      cases h
  | EnableVectorIndex fields vector_index =>
    simp only [apply_amendment] at h ⊢
    split_ifs at h ⊢ <;> try rfl
    cases hloop : s.checkNewFields fields with
    | error e => rfl
    | ok seen =>
      rw [hloop] at h
      cases hset : settle casing s.vector_index vector_index {} with
      | error e => rfl
      | ok settled =>
        simp only [hset] at h
        cases h
  | UpdateVectorSearch search maintenance =>
    simp only [apply_amendment] at h ⊢
    cases hset : update_search casing s.vector_index s.name search maintenance with
    | error e => rfl
    | ok spec =>
      rw [hset] at h
      cases h

variable {e : DocStoreError} {f : DocStoreSchema → DocStoreSchema × Except DocStoreError Unit}

theorem update_doc_error (h : (s.update_doc f).2 = .error e) : (s.update_doc f).1 = s := by
  rw [update_doc] at h ⊢
  cases hf : f s with
  | mk s' res =>
    rw [hf] at h
    cases res with
    | error e => rfl
    | ok u => cases h

variable {c : Change}

/-- **A refused change leaves the schema as it was.** -/
theorem Change.apply_error (h : (c.apply casing s).2 = .error e) : (c.apply casing s).1 = s := by
  cases c with
  | amend amendment =>
    cases hres : (s.apply_amendment casing amendment).2 with
    | error e => exact apply_amendment_error hres
    | ok u =>
      simp only [Change.apply, DocStoreSchema.amend, hres, Except.mapError] at h
      cases h
  | remove_attribute field_name | disable_semantic_search | drop_index field =>
    exact update_doc_error h
  | add_index spec engine =>
    simp only [Change.apply, DocStoreSchema.add_index] at h ⊢
    cases hstart : s.startIndex spec engine with
    | error e => rfl
    | ok u =>
      rw [hstart] at h
      exact update_doc_error h

/-! ### Safe changes -/

/-- The embedding fields a schema lists keep the rules, whether semantic search is on or not. -/
def DocStoreSchema.ListedFieldsKeepRules (s : DocStoreSchema) : Prop :=
  EmbeddingRules s.indexed_field_names s.attributes s.embedding_fields

/-- What `apply_amendment` leaves unchecked. -/
def SchemaAmendment.Safe (s : DocStoreSchema) : SchemaAmendment → Prop
  | .AddAttribute name _ _ => name ≠ []
  | .RemoveAttribute name => s.semantic_search_enabled = true → name ∉ s.embedding_fields
  | .UpdateAttribute name attr_type _ =>
    s.semantic_search_enabled = true → name ∈ s.embedding_fields → attr_type = .str
  | .AddEmbeddingAttribute name _ _ => '.' ∉ name ∧ s.ListedFieldsKeepRules
  | .EnableVectorIndex fields _ =>
    (∀ f ∈ fields, '.' ∉ f) ∧ (∀ f ∈ fields, f ∉ s.embedding_fields) ∧ s.ListedFieldsKeepRules
  | .UpdateVectorSearch _ _ => True

/-- **Safe changes**: amendments that meet what they do not check, and indexes on fields that are
not embedded. -/
def Change.Safe (s : DocStoreSchema) : Change → Prop
  | .amend amendment => amendment.Safe s
  | .add_index spec _ => s.semantic_search_enabled = true → spec.field ∉ s.embedding_fields
  | .remove_attribute _ => True
  | .disable_semantic_search => True
  | .drop_index _ => True

/-! ### The rules under the changes -/

variable {attributes : List AttributeDef}

theorem EmbeddingRules.mono {indexed indexed' : List Text} {attributes' : List AttributeDef}
    (h : EmbeddingRules indexed attributes fields) (hindexed : indexed' ⊆ indexed)
    (hattributes : attributes ⊆ attributes') :
    EmbeddingRules indexed' attributes' fields where
  ne_nil := h.ne_nil
  top_level := h.top_level
  nodup := h.nodup
  unindexed f hf := fun hi => h.unindexed f hf (hindexed hi)
  declared f hf := by
    obtain ⟨a, ha, hname⟩ := h.declared f hf
    exact ⟨a, hattributes ha, hname⟩

theorem any_name_iff :
    attributes.any (·.name = name) = true ↔ name ∈ attributes.map AttributeDef.name := by
  simp only [any_eq_true, decide_eq_true_eq, mem_map]

theorem valid_addAttribute_iff (hs : s.Valid casing) (hindexed : name ∉ s.indexed_field_names)
    (hnew : name ∉ s.attributes.map AttributeDef.name) :
    Valid casing
        { s with attributes := s.attributes ++ [⟨name, attr_type, description⟩] } ↔
      name ≠ [] := by
  constructor
  · intro h
    exact h.attribute_names _ (mem_append_right _ mem_cons_self)
  · intro hne
    refine { hs with attribute_names := ?_, nodup := ?_, embedding := fun he => ?_ }
    · intro a ha
      rcases mem_append.mp ha with ha | ha
      · exact hs.attribute_names a ha
      · rw [mem_singleton.mp ha]
        exact hne
    · rw [names, map_append, ← append_assoc]
      refine nodup_append'.mpr ⟨hs.nodup, nodup_singleton _, ?_⟩
      rw [List.map_singleton, List.disjoint_singleton, mem_append]
      exact not_or.mpr ⟨hindexed, hnew⟩
    · obtain ⟨hne, hrules⟩ := hs.embedding he
      exact ⟨hne, hrules.mono (List.Subset.refl _) (List.subset_append_left _ _)⟩

/-- Names stay distinct when attributes are taken away. -/
theorem nodup_filter_attributes (hs : s.names.Nodup) (p : AttributeDef → Bool) :
    (s.indexed_field_names ++ (s.attributes.filter p).map AttributeDef.name).Nodup :=
  hs.sublist ((List.Sublist.refl _).append (List.filter_sublist.map _))

theorem valid_removeAttribute_iff (hs : s.Valid casing) :
    Valid casing
        { s with attributes := s.attributes.filter (·.name ≠ name) } ↔
      (s.semantic_search_enabled = true → name ∉ s.embedding_fields) := by
  constructor
  · intro h he hmem
    obtain ⟨a, ha, hname, -⟩ := (h.embedding he).2.declared name hmem
    simp [hname] at ha
  · intro hsafe
    refine { hs with attribute_names := ?_, nodup := ?_, embedding := fun he => ?_ }
    · exact fun a ha => hs.attribute_names a (List.mem_of_mem_filter ha)
    · exact nodup_filter_attributes hs.nodup _
    · obtain ⟨hne, hrules⟩ := hs.embedding he
      refine ⟨hne, { hrules with declared := fun f hf => ?_ }⟩
      obtain ⟨a, ha, hname, htype⟩ := hrules.declared f hf
      have hother : a.name ≠ name := fun h => hsafe he (h ▸ hname ▸ hf)
      exact ⟨a, mem_filter.mpr ⟨ha, decide_eq_true hother⟩, hname, htype⟩

theorem map_name_updateAttribute (name : Text) (attr_type : AttributeType)
    (description : Option Text) (l : List AttributeDef) :
    (updateAttribute name attr_type description l).map AttributeDef.name =
      l.map AttributeDef.name := by
  fun_induction updateAttribute name attr_type description l with
  | case1 => rfl
  | case2 a l h => rfl
  | case3 a l h ih => rw [map_cons, map_cons, ih]

theorem mem_updateAttribute {l : List AttributeDef} (hl : (l.map AttributeDef.name).Nodup)
    (hname : name ∈ l.map AttributeDef.name) {a : AttributeDef} :
    a ∈ updateAttribute name attr_type description l ↔
      (a ∈ l ∧ a.name ≠ name) ∨ a = ⟨name, attr_type, description⟩ := by
  fun_induction updateAttribute name attr_type description l with
  | case1 => cases hname
  | case2 b l h =>
    subst h
    have hothers : ∀ x ∈ l, x.name ≠ b.name := fun x hx hsame =>
      (nodup_cons.mp hl).1 (hsame ▸ List.mem_map_of_mem hx)
    rw [mem_cons, mem_cons]
    constructor
    · rintro (rfl | ha)
      · exact .inr rfl
      · exact .inl ⟨.inr ha, hothers a ha⟩
    · rintro (⟨rfl | ha, hne⟩ | rfl)
      · exact absurd rfl hne
      · exact .inr ha
      · exact .inl rfl
  | case3 b l h ih =>
    have hrest : name ∈ l.map AttributeDef.name :=
      (mem_cons.mp hname).resolve_left fun hsame => h hsame.symm
    rw [mem_cons, ih (nodup_cons.mp hl).2 hrest, mem_cons]
    constructor
    · rintro (rfl | ⟨ha, hne⟩ | rfl)
      · exact .inl ⟨.inl rfl, h⟩
      · exact .inl ⟨.inr ha, hne⟩
      · exact .inr rfl
    · rintro (⟨rfl | ha, hne⟩ | rfl)
      · exact .inl rfl
      · exact .inr (.inl ⟨ha, hne⟩)
      · exact .inr (.inr rfl)

theorem valid_updateAttribute_iff (hs : s.Valid casing)
    (hname : name ∈ s.attributes.map AttributeDef.name) :
    Valid casing
        { s with
          attributes :=
            updateAttribute name attr_type description s.attributes } ↔
      (s.semantic_search_enabled = true → name ∈ s.embedding_fields → attr_type = .str) := by
  have hmem : ∀ {a : AttributeDef},
      a ∈ updateAttribute name attr_type description s.attributes ↔
        (a ∈ s.attributes ∧ a.name ≠ name) ∨ a = ⟨name, attr_type, description⟩ :=
    mem_updateAttribute (nodup_append'.mp hs.nodup).2.1 hname
  constructor
  · intro h he hf
    obtain ⟨a, ha, hsame, htype⟩ := (h.embedding he).2.declared name hf
    rcases hmem.mp ha with ⟨-, hne⟩ | rfl
    · exact absurd hsame hne
    · exact htype
  · intro hsafe
    refine { hs with attribute_names := ?_, nodup := ?_, embedding := fun he => ?_ }
    · intro a ha
      rcases hmem.mp ha with ⟨ha, -⟩ | rfl
      · exact hs.attribute_names a ha
      · obtain ⟨b, hb, hsame⟩ := mem_map.mp hname
        exact hsame ▸ hs.attribute_names b hb
    · rw [names, map_name_updateAttribute]
      exact hs.nodup
    · obtain ⟨hne, hrules⟩ := hs.embedding he
      refine ⟨hne, { hrules with declared := fun f hf => ?_ }⟩
      obtain ⟨a, ha, hsame, htype⟩ := hrules.declared f hf
      by_cases hfield : f = name
      · subst hfield
        exact ⟨_, hmem.mpr (.inr rfl), rfl, hsafe he hf⟩
      · exact ⟨a, hmem.mpr (.inl ⟨ha, hsame ▸ hfield⟩), hsame, htype⟩

/-- **A new vector index** over `fields`, which are distinct and without an index, with the
attributes that some of them were missing. -/
theorem valid_newVectorIndex_iff (hs : s.Valid casing) {added : List AttributeDef}
    (hne : fields ≠ []) (hfields : ∀ f ∈ fields, f ≠ []) (hnodup : fields.Nodup)
    (hindexed : ∀ f ∈ fields, f ∉ s.indexed_field_names)
    (hspec : ∃ settings, spec.resolve casing = .ok settings)
    (hadded : ∀ a ∈ added, a.name ∈ fields ∧ a.name ∉ s.attributes.map AttributeDef.name)
    (haddedNodup : (added.map AttributeDef.name).Nodup)
    (hdeclared : ∀ f ∈ fields, ∃ a ∈ s.attributes ++ added, a.name = f ∧ a.attr_type = .str) :
    Valid casing
        { s with
          vector_index := some spec
          attributes := s.attributes ++ added
          embedding_fields := s.embedding_fields ++ fields
          semantic_search_enabled := true } ↔
      (∀ f ∈ fields, '.' ∉ f) ∧ (∀ f ∈ fields, f ∉ s.embedding_fields) ∧
        s.ListedFieldsKeepRules := by
  constructor
  · intro h
    obtain ⟨-, hrules⟩ := h.embedding rfl
    obtain ⟨hlisted, -, hdisjoint⟩ := nodup_append'.mp hrules.nodup
    have hunlisted : ∀ f ∈ fields, f ∉ s.embedding_fields := fun f hf hl => hdisjoint hl hf
    refine ⟨fun f hf => hrules.top_level f (mem_append_right _ hf), hunlisted,
      ⟨fun f hf => hrules.ne_nil f (mem_append_left _ hf),
        fun f hf => hrules.top_level f (mem_append_left _ hf), hlisted,
        fun f hf => hrules.unindexed f (mem_append_left _ hf), fun f hf => ?_⟩⟩
    obtain ⟨a, ha, hname, htype⟩ := hrules.declared f (mem_append_left _ hf)
    rcases mem_append.mp ha with ha | ha
    · exact ⟨a, ha, hname, htype⟩
    · exact absurd hf (hunlisted f (hname ▸ (hadded a ha).1))
  · rintro ⟨htop, hunlisted, hlisted⟩
    refine { hs with
      attribute_names := ?_, nodup := ?_, embedding := fun _ => ⟨?_, ?_⟩, settings := ?_ }
    · intro a ha
      rcases mem_append.mp ha with ha | ha
      · exact hs.attribute_names a ha
      · exact hfields _ (hadded a ha).1
    · rw [names, map_append, ← append_assoc]
      refine nodup_append'.mpr ⟨hs.nodup, haddedNodup, fun f hf hadd => ?_⟩
      obtain ⟨a, ha, rfl⟩ := mem_map.mp hadd
      rcases mem_append.mp hf with hf | hf
      · exact hindexed _ (hadded a ha).1 hf
      · exact (hadded a ha).2 hf
    · exact List.append_ne_nil_of_right_ne_nil _ hne
    · have hboth : ∀ {P : Text → Prop}, (∀ f ∈ s.embedding_fields, P f) → (∀ f ∈ fields, P f) →
          ∀ f ∈ s.embedding_fields ++ fields, P f :=
        fun hl hn => List.forall_mem_append.mpr ⟨hl, hn⟩
      refine ⟨hboth hlisted.ne_nil hfields, hboth hlisted.top_level htop,
        nodup_append'.mpr ⟨hlisted.nodup, hnodup, fun f hl hn => hunlisted f hn hl⟩,
        hboth hlisted.unindexed hindexed, hboth (fun f hf => ?_) hdeclared⟩
      obtain ⟨a, ha, hname⟩ := hlisted.declared f hf
      exact ⟨a, mem_append_left _ ha, hname⟩
    · intro spec' hmem
      obtain rfl := Option.some.inj hmem
      exact hspec

/-- What enabling one field leaves: its attribute, if it was missing, and its listing. -/
theorem enableField_spec (s : DocStoreSchema) (name : Text) :
    ∃ added : List AttributeDef,
      s.enableField name =
        { s with
          attributes := s.attributes ++ added
          embedding_fields := s.embedding_fields ++ [name] } ∧
      (∀ a ∈ added, a.name = name ∧ a.name ∉ s.attributes.map AttributeDef.name ∧
        a.attr_type = .str) ∧
      (added.map AttributeDef.name).Nodup ∧
      name ∈ (s.attributes ++ added).map AttributeDef.name := by
  by_cases hknown : name ∈ s.attributes.map AttributeDef.name
  · refine ⟨[], ?_, nofun, List.nodup_nil, ?_⟩
    · rw [enableField, if_pos (any_name_iff.mpr hknown), append_nil]
    · rwa [append_nil]
  · refine ⟨[⟨name, .str, none⟩], ?_, ?_, nodup_singleton _, ?_⟩
    · rw [enableField, if_neg fun h => hknown (any_name_iff.mp h)]
    · intro a ha
      rw [mem_singleton.mp ha]
      exact ⟨rfl, hknown, rfl⟩
    · rw [map_append]
      exact mem_append_right _ mem_cons_self

/-- What enabling the fields one by one leaves. -/
theorem foldl_enableField (s : DocStoreSchema) (fields : List Text) :
    ∃ added : List AttributeDef,
      fields.foldl enableField s =
        { s with
          attributes := s.attributes ++ added
          embedding_fields := s.embedding_fields ++ fields } ∧
      (∀ a ∈ added, a.name ∈ fields ∧ a.name ∉ s.attributes.map AttributeDef.name ∧
        a.attr_type = .str) ∧
      (added.map AttributeDef.name).Nodup ∧
      ∀ f ∈ fields, f ∈ (s.attributes ++ added).map AttributeDef.name := by
  induction fields generalizing s with
  | nil =>
    refine ⟨[], ?_, nofun, List.nodup_nil,
      nofun⟩
    rw [List.foldl_nil, append_nil, append_nil]
  | cons name fields ih =>
    obtain ⟨first, hfirst, hname, hfirstNodup, hdeclared⟩ := enableField_spec s name
    obtain ⟨rest, hfold, hrest, hrestNodup, hall⟩ := ih (s.enableField name)
    rw [hfirst] at hfold hrest hall
    refine ⟨first ++ rest, ?_, ?_, ?_, ?_⟩
    · rw [List.foldl_cons, hfirst, hfold, append_assoc, append_assoc,
        List.singleton_append]
    · intro a ha
      rcases mem_append.mp ha with ha | ha
      · obtain ⟨hsame, hnew, htype⟩ := hname a ha
        exact ⟨hsame ▸ mem_cons_self, hnew, htype⟩
      · obtain ⟨hmem, hnew, htype⟩ := hrest a ha
        rw [map_append] at hnew
        exact ⟨List.mem_cons_of_mem _ hmem, fun h => hnew (mem_append_left _ h), htype⟩
    · rw [map_append]
      refine nodup_append'.mpr ⟨hfirstNodup, hrestNodup, fun f hf hr => ?_⟩
      obtain ⟨a, ha, rfl⟩ := mem_map.mp hr
      have hnew := (hrest a ha).2.1
      rw [map_append] at hnew
      exact hnew (mem_append_right _ hf)
    · rw [← append_assoc]
      intro f hf
      rcases mem_cons.mp hf with rfl | hf
      · rw [map_append]
        exact mem_append_left _ hdeclared
      · exact hall f hf

/-! ### One change -/

variable {existing : Option VectorIndexSpec}

/-- A spec that is saved resolves. -/
theorem resolve_of_settle {requested : Option VectorIndexSpec} {defaults : IndexDefaults}
    (h : settle casing existing requested defaults = .ok spec) :
    ∃ settings, spec.resolve casing = .ok settings := by
  have hcall : (Call.settle requested defaults).result casing existing = .ok spec := h
  obtain ⟨settings, hsettled, rfl, -⟩ := Call.result_spec hcall
  exact ⟨settings, hsettled.resolve_with_to_spec {}⟩

theorem resolve_of_update_search {search : SearchSpec} {maintenance : Option MaintenanceSpec}
    (h : update_search casing existing name search maintenance = .ok spec) :
    ∃ settings, spec.resolve casing = .ok settings := by
  have hcall : (Call.update_search name search maintenance).result casing existing = .ok spec := h
  obtain ⟨settings, hsettled, rfl, -⟩ := Call.result_spec hcall
  exact ⟨settings, hsettled.resolve_with_to_spec {}⟩

theorem checkNewFields_spec {seen : List Text} (h : s.checkNewFields fields = .ok seen) :
    (∀ f ∈ fields, f ≠ []) ∧ fields.Nodup ∧ (∀ f ∈ fields, f ∉ s.indexed_field_names) ∧
      ∀ f ∈ fields, ∀ a ∈ s.attributes, a.name = f → a.attr_type = .str := by
  simp only [checkNewFields, checkDistinct_eq_ok, check_bind_eq_ok, refuse_eq_ok,
    List.map_id, any_eq_true, decide_eq_true_eq, not_exists, not_and, not_not] at h
  obtain ⟨hall, hnodup, -, -⟩ := h
  exact ⟨fun f hf => (hall f hf).1, hnodup, fun f hf => (hall f hf).2.1,
    fun f hf => (hall f hf).2.2⟩

/-- **An amendment that succeeds** leaves a valid schema just when it is safe. -/
theorem apply_amendment_valid_iff (hs : s.Valid casing)
    (h : s.apply_amendment casing amendment = (s', .ok ())) :
    s'.Valid casing ↔ amendment.Safe s := by
  cases amendment with
  | AddAttribute name attr_type description =>
    simp only [apply_amendment] at h
    split_ifs at h with hindexed hknown
    · cases h
    · cases h
    · obtain rfl := (Prod.mk.inj h).1
      exact valid_addAttribute_iff hs hindexed fun hmem => hknown (any_name_iff.mpr hmem)
  | RemoveAttribute name =>
    simp only [apply_amendment] at h
    split_ifs at h with hindexed hlength
    · cases h
    · cases h
    · obtain rfl := (Prod.mk.inj h).1
      exact valid_removeAttribute_iff hs
  | UpdateAttribute name attr_type description =>
    simp only [apply_amendment] at h
    split_ifs at h with hindexed hknown
    · cases h
    · obtain rfl := (Prod.mk.inj h).1
      exact valid_updateAttribute_iff hs (any_name_iff.mp hknown)
    · cases h
  | AddEmbeddingAttribute name description vector_index =>
    simp only [apply_amendment] at h
    split_ifs at h with hon hempty hindexed hknown hlisted
    · cases h
    · cases h
    · cases h
    · cases h
    · cases h
    cases hset : settle casing s.vector_index vector_index {} with
    | error e =>
      rw [hset] at h
      cases h
    | ok settled =>
      rw [hset] at h
      obtain rfl := (Prod.mk.inj h).1
      have hnew : name ∉ s.attributes.map AttributeDef.name := fun hmem =>
        hknown (any_name_iff.mpr hmem)
      rw [valid_newVectorIndex_iff hs (List.cons_ne_nil name [])
        (forall_mem_singleton.mpr hempty) (nodup_singleton name) (forall_mem_singleton.mpr hindexed)
        (resolve_of_settle hset)
        (forall_mem_singleton.mpr ⟨mem_cons_self, hnew⟩) (nodup_singleton _)
        (forall_mem_singleton.mpr ⟨_, mem_append_right _ mem_cons_self, rfl, rfl⟩),
        forall_mem_singleton, forall_mem_singleton]
      exact ⟨fun ⟨htop, _, hrules⟩ => ⟨htop, hrules⟩, fun ⟨htop, hrules⟩ => ⟨htop, hlisted, hrules⟩⟩
  | EnableVectorIndex fields vector_index =>
    simp only [apply_amendment] at h
    split_ifs at h with hon hempty
    · cases h
    · cases h
    cases hloop : s.checkNewFields fields with
    | error e =>
      rw [hloop] at h
      cases h
    | ok seen =>
      rw [hloop] at h
      cases hset : settle casing s.vector_index vector_index {} with
      | error e =>
        simp only [hset] at h
        cases h
      | ok settled =>
        simp only [hset] at h
        obtain rfl := (Prod.mk.inj h).1
        obtain ⟨hne, hnodup, hindexed, hstr⟩ := checkNewFields_spec hloop
        obtain ⟨added, hfold, hadded, haddedNodup, hall⟩ :=
          foldl_enableField { s with vector_index := some settled } fields
        rw [hfold]
        refine valid_newVectorIndex_iff hs hempty hne hnodup hindexed (resolve_of_settle hset)
          (fun a ha => ⟨(hadded a ha).1, (hadded a ha).2.1⟩) haddedNodup fun f hf => ?_
        obtain ⟨a, ha, rfl⟩ := mem_map.mp (hall f hf)
        refine ⟨a, ha, rfl, ?_⟩
        rcases mem_append.mp ha with ha | ha
        · exact hstr _ hf a ha rfl
        · exact (hadded a ha).2.2
  | UpdateVectorSearch search maintenance =>
    simp only [apply_amendment] at h
    cases hset : update_search casing s.vector_index s.name search maintenance with
    | error e =>
      rw [hset] at h
      cases h
    | ok spec =>
      rw [hset] at h
      obtain rfl := (Prod.mk.inj h).1
      refine iff_of_true { hs with settings := fun spec' hmem => ?_ } trivial
      obtain rfl := Option.some.inj hmem
      exact resolve_of_update_search hset

theorem update_doc_ok (h : s.update_doc f = (s', .ok ())) : f s = (s', .ok ()) := by
  rw [update_doc] at h
  cases hf : f s with
  | mk t res =>
    rw [hf] at h
    cases res with
    | error e => cases h
    | ok u => exact h

theorem amend_ok (h : s.amend casing amendment = (s', .ok ())) :
    s.apply_amendment casing amendment = (s', .ok ()) := by
  rw [DocStoreSchema.amend] at h
  cases hf : s.apply_amendment casing amendment with
  | mk t res =>
    rw [hf] at h
    cases res with
    | error e => cases h
    | ok u =>
      obtain rfl := (Prod.mk.inj h).1
      rfl

/-- Removing an attribute that is embedded takes it off the embedding fields, and semantic search
ends with the last of them. -/
theorem valid_remove_attribute (hs : s.Valid casing)
    (h : s.remove_attribute casing name = (s', .ok ())) : s'.Valid casing := by
  replace h := update_doc_ok h
  cases hamend : s.amend casing (.RemoveAttribute name) with
  | mk t res =>
    simp only [hamend] at h
    cases res with
    | error e => cases h
    | ok u =>
      have happly := amend_ok hamend
      by_cases hlisted : name ∈ s.embedding_fields
      · simp only [apply_amendment] at happly
        split_ifs at happly with hindexed hlength
        · cases happly
        · cases happly
        obtain rfl := (Prod.mk.inj happly).1
        simp only [if_pos hlisted] at h
        obtain rfl := (Prod.mk.inj h).1
        refine { hs with attribute_names := ?_, nodup := ?_, embedding := fun he => ?_ }
        · exact fun a ha => hs.attribute_names a (List.mem_of_mem_filter ha)
        · exact nodup_filter_attributes hs.nodup _
        · simp only [Bool.if_false_left, Bool.and_eq_true, Bool.not_eq_true',
            decide_eq_false_iff_not] at he
          obtain ⟨-, hrules⟩ := hs.embedding he.2
          have hsub : s.embedding_fields.filter (· ≠ name) ⊆ s.embedding_fields :=
            List.filter_subset_self _
          refine ⟨he.1, fun f hf => hrules.ne_nil f (hsub hf),
            fun f hf => hrules.top_level f (hsub hf), hrules.nodup.filter _,
            fun f hf => hrules.unindexed f (hsub hf), fun f hf => ?_⟩
          obtain ⟨a, ha, rfl, htype⟩ := hrules.declared f (hsub hf)
          have hother : a.name ≠ name := of_decide_eq_true (mem_filter.mp hf).2
          exact ⟨a, mem_filter.mpr ⟨ha, decide_eq_true hother⟩, rfl, htype⟩
      · simp only [if_neg hlisted] at h
        obtain rfl := (Prod.mk.inj h).1
        exact (apply_amendment_valid_iff hs happly).mpr fun _ => hlisted

theorem valid_disable_semantic_search (hs : s.Valid casing)
    (h : s.disable_semantic_search = (s', .ok ())) : s'.Valid casing := by
  replace h := update_doc_ok h
  split_ifs at h with hoff
  · cases h
  · obtain rfl := (Prod.mk.inj h).1
    exact { hs with embedding := fun he => absurd he Bool.false_ne_true }

/-- Dropping an index makes its field an attribute. -/
theorem valid_drop_index (hs : s.Valid casing) {field : Text}
    (h : s.drop_index field = (s', .ok ())) : s'.Valid casing := by
  replace h := update_doc_ok h
  split_ifs at h with hid
  · cases h
  cases hfind : s.indices.find? (·.field = field) with
  | none =>
    simp only [hfind] at h
    cases h
  | some spec =>
    obtain ⟨hfield, before, after, hsplit, hbefore⟩ := List.find?_eq_some_iff_append.mp hfind
    obtain rfl : spec.field = field := of_decide_eq_true hfield
    have herase : s.indices.eraseP (·.field = spec.field) = before ++ after := by
      rw [hsplit, List.eraseP_append_right _ fun x hx => by simpa using hbefore x hx,
        List.eraseP_cons_of_pos (by simp)]
    have hsub : (before ++ after).Sublist s.indices := by
      rw [hsplit]
      exact (List.Sublist.refl _).append (List.sublist_cons_self _ _)
    have hindexed : spec.field ∈ s.indexed_field_names := by
      rw [indexed_field_names, hsplit]
      exact List.mem_map_of_mem (mem_append_right _ mem_cons_self)
    have hnew : ¬s.attributes.any (·.name = spec.field) = true := fun hany =>
      (nodup_append'.mp hs.nodup).2.2 hindexed (any_name_iff.mp hany)
    simp only [hfind, herase, if_neg hnew] at h
    obtain rfl := (Prod.mk.inj h).1
    refine { hs with
      indices_le := hsub.length_le.trans hs.indices_le
      index_names := fun spec hspec => hs.index_names spec (hsub.subset hspec)
      attribute_names := ?_, nodup := ?_, embedding := fun he => ?_ }
    · intro a ha
      rcases mem_append.mp ha with ha | ha
      · exact hs.attribute_names a ha
      · rw [mem_singleton.mp ha]
        rintro hempty
        have hname := hs.index_names spec (hsplit ▸ mem_append_right _ mem_cons_self)
        have hbad : spec.field = [] := hempty
        rw [hbad] at hname
        cases hname
    · -- the field's name moves from the indexes to the attributes
      refine (List.Perm.nodup_iff ?_).mp hs.nodup
      simp only [names, indexed_field_names, hsplit, map_append,
        map_cons, List.map_nil]
      rw [← append_assoc]
      refine (List.Perm.append_right _ List.perm_middle).trans ?_
      exact (List.perm_append_singleton _ _).symm
    · obtain ⟨hne, hrules⟩ := hs.embedding he
      exact ⟨hne, hrules.mono (hsub.map _).subset (List.subset_append_left _ _)⟩

variable {engine : Option DocStoreError}

/-- What starting an index has checked. -/
theorem startIndex_ok {spec : IndexSpec} (h : s.startIndex spec engine = .ok ()) :
    validate_index_field_name spec.field = .ok () := by
  rw [startIndex, check_bind_eq_ok, check_bind_eq_ok] at h
  cases hname : validate_index_field_name spec.field with
  | error e =>
    rw [hname] at h
    cases h.2.1
  | ok u => rfl

/-- **A new index** leaves a valid schema just when its field is not embedded. -/
theorem valid_add_index_iff (hs : s.Valid casing) {spec : IndexSpec}
    (h : s.add_index spec engine = (s', .ok ())) :
    s'.Valid casing ↔
      (s.semantic_search_enabled = true → spec.field ∉ s.embedding_fields) := by
  rw [DocStoreSchema.add_index] at h
  cases hstart : s.startIndex spec engine with
  | error e =>
    rw [hstart] at h
    cases h
  | ok u =>
    rw [hstart] at h
    replace h := update_doc_ok h
    split_ifs at h with hknown hfull
    · cases h
    · cases h
    obtain rfl := (Prod.mk.inj h).1
    have hindexed : (s.indices ++ [spec]).map IndexSpec.field =
        s.indexed_field_names ++ [spec.field] := map_append
    constructor
    · intro hv he hlisted
      refine (hv.embedding he).2.unindexed spec.field hlisted ?_
      exact List.mem_map_of_mem (mem_append_right _ mem_cons_self)
    · intro hsafe
      refine { hs with
        indices_le := ?_, index_names := ?_, attribute_names := ?_, nodup := ?_
        embedding := fun he => ?_ }
      · rw [List.length_append]
        exact not_le.mp hfull
      · intro t ht
        rcases mem_append.mp ht with ht | ht
        · exact hs.index_names t ht
        · rw [mem_singleton.mp ht]
          exact startIndex_ok hstart
      · exact fun a ha => hs.attribute_names a (List.mem_of_mem_filter ha)
      · -- the field leaves the attributes for the indexes
        have hunindexed : spec.field ∉ s.indexed_field_names := by
          intro hi
          obtain ⟨t, ht, hsame⟩ := mem_map.mp hi
          exact hknown (any_eq_true.mpr ⟨t, ht, decide_eq_true hsame⟩)
        have hundeclared :
            spec.field ∉ (s.attributes.filter (·.name ≠ spec.field)).map AttributeDef.name := by
          intro hd
          obtain ⟨a, ha, hsame⟩ := mem_map.mp hd
          exact of_decide_eq_true (mem_filter.mp ha).2 hsame
        rw [names, indexed_field_names, hindexed,
          append_assoc, List.singleton_append]
        refine (List.Perm.nodup_iff List.perm_middle.symm).mp (nodup_cons.mpr ⟨?_, ?_⟩)
        · exact fun hmem => (mem_append.mp hmem).elim hunindexed hundeclared
        · exact nodup_filter_attributes hs.nodup _
      · obtain ⟨hne, hrules⟩ := hs.embedding he
        refine ⟨hne, { hrules with unindexed := fun f hf hi => ?_, declared := fun f hf => ?_ }⟩
        · rw [indexed_field_names, hindexed] at hi
          rcases mem_append.mp hi with hi | hi
          · exact hrules.unindexed f hf hi
          · exact hsafe he (mem_singleton.mp hi ▸ hf)
        · obtain ⟨a, ha, rfl, htype⟩ := hrules.declared f hf
          have hother : a.name ≠ spec.field := fun hsame => hsafe he (hsame ▸ hf)
          exact ⟨a, mem_filter.mpr ⟨ha, decide_eq_true hother⟩, rfl, htype⟩

/-- **A change that succeeds** leaves a valid schema just when it is safe. -/
theorem Change.apply_valid_iff (hs : s.Valid casing) (h : c.apply casing s = (s', .ok ())) :
    s'.Valid casing ↔ c.Safe s := by
  cases c with
  | amend amendment => exact apply_amendment_valid_iff hs (amend_ok h)
  | remove_attribute field_name => exact iff_of_true (valid_remove_attribute hs h) trivial
  | disable_semantic_search => exact iff_of_true (valid_disable_semantic_search hs h) trivial
  | drop_index field => exact iff_of_true (valid_drop_index hs h) trivial
  | add_index spec engine => exact valid_add_index_iff hs h

/-! ### Runs of changes -/

section Runs

variable (casing)

/-- In the run, each change that succeeds leaves a schema that `validate` accepts, and each change
that is refused leaves the schema exactly as it was. -/
def StaysValid : DocStoreSchema → List Change → Prop
  | _, [] => True
  | s, c :: cs =>
    (match c.apply casing s with
      | (s', .ok ()) => s'.validate casing = .ok ()
      | (s', .error _) => s' = s) ∧
    StaysValid (c.apply casing s).1 cs

/-- Each change that succeeds in the run is safe for the schema it is made on. -/
def SafeAlong : DocStoreSchema → List Change → Prop
  | _, [] => True
  | s, c :: cs =>
    ((c.apply casing s).2 = .ok () → c.Safe s) ∧ SafeAlong (c.apply casing s).1 cs

variable {casing}

/-- **A schema stays valid** in a run of changes just when each change that succeeds is safe.
Refused changes leave it as it was in any case. -/
theorem staysValid_iff {s : DocStoreSchema} (hs : s.validate casing = .ok ()) (cs : List Change) :
    StaysValid casing s cs ↔ SafeAlong casing s cs := by
  induction cs generalizing s with
  | nil => exact Iff.rfl
  | cons c cs ih =>
    rw [StaysValid, SafeAlong]
    cases hc : c.apply casing s with
    | mk s' res =>
      cases res with
      | error e =>
        have hsame : s' = s := by
          have hkept : (c.apply casing s).1 = s :=
            Change.apply_error (show (c.apply casing s).2 = .error e by rw [hc])
          rwa [hc] at hkept
        subst hsame
        rw [ih hs]
        exact and_congr_left fun _ => iff_of_true rfl nofun
      | ok u =>
        have hsafe := Change.apply_valid_iff (DocStoreSchema.validate_eq_ok.mp hs) hc
        change s'.validate casing = .ok () ∧ StaysValid casing s' cs ↔
          (Except.ok u = Except.ok () → c.Safe s) ∧ SafeAlong casing s' cs
        rw [DocStoreSchema.validate_eq_ok, hsafe]
        constructor
        · rintro ⟨hok, hrest⟩
          exact ⟨fun _ => hok, (ih (DocStoreSchema.validate_eq_ok.mpr (hsafe.mpr hok))).mp hrest⟩
        · rintro ⟨hok, hrest⟩
          have hok := hok rfl
          exact ⟨hok, (ih (DocStoreSchema.validate_eq_ok.mpr (hsafe.mpr hok))).mpr hrest⟩

end Runs

/-- A store with one string attribute `t`, which is embedded. -/
def embeddedStore : DocStoreSchema where
  name := ['a']
  store_type := .doc
  ns_id := some 2
  attributes := [⟨['t'], .str, none⟩]
  indices := []
  semantic_search_enabled := true
  embedding_fields := [['t']]
  vector_index := none

/-- An index is added and dropped, and an attribute of its name is refused. -/
theorem staysValid_iff_of_index :
    embeddedStore.validate Casing.ascii = .ok () ∧
      (StaysValid Casing.ascii embeddedStore
          [.add_index ⟨['b'], .int⟩ none, .amend (.AddAttribute ['b'] .int none),
            .drop_index ['b']] ↔
        SafeAlong Casing.ascii embeddedStore
          [.add_index ⟨['b'], .int⟩ none, .amend (.AddAttribute ['b'] .int none),
            .drop_index ['b']]) :=
  ⟨by decide +kernel, staysValid_iff (by decide +kernel) _⟩

/-- **An index on the embedded field** is added without an error, and `validate` refuses the schema
that it leaves. -/
theorem index_on_embedded_field :
    embeddedStore.validate Casing.ascii = .ok () ∧
      (embeddedStore.add_index ⟨['t'], .str⟩ none).2 = .ok () ∧
      (embeddedStore.add_index ⟨['t'], .str⟩ none).1.validate Casing.ascii =
        .error (.EmbeddingFieldConflict ['t']) ∧
      ¬StaysValid Casing.ascii embeddedStore [.add_index ⟨['t'], .str⟩ none] := by
  have hleft : (embeddedStore.add_index ⟨['t'], .str⟩ none).1.validate Casing.ascii =
      .error (.EmbeddingFieldConflict ['t']) := by decide +kernel
  refine ⟨by decide +kernel, by decide +kernel, hleft, fun h => ?_⟩
  have hvalid : (embeddedStore.add_index ⟨['t'], .str⟩ none).1.validate Casing.ascii = .ok () := h.1
  rw [hleft] at hvalid
  cases hvalid

end StoreSchema

end Minnal
