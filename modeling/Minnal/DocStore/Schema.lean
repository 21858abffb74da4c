import Minnal.DocStore.VectorSettings

/-!
# A document store's schema and its changes

A schema names the store's field indexes, its other declared attributes and, when semantic search is
on, the **embedding fields** whose text is embedded. `validate` checks the rules within and across
the three. It runs when a store is created or imported; every later change checks a selection of the
rules by itself.

The changes are modelled as they act on the schema in place: each returns the schema it leaves and
what it answers, so that a refused change shows what it has done. This module has the rules
(`Valid`) and the changes; what each change leaves of the rules is in
`Minnal.DocStore.SchemaChanges`.
-/

namespace Minnal

variable {s : DocStoreSchema}

namespace StoreSchema

open VectorSettings Checks

/-! ### Schemas -/

inductive StoreType where
  | doc
  | kv
  deriving DecidableEq, Repr

inductive IndexType where
  | bool
  | int
  | str
  deriving DecidableEq, Repr

inductive AttributeType where
  | bool
  | int
  | str
  deriving DecidableEq, Repr

/-- A declared field without an index. -/
structure AttributeDef where
  name : Text
  attr_type : AttributeType
  description : Option Text
  deriving DecidableEq, Repr

structure IndexSpec where
  field : Text
  index_type : IndexType
  deriving DecidableEq, Repr

structure DocStoreSchema where
  /-- The store's namespace. -/
  name : Text
  store_type : StoreType
  ns_id : Option ℕ
  attributes : List AttributeDef
  indices : List IndexSpec
  semantic_search_enabled : Bool
  /-- The fields whose text is embedded; ignored while semantic search is off. -/
  embedding_fields : List Text
  vector_index : Option VectorIndexSpec
  deriving DecidableEq, Repr

def MAX_INDICES : ℕ := 5

def SYSTEM_NAMESPACE : Text := ['s', 'y', 's', 't', 'e', 'm']

def QUERY_KEYWORDS : List Text :=
  [['a', 'n', 'd'], ['o', 'r'], ['n', 'o', 't'], ['i', 'n'], ['t', 'r', 'u', 'e'],
    ['f', 'a', 'l', 's', 'e']]

/-! ### Validation -/

def validate_store_name (name : Text) : Except SchemaError Unit := do
  refuse (name = [] ∨ ¬name.all (fun c => c.isAlphanum || c == '_' || c == '-')) .InvalidNamespace
  refuse (name = SYSTEM_NAMESPACE ∨ (SYSTEM_NAMESPACE ++ ['_']).isPrefixOf name)
    (.ReservedNamespace name)

/-- An index field is an identifier that is no keyword of the query language in any case. -/
def validate_index_field_name (field : Text) : Except SchemaError Unit := do
  refuse (¬field.head?.any (fun c => c.isAlpha || c == '_'))
    (.InvalidFieldName field "an index field name must start with a letter or '_'")
  refuse (¬field.tail.all (fun c => c.isAlphanum || c == '_'))
    (.InvalidFieldName field
      "an index field name may contain only letters, digits and '_' (no '.', '-' or spaces)")
  refuse (field.map Char.toLower ∈ QUERY_KEYWORDS)
    (.InvalidFieldName field
      "an index field name cannot be a query keyword (AND, OR, NOT, IN, TRUE, FALSE)")

namespace DocStoreSchema

def indexed_field_names (s : DocStoreSchema) : List Text := s.indices.map IndexSpec.field

/-- The names of the attributes declared as strings. -/
def str_attributes (s : DocStoreSchema) : List Text :=
  (s.attributes.filter (·.attr_type = .str)).map AttributeDef.name

/-- The names of the indexes, each checked and none of them twice. -/
def checkIndices (s : DocStoreSchema) : Except SchemaError (List Text) :=
  checkDistinct
    (fun p : IndexSpec × ℕ => do
      refuse (p.1.field = []) (.EmptyFieldName p.2)
      validate_index_field_name p.1.field)
    (fun _ => .ok ()) (fun p => p.1.field) (fun p => .DuplicateFieldName p.1.field) []
    s.indices.zipIdx

/-- The names of the attributes, none of them empty, seen or twice. -/
def checkAttributes (s : DocStoreSchema) (seen : List Text) : Except SchemaError (List Text) :=
  checkDistinct (fun a : AttributeDef => refuse (a.name = []) .EmptyAttributeName)
    (fun _ => .ok ()) AttributeDef.name (fun a => .DuplicateFieldName a.name) seen s.attributes

/-- The embedding fields: top-level string attributes without an index, none of them twice. -/
def checkEmbeddingFields (s : DocStoreSchema) : Except SchemaError (List Text) :=
  checkDistinct
    (fun f : Text => do
      refuse (f = []) .SemanticSearchMissingField
      refuse ('.' ∈ f)
        (.InvalidFieldName f "an embedding field must be a top-level key (no '.')"))
    (fun f => do
      refuse (f ∈ s.indexed_field_names) (.EmbeddingFieldConflict f)
      refuse (f ∉ s.str_attributes) (.EmbeddingFieldNotString f))
    id .DuplicateFieldName [] s.embedding_fields

def checkEmbedding (s : DocStoreSchema) : Except SchemaError Unit := do
  refuse (s.embedding_fields = []) .SemanticSearchMissingField
  let _ ← s.checkEmbeddingFields

variable (casing : Casing)

def validate (s : DocStoreSchema) : Except SchemaError Unit := do
  refuse (s.store_type ≠ .doc) (.WrongStoreType s.name "doc" "kv")
  validate_store_name s.name
  refuse (MAX_INDICES < s.indices.length) (.TooManyIndices s.indices.length MAX_INDICES)
  let seen ← s.checkIndices
  let _ ← s.checkAttributes seen
  (if s.semantic_search_enabled = true then s.checkEmbedding else .ok () : Except SchemaError Unit)
  let _ ← s.vector_index.mapM (VectorIndexSpec.resolve casing)

end DocStoreSchema

/-! ### The rules -/

/-- The rules on embedding fields. -/
structure EmbeddingRules (indexed : List Text) (attributes : List AttributeDef)
    (fields : List Text) : Prop where
  ne_nil : ∀ f ∈ fields, f ≠ []
  top_level : ∀ f ∈ fields, '.' ∉ f
  nodup : fields.Nodup
  unindexed : ∀ f ∈ fields, f ∉ indexed
  declared : ∀ f ∈ fields, ∃ a ∈ attributes, a.name = f ∧ a.attr_type = .str

/-- The names of the indexes and of the attributes, which share one space of names. -/
def DocStoreSchema.names (s : DocStoreSchema) : List Text :=
  s.indexed_field_names ++ s.attributes.map AttributeDef.name

/-- **The rules of a schema.** -/
structure DocStoreSchema.Valid (casing : Casing) (s : DocStoreSchema) : Prop where
  store_type : s.store_type = .doc
  name : validate_store_name s.name = .ok ()
  indices_le : s.indices.length ≤ MAX_INDICES
  index_names : ∀ spec ∈ s.indices, validate_index_field_name spec.field = .ok ()
  attribute_names : ∀ a ∈ s.attributes, a.name ≠ []
  nodup : s.names.Nodup
  embedding : s.semantic_search_enabled = true → s.embedding_fields ≠ [] ∧
    EmbeddingRules s.indexed_field_names s.attributes s.embedding_fields
  settings : ∀ spec ∈ s.vector_index, ∃ settings, spec.resolve casing = .ok settings

theorem mem_str_attributes {f : Text} :
    f ∈ s.str_attributes ↔ ∃ a ∈ s.attributes, a.name = f ∧ a.attr_type = .str := by
  simp only [DocStoreSchema.str_attributes, List.mem_map, List.mem_filter, decide_eq_true_eq]
  exact ⟨fun ⟨a, ⟨ha, htype⟩, hname⟩ => ⟨a, ha, hname, htype⟩,
    fun ⟨a, ha, hname, htype⟩ => ⟨a, ⟨ha, htype⟩, hname⟩⟩

theorem checkIndices_eq_ok {seen : List Text} :
    s.checkIndices = .ok seen ↔
      (∀ spec ∈ s.indices, validate_index_field_name spec.field = .ok ()) ∧
        s.indexed_field_names.Nodup ∧ seen = s.indexed_field_names.reverse := by
  have hfst : s.indices.zipIdx.map Prod.fst = s.indices := List.zipIdx_map_fst 0 s.indices
  have hkeys : s.indices.zipIdx.map (fun p => p.1.field) = s.indexed_field_names := by
    conv_rhs => rw [DocStoreSchema.indexed_field_names, ← hfst, List.map_map]
    rfl
  -- an empty name is no identifier either
  have hempty : ∀ field, validate_index_field_name field = .ok () → field ≠ [] := by
    rintro field h rfl
    cases h
  have hall : (∀ p ∈ s.indices.zipIdx, validate_index_field_name p.1.field = .ok ()) ↔
      ∀ spec ∈ s.indices, validate_index_field_name spec.field = .ok () := by
    conv_rhs => rw [← hfst, List.forall_mem_map]
  rw [DocStoreSchema.checkIndices, checkDistinct_eq_ok, hkeys]
  simp only [check_bind_eq_ok, refuse_eq_ok, and_true, List.not_mem_nil, not_false_eq_true,
    implies_true, true_and, List.append_nil]
  constructor
  · rintro ⟨hnames, hnodup, rfl⟩
    exact ⟨hall.mp fun p hp => (hnames p hp).2, hnodup, rfl⟩
  · rintro ⟨hnames, hnodup, rfl⟩
    have hnames := hall.mpr hnames
    exact ⟨fun p hp => ⟨hempty _ (hnames p hp), hnames p hp⟩, hnodup, rfl⟩

theorem checkAttributes_eq_ok {seen out : List Text} :
    s.checkAttributes seen = .ok out ↔
      (∀ a ∈ s.attributes, a.name ≠ []) ∧ (s.attributes.map AttributeDef.name).Nodup ∧
        (∀ a ∈ s.attributes, a.name ∉ seen) ∧
        out = (s.attributes.map AttributeDef.name).reverse ++ seen := by
  rw [DocStoreSchema.checkAttributes, checkDistinct_eq_ok]
  simp only [refuse_eq_ok, and_true]

theorem checkEmbedding_eq_ok {u : Unit} :
    s.checkEmbedding = .ok u ↔ s.embedding_fields ≠ [] ∧
      EmbeddingRules s.indexed_field_names s.attributes s.embedding_fields := by
  have hloop : (∃ seen, s.checkEmbeddingFields = .ok seen) ↔
      EmbeddingRules s.indexed_field_names s.attributes s.embedding_fields := by
    simp only [DocStoreSchema.checkEmbeddingFields, checkDistinct_eq_ok, check_bind_eq_ok,
      refuse_eq_ok, List.map_id, not_not, mem_str_attributes]
    constructor
    · rintro ⟨_, hall, hnodup, -, -⟩
      exact ⟨fun f hf => (hall f hf).1.1, fun f hf => (hall f hf).1.2, hnodup,
        fun f hf => (hall f hf).2.1, fun f hf => (hall f hf).2.2⟩
    · rintro ⟨hne, htop, hnodup, hunindexed, hdeclared⟩
      exact ⟨_, fun f hf => ⟨⟨hne f hf, htop f hf⟩, hunindexed f hf, hdeclared f hf⟩, hnodup,
        fun _ _ => List.not_mem_nil, rfl⟩
  rw [DocStoreSchema.checkEmbedding, check_bind_eq_ok, refuse_eq_ok, bind_eq_ok, ← hloop]
  refine and_congr Iff.rfl (exists_congr fun seen => ?_)
  exact and_iff_left rfl

/-- `validate` checks the rules. -/
theorem DocStoreSchema.validate_eq_ok {casing : Casing} :
    s.validate casing = .ok () ↔ s.Valid casing := by
  have hsettings : (∃ r, s.vector_index.mapM (VectorIndexSpec.resolve casing) = .ok r) ↔
      ∀ spec ∈ s.vector_index, ∃ settings, spec.resolve casing = .ok settings := by
    cases s.vector_index with
    | none => exact iff_of_true ⟨none, rfl⟩ fun _ h => absurd h (Option.not_mem_none _)
    | some spec =>
      simp only [Option.mem_def, Option.some.injEq, forall_eq']
      constructor
      · rintro ⟨r, h⟩
        obtain ⟨settings, hs, -⟩ := bind_eq_ok.mp h
        exact ⟨settings, hs⟩
      · rintro ⟨settings, hs⟩
        exact ⟨some settings, bind_eq_ok.mpr ⟨settings, hs, rfl⟩⟩
  have hembedding : (if s.semantic_search_enabled = true then s.checkEmbedding else .ok ()) =
      .ok () ↔ (s.semantic_search_enabled = true → s.embedding_fields ≠ [] ∧
        EmbeddingRules s.indexed_field_names s.attributes s.embedding_fields) := by
    split
    · next h => rw [checkEmbedding_eq_ok, imp_iff_right h]
    · next h => exact iff_of_true rfl fun h' => absurd h' h
  rw [DocStoreSchema.validate, check_bind_eq_ok, refuse_eq_ok, not_not, check_bind_eq_ok,
    check_bind_eq_ok, refuse_eq_ok, not_lt, bind_eq_ok]
  constructor
  · rintro ⟨htype, hname, hlen, seen, hseen, h⟩
    obtain ⟨hnames, hnodup, rfl⟩ := checkIndices_eq_ok.mp hseen
    obtain ⟨out, hout, h⟩ := bind_eq_ok.mp h
    obtain ⟨hattrs, hattrsNodup, hnew, -⟩ := checkAttributes_eq_ok.mp hout
    obtain ⟨hemb, h⟩ := check_bind_eq_ok.mp h
    obtain ⟨r, hr, -⟩ := bind_eq_ok.mp h
    refine ⟨htype, hname, hlen, hnames, hattrs, ?_, hembedding.mp hemb, hsettings.mp ⟨r, hr⟩⟩
    refine List.nodup_append'.mpr ⟨hnodup, hattrsNodup, ?_⟩
    intro f hindexed hattr
    obtain ⟨a, ha, rfl⟩ := List.mem_map.mp hattr
    exact hnew a ha (List.mem_reverse.mpr hindexed)
  · rintro ⟨htype, hname, hlen, hnames, hattrs, hnodup, hemb, hset⟩
    obtain ⟨hindexed, hattrsNodup, hdisjoint⟩ := List.nodup_append'.mp hnodup
    obtain ⟨r, hr⟩ := hsettings.mpr hset
    refine ⟨htype, hname, hlen, _, checkIndices_eq_ok.mpr ⟨hnames, hindexed, rfl⟩,
      bind_eq_ok.mpr ⟨_, checkAttributes_eq_ok.mpr ⟨hattrs, hattrsNodup, ?_, rfl⟩,
        check_bind_eq_ok.mpr ⟨hembedding.mpr hemb, bind_eq_ok.mpr ⟨r, hr, rfl⟩⟩⟩⟩
    intro a ha hseen
    exact hdisjoint (List.mem_reverse.mp hseen) (List.mem_map_of_mem ha)

/-! ### Changes -/

/-- A change of a schema applied by `amend`. -/
inductive SchemaAmendment where
  | AddAttribute (name : Text) (attr_type : AttributeType) (description : Option Text)
  | RemoveAttribute (name : Text)
  | UpdateAttribute (name : Text) (attr_type : AttributeType) (description : Option Text)
  | AddEmbeddingAttribute (name : Text) (description : Option Text)
      (vector_index : Option VectorIndexSpec)
  | EnableVectorIndex (fields : List Text) (vector_index : Option VectorIndexSpec)
  | UpdateVectorSearch (search : SearchSpec) (maintenance : Option MaintenanceSpec)
  deriving DecidableEq, Repr

/-- The errors of the store's operations on a schema. -/
inductive DocStoreError where
  | Schema (e : SchemaError)
  | AttributeIsIndexed (name field : Text)
  | SemanticSearchNotEnabled (name : Text)
  | MissingNsId (name : Text)
  | IndexNotFound (name field : Text)
  | IndexAlreadyExists (name field : Text)
  | IndexBuildInProgress (name field : Text)
  /-- The engine could not register or activate an index. -/
  | Engine (reason : Text)
  deriving DecidableEq, Repr

namespace DocStoreSchema

variable (casing : Casing)

/-- One field of a new vector index: declared as a string attribute unless it is an attribute. -/
def enableField (s : DocStoreSchema) (name : Text) : DocStoreSchema :=
  { s with
    attributes := if s.attributes.any (·.name = name) then s.attributes
      else s.attributes ++ [⟨name, .str, none⟩]
    embedding_fields := s.embedding_fields ++ [name] }

/-- The first attribute of that name gets another type and description. -/
def updateAttribute (name : Text) (attr_type : AttributeType) (description : Option Text) :
    List AttributeDef → List AttributeDef
  | [] => []
  | a :: l =>
    if a.name = name then { a with attr_type := attr_type, description := description } :: l
    else a :: updateAttribute name attr_type description l

/-- The fields of a new vector index: non-empty, none of them twice, without an index, and of
string type where they are attributes. -/
def checkNewFields (s : DocStoreSchema) (fields : List Text) : Except SchemaError (List Text) :=
  checkDistinct (fun f : Text => refuse (f = []) .SemanticSearchMissingField)
    (fun f => do
      refuse (f ∈ s.indexed_field_names) (.EmbeddingFieldConflict f)
      refuse (s.attributes.any (fun a => a.name = f ∧ a.attr_type ≠ .str))
        (.EmbeddingFieldNotString f))
    id .DuplicateFieldName [] fields

/-- Apply an amendment in place. -/
def apply_amendment (s : DocStoreSchema) (amendment : SchemaAmendment) :
    DocStoreSchema × Except SchemaError Unit :=
  match amendment with
  | .AddAttribute name attr_type description =>
    if name ∈ s.indexed_field_names then (s, .error (.AttributeIsIndexed name))
    else if s.attributes.any (·.name = name) then (s, .error (.DuplicateFieldName name))
    else ({ s with attributes := s.attributes ++ [⟨name, attr_type, description⟩] }, .ok ())
  | .RemoveAttribute name =>
    if name ∈ s.indexed_field_names then (s, .error (.AttributeIsIndexed name))
    else
      let s' := { s with attributes := s.attributes.filter (·.name ≠ name) }
      if s'.attributes.length = s.attributes.length then (s', .error (.AttributeNotFound name))
      else (s', .ok ())
  | .UpdateAttribute name attr_type description =>
    if name ∈ s.indexed_field_names then (s, .error (.AttributeIsIndexed name))
    else if s.attributes.any (·.name = name) then
      ({ s with attributes := updateAttribute name attr_type description s.attributes }, .ok ())
    else (s, .error (.AttributeNotFound name))
  | .AddEmbeddingAttribute name description vector_index =>
    if s.semantic_search_enabled = true then (s, .error (.SemanticSearchAlreadyEnabled s.name))
    else if name = [] then (s, .error .EmptyAttributeName)
    else if name ∈ s.indexed_field_names then (s, .error (.EmbeddingFieldConflict name))
    else if s.attributes.any (·.name = name) then (s, .error (.DuplicateFieldName name))
    else if name ∈ s.embedding_fields then (s, .error (.DuplicateFieldName name))
    else
      match settle casing s.vector_index vector_index {} with
      | .error e => (s, .error e)
      | .ok settled =>
        ({ s with
            vector_index := some settled
            attributes := s.attributes ++ [⟨name, .str, description⟩]
            embedding_fields := s.embedding_fields ++ [name]
            semantic_search_enabled := true }, .ok ())
  | .EnableVectorIndex fields vector_index =>
    if s.semantic_search_enabled = true then (s, .error (.SemanticSearchAlreadyEnabled s.name))
    else if fields = [] then (s, .error .SemanticSearchMissingField)
    else
      -- every field is checked before the first is applied
      match s.checkNewFields fields with
      | .error e => (s, .error e)
      | .ok _ =>
        match settle casing s.vector_index vector_index {} with
        | .error e => (s, .error e)
        | .ok settled =>
          ({ fields.foldl enableField { s with vector_index := some settled } with
              semantic_search_enabled := true }, .ok ())
  | .UpdateVectorSearch search maintenance =>
    match update_search casing s.vector_index s.name search maintenance with
    | .error e => (s, .error e)
    | .ok spec => ({ s with vector_index := some spec }, .ok ())

end DocStoreSchema

/-- A change as the store's operations make it. -/
inductive Change where
  | amend (amendment : SchemaAmendment)
  | remove_attribute (field_name : Text)
  | disable_semantic_search
  | drop_index (field : Text)
  /-- `engine` is the error with which registering or activating the index fails, if it does. -/
  | add_index (spec : IndexSpec) (engine : Option DocStoreError)
  deriving DecidableEq, Repr

def index_type_to_attr_type : IndexType → AttributeType
  | .bool => .bool
  | .int => .int
  | .str => .str

/-- What the attribute of a dropped index says of it. -/
def previouslyIndexed : Text :=
  "previously indexed; field data is still present in stored documents".toList

namespace DocStoreSchema

variable (casing : Casing)

/-- A change of the stored schema: made on a copy, which is stored when the change succeeds. -/
def update_doc (s : DocStoreSchema)
    (f : DocStoreSchema → DocStoreSchema × Except DocStoreError Unit) :
    DocStoreSchema × Except DocStoreError Unit :=
  match f s with
  | (s', .ok u) => (s', .ok u)
  | (_, .error e) => (s, .error e)

/-- A schema error as the store reports it. -/
def storeError (s : DocStoreSchema) : SchemaError → DocStoreError
  | .AttributeIsIndexed field => .AttributeIsIndexed s.name field
  | e => .Schema e

def amend (s : DocStoreSchema) (amendment : SchemaAmendment) :
    DocStoreSchema × Except DocStoreError Unit :=
  let (s', res) := s.apply_amendment casing amendment
  (s', res.mapError s.storeError)

def remove_attribute (s : DocStoreSchema) (field_name : Text) :
    DocStoreSchema × Except DocStoreError Unit :=
  s.update_doc fun s =>
    let was_embedding_field := field_name ∈ s.embedding_fields
    match s.amend casing (.RemoveAttribute field_name) with
    | (s', .error e) => (s', .error e)
    | (s', .ok ()) =>
      if was_embedding_field then
        let fields := s'.embedding_fields.filter (· ≠ field_name)
        ({ s' with
            embedding_fields := fields
            semantic_search_enabled :=
              if fields = [] then false else s'.semantic_search_enabled }, .ok ())
      else (s', .ok ())

def disable_semantic_search (s : DocStoreSchema) : DocStoreSchema × Except DocStoreError Unit :=
  s.update_doc fun s =>
    if s.semantic_search_enabled = false ∧ s.embedding_fields = [] then
      (s, .error (.SemanticSearchNotEnabled s.name))
    else ({ s with semantic_search_enabled := false, embedding_fields := [] }, .ok ())

def drop_index (s : DocStoreSchema) (field : Text) : DocStoreSchema × Except DocStoreError Unit :=
  s.update_doc fun s =>
    if s.ns_id = none then (s, .error (.MissingNsId s.name))
    else
      match s.indices.find? (·.field = field) with
      | none => (s, .error (.IndexNotFound s.name field))
      | some spec =>
        let s' := { s with indices := s.indices.eraseP (·.field = field) }
        -- the field stays documented as an attribute
        if s'.attributes.any (·.name = spec.field) then (s', .ok ())
        else
          ({ s' with
              attributes := s'.attributes ++
                [⟨spec.field, index_type_to_attr_type spec.index_type, some previouslyIndexed⟩] },
            .ok ())

/-- What comes before the schema's update: the index's own checks, and its registration and
activation in the engine. -/
def startIndex (s : DocStoreSchema) (spec : IndexSpec) (engine : Option DocStoreError) :
    Except DocStoreError Unit := do
  refuse (s.ns_id = none) (.MissingNsId s.name)
  (validate_index_field_name spec.field).mapError .Schema
  refuse (s.indices.any (·.field = spec.field)) (.IndexAlreadyExists s.name spec.field)
  refuse (MAX_INDICES ≤ s.indices.length)
    (.Schema (.TooManyIndices (s.indices.length + 1) MAX_INDICES))
  engine.elim (.ok ()) .error

def add_index (s : DocStoreSchema) (spec : IndexSpec) (engine : Option DocStoreError) :
    DocStoreSchema × Except DocStoreError Unit :=
  match s.startIndex spec engine with
  | .error e => (s, .error e)
  | .ok () =>
    s.update_doc fun s =>
      if s.indices.any (·.field = spec.field) then
        (s, .error (.IndexAlreadyExists s.name spec.field))
      else if MAX_INDICES ≤ s.indices.length then
        (s, .error (.Schema (.TooManyIndices (s.indices.length + 1) MAX_INDICES)))
      else
        ({ s with
            attributes := s.attributes.filter (·.name ≠ spec.field)
            indices := s.indices ++ [spec] }, .ok ())

end DocStoreSchema

/-- The schema a change leaves, and what it answers. -/
def Change.apply (casing : Casing) (s : DocStoreSchema) :
    Change → DocStoreSchema × Except DocStoreError Unit
  | .amend amendment => s.amend casing amendment
  | .remove_attribute field_name => s.remove_attribute casing field_name
  | .disable_semantic_search => s.disable_semantic_search
  | .drop_index field => s.drop_index field
  | .add_index spec engine => s.add_index spec engine

end StoreSchema

end Minnal
