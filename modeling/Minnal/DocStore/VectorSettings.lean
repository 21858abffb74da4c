import Minnal.Library.Checks
import Mathlib

/-!
# Vector-index settings

A namespace describes its vector index by a **spec**, in which every field may be omitted. The
engine runs with the **settings** that a spec resolves to: omitted fields are filled in, a name is
lower-cased, a seed is read from its hex text, and every range and cross-field rule is checked. What
a schema saves is the filled-in spec, so it is resolved again at every load.

This module has the checks, the filling-in (`resolve_with`), the merge onto settings a namespace
already has (`merge_onto`) and the two entry points (`settle`, `update_search`), with one lemma for
each check that says when it passes.
-/

namespace Minnal

variable {u : Unit} {m : Text} {casing : Casing} {s : VectorIndexSettings}

namespace VectorSettings

/-! ### Text -/

/-- A string, as its characters. -/
abbrev Text := List Char

/-- The bytes of a string in UTF-8. -/
def len (s : Text) : ℕ := (s.map Char.utf8Size).sum

/-- The white space that trimming takes off both ends of a string. -/
def is_whitespace (c : Char) : Bool :=
  let n := c.toNat
  (9 ≤ n && n ≤ 13) || n == 0x20 || n == 0x85 || n == 0xa0 || n == 0x1680 ||
    (0x2000 ≤ n && n ≤ 0x200a) || n == 0x2028 || n == 0x2029 || n == 0x202f || n == 0x205f ||
    n == 0x3000

def trim (s : Text) : Text := (s.dropWhile is_whitespace).rdropWhile is_whitespace

/-- A character a model name may hold. -/
def isNameChar (c : Char) : Bool :=
  c.isLower || c.isDigit || c == '.' || c == '_' || c == '-'

/-- **Lower-casing** by the Unicode tables. Which tables is left open; a name of lower-case letters,
digits and punctuation stays as it is under all of them. -/
structure Casing where
  to_lowercase : Text → Text
  to_lowercase_name : ∀ m : Text, (∀ c ∈ m, isNameChar c = true) → to_lowercase m = m

/-! ### Errors -/

/-- A real-valued setting, by the bits of its double: settings are compared by their bits. -/
structure Ratio where
  to_bits : UInt64
  deriving DecidableEq, Repr

namespace Ratio

/-- The exponent is not that of an infinity or of a NaN. -/
def is_finite (r : Ratio) : Bool := r.to_bits.toNat / 2 ^ 52 % 2 ^ 11 != 2047

/-- `0.0 < r` of a finite double: the sign bit is clear and another bit is set. -/
def positive (r : Ratio) : Bool := 0 < r.to_bits.toNat && r.to_bits.toNat < 2 ^ 63

/-- `r < 0.5` of a positive double: positive doubles are ordered as their bits. -/
def below_half (r : Ratio) : Bool := r.to_bits.toNat < 0x3fe0000000000000

end Ratio

/-- Why a setting is refused, with the values its message names. -/
inductive Reason where
  /-- must be between `min` and `max`, got `value` -/
  | between (min max value : ℕ)
  /-- must not be empty -/
  | mustNotBeEmpty
  /-- must be at most `max` characters, got `length` -/
  | tooLong (max length : ℕ)
  /-- may only contain a-z, 0-9, '.', '_' and '-', got `c` in `model` -/
  | mayOnlyContain (c : Char) (model : Text)
  /-- must be even (the rotation needs it), got `dim` -/
  | mustBeEven (dim : ℕ)
  /-- must be between 1 and window_size (`window`), got `sliding`; a larger step would skip
  sentences -/
  | skipsSentences (window sliding : ℕ)
  /-- must be a hex string like "0x6d696e6e616c0001", got `s` -/
  | mustBeHexString (s : Text)
  /-- must have 1 to 16 hex digits, got `s` -/
  | hexDigitCount (s : Text)
  /-- is not hex: `s` -/
  | isNotHex (s : Text)
  /-- must be one of `widths`, got `pass1` -/
  | mustBeOneOf (widths : List ℕ) (pass1 : ℕ)
  /-- is read-only and must be `bits`, got `pass2` -/
  | readOnlyBits (bits pass2 : ℕ)
  /-- is read-only and must be `centre`, got `given` -/
  | readOnlyCentre (centre given : Text)
  /-- must be at most max_probes (`max_probes`), got `min_probes` -/
  | atMostMaxProbes (max_probes min_probes : ℕ)
  /-- must be at most first_pass_top_k (`first_pass_top_k`), got `top_k`; Pass 2 can only return
  what Pass 1 hands it -/
  | atMostFirstPass (first_pass_top_k top_k : ℕ)
  /-- must be greater than 0 and below 0.5 (a merged posting must stay under the split limit),
  got `r` -/
  | mergeRatio (r : Ratio)
  /-- must be greater than 0, got `f` -/
  | greaterThanZero (f : Ratio)
  /-- update must set at least one search or maintenance setting -/
  | nothingToUpdate
  deriving DecidableEq, Repr

/-- The errors of a schema and of its vector settings. -/
inductive SchemaError where
  | WrongStoreType (name : Text) (expected found : String)
  | InvalidNamespace
  | ReservedNamespace (name : Text)
  | TooManyIndices (count max : ℕ)
  | EmptyFieldName (index : ℕ)
  | EmptyAttributeName
  | DuplicateFieldName (field : Text)
  | InvalidFieldName (field : Text) (reason : String)
  | AttributeIsIndexed (name : Text)
  | AttributeNotFound (name : Text)
  | SemanticSearchMissingField
  | EmbeddingFieldConflict (field : Text)
  | SemanticSearchAlreadyEnabled (name : Text)
  | EmbeddingFieldNotString (field : Text)
  | InvalidVectorSetting (field : String) (reason : Reason)
  | VectorSettingFixed (field : String) (current requested : Text)
  | VectorIndexNotConfigured (name : Text)
  deriving DecidableEq, Repr

def invalid (field : String) (reason : Reason) : SchemaError := .InvalidVectorSetting field reason

/-! ### Constants -/

def DEFAULT_EMBEDDING_MODEL : Text := ['g', 'e', 'm', 'm', 'a']
def MAX_EMBEDDING_MODEL_LEN : ℕ := 64
def DEFAULT_EMBEDDING_DIM : ℕ := 768
def MIN_EMBEDDING_DIM : ℕ := 8
def MAX_EMBEDDING_DIM : ℕ := 4096
def DEFAULT_WINDOW_SIZE : ℕ := 4
def MAX_WINDOW_SIZE : ℕ := 64
def DEFAULT_SLIDING_SIZE : ℕ := 2
def DEFAULT_ROTATION_SEED : UInt64 := 0x6d696e6e616c0001
def PASS1_BITS : ℕ := 1
def PASS1_WIDTHS : List ℕ := [1, 2, 4]
def PASS2_BITS : ℕ := 8
def PASS2_CENTRE : Text := ['z', 'e', 'r', 'o']
def DEFAULT_MIN_PROBES : ℕ := 1
def DEFAULT_MAX_PROBES : ℕ := 256
def MAX_PROBES : ℕ := 4096
def DEFAULT_FIRST_PASS_TOP_K : ℕ := 1000
def MAX_FIRST_PASS_TOP_K : ℕ := 10000
def DEFAULT_TOP_K : ℕ := 100
def MAX_TOP_K : ℕ := 1000
def DEFAULT_TARGET_POSTING_SIZE : ℕ := 128
def MIN_TARGET_POSTING_SIZE : ℕ := 16
def MAX_TARGET_POSTING_SIZE : ℕ := 65536
def DEFAULT_REASSIGN_RANGE : ℕ := 64
def MAX_REASSIGN_RANGE : ℕ := 1024
/-- The double nearest to 10 / 118. -/
def DEFAULT_MERGE_RATIO : Ratio := ⟨0x3fb5b1e5f75270d0⟩
def DEFAULT_SPLIT_SAMPLES : ℕ := 1000
def DEFAULT_SPLIT_INIT_TRIALS : ℕ := 3
def DEFAULT_SPLIT_MAX_ITERS : ℕ := 100
/-- The double 100.0. -/
def DEFAULT_SPLIT_LAMBDA_FACTOR : Ratio := ⟨0x4059000000000000⟩

/-! ### Specs and settings -/

structure ChunkingSpec where
  window_size : Option ℕ := none
  sliding_size : Option ℕ := none
  deriving DecidableEq, Repr, Inhabited

structure QuantisationSpec where
  pass1_bits : Option ℕ := none
  pass2_bits : Option ℕ := none
  rotation_seed : Option Text := none
  pass2_centre : Option Text := none
  deriving DecidableEq, Repr, Inhabited

structure SearchSpec where
  min_probes : Option ℕ := none
  max_probes : Option ℕ := none
  first_pass_top_k : Option ℕ := none
  top_k : Option ℕ := none
  deriving DecidableEq, Repr, Inhabited

structure MaintenanceSpec where
  target_posting_size : Option ℕ := none
  reassign_range : Option ℕ := none
  merge_ratio : Option Ratio := none
  skip_uncertain_moves : Option Bool := none
  split_samples : Option ℕ := none
  split_init_trials : Option ℕ := none
  split_max_iters : Option ℕ := none
  split_lambda_factor : Option Ratio := none
  deriving DecidableEq, Repr, Inhabited

/-- A namespace's settings as a schema or a request writes them. -/
structure VectorIndexSpec where
  embedding_model : Option Text := none
  embedding_dim : Option ℕ := none
  chunking : Option ChunkingSpec := none
  quantisation : Option QuantisationSpec := none
  search : Option SearchSpec := none
  maintenance : Option MaintenanceSpec := none
  deriving DecidableEq, Repr, Inhabited

structure SearchSettings where
  min_probes : ℕ := DEFAULT_MIN_PROBES
  max_probes : ℕ := DEFAULT_MAX_PROBES
  first_pass_top_k : ℕ := DEFAULT_FIRST_PASS_TOP_K
  top_k : ℕ := DEFAULT_TOP_K
  deriving DecidableEq, Repr

structure MaintenanceSettings where
  target_posting_size : ℕ := DEFAULT_TARGET_POSTING_SIZE
  reassign_range : ℕ := DEFAULT_REASSIGN_RANGE
  merge_ratio : Ratio := DEFAULT_MERGE_RATIO
  skip_uncertain_moves : Bool := false
  split_samples : ℕ := DEFAULT_SPLIT_SAMPLES
  split_init_trials : ℕ := DEFAULT_SPLIT_INIT_TRIALS
  split_max_iters : ℕ := DEFAULT_SPLIT_MAX_ITERS
  split_lambda_factor : Ratio := DEFAULT_SPLIT_LAMBDA_FACTOR
  deriving DecidableEq, Repr

/-- The defaults a namespace's settings are filled with when semantic search is first enabled. -/
structure IndexDefaults where
  search : SearchSettings := {}
  maintenance : MaintenanceSettings := {}
  deriving DecidableEq, Repr

/-- The resolved settings of a namespace. -/
structure VectorIndexSettings where
  embedding_model : Text
  embedding_dim : ℕ
  window_size : ℕ
  sliding_size : ℕ
  pass1_bits : ℕ
  pass2_bits : ℕ
  rotation_seed : UInt64
  pass2_centre : Text
  search : SearchSettings
  maintenance : MaintenanceSettings
  deriving DecidableEq, Repr

/-! ### Checks -/

open Checks

def check_range (field : String) (value min max : ℕ) : Except SchemaError Unit :=
  refuse (value < min ∨ max < value) (invalid field (.between min max value))

section Model

variable (casing : Casing)

/-- The check of a trimmed, lower-cased model name. -/
def normalise_model (model : Text) : Except SchemaError Text :=
  let m := casing.to_lowercase (trim model)
  if m = [] then .error (invalid "embedding_model" .mustNotBeEmpty)
  else if MAX_EMBEDDING_MODEL_LEN < len m then
    .error (invalid "embedding_model" (.tooLong MAX_EMBEDDING_MODEL_LEN (len m)))
  else
    match m.find? (fun c => !isNameChar c) with
    | some c => .error (invalid "embedding_model" (.mayOnlyContain c model))
    | none => .ok m

end Model

def check_dim (dim : ℕ) : Except SchemaError Unit := do
  check_range "embedding_dim" dim MIN_EMBEDDING_DIM MAX_EMBEDDING_DIM
  refuse (dim % 2 ≠ 0) (invalid "embedding_dim" (.mustBeEven dim))

def check_chunking (window sliding : ℕ) : Except SchemaError Unit := do
  check_range "chunking.window_size" window 1 MAX_WINDOW_SIZE
  refuse (sliding < 1 ∨ window < sliding)
    (invalid "chunking.sliding_size" (.skipsSentences window sliding))

/-- The value of a hex digit. -/
def to_digit (c : Char) : Option ℕ :=
  if '0' ≤ c ∧ c ≤ '9' then some (c.toNat - 48)
  else if 'a' ≤ c ∧ c ≤ 'f' then some (c.toNat - 87)
  else if 'A' ≤ c ∧ c ≤ 'F' then some (c.toNat - 55)
  else none

/-- Digits read from the left, onto what is read so far. -/
def readDigits (n : ℕ) (digits : Text) : Option ℕ :=
  digits.foldlM (fun n c => (to_digit c).map (16 * n + ·)) n

/-- A `u64` from its hex digits. A leading `+` is taken as a sign. -/
def from_str_radix_16 (digits : Text) : Option ℕ :=
  let unsigned := match digits with
    | '+' :: rest => rest
    | _ => digits
  if unsigned = [] then none else readDigits 0 unsigned

def strip_0x (s : Text) : Option Text :=
  match s with
  | '0' :: 'x' :: digits => some digits
  | '0' :: 'X' :: digits => some digits
  | _ => none

def parse_seed (s : Text) : Except SchemaError UInt64 :=
  match strip_0x s with
  | none => .error (invalid "quantisation.rotation_seed" (.mustBeHexString s))
  | some digits =>
    if digits = [] ∨ 16 < len digits then
      .error (invalid "quantisation.rotation_seed" (.hexDigitCount s))
    else
      match from_str_radix_16 digits with
      | none => .error (invalid "quantisation.rotation_seed" (.isNotHex s))
      | some n => .ok (UInt64.ofNat n)

/-- The last `width` hex digits of a number, in lower case. -/
def hexDigits : ℕ → ℕ → Text
  | 0, _ => []
  | width + 1, n => hexDigits width (n / 16) ++ [Nat.digitChar (n % 16)]

/-- A seed as a schema writes it. -/
def format_seed (seed : UInt64) : Text := '0' :: 'x' :: hexDigits 16 seed.toNat

def check_bits (pass1 pass2 : ℕ) : Except SchemaError Unit := do
  refuse (pass1 ∉ PASS1_WIDTHS)
    (invalid "quantisation.pass1_bits" (.mustBeOneOf PASS1_WIDTHS pass1))
  refuse (pass2 ≠ PASS2_BITS)
    (invalid "quantisation.pass2_bits" (.readOnlyBits PASS2_BITS pass2))

namespace SearchSettings

def validate (s : SearchSettings) : Except SchemaError Unit := do
  -- the greater bound first: an omitted `min_probes` is derived from it
  check_range "search.max_probes" s.max_probes 1 MAX_PROBES
  check_range "search.min_probes" s.min_probes 1 MAX_PROBES
  refuse (s.max_probes < s.min_probes)
    (invalid "search.min_probes" (.atMostMaxProbes s.max_probes s.min_probes))
  check_range "search.first_pass_top_k" s.first_pass_top_k 1 MAX_FIRST_PASS_TOP_K
  check_range "search.top_k" s.top_k 1 MAX_TOP_K
  refuse (s.first_pass_top_k < s.top_k)
    (invalid "search.top_k" (.atMostFirstPass s.first_pass_top_k s.top_k))

/-- Every range, `min_probes ≤ max_probes` and `top_k ≤ first_pass_top_k`. -/
structure Valid (s : SearchSettings) : Prop where
  max_probes : 1 ≤ s.max_probes ∧ s.max_probes ≤ MAX_PROBES
  min_probes : 1 ≤ s.min_probes ∧ s.min_probes ≤ MAX_PROBES
  min_le_max : s.min_probes ≤ s.max_probes
  first_pass_top_k : 1 ≤ s.first_pass_top_k ∧ s.first_pass_top_k ≤ MAX_FIRST_PASS_TOP_K
  top_k : 1 ≤ s.top_k ∧ s.top_k ≤ MAX_TOP_K
  top_k_le : s.top_k ≤ s.first_pass_top_k

end SearchSettings

namespace MaintenanceSettings

def validate (s : MaintenanceSettings) : Except SchemaError Unit := do
  check_range "maintenance.target_posting_size" s.target_posting_size MIN_TARGET_POSTING_SIZE
    MAX_TARGET_POSTING_SIZE
  check_range "maintenance.reassign_range" s.reassign_range 0 MAX_REASSIGN_RANGE
  let r := s.merge_ratio
  refuse (!(r.is_finite && r.positive && r.below_half))
    (invalid "maintenance.merge_ratio" (.mergeRatio r))
  check_range "maintenance.split_samples" s.split_samples 2 1000000
  check_range "maintenance.split_init_trials" s.split_init_trials 1 100
  check_range "maintenance.split_max_iters" s.split_max_iters 1 10000
  let f := s.split_lambda_factor
  refuse (!(f.is_finite && f.positive))
    (invalid "maintenance.split_lambda_factor" (.greaterThanZero f))

structure Valid (s : MaintenanceSettings) : Prop where
  target_posting_size :
    MIN_TARGET_POSTING_SIZE ≤ s.target_posting_size ∧
      s.target_posting_size ≤ MAX_TARGET_POSTING_SIZE
  reassign_range : s.reassign_range ≤ MAX_REASSIGN_RANGE
  merge_ratio :
    s.merge_ratio.is_finite = true ∧ s.merge_ratio.positive = true ∧
      s.merge_ratio.below_half = true
  split_samples : 2 ≤ s.split_samples ∧ s.split_samples ≤ 1000000
  split_init_trials : 1 ≤ s.split_init_trials ∧ s.split_init_trials ≤ 100
  split_max_iters : 1 ≤ s.split_max_iters ∧ s.split_max_iters ≤ 10000
  split_lambda_factor :
    s.split_lambda_factor.is_finite = true ∧ s.split_lambda_factor.positive = true

end MaintenanceSettings

def IndexDefaults.validate (d : IndexDefaults) : Except SchemaError Unit := do
  d.search.validate
  d.maintenance.validate

namespace SearchSpec

/-- These values over `base`; what is omitted stays as in `base`. -/
def laidOver (r : SearchSpec) (base : SearchSettings) : SearchSettings where
  min_probes := r.min_probes.getD base.min_probes
  max_probes := r.max_probes.getD base.max_probes
  first_pass_top_k := r.first_pass_top_k.getD base.first_pass_top_k
  top_k := r.top_k.getD base.top_k

def apply (r : SearchSpec) (base : SearchSettings) : Except SchemaError SearchSettings := do
  let s := r.laidOver base
  s.validate
  return s

def is_empty (r : SearchSpec) : Bool := r = {}

end SearchSpec

namespace MaintenanceSpec

/-- These values over `base`; what is omitted stays as in `base`. -/
def laidOver (r : MaintenanceSpec) (base : MaintenanceSettings) :
    MaintenanceSettings where
  target_posting_size := r.target_posting_size.getD base.target_posting_size
  reassign_range := r.reassign_range.getD base.reassign_range
  merge_ratio := r.merge_ratio.getD base.merge_ratio
  skip_uncertain_moves := r.skip_uncertain_moves.getD base.skip_uncertain_moves
  split_samples := r.split_samples.getD base.split_samples
  split_init_trials := r.split_init_trials.getD base.split_init_trials
  split_max_iters := r.split_max_iters.getD base.split_max_iters
  split_lambda_factor := r.split_lambda_factor.getD base.split_lambda_factor

def apply (r : MaintenanceSpec) (base : MaintenanceSettings) :
    Except SchemaError MaintenanceSettings := do
  let m := r.laidOver base
  m.validate
  return m

def is_empty (r : MaintenanceSpec) : Bool := r = {}

end MaintenanceSpec

/-! ### Resolving, merging and saving -/

section Settle

variable (casing : Casing)

/-- Every field and the cross-field rules. -/
def VectorIndexSettings.validate (s : VectorIndexSettings) : Except SchemaError Unit := do
  let _ ← normalise_model casing s.embedding_model
  check_dim s.embedding_dim
  check_chunking s.window_size s.sliding_size
  check_bits s.pass1_bits s.pass2_bits
  refuse (s.pass2_centre ≠ PASS2_CENTRE)
    (invalid "quantisation.pass2_centre" (.readOnlyCentre PASS2_CENTRE s.pass2_centre))
  s.search.validate
  s.maintenance.validate

/-- The fully filled-in spec, as saved in a schema. -/
def VectorIndexSettings.to_spec (s : VectorIndexSettings) : VectorIndexSpec where
  embedding_model := some s.embedding_model
  embedding_dim := some s.embedding_dim
  chunking := some
    { window_size := some s.window_size
      sliding_size := some s.sliding_size }
  quantisation := some
    { pass1_bits := some s.pass1_bits
      pass2_bits := some s.pass2_bits
      rotation_seed := some (format_seed s.rotation_seed)
      pass2_centre := some s.pass2_centre }
  search := some
    { min_probes := some s.search.min_probes
      max_probes := some s.search.max_probes
      first_pass_top_k := some s.search.first_pass_top_k
      top_k := some s.search.top_k }
  maintenance := some
    { target_posting_size := some s.maintenance.target_posting_size
      reassign_range := some s.maintenance.reassign_range
      merge_ratio := some s.maintenance.merge_ratio
      skip_uncertain_moves := some s.maintenance.skip_uncertain_moves
      split_samples := some s.maintenance.split_samples
      split_init_trials := some s.maintenance.split_init_trials
      split_max_iters := some s.maintenance.split_max_iters
      split_lambda_factor := some s.maintenance.split_lambda_factor }

/-- The probe bounds: an omitted one is held to the given one. -/
def probeBounds (r : SearchSpec) (d : SearchSettings) : ℕ × ℕ :=
  match r.min_probes, r.max_probes with
  | some least, some most => (least, most)
  | some least, none => (least, max d.max_probes least)
  | none, some most => (min d.min_probes most, most)
  | none, none => (d.min_probes, d.max_probes)

/-- The settings with the omitted fields filled in, before their check: an omitted slide, result
count or probe bound is held to its partner field. -/
def VectorIndexSpec.fill (r : VectorIndexSpec) (defaults : IndexDefaults) (embedding_model : Text)
    (rotation_seed : UInt64) (maintenance : MaintenanceSettings) : VectorIndexSettings :=
  let d := defaults.search
  let chunking := r.chunking.getD {}
  let quantisation := r.quantisation.getD {}
  let search := r.search.getD {}
  let window_size := chunking.window_size.getD DEFAULT_WINDOW_SIZE
  let first_pass_top_k := search.first_pass_top_k.getD d.first_pass_top_k
  let probes := probeBounds search d
  { embedding_model := embedding_model
    embedding_dim := r.embedding_dim.getD DEFAULT_EMBEDDING_DIM
    window_size := window_size
    sliding_size := chunking.sliding_size.getD (min DEFAULT_SLIDING_SIZE window_size)
    pass1_bits := quantisation.pass1_bits.getD PASS1_BITS
    pass2_bits := quantisation.pass2_bits.getD PASS2_BITS
    rotation_seed := rotation_seed
    pass2_centre := quantisation.pass2_centre.getD PASS2_CENTRE
    search :=
      { min_probes := probes.1
        max_probes := probes.2
        first_pass_top_k := first_pass_top_k
        top_k := search.top_k.getD (min d.top_k first_pass_top_k) }
    maintenance := maintenance }

/-- Fill omitted fields with `defaults` (and the built-in model, dimension, chunking and code
widths) and validate. -/
def VectorIndexSpec.resolve_with (r : VectorIndexSpec) (defaults : IndexDefaults) :
    Except SchemaError VectorIndexSettings := do
  let embedding_model ← normalise_model casing (r.embedding_model.getD DEFAULT_EMBEDDING_MODEL)
  let rotation_seed ←
    (r.quantisation.getD {}).rotation_seed.elim (.ok DEFAULT_ROTATION_SEED) parse_seed
  let maintenance ← (r.maintenance.getD {}).apply defaults.maintenance
  let settings := r.fill defaults embedding_model rotation_seed maintenance
  settings.validate casing
  return settings

/-- Fill omitted fields with the built-in defaults and validate. -/
def VectorIndexSpec.resolve (r : VectorIndexSpec) : Except SchemaError VectorIndexSettings :=
  r.resolve_with casing {}

/-- A fixed field may be omitted or repeated, not changed. -/
def fixed {α : Type} [DecidableEq α] (display : α → Text) (field : String) (requested : Option α)
    (current : α) : Except SchemaError Unit :=
  match requested with
  | some r => refuse (r ≠ current) (.VectorSettingFixed field (display current) (display r))
  | none => .ok ()

def decimal (n : ℕ) : Text := Nat.toDigits 10 n

/-- A request on settings that the namespace already has. -/
def VectorIndexSpec.merge_onto (r : VectorIndexSpec) (current : VectorIndexSettings) :
    Except SchemaError VectorIndexSettings := do
  let model ← r.embedding_model.mapM (normalise_model casing)
  fixed id "embedding_model" model current.embedding_model
  fixed decimal "embedding_dim" r.embedding_dim current.embedding_dim
  let chunking := r.chunking.getD {}
  fixed decimal "chunking.window_size" chunking.window_size current.window_size
  fixed decimal "chunking.sliding_size" chunking.sliding_size current.sliding_size
  let quantisation := r.quantisation.getD {}
  fixed decimal "quantisation.pass1_bits" quantisation.pass1_bits current.pass1_bits
  fixed decimal "quantisation.pass2_bits" quantisation.pass2_bits current.pass2_bits
  fixed id "quantisation.pass2_centre" quantisation.pass2_centre current.pass2_centre
  let seed ← quantisation.rotation_seed.mapM parse_seed
  fixed format_seed "quantisation.rotation_seed" seed current.rotation_seed
  let search ← (r.search.getD {}).apply current.search
  let maintenance ← (r.maintenance.getD {}).apply current.maintenance
  return { current with search := search, maintenance := maintenance }

/-- The settings a schema's spec resolves to, or the defaults when it has none. -/
def resolve_or_default (spec : Option VectorIndexSpec) : Except SchemaError VectorIndexSettings :=
  (spec.getD {}).resolve casing

/-- The spec to save when semantic search is enabled with `requested`. -/
def settle (existing requested : Option VectorIndexSpec) (defaults : IndexDefaults) :
    Except SchemaError VectorIndexSpec := do
  let requested := requested.getD {}
  let settings ← (match existing with
    | some e => do requested.merge_onto casing (← e.resolve casing)
    | none => requested.resolve_with casing defaults : Except SchemaError VectorIndexSettings)
  return settings.to_spec

/-- The spec to save after a change of search and maintenance settings. -/
def update_search (existing : Option VectorIndexSpec) (name : Text) (search : SearchSpec)
    (maintenance : Option MaintenanceSpec) : Except SchemaError VectorIndexSpec := do
  let current ← (match existing with
    | none => .error (.VectorIndexNotConfigured name)
    | some e => e.resolve casing : Except SchemaError VectorIndexSettings)
  let maintenance := maintenance.getD {}
  refuse (search.is_empty && maintenance.is_empty) (invalid "search" .nothingToUpdate)
  let search ← search.apply current.search
  let maintenance ← maintenance.apply current.maintenance
  let settings : VectorIndexSettings :=
    { current with search := search, maintenance := maintenance }
  return settings.to_spec

end Settle

/-! ### What the checks accept -/

theorem check_range_eq_ok {field : String} {value min max : ℕ} :
    check_range field value min max = .ok u ↔ min ≤ value ∧ value ≤ max := by
  rw [check_range, refuse_eq_ok, not_or, not_lt, not_lt]

/-- What a normalised model name is. -/
structure IsModelName (m : Text) : Prop where
  ne_nil : m ≠ []
  len_le : len m ≤ MAX_EMBEDDING_MODEL_LEN
  chars : ∀ c ∈ m, isNameChar c = true

variable {c : Char}

/-- The code points of the characters of a name. -/
theorem isNameChar_toNat (h : isNameChar c = true) :
    c.toNat = 45 ∨ c.toNat = 46 ∨ c.toNat = 95 ∨ (48 ≤ c.toNat ∧ c.toNat ≤ 57) ∨
      (97 ≤ c.toNat ∧ c.toNat ≤ 122) := by
  simp only [isNameChar, Bool.or_eq_true, beq_iff_eq, Char.isLower, Char.isDigit,
    Bool.and_eq_true, decide_eq_true_eq, UInt32.le_iff_toNat_le, ge_iff_le] at h
  rcases h with (((h | h) | rfl) | rfl) | rfl
  · exact .inr (.inr (.inr (.inr h)))
  · exact .inr (.inr (.inr (.inl h)))
  · exact .inr (.inl rfl)
  · exact .inr (.inr (.inl rfl))
  · exact .inl rfl

theorem isNameChar_not_whitespace (h : isNameChar c = true) : is_whitespace c = false := by
  have hc := isNameChar_toNat h
  simp only [is_whitespace, Bool.or_eq_false_iff, Bool.and_eq_false_iff, decide_eq_false_iff_not,
    beq_eq_false_iff_ne]
  omega

theorem trim_of_name (h : ∀ c ∈ m, isNameChar c = true) : trim m = m := by
  have hfirst : m.dropWhile is_whitespace = m := by
    cases m with
    | nil => rfl
    | cons c m =>
      rw [List.dropWhile_cons_of_neg]
      simp [isNameChar_not_whitespace (h c List.mem_cons_self)]
  rw [trim, hfirst, List.rdropWhile_eq_self_iff]
  intro hne
  simp [isNameChar_not_whitespace (h _ (List.getLast_mem hne))]

theorem normalise_model_eq_ok {model : Text} :
    normalise_model casing model = .ok m ↔
      m = casing.to_lowercase (trim model) ∧ IsModelName m := by
  rw [normalise_model]
  generalize casing.to_lowercase (trim model) = low
  by_cases hne : low = []
  · rw [if_pos hne]
    refine ⟨nofun, ?_⟩
    rintro ⟨rfl, hname⟩
    exact absurd hne hname.ne_nil
  by_cases hlen : MAX_EMBEDDING_MODEL_LEN < len low
  · rw [if_neg hne, if_pos hlen]
    refine ⟨nofun, ?_⟩
    rintro ⟨rfl, hname⟩
    exact absurd hname.len_le (not_le.mpr hlen)
  rw [if_neg hne, if_neg hlen]
  cases hfind : low.find? (fun c => !isNameChar c) with
  | some c =>
    have hbad := List.find?_some hfind
    refine ⟨nofun, ?_⟩
    rintro ⟨rfl, hname⟩
    simp [hname.chars c (List.mem_of_find?_eq_some hfind)] at hbad
  | none =>
    rw [List.find?_eq_none] at hfind
    simp only [Except.ok.injEq]
    constructor
    · rintro rfl
      exact ⟨rfl, hne, not_lt.mp hlen, fun c hc => by simpa using hfind c hc⟩
    · rintro ⟨rfl, -⟩
      rfl

/-- A normalised name is normalised to itself. -/
theorem normalise_model_of_name (casing : Casing) (h : IsModelName m) :
    normalise_model casing m = .ok m :=
  normalise_model_eq_ok.mpr ⟨by rw [trim_of_name h.chars, casing.to_lowercase_name m h.chars], h⟩

/-- Lower-casing of the ASCII letters alone. -/
def Casing.ascii : Casing where
  to_lowercase m := m.map Char.toLower
  to_lowercase_name m hm := by
    have hkeep : ∀ c ∈ m, c.toLower = id c := by
      intro c hc
      have hcode := isNameChar_toNat (hm c hc)
      simp only [Char.toLower, id]
      rw [dif_neg]
      rintro ⟨hlow, hhigh⟩
      simp only [UInt32.le_iff_toNat_le, ge_iff_le] at hlow hhigh
      change 65 ≤ c.toNat at hlow
      change c.toNat ≤ 90 at hhigh
      omega
    rw [List.map_congr_left hkeep, List.map_id]

theorem check_dim_eq_ok {dim : ℕ} :
    check_dim dim = .ok u ↔
      (MIN_EMBEDDING_DIM ≤ dim ∧ dim ≤ MAX_EMBEDDING_DIM) ∧ dim % 2 = 0 := by
  rw [check_dim, check_bind_eq_ok, check_range_eq_ok, refuse_eq_ok, not_not]

theorem check_chunking_eq_ok {window sliding : ℕ} :
    check_chunking window sliding = .ok u ↔
      (1 ≤ window ∧ window ≤ MAX_WINDOW_SIZE) ∧ 1 ≤ sliding ∧ sliding ≤ window := by
  rw [check_chunking, check_bind_eq_ok, check_range_eq_ok, refuse_eq_ok, not_or, not_lt, not_lt]

theorem check_bits_eq_ok {pass1 pass2 : ℕ} :
    check_bits pass1 pass2 = .ok u ↔ pass1 ∈ PASS1_WIDTHS ∧ pass2 = PASS2_BITS := by
  rw [check_bits, check_bind_eq_ok, refuse_eq_ok, refuse_eq_ok, not_not, not_not]

theorem SearchSettings.validate_eq_ok {s : SearchSettings} : s.validate = .ok u ↔ s.Valid := by
  simp only [SearchSettings.validate, check_bind_eq_ok, check_range_eq_ok, refuse_eq_ok, not_lt]
  constructor
  · rintro ⟨hmax, hmin, hle, hfirst, htop, hcut⟩
    exact ⟨hmax, hmin, hle, hfirst, htop, hcut⟩
  · rintro ⟨hmax, hmin, hle, hfirst, htop, hcut⟩
    exact ⟨hmax, hmin, hle, hfirst, htop, hcut⟩

theorem MaintenanceSettings.validate_eq_ok {s : MaintenanceSettings} :
    s.validate = .ok u ↔ s.Valid := by
  simp only [MaintenanceSettings.validate, check_bind_eq_ok, check_range_eq_ok, refuse_eq_ok,
    Bool.not_eq_true', Bool.not_eq_false, Bool.and_eq_true, and_assoc (b := s.merge_ratio.positive)]
  constructor
  · rintro ⟨htarget, ⟨-, hrange⟩, hratio, hsamples, htrials, hiters, hfactor⟩
    exact ⟨htarget, hrange, hratio, hsamples, htrials, hiters, hfactor⟩
  · rintro ⟨htarget, hrange, hratio, hsamples, htrials, hiters, hfactor⟩
    exact ⟨htarget, ⟨Nat.zero_le _, hrange⟩, hratio, hsamples, htrials, hiters, hfactor⟩

theorem IndexDefaults.validate_eq_ok {d : IndexDefaults} :
    d.validate = .ok u ↔ d.search.Valid ∧ d.maintenance.Valid := by
  rw [IndexDefaults.validate, check_bind_eq_ok, SearchSettings.validate_eq_ok,
    MaintenanceSettings.validate_eq_ok]

/-- Every field and the cross-field rules hold. -/
structure VectorIndexSettings.Valid (casing : Casing) (s : VectorIndexSettings) : Prop where
  model : ∃ m, normalise_model casing s.embedding_model = .ok m
  dim : (MIN_EMBEDDING_DIM ≤ s.embedding_dim ∧ s.embedding_dim ≤ MAX_EMBEDDING_DIM) ∧
    s.embedding_dim % 2 = 0
  chunking : (1 ≤ s.window_size ∧ s.window_size ≤ MAX_WINDOW_SIZE) ∧
    1 ≤ s.sliding_size ∧ s.sliding_size ≤ s.window_size
  bits : s.pass1_bits ∈ PASS1_WIDTHS ∧ s.pass2_bits = PASS2_BITS
  centre : s.pass2_centre = PASS2_CENTRE
  search : s.search.Valid
  maintenance : s.maintenance.Valid

theorem VectorIndexSettings.validate_eq_ok : s.validate casing = .ok u ↔ s.Valid casing := by
  rw [VectorIndexSettings.validate, bind_eq_ok]
  simp only [check_bind_eq_ok, check_dim_eq_ok, check_chunking_eq_ok, check_bits_eq_ok,
    refuse_eq_ok, not_not, SearchSettings.validate_eq_ok, MaintenanceSettings.validate_eq_ok]
  constructor
  · rintro ⟨m, hmodel, hdim, hchunking, hbits, hcentre, hsearch, hmaint⟩
    exact ⟨⟨m, hmodel⟩, hdim, hchunking, hbits, hcentre, hsearch, hmaint⟩
  · rintro ⟨⟨m, hmodel⟩, hdim, hchunking, hbits, hcentre, hsearch, hmaint⟩
    exact ⟨m, hmodel, hdim, hchunking, hbits, hcentre, hsearch, hmaint⟩

theorem SearchSpec.apply_eq_ok {r : SearchSpec} {base s : SearchSettings} :
    r.apply base = .ok s ↔ s = r.laidOver base ∧ s.Valid := by
  rw [SearchSpec.apply, check_bind_eq_ok, SearchSettings.validate_eq_ok]
  change _ ∧ Except.ok (r.laidOver base) = Except.ok s ↔ _
  rw [Except.ok.injEq]
  constructor
  · rintro ⟨hv, rfl⟩
    exact ⟨rfl, hv⟩
  · rintro ⟨rfl, hv⟩
    exact ⟨hv, rfl⟩

theorem MaintenanceSpec.apply_eq_ok {r : MaintenanceSpec} {base m : MaintenanceSettings} :
    r.apply base = .ok m ↔ m = r.laidOver base ∧ m.Valid := by
  rw [MaintenanceSpec.apply, check_bind_eq_ok, MaintenanceSettings.validate_eq_ok]
  change _ ∧ Except.ok (r.laidOver base) = Except.ok m ↔ _
  rw [Except.ok.injEq]
  constructor
  · rintro ⟨hv, rfl⟩
    exact ⟨rfl, hv⟩
  · rintro ⟨rfl, hv⟩
    exact ⟨hv, rfl⟩

variable {r : VectorIndexSpec} {defaults : IndexDefaults}

theorem VectorIndexSpec.resolve_with_eq_ok :
    r.resolve_with casing defaults = .ok s ↔ ∃ model seed maintenance,
      normalise_model casing (r.embedding_model.getD DEFAULT_EMBEDDING_MODEL) = .ok model ∧
      (r.quantisation.getD {}).rotation_seed.elim (.ok DEFAULT_ROTATION_SEED) parse_seed =
        .ok seed ∧
      (r.maintenance.getD {}).apply defaults.maintenance = .ok maintenance ∧
      s = r.fill defaults model seed maintenance ∧ s.Valid casing := by
  simp only [VectorIndexSpec.resolve_with, bind_eq_ok (α := Text), bind_eq_ok (α := UInt64),
    bind_eq_ok (α := MaintenanceSettings), check_bind_eq_ok, VectorIndexSettings.validate_eq_ok]
  constructor
  · rintro ⟨model, hmodel, seed, hseed, m, hm, hv, hs⟩
    obtain rfl := Except.ok.inj hs
    exact ⟨model, seed, m, hmodel, hseed, hm, rfl, hv⟩
  · rintro ⟨model, seed, m, hmodel, hseed, hm, rfl, hv⟩
    exact ⟨model, hmodel, seed, hseed, m, hm, hv, rfl⟩

/-- What `resolve_with` returns is valid. -/
theorem VectorIndexSpec.valid_of_resolve_with (h : r.resolve_with casing defaults = .ok s) :
    s.Valid casing := by
  obtain ⟨_, _, _, _, _, _, _, hv⟩ := resolve_with_eq_ok.mp h
  exact hv

end VectorSettings

end Minnal
