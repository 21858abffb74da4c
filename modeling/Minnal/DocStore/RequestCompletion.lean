import Minnal.DocStore.VectorSettings

/-!
# Completing a vector-index request

A request gives some settings and leaves the rest to the defaults. It is **completable** when some
choice of the omitted values makes the whole valid; a default should never make a completable
request invalid. Two of the fill-ins do: an omitted window becomes 4 whatever slide is given, and
an omitted first-pass cut becomes the server's whatever result count is given. The results say that
these are the only two ways in which a completable request is refused.
-/

namespace Minnal

open Option (mem_def getD_some getD_none some_ne_none)

variable {α : Type} {r : VectorIndexSpec} {defaults : IndexDefaults}

namespace VectorSettings

open Checks VectorIndexSpec

variable (casing : Casing)

/-! ### What a request gives -/

/-- A value takes what is given, when something is. -/
def Takes {α : Type} (given : Option α) (value : α) : Prop := ∀ a ∈ given, value = a

theorem takes_getD (given : Option α) (default : α) : Takes given (given.getD default) := by
  rintro a rfl
  rfl

structure SearchSpec.Agrees (r : SearchSpec) (s : SearchSettings) : Prop where
  min_probes : Takes r.min_probes s.min_probes
  max_probes : Takes r.max_probes s.max_probes
  first_pass_top_k : Takes r.first_pass_top_k s.first_pass_top_k
  top_k : Takes r.top_k s.top_k

structure MaintenanceSpec.Agrees (r : MaintenanceSpec) (s : MaintenanceSettings) : Prop where
  target_posting_size : Takes r.target_posting_size s.target_posting_size
  reassign_range : Takes r.reassign_range s.reassign_range
  merge_ratio : Takes r.merge_ratio s.merge_ratio
  skip_uncertain_moves : Takes r.skip_uncertain_moves s.skip_uncertain_moves
  split_samples : Takes r.split_samples s.split_samples
  split_init_trials : Takes r.split_init_trials s.split_init_trials
  split_max_iters : Takes r.split_max_iters s.split_max_iters
  split_lambda_factor : Takes r.split_lambda_factor s.split_lambda_factor

/-- Every given value appears in the settings: the model's name normalised, the seed as the number
its text stands for, everything else as given. -/
structure VectorIndexSpec.Agrees (r : VectorIndexSpec) (s : VectorIndexSettings) : Prop where
  model : ∀ m ∈ r.embedding_model, normalise_model casing m = .ok s.embedding_model
  dim : Takes r.embedding_dim s.embedding_dim
  window_size : Takes (r.chunking.getD {}).window_size s.window_size
  sliding_size : Takes (r.chunking.getD {}).sliding_size s.sliding_size
  pass1_bits : Takes (r.quantisation.getD {}).pass1_bits s.pass1_bits
  pass2_bits : Takes (r.quantisation.getD {}).pass2_bits s.pass2_bits
  rotation_seed :
    ∀ t ∈ (r.quantisation.getD {}).rotation_seed, parse_seed t = .ok s.rotation_seed
  pass2_centre : Takes (r.quantisation.getD {}).pass2_centre s.pass2_centre
  search : (r.search.getD {}).Agrees s.search
  maintenance : (r.maintenance.getD {}).Agrees s.maintenance

/-- Some choice of values for the omitted fields makes the complete settings valid. -/
def VectorIndexSpec.Completable (r : VectorIndexSpec) : Prop :=
  ∃ s : VectorIndexSettings, s.validate casing = .ok () ∧ r.Agrees casing s

/-- **The rule of `resolve_with`**: a request resolves just when it is completable, and what it
resolves to has every given value. -/
def VectorIndexSpec.FilledByDefaults (r : VectorIndexSpec) (defaults : IndexDefaults) : Prop :=
  ((∃ s, r.resolve_with casing defaults = .ok s) ↔ r.Completable casing) ∧
    ∀ s, r.resolve_with casing defaults = .ok s → r.Agrees casing s

/-! ### Admissible requests -/

structure ChunkingSpec.Admissible (r : ChunkingSpec) : Prop where
  window_size : ∀ w ∈ r.window_size, 1 ≤ w ∧ w ≤ MAX_WINDOW_SIZE
  sliding_size : ∀ s ∈ r.sliding_size, 1 ≤ s ∧ s ≤ MAX_WINDOW_SIZE
  sliding_le : ∀ w ∈ r.window_size, ∀ s ∈ r.sliding_size, s ≤ w

structure SearchSpec.Admissible (r : SearchSpec) : Prop where
  min_probes : ∀ n ∈ r.min_probes, 1 ≤ n ∧ n ≤ MAX_PROBES
  max_probes : ∀ n ∈ r.max_probes, 1 ≤ n ∧ n ≤ MAX_PROBES
  min_le_max : ∀ a ∈ r.min_probes, ∀ b ∈ r.max_probes, a ≤ b
  first_pass_top_k : ∀ n ∈ r.first_pass_top_k, 1 ≤ n ∧ n ≤ MAX_FIRST_PASS_TOP_K
  top_k : ∀ n ∈ r.top_k, 1 ≤ n ∧ n ≤ MAX_TOP_K
  top_k_le : ∀ f ∈ r.first_pass_top_k, ∀ k ∈ r.top_k, k ≤ f

structure MaintenanceSpec.Admissible (r : MaintenanceSpec) : Prop where
  target_posting_size :
    ∀ n ∈ r.target_posting_size, MIN_TARGET_POSTING_SIZE ≤ n ∧ n ≤ MAX_TARGET_POSTING_SIZE
  reassign_range : ∀ n ∈ r.reassign_range, n ≤ MAX_REASSIGN_RANGE
  merge_ratio :
    ∀ x ∈ r.merge_ratio, x.is_finite = true ∧ x.positive = true ∧ x.below_half = true
  split_samples : ∀ n ∈ r.split_samples, 2 ≤ n ∧ n ≤ 1000000
  split_init_trials : ∀ n ∈ r.split_init_trials, 1 ≤ n ∧ n ≤ 100
  split_max_iters : ∀ n ∈ r.split_max_iters, 1 ≤ n ∧ n ≤ 10000
  split_lambda_factor : ∀ x ∈ r.split_lambda_factor, x.is_finite = true ∧ x.positive = true

/-- Each given value is in its range, and given partners fit each other. -/
structure VectorIndexSpec.Admissible (r : VectorIndexSpec) : Prop where
  model : ∀ m ∈ r.embedding_model, ∃ name, normalise_model casing m = .ok name
  dim : ∀ d ∈ r.embedding_dim,
    (MIN_EMBEDDING_DIM ≤ d ∧ d ≤ MAX_EMBEDDING_DIM) ∧ d % 2 = 0
  chunking : (r.chunking.getD {}).Admissible
  pass1_bits : ∀ b ∈ (r.quantisation.getD {}).pass1_bits, b ∈ PASS1_WIDTHS
  pass2_bits : ∀ b ∈ (r.quantisation.getD {}).pass2_bits, b = PASS2_BITS
  rotation_seed : ∀ t ∈ (r.quantisation.getD {}).rotation_seed, ∃ seed, parse_seed t = .ok seed
  pass2_centre : ∀ c ∈ (r.quantisation.getD {}).pass2_centre, c = PASS2_CENTRE
  search : (r.search.getD {}).Admissible
  maintenance : (r.maintenance.getD {}).Admissible

/-- A slide is given without a window, and it is longer than the built-in window. -/
def ChunkingSpec.Outgrows (r : ChunkingSpec) : Prop :=
  r.window_size = none ∧ ∃ s ∈ r.sliding_size, DEFAULT_WINDOW_SIZE < s

/-- A result count is given without a first-pass cut, and it is above the default cut. -/
def SearchSpec.Outgrows (r : SearchSpec) (d : SearchSettings) : Prop :=
  r.first_pass_top_k = none ∧ ∃ k ∈ r.top_k, d.first_pass_top_k < k

/-- A given value is above the default of a partner field that is omitted. -/
def VectorIndexSpec.Outgrows (r : VectorIndexSpec) (defaults : IndexDefaults) : Prop :=
  (r.chunking.getD {}).Outgrows ∨ (r.search.getD {}).Outgrows defaults.search

/-! ### What the defaults fill in -/

/-- Where the default passes, a value filled in passes just when a given one does. -/
theorem getD_iff (P : α → Prop) {default : α} (hdefault : P default) (given : Option α) :
    P (given.getD default) ↔ ∀ a ∈ given, P a := by
  cases given with
  | none => simp [hdefault]
  | some a => simp

variable {casing}

theorem fill_model_iff (given : Option Text) :
    (∃ m, normalise_model casing (given.getD DEFAULT_EMBEDDING_MODEL) = .ok m) ↔
      ∀ t ∈ given, ∃ m, normalise_model casing t = .ok m :=
  have hgemma : IsModelName DEFAULT_EMBEDDING_MODEL :=
    ⟨by decide, by decide, List.all_eq_true.mp (by decide)⟩
  getD_iff (fun t => ∃ m, normalise_model casing t = .ok m)
    ⟨_, normalise_model_of_name casing hgemma⟩ given

theorem fill_seed_iff (given : Option Text) :
    (∃ seed, given.elim (.ok DEFAULT_ROTATION_SEED) parse_seed = .ok seed) ↔
      ∀ t ∈ given, ∃ seed, parse_seed t = .ok seed := by
  cases given with
  | none => simp
  | some t => simp

theorem fill_chunking_iff (r : ChunkingSpec) :
    let window := r.window_size.getD DEFAULT_WINDOW_SIZE
    let sliding := r.sliding_size.getD (min DEFAULT_SLIDING_SIZE window)
    ((1 ≤ window ∧ window ≤ MAX_WINDOW_SIZE) ∧ 1 ≤ sliding ∧ sliding ≤ window) ↔
      r.Admissible ∧ ¬r.Outgrows := by
  obtain ⟨w, s⟩ := r
  simp only [DEFAULT_WINDOW_SIZE, DEFAULT_SLIDING_SIZE, MAX_WINDOW_SIZE, ChunkingSpec.Outgrows]
  constructor
  · intro h
    refine ⟨⟨?_, ?_, ?_⟩, ?_⟩
    · rintro w rfl
      exact h.1
    · rintro s rfl
      exact ⟨h.2.1, h.2.2.trans h.1.2⟩
    · rintro w rfl s rfl
      exact h.2.2
    · rintro ⟨rfl, s, rfl, hs⟩
      exact absurd h.2.2 (not_le.mpr hs)
  · rintro ⟨⟨hw, hs, hle⟩, hout⟩
    cases w with
    | none =>
      cases s with
      | none => decide
      | some s =>
        have hs : 1 ≤ s ∧ s ≤ 64 := hs s rfl
        have hout : s ≤ 4 := not_lt.mp fun h => hout ⟨rfl, s, rfl, h⟩
        exact ⟨by decide, hs.1, hout⟩
    | some w =>
      have hrange : 1 ≤ w ∧ w ≤ 64 := hw w rfl
      cases s with
      | none => exact ⟨hrange, Nat.le_min.mpr ⟨by decide, hrange.1⟩, Nat.min_le_right 2 w⟩
      | some s => exact ⟨hrange, (hs s rfl).1, hle w rfl s rfl⟩

theorem fill_probes_iff (r : SearchSpec) {d : SearchSettings} (hd : d.Valid) :
    let probes := probeBounds r d
    ((1 ≤ probes.2 ∧ probes.2 ≤ MAX_PROBES) ∧ (1 ≤ probes.1 ∧ probes.1 ≤ MAX_PROBES) ∧
        probes.1 ≤ probes.2) ↔
      (∀ n ∈ r.min_probes, 1 ≤ n ∧ n ≤ MAX_PROBES) ∧
        (∀ n ∈ r.max_probes, 1 ≤ n ∧ n ≤ MAX_PROBES) ∧
        ∀ a ∈ r.min_probes, ∀ b ∈ r.max_probes, a ≤ b := by
  obtain ⟨hmax, hmin, hle, -, -, -⟩ := hd
  obtain ⟨least, most, _, _⟩ := r
  cases least with
  | none =>
    cases most with
    | none => simp [probeBounds, hmax, hmin, hle]
    | some most =>
      simp only [probeBounds, mem_def, reduceCtorEq, IsEmpty.forall_iff, implies_true,
        Option.some.injEq, forall_eq', and_true, true_and]
      omega
  | some least =>
    cases most with
    | none =>
      simp only [probeBounds, mem_def, reduceCtorEq, IsEmpty.forall_iff, implies_true,
        Option.some.injEq, forall_eq', and_true]
      omega
    | some most =>
      simp only [probeBounds, mem_def, Option.some.injEq, forall_eq']
      omega

theorem fill_results_iff (r : SearchSpec) {d : SearchSettings} (hd : d.Valid) :
    let first := r.first_pass_top_k.getD d.first_pass_top_k
    let top := r.top_k.getD (min d.top_k first)
    ((1 ≤ first ∧ first ≤ MAX_FIRST_PASS_TOP_K) ∧ (1 ≤ top ∧ top ≤ MAX_TOP_K) ∧ top ≤ first) ↔
      ((∀ n ∈ r.first_pass_top_k, 1 ≤ n ∧ n ≤ MAX_FIRST_PASS_TOP_K) ∧
        (∀ n ∈ r.top_k, 1 ≤ n ∧ n ≤ MAX_TOP_K) ∧
        ∀ f ∈ r.first_pass_top_k, ∀ k ∈ r.top_k, k ≤ f) ∧ ¬r.Outgrows d := by
  obtain ⟨-, -, -, hfirst, htop, hle⟩ := hd
  obtain ⟨_, _, first, top⟩ := r
  cases first with
  | none =>
    cases top with
    | none =>
      simp only [SearchSpec.Outgrows, getD_none, mem_def, reduceCtorEq,
        IsEmpty.forall_iff, implies_true, false_and, exists_const, and_false, not_false_eq_true,
        and_true, iff_true]
      omega
    | some top =>
      simp only [SearchSpec.Outgrows, getD_none, getD_some, mem_def,
        reduceCtorEq, IsEmpty.forall_iff, implies_true, Option.some.injEq, forall_eq', and_true,
        true_and, exists_eq_left', not_lt]
      omega
  | some first =>
    cases top with
    | none =>
      simp only [SearchSpec.Outgrows, getD_some, getD_none, mem_def,
        Option.some.injEq, forall_eq', reduceCtorEq, IsEmpty.forall_iff, implies_true, and_true,
        false_and, not_false_eq_true]
      omega
    | some top =>
      simp only [SearchSpec.Outgrows, getD_some, mem_def, Option.some.injEq,
        forall_eq', reduceCtorEq, false_and, not_false_eq_true, and_true]

theorem fill_maintenance_iff (r : MaintenanceSpec) {d : MaintenanceSettings} (hd : d.Valid) :
    (∃ m, r.apply d = .ok m) ↔ r.Admissible := by
  simp only [MaintenanceSpec.apply_eq_ok, exists_eq_left]
  have htarget := getD_iff (fun n => MIN_TARGET_POSTING_SIZE ≤ n ∧ n ≤ MAX_TARGET_POSTING_SIZE)
    hd.target_posting_size r.target_posting_size
  have hrange := getD_iff (· ≤ MAX_REASSIGN_RANGE) hd.reassign_range r.reassign_range
  have hratio := getD_iff
    (fun x : Ratio => x.is_finite = true ∧ x.positive = true ∧ x.below_half = true)
    hd.merge_ratio r.merge_ratio
  have hsamples := getD_iff (fun n => 2 ≤ n ∧ n ≤ 1000000) hd.split_samples r.split_samples
  have htrials := getD_iff (fun n => 1 ≤ n ∧ n ≤ 100) hd.split_init_trials r.split_init_trials
  have hiters := getD_iff (fun n => 1 ≤ n ∧ n ≤ 10000) hd.split_max_iters r.split_max_iters
  have hfactor := getD_iff (fun x : Ratio => x.is_finite = true ∧ x.positive = true)
    hd.split_lambda_factor r.split_lambda_factor
  constructor
  · rintro ⟨h1, h2, h3, h4, h5, h6, h7⟩
    exact ⟨htarget.mp h1, hrange.mp h2, hratio.mp h3, hsamples.mp h4, htrials.mp h5,
      hiters.mp h6, hfactor.mp h7⟩
  · rintro ⟨h1, h2, h3, h4, h5, h6, h7⟩
    exact ⟨htarget.mpr h1, hrange.mpr h2, hratio.mpr h3, hsamples.mpr h4, htrials.mpr h5,
      hiters.mpr h6, hfactor.mpr h7⟩

/-- The filled-in settings are valid just when the request is admissible and outgrows no
default. -/
theorem fill_valid_iff (hd : defaults.search.Valid) {model : Text} {seed : UInt64}
    {m : MaintenanceSettings}
    (hmodel : normalise_model casing (r.embedding_model.getD DEFAULT_EMBEDDING_MODEL) = .ok model)
    (hm : m.Valid) :
    (r.fill defaults model seed m).Valid casing ↔
      ((∀ d ∈ r.embedding_dim, (MIN_EMBEDDING_DIM ≤ d ∧ d ≤ MAX_EMBEDDING_DIM) ∧ d % 2 = 0) ∧
        (r.chunking.getD {}).Admissible ∧
        (∀ b ∈ (r.quantisation.getD {}).pass1_bits, b ∈ PASS1_WIDTHS) ∧
        (∀ b ∈ (r.quantisation.getD {}).pass2_bits, b = PASS2_BITS) ∧
        (∀ c ∈ (r.quantisation.getD {}).pass2_centre, c = PASS2_CENTRE) ∧
        (r.search.getD {}).Admissible) ∧ ¬r.Outgrows defaults := by
  have hdim := getD_iff
    (fun d => (MIN_EMBEDDING_DIM ≤ d ∧ d ≤ MAX_EMBEDDING_DIM) ∧ d % 2 = 0)
    (by decide : (MIN_EMBEDDING_DIM ≤ DEFAULT_EMBEDDING_DIM ∧
      DEFAULT_EMBEDDING_DIM ≤ MAX_EMBEDDING_DIM) ∧ DEFAULT_EMBEDDING_DIM % 2 = 0) r.embedding_dim
  have hchunking := fill_chunking_iff (r.chunking.getD {})
  have hpass1 := getD_iff (· ∈ PASS1_WIDTHS) (by decide : PASS1_BITS ∈ PASS1_WIDTHS)
    (r.quantisation.getD {}).pass1_bits
  have hpass2 := getD_iff (· = PASS2_BITS) rfl (r.quantisation.getD {}).pass2_bits
  have hcentre := getD_iff (· = PASS2_CENTRE) rfl (r.quantisation.getD {}).pass2_centre
  have hprobes := fill_probes_iff (r.search.getD {}) hd
  have hresults := fill_results_iff (r.search.getD {}) hd
  constructor
  · rintro ⟨-, h1, h2, ⟨h3, h4⟩, h5, ⟨h6, h7, h8, h9, h10, h11⟩, -⟩
    obtain ⟨hp1, hp2, hp3⟩ := hprobes.mp ⟨h6, h7, h8⟩
    obtain ⟨⟨hr1, hr2, hr3⟩, hout⟩ := hresults.mp ⟨h9, h10, h11⟩
    obtain ⟨hc, hgrow⟩ := hchunking.mp h2
    exact ⟨⟨hdim.mp h1, hc, hpass1.mp h3, hpass2.mp h4, hcentre.mp h5, hp1, hp2, hp3, hr1, hr2,
      hr3⟩, not_or.mpr ⟨hgrow, hout⟩⟩
  · rintro ⟨⟨h1, h2, h3, h4, h5, h6⟩, hout⟩
    obtain ⟨hgrow, hout⟩ := not_or.mp hout
    obtain ⟨hp1, hp2, hp3⟩ := hprobes.mpr ⟨h6.min_probes, h6.max_probes, h6.min_le_max⟩
    obtain ⟨hr1, hr2, hr3⟩ := hresults.mpr ⟨⟨h6.first_pass_top_k, h6.top_k, h6.top_k_le⟩, hout⟩
    exact ⟨⟨model, normalise_model_of_name casing (normalise_model_eq_ok.mp hmodel).2⟩,
      hdim.mpr h1, hchunking.mpr ⟨h2, hgrow⟩, ⟨hpass1.mpr h3, hpass2.mpr h4⟩, hcentre.mpr h5,
      ⟨hp1, hp2, hp3, hr1, hr2, hr3⟩, hm⟩

/-- **When a request resolves**: its given values are admissible, and none of them outgrows the
default of an omitted partner. -/
theorem resolve_with_isOk_iff (hd : defaults.validate = .ok ()) :
    (∃ s, r.resolve_with casing defaults = .ok s) ↔
      r.Admissible casing ∧ ¬r.Outgrows defaults := by
  obtain ⟨hsearch, hmaint⟩ := IndexDefaults.validate_eq_ok.mp hd
  simp only [VectorIndexSpec.resolve_with_eq_ok]
  constructor
  · rintro ⟨s, model, seed, m, hmodel, hseed, hm, rfl, hv⟩
    obtain ⟨⟨h1, h2, h3, h4, h5, h6⟩, hout⟩ := (fill_valid_iff hsearch hmodel
      (MaintenanceSpec.apply_eq_ok.mp hm).2).mp hv
    exact ⟨⟨(fill_model_iff _).mp ⟨model, hmodel⟩, h1, h2, h3, h4,
      (fill_seed_iff _).mp ⟨seed, hseed⟩, h5, h6, (fill_maintenance_iff _ hmaint).mp ⟨m, hm⟩⟩, hout⟩
  · rintro ⟨hadm, hout⟩
    obtain ⟨model, hmodel⟩ := (fill_model_iff _).mpr hadm.model
    obtain ⟨seed, hseed⟩ := (fill_seed_iff _).mpr hadm.rotation_seed
    obtain ⟨m, hm⟩ := (fill_maintenance_iff _ hmaint).mpr hadm.maintenance
    refine ⟨_, model, seed, m, hmodel, hseed, hm, rfl, ?_⟩
    exact (fill_valid_iff hsearch hmodel (MaintenanceSpec.apply_eq_ok.mp hm).2).mpr
      ⟨⟨hadm.dim, hadm.chunking, hadm.pass1_bits, hadm.pass2_bits, hadm.pass2_centre,
        hadm.search⟩, hout⟩

/-! ### What a request resolves to -/

theorem probeBounds_takes (r : SearchSpec) (d : SearchSettings) :
    Takes r.min_probes (probeBounds r d).1 ∧ Takes r.max_probes (probeBounds r d).2 := by
  obtain ⟨least, most, _, _⟩ := r
  cases least with
  | none =>
    cases most with
    | none => exact ⟨nofun, nofun⟩
    | some most => exact ⟨nofun, takes_getD (some most) most⟩
  | some least =>
    cases most with
    | none => exact ⟨takes_getD (some least) least, nofun⟩
    | some most => exact ⟨takes_getD (some least) least, takes_getD (some most) most⟩

theorem MaintenanceSpec.agrees_laidOver (r : MaintenanceSpec) (d : MaintenanceSettings) :
    r.Agrees (r.laidOver d) :=
  ⟨takes_getD _ _, takes_getD _ _, takes_getD _ _, takes_getD _ _, takes_getD _ _,
    takes_getD _ _, takes_getD _ _, takes_getD _ _⟩

/-- Every given value appears in what the request resolves to. -/
theorem VectorIndexSpec.agrees_of_resolve_with {s : VectorIndexSettings}
    (h : r.resolve_with casing defaults = .ok s) : r.Agrees casing s := by
  obtain ⟨model, seed, m, hmodel, hseed, hm, rfl, -⟩ := resolve_with_eq_ok.mp h
  obtain ⟨rfl, -⟩ := MaintenanceSpec.apply_eq_ok.mp hm
  obtain ⟨hmin, hmax⟩ := probeBounds_takes (r.search.getD {}) defaults.search
  refine ⟨?_, takes_getD _ _, takes_getD _ _, takes_getD _ _, takes_getD _ _, takes_getD _ _, ?_,
    takes_getD _ _, ⟨hmin, hmax, takes_getD _ _, takes_getD _ _⟩,
    MaintenanceSpec.agrees_laidOver _ _⟩
  · intro t ht
    rw [mem_def.mp ht] at hmodel
    exact hmodel
  · intro t ht
    rw [mem_def.mp ht] at hseed
    exact hseed

/-! ### Completable requests -/

/-- A completable request is admissible. -/
theorem VectorIndexSpec.Completable.admissible (h : r.Completable casing) :
    r.Admissible casing := by
  obtain ⟨s, hvalid, hagrees⟩ := h
  have hv := VectorIndexSettings.validate_eq_ok.mp hvalid
  constructor
  · exact fun t ht => ⟨_, hagrees.model t ht⟩
  · exact fun d hd => hagrees.dim d hd ▸ hv.dim
  · constructor
    · exact fun w hw => hagrees.window_size w hw ▸ hv.chunking.1
    · exact fun w hw => hagrees.sliding_size w hw ▸
        ⟨hv.chunking.2.1, hv.chunking.2.2.trans hv.chunking.1.2⟩
    · exact fun w hw t ht => hagrees.window_size w hw ▸ hagrees.sliding_size t ht ▸
        hv.chunking.2.2
  · exact fun b hb => hagrees.pass1_bits b hb ▸ hv.bits.1
  · exact fun b hb => hagrees.pass2_bits b hb ▸ hv.bits.2
  · exact fun t ht => ⟨_, hagrees.rotation_seed t ht⟩
  · exact fun c hc => hagrees.pass2_centre c hc ▸ hv.centre
  · have ha := hagrees.search
    constructor
    · exact fun n hn => ha.min_probes n hn ▸ hv.search.min_probes
    · exact fun n hn => ha.max_probes n hn ▸ hv.search.max_probes
    · exact fun a hmin b hmax => ha.min_probes a hmin ▸ ha.max_probes b hmax ▸
        hv.search.min_le_max
    · exact fun n hn => ha.first_pass_top_k n hn ▸ hv.search.first_pass_top_k
    · exact fun n hn => ha.top_k n hn ▸ hv.search.top_k
    · exact fun f hf k hk => ha.first_pass_top_k f hf ▸ ha.top_k k hk ▸ hv.search.top_k_le
  · have ha := hagrees.maintenance
    constructor
    · exact fun n hn => ha.target_posting_size n hn ▸ hv.maintenance.target_posting_size
    · exact fun n hn => ha.reassign_range n hn ▸ hv.maintenance.reassign_range
    · exact fun x hx => ha.merge_ratio x hx ▸ hv.maintenance.merge_ratio
    · exact fun n hn => ha.split_samples n hn ▸ hv.maintenance.split_samples
    · exact fun n hn => ha.split_init_trials n hn ▸ hv.maintenance.split_init_trials
    · exact fun n hn => ha.split_max_iters n hn ▸ hv.maintenance.split_max_iters
    · exact fun x hx => ha.split_lambda_factor x hx ▸ hv.maintenance.split_lambda_factor

/-- The request with the widest window and the widest first-pass cut where it gives none. -/
def VectorIndexSpec.widened (r : VectorIndexSpec) : VectorIndexSpec :=
  let chunking := r.chunking.getD {}
  let search := r.search.getD {}
  { r with
    chunking := some { chunking with
      window_size := some (chunking.window_size.getD MAX_WINDOW_SIZE) }
    search := some { search with
      first_pass_top_k := some (search.first_pass_top_k.getD MAX_FIRST_PASS_TOP_K) } }

theorem VectorIndexSpec.Admissible.widened (h : r.Admissible casing) :
    r.widened.Admissible casing := by
  have hwindow := (getD_iff (fun w => 1 ≤ w ∧ w ≤ MAX_WINDOW_SIZE)
    (by decide : 1 ≤ MAX_WINDOW_SIZE ∧ MAX_WINDOW_SIZE ≤ MAX_WINDOW_SIZE) _).mpr
    h.chunking.window_size
  have hfirst := (getD_iff (fun n => 1 ≤ n ∧ n ≤ MAX_FIRST_PASS_TOP_K)
    (by decide : 1 ≤ MAX_FIRST_PASS_TOP_K ∧ MAX_FIRST_PASS_TOP_K ≤ MAX_FIRST_PASS_TOP_K) _).mpr
    h.search.first_pass_top_k
  refine { h with chunking := ⟨?_, h.chunking.sliding_size, ?_⟩, search := { h.search with
    first_pass_top_k := ?_, top_k_le := ?_ } }
  · intro w hw
    obtain rfl := Option.some.inj hw
    exact hwindow
  · intro w hw s hs
    obtain rfl := Option.some.inj hw
    exact (getD_iff (s ≤ ·) (h.chunking.sliding_size s hs).2 _).mpr
      fun w hw => h.chunking.sliding_le w hw s hs
  · intro n hn
    obtain rfl := Option.some.inj hn
    exact hfirst
  · intro f hf k hk
    obtain rfl := Option.some.inj hf
    have hmax : k ≤ MAX_FIRST_PASS_TOP_K := (h.search.top_k k hk).2.trans (by decide)
    exact (getD_iff (k ≤ ·) hmax _).mpr fun f hf => h.search.top_k_le f hf k hk

theorem VectorIndexSpec.widened_not_outgrows (r : VectorIndexSpec) (defaults : IndexDefaults) :
    ¬r.widened.Outgrows defaults := by
  rintro (⟨h, -⟩ | ⟨h, -⟩)
  · exact absurd h (some_ne_none _)
  · exact absurd h (some_ne_none _)

theorem Takes.of_filled {given : Option α} {default value : α}
    (h : Takes (some (given.getD default)) value) : Takes given value := by
  rintro a rfl
  exact h a rfl

theorem VectorIndexSpec.Agrees.of_widened {s : VectorIndexSettings} (h : r.widened.Agrees casing s)
    : r.Agrees casing s :=
  { h with
    window_size := h.window_size.of_filled
    search := { h.search with first_pass_top_k := h.search.first_pass_top_k.of_filled } }

/-- **A request is completable** just when its given values are admissible. -/
theorem VectorIndexSpec.completable_iff : r.Completable casing ↔ r.Admissible casing := by
  refine ⟨Completable.admissible, fun h => ?_⟩
  have hbuiltin : IndexDefaults.validate {} = .ok () := by decide
  obtain ⟨s, hs⟩ := (resolve_with_isOk_iff hbuiltin).mpr
    ⟨h.widened, r.widened_not_outgrows {}⟩
  exact ⟨s, VectorIndexSettings.validate_eq_ok.mpr (valid_of_resolve_with hs),
    (agrees_of_resolve_with hs).of_widened⟩

/-! ### The rule and its two exceptions -/

/-- **The rule holds but in two cases**: it is broken just when an admissible request gives a slide
longer than the built-in window and no window, or a result count above the default first-pass cut
and no first-pass cut. -/
theorem filledByDefaults_iff {r : VectorIndexSpec} {defaults : IndexDefaults}
    (hd : defaults.validate = .ok ()) :
    r.FilledByDefaults casing defaults ↔ ¬(r.Admissible casing ∧ r.Outgrows defaults) := by
  rw [VectorIndexSpec.FilledByDefaults, resolve_with_isOk_iff hd, VectorIndexSpec.completable_iff]
  constructor
  · rintro ⟨hrule, -⟩ ⟨hadm, hout⟩
    exact (hrule.mpr hadm).2 hout
  · intro h
    refine ⟨⟨And.left, fun hadm => ⟨hadm, fun hout => h ⟨hadm, hout⟩⟩⟩, fun s hs => ?_⟩
    exact VectorIndexSpec.agrees_of_resolve_with hs

/-- A slide of 7 after a window of 9, with the built-in defaults. -/
theorem filledByDefaults_iff_of_window :
    (IndexDefaults.validate {} = .ok ()) ∧
      (VectorIndexSpec.FilledByDefaults Casing.ascii
          { chunking := some { window_size := some 9, sliding_size := some 7 } } {} ↔
        ¬(VectorIndexSpec.Admissible Casing.ascii
            { chunking := some { window_size := some 9, sliding_size := some 7 } } ∧
          VectorIndexSpec.Outgrows
            { chunking := some { window_size := some 9, sliding_size := some 7 } } {})) :=
  ⟨by decide, filledByDefaults_iff (by decide)⟩

/-- **A slide of 5 alone is refused** under the built-in defaults, although a window of 5 completes
the request. -/
theorem slide_alone_refused :
    IndexDefaults.validate {} = .ok () ∧
      VectorIndexSpec.resolve_with Casing.ascii
          { chunking := some { sliding_size := some 5 } } {} =
        .error (invalid "chunking.sliding_size" (.skipsSentences 4 5)) ∧
      VectorIndexSpec.Completable Casing.ascii { chunking := some { sliding_size := some 5 } } ∧
      ¬VectorIndexSpec.FilledByDefaults Casing.ascii
        { chunking := some { sliding_size := some 5 } } {} := by
  have hrefused : VectorIndexSpec.resolve_with Casing.ascii
      { chunking := some { sliding_size := some 5 } } {} =
        .error (invalid "chunking.sliding_size" (.skipsSentences 4 5)) := by decide +kernel
  have hcompletable : VectorIndexSpec.Completable Casing.ascii
      { chunking := some { sliding_size := some 5 } } := by
    refine ⟨⟨DEFAULT_EMBEDDING_MODEL, 768, 5, 5, 1, 8, DEFAULT_ROTATION_SEED, PASS2_CENTRE, {}, {}⟩,
      by decide +kernel, ?_⟩
    exact ⟨nofun, nofun, nofun, takes_getD (some 5) 5, nofun, nofun, nofun, nofun,
      ⟨nofun, nofun, nofun, nofun⟩, ⟨nofun, nofun, nofun, nofun, nofun, nofun, nofun, nofun⟩⟩
  refine ⟨by decide, hrefused, hcompletable, fun ⟨hrule, _⟩ => ?_⟩
  obtain ⟨s, hs⟩ := hrule.mpr hcompletable
  rw [hrefused] at hs
  cases hs

end VectorSettings

end Minnal
