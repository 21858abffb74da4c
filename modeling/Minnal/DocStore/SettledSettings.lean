import Minnal.DocStore.VectorSettings

/-!
# Settings once settled

The codes a namespace stores mean nothing under another seed, model or chunking, so these settings
are **fixed** once the namespace has any. What is saved is a spec with every field optional, and it
is resolved again at every load, under whatever defaults the server then has. The results follow a
namespace's saved spec through any calls: it always resolves to the settings it was made from, the
fixed ones among them never change, and a refused call leaves it as it was.
-/

namespace Minnal

variable {s : VectorIndexSettings} {existing : Option VectorIndexSpec}

namespace VectorSettings

open Checks VectorIndexSettings

/-! ### The seed's text -/

theorem to_digit_digitChar : ∀ d < 16, to_digit (Nat.digitChar d) = some d := by decide

theorem utf8Size_digitChar : ∀ d < 16, (Nat.digitChar d).utf8Size = 1 := by decide

theorem digitChar_ne_plus : ∀ d < 16, Nat.digitChar d ≠ '+' := by decide

theorem exists_of_mem_hexDigits {width n : ℕ} {c : Char} (h : c ∈ hexDigits width n) :
    ∃ d < 16, c = Nat.digitChar d := by
  induction width generalizing n with
  | zero => cases h
  | succ width ih =>
    rcases List.mem_append.mp h with h | h
    · exact ih h
    · exact ⟨n % 16, Nat.mod_lt _ (by decide), List.mem_singleton.mp h⟩

theorem len_hexDigits (width n : ℕ) : len (hexDigits width n) = width := by
  induction width generalizing n with
  | zero => rfl
  | succ width ih =>
    have hlast := utf8Size_digitChar (n % 16) (Nat.mod_lt _ (by decide))
    rw [hexDigits, len, List.map_append, List.sum_append, ← len, ih]
    simp [hlast]

/-- Reading the digits of a number gives it back, as far as the digits go. -/
theorem readDigits_hexDigits (width n : ℕ) :
    readDigits 0 (hexDigits width n) = some (n % 16 ^ width) := by
  induction width generalizing n with
  | zero => simp [readDigits, hexDigits, Nat.mod_one]
  | succ width ih =>
    have hlast := to_digit_digitChar (n % 16) (Nat.mod_lt _ (by decide))
    rw [readDigits, hexDigits, List.foldlM_append, ← readDigits, ih]
    simp only [Option.bind_eq_bind, Option.bind_some, List.foldlM_cons, List.foldlM_nil, hlast,
      Option.map_some]
    rw [Option.pure_def, Nat.pow_succ', Nat.mod_mul, Nat.add_comm]

/-- **The seed's text reads back as the seed.** -/
theorem parse_format_seed (seed : UInt64) : parse_seed (format_seed seed) = .ok seed := by
  have hlen := len_hexDigits 16 seed.toNat
  have hread := readDigits_hexDigits 16 seed.toNat
  have hplus : ∀ c ∈ hexDigits 16 seed.toNat, c ≠ '+' := by
    intro c hc
    obtain ⟨d, hd, rfl⟩ := exists_of_mem_hexDigits hc
    exact digitChar_ne_plus d hd
  rw [Nat.mod_eq_of_lt (lt_of_lt_of_eq seed.toNat_lt (by decide))] at hread
  simp only [parse_seed, format_seed, strip_0x]
  generalize hexDigits 16 seed.toNat = digits at *
  cases digits with
  | nil => cases hlen
  | cons c digits =>
    have hradix : from_str_radix_16 (c :: digits) = some seed.toNat := by
      rw [from_str_radix_16]
      · exact hread
      · rintro rest h
        cases h
        exact absurd rfl (hplus _ List.mem_cons_self)
    rw [if_neg (by simp [hlen]), hradix]
    simp

/-! ### Settings as the calls return them -/

/-- What the calls return: valid settings under a normalised name. -/
structure VectorIndexSettings.Settled (casing : Casing) (s : VectorIndexSettings) : Prop where
  valid : s.Valid casing
  name : IsModelName s.embedding_model

variable {casing : Casing}

theorem VectorIndexSettings.settled_of_resolve_with {r : VectorIndexSpec} {defaults : IndexDefaults}
    (h : r.resolve_with casing defaults = .ok s) : s.Settled casing := by
  refine ⟨VectorIndexSpec.valid_of_resolve_with h, ?_⟩
  obtain ⟨model, _, _, hmodel, _, _, rfl, -⟩ := VectorIndexSpec.resolve_with_eq_ok.mp h
  exact (normalise_model_eq_ok.mp hmodel).2

/-- **A saved spec resolves to the settings it was made from**, under any defaults. -/
theorem VectorIndexSettings.Settled.resolve_with_to_spec (h : s.Settled casing)
    (defaults : IndexDefaults) : s.to_spec.resolve_with casing defaults = .ok s := by
  refine VectorIndexSpec.resolve_with_eq_ok.mpr ⟨s.embedding_model, s.rotation_seed,
    s.maintenance, normalise_model_of_name casing h.name, ?_,
    MaintenanceSpec.apply_eq_ok.mpr ⟨rfl, h.valid.maintenance⟩, rfl, h.valid⟩
  rw [to_spec, Option.getD_some, Option.elim_some]
  exact parse_format_seed s.rotation_seed

/-- The fields that are fixed once a namespace has settings. -/
structure FixedFields where
  embedding_model : Text
  embedding_dim : ℕ
  window_size : ℕ
  sliding_size : ℕ
  pass1_bits : ℕ
  pass2_bits : ℕ
  rotation_seed : UInt64
  pass2_centre : Text
  deriving DecidableEq, Repr

def VectorIndexSettings.fixedFields (s : VectorIndexSettings) : FixedFields where
  embedding_model := s.embedding_model
  embedding_dim := s.embedding_dim
  window_size := s.window_size
  sliding_size := s.sliding_size
  pass1_bits := s.pass1_bits
  pass2_bits := s.pass2_bits
  rotation_seed := s.rotation_seed
  pass2_centre := s.pass2_centre

/-- A change of search and maintenance settings keeps the settings settled. -/
theorem VectorIndexSettings.Settled.with_search (h : s.Settled casing) {search : SearchSettings}
    {maintenance : MaintenanceSettings} (hs : search.Valid) (hm : maintenance.Valid) :
    ({ s with search := search, maintenance := maintenance } :
      VectorIndexSettings).Settled casing :=
  ⟨{ h.valid with search := hs, maintenance := hm }, h.name⟩

/-- A merge changes search and maintenance settings only. -/
theorem VectorIndexSpec.merge_onto_spec {r : VectorIndexSpec} {current : VectorIndexSettings}
    (h : r.merge_onto casing current = .ok s) :
    ∃ (search : SearchSettings) (maintenance : MaintenanceSettings), search.Valid ∧
      maintenance.Valid ∧
      s = { current with search := search, maintenance := maintenance } := by
  rw [VectorIndexSpec.merge_onto] at h
  obtain ⟨_, -, h⟩ := bind_eq_ok.mp h
  iterate 7 replace h := (check_bind_eq_ok.mp h).2
  obtain ⟨_, -, h⟩ := bind_eq_ok.mp h
  replace h := (check_bind_eq_ok.mp h).2
  obtain ⟨search, hsearch, h⟩ := bind_eq_ok.mp h
  obtain ⟨maintenance, hm, h⟩ := bind_eq_ok.mp h
  exact ⟨search, maintenance, (SearchSpec.apply_eq_ok.mp hsearch).2,
    (MaintenanceSpec.apply_eq_ok.mp hm).2, (Except.ok.inj h).symm⟩

/-! ### Runs -/

/-- A call on a namespace's settings. The server's defaults may differ from call to call. -/
inductive Call where
  /-- Semantic search is enabled, with a request or without one. -/
  | settle (requested : Option VectorIndexSpec) (defaults : IndexDefaults)
  /-- A request is merged onto the settings in force. -/
  | merge_onto (requested : VectorIndexSpec)
  /-- Search and maintenance settings are changed. -/
  | update_search (name : Text) (search : SearchSpec) (maintenance : Option MaintenanceSpec)

variable (casing)

/-- The spec a call returns, or its error. -/
def Call.result (existing : Option VectorIndexSpec) : Call → Except SchemaError VectorIndexSpec
  | .settle requested defaults => VectorSettings.settle casing existing requested defaults
  | .merge_onto requested => do
    let current ← resolve_or_default casing existing
    let settings ← requested.merge_onto casing current
    return settings.to_spec
  | .update_search name search maintenance =>
    VectorSettings.update_search casing existing name search maintenance

/-- The namespace's saved spec after a call: what the call returns, if it returns one. -/
def Call.saved (existing : Option VectorIndexSpec) (call : Call) : Option VectorIndexSpec :=
  match call.result casing existing with
  | .ok spec => some spec
  | .error _ => existing

/-- The saved spec after a run of calls. -/
def savedAfter (existing : Option VectorIndexSpec) (calls : List Call) : Option VectorIndexSpec :=
  calls.foldl (Call.saved casing) existing

/-- The namespace has no settings, or its saved spec is the full spec of settled ones. -/
def SavedSettled (existing : Option VectorIndexSpec) : Prop :=
  ∀ spec ∈ existing, ∃ s : VectorIndexSettings, s.Settled casing ∧ spec = s.to_spec

variable {casing}

/-- **What a call returns**: the full spec of settled settings, which have the fixed fields of the
settings the namespace already had. -/
theorem Call.result_spec {call : Call} {spec : VectorIndexSpec}
    (h : call.result casing existing = .ok spec) :
    ∃ s : VectorIndexSettings, s.Settled casing ∧ spec = s.to_spec ∧
      ∀ e ∈ existing, ∀ t : VectorIndexSettings, e.resolve casing = .ok t →
        s.fixedFields = t.fixedFields := by
  have hmerge : ∀ {r : VectorIndexSpec} {current s : VectorIndexSettings},
      current.Settled casing → r.merge_onto casing current = .ok s →
        s.Settled casing ∧ s.fixedFields = current.fixedFields := by
    intro r current s hcurrent hs
    obtain ⟨search, m, hsearch, hm, rfl⟩ := VectorIndexSpec.merge_onto_spec hs
    exact ⟨hcurrent.with_search hsearch hm, rfl⟩
  cases call with
  | settle requested defaults =>
    obtain ⟨s, hs, hspec⟩ := bind_eq_ok.mp h
    obtain rfl := Except.ok.inj hspec
    cases existing with
    | none =>
      exact ⟨s, settled_of_resolve_with hs, rfl,
        fun e he => absurd he (Option.not_mem_none e)⟩
    | some e =>
      obtain ⟨current, hcurrent, hs⟩ := bind_eq_ok.mp hs
      obtain ⟨hsettled, hfixed⟩ :=
        hmerge (settled_of_resolve_with hcurrent) hs
      refine ⟨s, hsettled, rfl, fun e' he t ht => ?_⟩
      obtain rfl := Option.some.inj he
      rw [hfixed, Except.ok.inj (hcurrent.symm.trans ht)]
  | merge_onto requested =>
    obtain ⟨current, hcurrent, h⟩ := bind_eq_ok.mp h
    obtain ⟨s, hs, hspec⟩ := bind_eq_ok.mp h
    obtain rfl := Except.ok.inj hspec
    obtain ⟨hsettled, hfixed⟩ := hmerge (settled_of_resolve_with hcurrent) hs
    refine ⟨s, hsettled, rfl, fun e he t ht => ?_⟩
    rw [Option.mem_def.mp he] at hcurrent
    rw [hfixed, Except.ok.inj (hcurrent.symm.trans ht)]
  | update_search name search maintenance =>
    obtain ⟨current, hcurrent, h⟩ := bind_eq_ok.mp h
    replace h := (check_bind_eq_ok.mp h).2
    obtain ⟨search', hsearch, h⟩ := bind_eq_ok.mp h
    obtain ⟨m, hm, hspec⟩ := bind_eq_ok.mp h
    obtain rfl := Except.ok.inj hspec
    cases existing with
    | none => cases hcurrent
    | some e =>
      have hsettled := settled_of_resolve_with hcurrent
      refine ⟨_, hsettled.with_search (SearchSpec.apply_eq_ok.mp hsearch).2
        (MaintenanceSpec.apply_eq_ok.mp hm).2, rfl, fun e' he t ht => ?_⟩
      obtain rfl := Option.some.inj he
      rw [← Except.ok.inj (hcurrent.symm.trans ht)]
      rfl

/-- A call keeps the saved spec settled. -/
theorem Call.saved_settled (hsaved : SavedSettled casing existing) (call : Call) :
    SavedSettled casing (call.saved casing existing) := by
  rw [Call.saved]
  cases hres : call.result casing existing with
  | error e => exact hsaved
  | ok spec =>
    intro saved hmem
    obtain rfl := Option.some.inj hmem
    obtain ⟨s, hs, hspec, -⟩ := Call.result_spec hres
    exact ⟨s, hs, hspec⟩

theorem savedAfter_settled (hsaved : SavedSettled casing existing) (calls : List Call) :
    SavedSettled casing (savedAfter casing existing calls) := by
  induction calls generalizing existing with
  | nil => exact hsaved
  | cons call calls ih => exact ih (call.saved_settled hsaved)

/-- **A run keeps the fixed fields** of the settings the namespace has when it begins. -/
theorem savedAfter_fixed (hs : s.Settled casing) (calls : List Call) :
    ∃ t : VectorIndexSettings, savedAfter casing (some s.to_spec) calls = some t.to_spec ∧
      t.Settled casing ∧ t.fixedFields = s.fixedFields := by
  induction calls generalizing s with
  | nil => exact ⟨s, rfl, hs, rfl⟩
  | cons call calls ih =>
    rw [savedAfter, List.foldl_cons, ← savedAfter, Call.saved]
    cases hres : call.result casing (some s.to_spec) with
    | error e => exact ih hs
    | ok spec =>
      obtain ⟨m, hm, rfl, hfixed⟩ := Call.result_spec hres
      obtain ⟨t, hafter, ht, hsame⟩ := ih hm
      exact ⟨t, hafter, ht, hsame.trans (hfixed _ rfl s (hs.resolve_with_to_spec {}))⟩

/-- **Fixed settings never change and always reload.** After any run of calls from a namespace
without settings, a saved spec resolves under all defaults to the settings it was made from, and
these pass their check. A further run keeps their fixed fields; and a further call either returns
the spec of such settings or is refused and leaves what is saved. -/
theorem fixed_settings_reload (casing : Casing) (calls : List Call) :
    let saved := savedAfter casing none calls
    (∀ spec ∈ saved, ∃ s : VectorIndexSettings, spec = s.to_spec ∧ s.validate casing = .ok () ∧
      (∀ defaults, spec.resolve_with casing defaults = .ok s) ∧
      ∀ more, ∃ t : VectorIndexSettings, savedAfter casing none (calls ++ more) = some t.to_spec ∧
        (∀ defaults, t.to_spec.resolve_with casing defaults = .ok t) ∧
        t.fixedFields = s.fixedFields) ∧
    ∀ call : Call,
      (∃ e, call.result casing saved = .error e ∧ call.saved casing saved = saved) ∨
      ∃ s : VectorIndexSettings, call.result casing saved = .ok s.to_spec ∧
        s.validate casing = .ok () ∧
        ∀ defaults, s.to_spec.resolve_with casing defaults = .ok s := by
  intro saved
  have hnone : SavedSettled casing none := fun _ h => absurd h (Option.not_mem_none _)
  have hsaved : SavedSettled casing saved := savedAfter_settled hnone calls
  constructor
  · intro spec hspec
    obtain ⟨s, hs, rfl⟩ := hsaved spec hspec
    refine ⟨s, rfl, VectorIndexSettings.validate_eq_ok.mpr hs.valid, hs.resolve_with_to_spec,
      fun more => ?_⟩
    obtain ⟨t, hafter, ht, hfixed⟩ := savedAfter_fixed hs more
    refine ⟨t, ?_, ht.resolve_with_to_spec, hfixed⟩
    have hsplit : savedAfter casing none (calls ++ more) = savedAfter casing saved more :=
      List.foldl_append
    rw [hsplit, Option.mem_def.mp hspec, hafter]
  · intro call
    cases hres : call.result casing saved with
    | error e =>
      refine .inl ⟨e, rfl, ?_⟩
      rw [Call.saved, hres]
    | ok spec =>
      obtain ⟨s, hs, rfl, -⟩ := Call.result_spec hres
      exact .inr ⟨s, rfl, VectorIndexSettings.validate_eq_ok.mpr hs.valid,
        hs.resolve_with_to_spec⟩

end VectorSettings

end Minnal
