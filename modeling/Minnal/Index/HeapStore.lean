import Minnal.Index.Container
import Minnal.Library.FiniteTable

/-!
# The heap backing of a bitmap

A transient bitmap keeps its containers by **high key** in a sorted map on the heap, with the
number of all values beside it. Every change touches one key (`get_upsert`, `get_removeKey`,
`valuesAt_modify`) and keeps the count exact: it goes down by what the key held and up by what
it holds now (`count_change`).
-/

namespace Minnal

open SortedMap (Ascending findBy upsertBy)
open FiniteTable (IsTable weight weightAt)

/-! ### The sorted map of containers -/

/-- What a list of containers by key has at `key`. -/
def lookup (key : ℕ) (map : List (ℕ × Container)) : Option Container :=
  (findBy Prod.fst key map).map Prod.snd

variable {map : List (ℕ × Container)} {key : ℕ} {c : Container}

theorem mem_iff_lookup (h : Ascending Prod.fst map) : (key, c) ∈ map ↔ lookup key map = some c := by
  rw [lookup, Option.map_eq_some_iff]
  constructor
  · intro hmem
    exact ⟨_, (SortedMap.findBy_eq_some_iff h).mpr ⟨hmem, rfl⟩, rfl⟩
  · rintro ⟨⟨k, c'⟩, hfind, rfl⟩
    obtain ⟨hmem, rfl⟩ := (SortedMap.findBy_eq_some_iff h).mp hfind
    exact hmem

/-- A sorted map lists what it has, each key once. -/
theorem isTable_lookup (h : Ascending Prod.fst map) :
    IsTable map fun key => lookup key map where
  nodup := List.pairwise_map.mpr (h.imp fun hlt => ne_of_lt hlt)
  mem _ _ := mem_iff_lookup h

/-- How many values the containers of a map hold. -/
def totalCount (map : List (ℕ × Container)) : ℕ := weight (fun _ c => c.cardinality) map

/-- The heap backing of a container store: a sorted map and the count of all its values. -/
structure HeapStore where
  map : List (ℕ × Container)
  cardinality : ℕ
  sorted : Ascending Prod.fst map
  counted : cardinality = totalCount map
deriving DecidableEq

variable {self : HeapStore}

namespace HeapStore

/-- The empty store. -/
def new : HeapStore := ⟨[], 0, SortedMap.ascending_nil, rfl⟩

def get (self : HeapStore) (key : ℕ) : Option Container := lookup key self.map

/-- What the count becomes when the container of a key goes from `old` to `new`. -/
theorem count_change {map' : List (ℕ × Container)} (h : Ascending Prod.fst map)
    (h' : Ascending Prod.fst map') {o : Option Container}
    (heq : ∀ k, lookup k map' = if k = key then o else lookup k map) :
    totalCount map' =
      totalCount map - (lookup key map).elim 0 Container.cardinality +
        o.elim 0 Container.cardinality := by
  have htable := isTable_lookup h
  obtain ⟨l, hl, hw⟩ := htable.update key o
  have hsame : IsTable map' (Function.update (fun k => lookup k map) key o) := by
    have hfun : Function.update (fun k => lookup k map) key o = fun k => lookup k map' := by
      funext k
      rw [Function.update_apply, heq]
    rw [hfun]
    exact isTable_lookup h'
  have hweight : ∀ o : Option Container,
      weightAt (fun _ c => c.cardinality) key o = o.elim 0 Container.cardinality := fun _ => rfl
  have hle := htable.weightAt_le (fun _ c => c.cardinality) key
  have hnew := hw fun _ c => c.cardinality
  rw [hl.weight_eq hsame, hweight, hweight] at hnew
  rw [hweight] at hle
  simp only [totalCount]
  omega

theorem keepsKey (key : ℕ) (c : Container) :
    SortedMap.KeepsKey Prod.fst key fun _ : Option (ℕ × Container) => (key, c) := fun _ _ => rfl

theorem lookup_upsert (h : Ascending Prod.fst map) (key : ℕ) (c : Container) (k : ℕ) :
    lookup k (upsertBy Prod.fst key (fun _ => (key, c)) map) =
      if k = key then some c else lookup k map := by
  rw [lookup, SortedMap.findBy_upsertBy (keepsKey key c) h]
  split_ifs <;> rfl

/-- Insert or replace the container of `key`. -/
def upsert (self : HeapStore) (key : ℕ) (c : Container) : HeapStore where
  map := upsertBy Prod.fst key (fun _ => (key, c)) self.map
  cardinality :=
    match self.get key with
    | some old => self.cardinality - old.cardinality + c.cardinality
    | none => self.cardinality + c.cardinality
  sorted := self.sorted.upsertBy (keepsKey key c)
  counted := by
    rw [count_change self.sorted (self.sorted.upsertBy (keepsKey key c))
      (lookup_upsert self.sorted key c), self.counted, get]
    cases lookup key self.map <;> rfl

theorem lookup_erase (h : Ascending Prod.fst map) (key k : ℕ) :
    lookup k (map.filter fun e => e.1 ≠ key) = if k = key then none else lookup k map := by
  rw [lookup, SortedMap.findBy_filter h]
  split_ifs with hk
  · cases hfind : findBy Prod.fst k map with
    | none => rfl
    | some e =>
      have := (SortedMap.mem_of_findBy_eq_some hfind).2
      simp [this, hk]
  · cases hfind : findBy Prod.fst k map with
    | none => simp [lookup, hfind]
    | some e =>
      have := (SortedMap.mem_of_findBy_eq_some hfind).2
      rw [lookup, hfind]
      simp [Option.filter, this, hk]

/-- Drop the container of `key`. -/
def removeKey (self : HeapStore) (key : ℕ) : HeapStore where
  map := self.map.filter fun e => e.1 ≠ key
  cardinality :=
    match self.get key with
    | some old => self.cardinality - old.cardinality
    | none => self.cardinality
  sorted := self.sorted.filter _
  counted := by
    rw [count_change self.sorted (self.sorted.filter _) (lookup_erase self.sorted key),
      self.counted, get]
    cases lookup key self.map <;> rfl

@[simp] theorem get_upsert (self : HeapStore) (key : ℕ) (c : Container) (k : ℕ) :
    (self.upsert key c).get k = if k = key then some c else self.get k :=
  lookup_upsert self.sorted key c k

@[simp] theorem get_removeKey (self : HeapStore) (key k : ℕ) :
    (self.removeKey key).get k = if k = key then none else self.get k :=
  lookup_erase self.sorted key k

/-- `ContainerStore::modify`: change the container of `key` in place, where `f` says whether it
changed anything. A changed container that ends up empty is removed. -/
def modify (self : HeapStore) (key : ℕ) (create : Bool) (f : Container → Bool × Container) :
    Bool × HeapStore :=
  match self.get key with
  | some c =>
    let (changed, c) := f c
    (changed, if changed then (if c.isEmpty then self.removeKey key else self.upsert key c) else self)
  | none =>
    if create then
      let (changed, c) := f Container.newArray
      (changed, if changed && !c.isEmpty then self.upsert key c else self)
    else (false, self)

/-- The values at `key`, none where there is no container. -/
def valuesAt (self : HeapStore) (key : ℕ) : List ℕ :=
  ((self.get key).getD Container.newArray).toValues

@[simp] theorem valuesAt_upsert (self : HeapStore) (key : ℕ) (c : Container) (k : ℕ) :
    (self.upsert key c).valuesAt k = if k = key then c.toValues else self.valuesAt k := by
  rw [valuesAt, get_upsert]
  split_ifs <;> rfl

@[simp] theorem valuesAt_removeKey (self : HeapStore) (key k : ℕ) :
    (self.removeKey key).valuesAt k = if k = key then [] else self.valuesAt k := by
  rw [valuesAt, get_removeKey]
  split_ifs <;> rfl

variable {f : Container → Bool × Container}

/-- **What modifying a key does**: its values become what `f` makes of them. -/
theorem valuesAt_modify (self : HeapStore) (key : ℕ)
    (hf : ∀ c, (f c).1 = false → (f c).2.toValues = c.toValues) (k : ℕ) :
    (self.modify key true f).2.valuesAt k =
      if k = key then (f ((self.get key).getD Container.newArray)).2.toValues
      else self.valuesAt k := by
  rw [modify]
  cases hget : self.get key with
  | some c =>
    have hkey : self.valuesAt key = c.toValues := by rw [valuesAt, hget, Option.getD_some]
    dsimp only [Option.getD_some]
    split_ifs with hchanged hempty hk hk hk
    · rw [valuesAt_removeKey, if_pos hk, Container.isEmpty_iff.mp hempty]
    · rw [valuesAt_removeKey, if_neg hk]
    · rw [valuesAt_upsert, if_pos hk]
    · rw [valuesAt_upsert, if_neg hk]
    · rw [hf c (Bool.eq_false_iff.mpr hchanged), hk, hkey]
    · rfl
  | none =>
    have hkey : self.valuesAt key = Container.newArray.toValues := by
      rw [valuesAt, hget, Option.getD_none]
    rw [if_pos rfl]
    dsimp only [Option.getD_none]
    split_ifs with hchanged hk hk
    · rw [valuesAt_upsert, if_pos hk]
    · rw [valuesAt_upsert, if_neg hk]
    · -- nothing stands there, as nothing did
      rw [hk, hkey]
      rw [Bool.and_eq_true, not_and, Bool.not_eq_true, Bool.not_eq_false'] at hchanged
      cases hflag : (f Container.newArray).1 with
      | false => exact (hf _ hflag).symm
      | true => rw [Container.isEmpty_iff.mp (hchanged hflag)]; rfl
    · rfl

/-- Modifying a key that is not to be created does nothing where there is none. -/
theorem valuesAt_modify_existing (self : HeapStore) (key : ℕ)
    (hf : ∀ c, (f c).1 = false → (f c).2.toValues = c.toValues)
    (hnone : (f Container.newArray).2.toValues = []) (k : ℕ) :
    (self.modify key false f).2.valuesAt k = (self.modify key true f).2.valuesAt k := by
  cases hget : self.get key with
  | some c => rw [modify, modify, hget]
  | none =>
    rw [self.valuesAt_modify key hf, modify, hget]
    simp only [Bool.false_eq_true, ite_false, Option.getD_none, hnone]
    split_ifs with hk
    · rw [hk, valuesAt, hget]
      rfl
    · rfl

/-- No container of the store is empty. -/
def NoneEmpty (self : HeapStore) : Prop := ∀ key c, self.get key = some c → c.isEmpty = false

theorem NoneEmpty.upsert (h : self.NoneEmpty) (key : ℕ) (hc : c.isEmpty = false) :
    (self.upsert key c).NoneEmpty := by
  intro k d hd
  rw [get_upsert] at hd
  split_ifs at hd with hk
  · rw [← Option.some.inj hd, hc]
  · exact h k d hd

theorem NoneEmpty.removeKey (h : self.NoneEmpty) (key : ℕ) : (self.removeKey key).NoneEmpty := by
  intro k d hd
  rw [get_removeKey] at hd
  split_ifs at hd
  exact h k d hd

theorem NoneEmpty.modify (h : self.NoneEmpty) (key : ℕ) (create : Bool)
    (f : Container → Bool × Container) : (self.modify key create f).2.NoneEmpty := by
  rw [HeapStore.modify]
  cases self.get key with
  | some c =>
    dsimp only
    split_ifs with hchanged hempty
    · exact h.removeKey key
    · exact h.upsert key (Bool.eq_false_iff.mpr hempty)
    · exact h
  | none =>
    dsimp only
    split_ifs with hcreate hchanged
    · rw [Bool.and_eq_true, Bool.not_eq_true'] at hchanged
      exact h.upsert key hchanged.2
    · exact h
    · exact h

/-- The store a sequence of upserts builds. -/
def ofUpserts (entries : List (ℕ × Container)) : HeapStore :=
  entries.foldl (fun s e => s.upsert e.1 e.2) new

variable {entries : List (ℕ × Container)}

theorem get_ofUpserts (h : Ascending Prod.fst entries) (key : ℕ) :
    (ofUpserts entries).get key = lookup key entries := by
  have hfold : ∀ (l : List (ℕ × Container)) (s : HeapStore), Ascending Prod.fst l →
      (l.foldl (fun s e => s.upsert e.1 e.2) s).get key = (lookup key l).or (s.get key) := by
    intro l
    induction l with
    | nil => exact fun s _ => rfl
    | cons e l ih =>
      intro s hl
      obtain ⟨he, hl'⟩ := SortedMap.ascending_cons.mp hl
      rw [List.foldl_cons, ih _ hl', get_upsert, lookup, lookup, SortedMap.findBy_cons]
      split_ifs with h₁ h₂ h₂
      · have hnone : findBy Prod.fst key l = none :=
          SortedMap.findBy_eq_none.mpr fun x hx => h₁ ▸ (he x hx).ne'
        rw [hnone]
        rfl
      · exact absurd h₁.symm h₂
      · exact absurd h₂.symm h₁
      · rfl
  rw [ofUpserts, hfold entries new h]
  exact Option.or_none

theorem noneEmpty_ofUpserts (h : ∀ e ∈ entries, e.2.isEmpty = false) :
    (ofUpserts entries).NoneEmpty := by
  have hfold : ∀ (l : List (ℕ × Container)) (s : HeapStore), (∀ e ∈ l, e.2.isEmpty = false) →
      s.NoneEmpty → (l.foldl (fun s e => s.upsert e.1 e.2) s).NoneEmpty := by
    intro l
    induction l with
    | nil => exact fun s _ hs => hs
    | cons e l ih =>
      intro s hl hs
      exact ih _ (fun x hx => hl x (List.mem_cons_of_mem _ hx))
        (hs.upsert e.1 (hl e List.mem_cons_self))
  exact hfold entries new h fun key c hc => by cases hc

end HeapStore

end Minnal
