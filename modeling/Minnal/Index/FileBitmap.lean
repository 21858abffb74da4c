import Minnal.Index.MappedStore
import Minnal.Index.RoaringBitmap

/-!
# File-backed bitmaps

A bitmap's containers lie in one of two backings, on the heap or in mapped files, and every
operation goes through the container store. `Holds` says which heap-backed bitmap a bitmap stands
for; the operations agree with those of heap-backed bitmaps (`apply_holds`), whatever the backing.

The set operations in place do not change the store but **replace** it, by one on the heap. From
then on the files of a file-backed bitmap stay behind: flushing writes nothing, and opening them
again gives what the bitmap held before the first such operation.
-/

set_option linter.dupNamespace false

namespace Minnal

open RoaringBitmap
open Option (map_eq_some_iff bind_eq_some_iff map_some)

/-- The two backings of the containers. -/
inductive ContainerStore where
  | heap (h : HeapStore)
  | mapped (m : MappedStore)

namespace ContainerStore

variable (codec : ContainerCodec)

/-- The container of a key; none where reading it panics. -/
def get : ContainerStore → ℕ → Option (Option Container)
  | heap h, key => some (h.get key)
  | mapped m, key => m.get codec key

/-- Change the container of a key in place. -/
def modify : ContainerStore → ℕ → Bool → (Container → Bool × Container) →
    Option (Bool × ContainerStore)
  | heap h, key, create, f => some ((h.modify key create f).1, heap (h.modify key create f).2)
  | mapped m, key, create, f => (m.modify codec key create f).map fun r => (r.1, mapped r.2)

/-- Remove all entries. -/
def clear : ContainerStore → ContainerStore
  | heap _ => heap HeapStore.new
  | mapped m => mapped m.clear

def sortedKeys : ContainerStore → List ℕ
  | heap h => h.map.map Prod.fst
  | mapped m => m.sortedKeys

def sortedEntries : ContainerStore → Option (List (ℕ × Container))
  | heap h => some h.map
  | mapped m => m.sortedEntries codec

/-- The heap store a container store stands for. -/
def Holds : ContainerStore → HeapStore → Prop
  | heap h, h' => h = h'
  | mapped m, h' => m.Represents codec h'

section Holds

variable {codec} {s : ContainerStore} {h : HeapStore}

theorem Holds.get (hs : s.Holds codec h) (key : ℕ) : s.get codec key = some (h.get key) := by
  cases s with
  | heap h' =>
    obtain rfl : h' = h := hs
    rfl
  | mapped m => exact MappedStore.Represents.get hs key

theorem Holds.sortedEntries (hs : s.Holds codec h) : s.sortedEntries codec = some h.map := by
  cases s with
  | heap h' =>
    obtain rfl : h' = h := hs
    rfl
  | mapped m => exact MappedStore.Represents.sortedEntries hs

theorem Holds.sortedKeys (hs : s.Holds codec h) : s.sortedKeys = h.map.map Prod.fst := by
  cases s with
  | heap h' =>
    obtain rfl : h' = h := hs
    rfl
  | mapped m => exact MappedStore.Represents.sortedKeys hs

/-- A change keeps the backing, and is the change of the heap store. -/
theorem Holds.modify (hs : s.Holds codec h) (key : ℕ) (create : Bool)
    (f : Container → Bool × Container) : ∃ s', s.modify codec key create f =
      some ((h.modify key create f).1, s') ∧ s'.Holds codec (h.modify key create f).2 := by
  cases s with
  | heap h' =>
    obtain rfl : h' = h := hs
    exact ⟨_, rfl, rfl⟩
  | mapped m =>
    obtain ⟨m', hm', hrep⟩ := MappedStore.Represents.modify hs key create f
    exact ⟨mapped m', by rw [ContainerStore.modify, hm', map_some], hrep⟩

theorem Holds.clear (hs : s.Holds codec h) : s.clear.Holds codec HeapStore.new := by
  cases s with
  | heap h' => exact rfl
  | mapped m => exact MappedStore.Represents.clear hs

end Holds

end ContainerStore

/-- A bitmap over either backing. -/
structure BackedBitmap where
  store : ContainerStore

namespace BackedBitmap

variable (codec : ContainerCodec) (self other : BackedBitmap)

/-! ### Operations -/

/-- A new file-backed bitmap. -/
def create : BackedBitmap := ⟨.mapped MappedStore.create⟩

def contains (value : ℕ) : Option Bool :=
  (self.store.get codec (decompose value).1).map fun held =>
    (held.map fun c => c.contains (decompose value).2).getD false

def insert (value : ℕ) : Option (Bool × BackedBitmap) :=
  (self.store.modify codec (decompose value).1 true
    fun c => c.insert (decompose value).2 (decompose_lt value)).map fun r => (r.1, ⟨r.2⟩)

def remove (value : ℕ) : Option (Bool × BackedBitmap) :=
  (self.store.modify codec (decompose value).1 false
    fun c => c.remove (decompose value).2 (decompose_lt value)).map fun r => (r.1, ⟨r.2⟩)

/-- Remove all values. -/
def clear : BackedBitmap := ⟨self.store.clear⟩

/-- Complement the bits in `lo..hi`; none where the range spans too many blocks, on which the
source panics. -/
def flip (lo hi : ℕ) : Option BackedBitmap :=
  if lo ≥ hi then some self
  else if RoaringBitmap.flipSpan lo hi > RoaringBitmap.maxFlipContainerSpan then none
  else
    (List.range' (decompose lo).1 (RoaringBitmap.flipSpan lo hi)).foldlM (fun b high =>
      (b.store.modify codec high true fun c =>
        (true, c.flipRange (RoaringBitmap.blockRange lo (hi - 1) high).1
          (RoaringBitmap.blockRange lo (hi - 1) high).2)).map fun r => ⟨r.2⟩) self

/-- Re-evaluate the kinds of all containers. -/
def optimize : Option BackedBitmap :=
  self.store.sortedKeys.foldlM (fun b key =>
    (b.store.modify codec key false fun c => (true, c.optimize)).map fun r => ⟨r.2⟩) self

/-- The result of a set operation is a new bitmap on the heap. -/
def join (walk : List (ℕ × Container) → List (ℕ × Container) → List (ℕ × Container)) :
    Option BackedBitmap := do
  let a ← self.store.sortedEntries codec
  let b ← other.store.sortedEntries codec
  some ⟨.heap (HeapStore.ofUpserts (walk a b))⟩

protected def and : Option BackedBitmap := self.join codec other RoaringBitmap.andEntries

protected def or : Option BackedBitmap := self.join codec other RoaringBitmap.orEntries

def andNot : Option BackedBitmap := self.join codec other RoaringBitmap.andNotEntries

/-- `*self = self.and(other)`. -/
def andInplace : Option BackedBitmap := self.and codec other

/-- `*self = self.or(other)`. -/
def orInplace : Option BackedBitmap := self.or codec other

/-- `*self = self.and_not(other)`. -/
def andNotInplace : Option BackedBitmap := self.andNot codec other

/-- The values a bitmap contains. -/
def values : Set ℕ := {v | self.contains codec v = some true}

/-! ### What a bitmap stands for -/

/-- The heap-backed bitmap a bitmap stands for. -/
def Holds (b : RoaringBitmap) : Prop := self.store.Holds codec b.store

/-- A heap-backed bitmap. -/
def ofHeap (b : RoaringBitmap) : BackedBitmap := ⟨.heap b.store⟩

theorem holds_ofHeap (b : RoaringBitmap) : (ofHeap b).Holds codec b := by
  rw [Holds, ofHeap, ContainerStore.Holds]

section Holds

variable {codec self other} {a b : RoaringBitmap}

theorem Holds.values (hs : self.Holds codec b) : self.values codec = {v | b.contains v = true} := by
  ext v
  rw [BackedBitmap.values, Set.mem_ofPred_eq, contains, ContainerStore.Holds.get hs,
    map_some, Set.mem_ofPred_eq, RoaringBitmap.contains, Option.some.injEq]
  cases b.store.get (decompose v).1 <;> rfl

theorem Holds.insert (hs : self.Holds codec b) (value : ℕ) : ∃ t, self.insert codec value =
    some ((b.insert value).1, t) ∧ t.Holds codec (b.insert value).2 := by
  obtain ⟨s', hs', hholds⟩ := ContainerStore.Holds.modify hs (decompose value).1 true
    fun c => c.insert (decompose value).2 (decompose_lt value)
  exact ⟨⟨s'⟩, by rw [BackedBitmap.insert, hs']; rfl, hholds⟩

theorem Holds.remove (hs : self.Holds codec b) (value : ℕ) : ∃ t, self.remove codec value =
    some ((b.remove value).1, t) ∧ t.Holds codec (b.remove value).2 := by
  obtain ⟨s', hs', hholds⟩ := ContainerStore.Holds.modify hs (decompose value).1 false
    fun c => c.remove (decompose value).2 (decompose_lt value)
  exact ⟨⟨s'⟩, by rw [BackedBitmap.remove, hs']; rfl, hholds⟩

/-- Changing containers one after the other agrees with doing so on the heap. -/
private theorem foldlM_modify (create : Bool) (f : ℕ → Container → Bool × Container)
    (keys : List ℕ) (hs : self.Holds codec b) : ∃ t,
      keys.foldlM (fun (b : BackedBitmap) key =>
        (b.store.modify codec key create (f key)).map fun r => (⟨r.2⟩ : BackedBitmap)) self =
          some t ∧
        t.Holds codec (keys.foldl (fun b key =>
          ⟨(b.store.modify key create (f key)).2, b.noneEmpty.modify _ _ _⟩) b) := by
  induction keys generalizing self b with
  | nil => exact ⟨self, rfl, hs⟩
  | cons key keys ih =>
    obtain ⟨s', hs', hholds⟩ := ContainerStore.Holds.modify hs key create (f key)
    have hnext : (⟨s'⟩ : BackedBitmap).Holds codec
        ⟨(b.store.modify key create (f key)).2, b.noneEmpty.modify _ _ _⟩ := hholds
    obtain ⟨t, ht, hrest⟩ := ih hnext
    refine ⟨t, ?_, hrest⟩
    rw [List.foldlM_cons, hs']
    exact ht

theorem Holds.optimize (hs : self.Holds codec b) :
    ∃ t, self.optimize codec = some t ∧ t.Holds codec b.optimize := by
  rw [BackedBitmap.optimize, ContainerStore.Holds.sortedKeys hs]
  exact foldlM_modify false (fun _ c => (true, c.optimize)) _ hs

theorem Holds.flip (hs : self.Holds codec b) {lo hi : ℕ} {r : RoaringBitmap}
    (hr : b.flip lo hi = some r) : ∃ t, self.flip codec lo hi = some t ∧ t.Holds codec r := by
  rw [BackedBitmap.flip]
  rw [RoaringBitmap.flip] at hr
  split_ifs at hr ⊢ with hnone hspan
  · exact ⟨self, rfl, Option.some.inj hr ▸ hs⟩
  · obtain rfl := Option.some.inj hr
    exact foldlM_modify true (fun high c =>
      (true, c.flipRange (blockRange lo (hi - 1) high).1
        (blockRange lo (hi - 1) high).2)) _ hs

/-- A set operation gives a bitmap on the heap, of what the walk stores. -/
theorem Holds.join (hs : self.Holds codec a) (ho : other.Holds codec b)
    (walk : List (ℕ × Container) → List (ℕ × Container) → List (ℕ × Container)) :
    self.join codec other walk =
      some ⟨.heap (HeapStore.ofUpserts (walk a.store.map b.store.map))⟩ := by
  rw [BackedBitmap.join, ContainerStore.Holds.sortedEntries hs,
    ContainerStore.Holds.sortedEntries ho]
  rfl

end Holds

end BackedBitmap

/-! ### Runs -/

/-- The right side of a set operation: a bitmap in either backing, and what it stands for. -/
structure Operand (codec : ContainerCodec) where
  bitmap : BackedBitmap
  stands : RoaringBitmap
  holds : bitmap.Holds codec stands

/-- A change of a bitmap. -/
inductive BitmapOp (codec : ContainerCodec) where
  | insert (value : ℕ)
  | remove (value : ℕ)
  | clear
  | flip (lo hi : ℕ)
  | optimize
  | andInplace (other : Operand codec)
  | orInplace (other : Operand codec)
  | andNotInplace (other : Operand codec)

namespace BitmapOp

variable {codec : ContainerCodec}

/-- What the operation makes of a bitmap; none where it panics. -/
def apply : BitmapOp codec → BackedBitmap → Option BackedBitmap
  | insert value, b => (b.insert codec value).map Prod.snd
  | remove value, b => (b.remove codec value).map Prod.snd
  | clear, b => some b.clear
  | flip lo hi, b => b.flip codec lo hi
  | optimize, b => b.optimize codec
  | andInplace other, b => b.andInplace codec other.bitmap
  | orInplace other, b => b.orInplace codec other.bitmap
  | andNotInplace other, b => b.andNotInplace codec other.bitmap

/-- What the operation makes of a **plain set**. -/
def plain : BitmapOp codec → Set ℕ → Set ℕ
  | insert value, S => {v | v = value ∨ v ∈ S}
  | remove value, S => {v | v ≠ value ∧ v ∈ S}
  | clear, _ => ∅
  | flip lo hi, S => {v | v ∈ S ↔ ¬ (lo ≤ v ∧ v < hi)}
  | optimize, S => S
  | andInplace other, S => {v | v ∈ S ∧ v ∈ other.bitmap.values codec}
  | orInplace other, S => {v | v ∈ S ∨ v ∈ other.bitmap.values codec}
  | andNotInplace other, S => {v | v ∈ S ∧ v ∉ other.bitmap.values codec}

/-- The sequence of operations on a plain set. -/
def plainAll (ops : List (BitmapOp codec)) (S : Set ℕ) : Set ℕ :=
  ops.foldl (fun S op => op.plain S) S

/-- The operation replaces the bitmap by one on the heap. -/
def inPlace : BitmapOp codec → Bool
  | andInplace _ | orInplace _ | andNotInplace _ => true
  | _ => false

/-- A flip is within the span that the source asserts. -/
def Admitted : BitmapOp codec → Prop
  | flip lo hi => RoaringBitmap.flipAdmitted lo hi
  | _ => True

/-- Whether a value is held afterwards does not depend on whether it was before. -/
def Settles (v : ℕ) : BitmapOp codec → Prop
  | insert value | remove value => v = value
  | clear => True
  | flip _ _ | optimize => False
  | andInplace other => v ∉ other.bitmap.values codec
  | orInplace other | andNotInplace other => v ∈ other.bitmap.values codec

/-- The operation is a difference that keeps a value both sides hold: the containers of the
value's key keep runs to the last low value on both sides. -/
def StuckOn (b : RoaringBitmap) (v : ℕ) : BitmapOp codec → Prop
  | andNotInplace other => v % 65536 = 65535 ∧ b.stuckAt other.stands (v / 65536) = true
  | _ => False

/-- What the operation makes of a heap-backed bitmap. -/
def onHeap : BitmapOp codec → RoaringBitmap → Option RoaringBitmap
  | insert value, b => some (b.insert value).2
  | remove value, b => some (b.remove value).2
  | clear, _ => some RoaringBitmap.new
  | flip lo hi, b => b.flip lo hi
  | optimize, b => some b.optimize
  | andInplace other, b => some (b.and other.stands)
  | orInplace other, b => some (b.or other.stands)
  | andNotInplace other, b => some (b.andNot other.stands)

/-- A difference on the way keeps a value it should not, and no later operation settles it. -/
def LeftOver (v : ℕ) : List (BitmapOp codec) → RoaringBitmap → Prop
  | [], _ => False
  | op :: ops, b =>
    (op.StuckOn b v ∧ ∀ later ∈ ops, ¬ later.Settles v) ∨
      ∃ b', op.onHeap b = some b' ∧ LeftOver v ops b'

section Apply

variable {s : BackedBitmap} {b b' : RoaringBitmap} {op : BitmapOp codec}

theorem onHeap_isSome (h : op.Admitted) (b : RoaringBitmap) : ∃ b', op.onHeap b = some b' := by
  cases op with
  | flip lo hi => exact Option.isSome_iff_exists.mp ((b.flip_isSome_iff lo hi).mpr h)
  | _ => exact ⟨_, rfl⟩

/-- **Each operation agrees with that of heap-backed bitmaps**, in either backing. -/
theorem apply_holds (hs : s.Holds codec b) (h : op.onHeap b = some b') :
    ∃ t, op.apply s = some t ∧ t.Holds codec b' := by
  cases op with
  | insert value =>
    obtain ⟨t, ht, hholds⟩ := hs.insert value
    exact ⟨t, by rw [apply, ht]; rfl, Option.some.inj h ▸ hholds⟩
  | remove value =>
    obtain ⟨t, ht, hholds⟩ := hs.remove value
    exact ⟨t, by rw [apply, ht]; rfl, Option.some.inj h ▸ hholds⟩
  | clear => exact ⟨_, rfl, Option.some.inj h ▸ ContainerStore.Holds.clear hs⟩
  | flip lo hi => exact hs.flip h
  | optimize =>
    obtain ⟨t, ht, hholds⟩ := hs.optimize
    exact ⟨t, ht, Option.some.inj h ▸ hholds⟩
  | andInplace other | orInplace other | andNotInplace other =>
    exact ⟨_, hs.join other.holds _, Option.some.inj h ▸ rfl⟩

theorem values_operand (other : Operand codec) :
    other.bitmap.values codec = {v | other.stands.contains v = true} :=
  other.holds.values

/-- **One step for one value.** After the operation the bitmap and the set differ on a value
just if they differed and the operation does not settle it, or if it is stuck on it. -/
theorem differ_iff (h : op.onHeap b = some b') (S : Set ℕ) (v : ℕ) :
    ¬ (b'.contains v = true ↔ v ∈ op.plain S) ↔
      (¬ (b.contains v = true ↔ v ∈ S) ∧ ¬ op.Settles v) ∨ op.StuckOn b v := by
  cases op with
  | insert value =>
    rw [← Option.some.inj h, contains_insert]
    simp only [plain, Settles, StuckOn, Set.mem_ofPred_eq]
    grind
  | remove value =>
    rw [← Option.some.inj h, contains_remove]
    simp only [plain, Settles, StuckOn, Set.mem_ofPred_eq]
    grind
  | clear =>
    rw [← Option.some.inj h]
    simp only [plain, Settles, StuckOn, Set.mem_empty_iff_false]
    simp [RoaringBitmap.contains, new, HeapStore.new, HeapStore.get, lookup]
  | flip lo hi =>
    rw [b.contains_flip h]
    simp only [plain, Settles, StuckOn, Set.mem_ofPred_eq]
    grind
  | optimize =>
    rw [← Option.some.inj h, contains_optimize]
    simp only [plain, Settles, StuckOn]
    grind
  | andInplace other =>
    rw [← Option.some.inj h, contains_and]
    simp only [plain, Settles, StuckOn, values_operand, Set.mem_ofPred_eq]
    grind
  | orInplace other =>
    rw [← Option.some.inj h, contains_or]
    simp only [plain, Settles, StuckOn, values_operand, Set.mem_ofPred_eq]
    grind
  | andNotInplace other =>
    have hright : b.stuckAt other.stands (v / 65536) = true → v % 65536 = 65535 →
        other.stands.contains v = true := fun hstuck hlow =>
      (contains_of_stuckAt hlow hstuck).2
    rw [← Option.some.inj h, contains_andNot]
    simp only [plain, Settles, StuckOn, values_operand, Set.mem_ofPred_eq]
    grind

end Apply

/-! ### Runs of heap-backed bitmaps -/

/-- The operations one after the other, on a bitmap in either backing. -/
def applyAll (ops : List (BitmapOp codec)) (s : BackedBitmap) : Option BackedBitmap :=
  ops.foldlM (fun s op => op.apply s) s

/-- The operations one after the other, on a heap-backed bitmap. -/
def onHeapAll (ops : List (BitmapOp codec)) (b : RoaringBitmap) : Option RoaringBitmap :=
  ops.foldlM (fun b op => op.onHeap b) b

section Runs

variable {s : BackedBitmap} {b b' : RoaringBitmap} {op : BitmapOp codec}
  {ops : List (BitmapOp codec)}

theorem onHeapAll_cons : onHeapAll (op :: ops) b = (op.onHeap b).bind (onHeapAll ops) := rfl

theorem onHeapAll_isSome (h : ∀ op ∈ ops, op.Admitted) (b : RoaringBitmap) :
    ∃ b', onHeapAll ops b = some b' := by
  induction ops generalizing b with
  | nil => exact ⟨b, rfl⟩
  | cons op ops ih =>
    obtain ⟨hop, hops⟩ := List.forall_mem_cons.mp h
    obtain ⟨b₁, hb₁⟩ := onHeap_isSome hop b
    rw [onHeapAll_cons, hb₁]
    exact ih hops b₁

theorem applyAll_holds (hs : s.Holds codec b) (h : onHeapAll ops b = some b') :
    ∃ t, applyAll ops s = some t ∧ t.Holds codec b' := by
  induction ops generalizing s b with
  | nil => exact ⟨s, rfl, Option.some.inj h ▸ hs⟩
  | cons op ops ih =>
    obtain ⟨b₁, hb₁, hrest⟩ := bind_eq_some_iff.mp h
    obtain ⟨s₁, hs₁, hholds⟩ := apply_holds hs hb₁
    obtain ⟨t, ht, hlast⟩ := ih hholds hrest
    refine ⟨t, ?_, hlast⟩
    rw [applyAll, List.foldlM_cons, hs₁]
    exact ht

/-- **A run for one value.** A bitmap and a set that went through the same operations differ on
a value just if they differed and nothing settled it, or if a difference left it over. -/
theorem differ_all_iff (h : onHeapAll ops b = some b') (S : Set ℕ) (v : ℕ) :
    ¬ (b'.contains v = true ↔ v ∈ plainAll ops S) ↔
      (¬ (b.contains v = true ↔ v ∈ S) ∧ ∀ op ∈ ops, ¬ op.Settles v) ∨ LeftOver v ops b := by
  induction ops generalizing b S with
  | nil =>
    obtain rfl := Option.some.inj h
    simp [plainAll, LeftOver]
  | cons op ops ih =>
    obtain ⟨b₁, hb₁, hrest⟩ := bind_eq_some_iff.mp h
    rw [plainAll, List.foldl_cons, show List.foldl _ _ ops = plainAll ops (op.plain S) from rfl,
      ih hrest, differ_iff hb₁, LeftOver, List.forall_mem_cons]
    simp only [hb₁, Option.some.injEq, exists_eq_left']
    grind

/-- Only differences in place leave values over. -/
theorem not_leftOver (h : ∀ op ∈ ops, op.inPlace = false) (b : RoaringBitmap) (v : ℕ) :
    ¬ LeftOver v ops b := by
  induction ops generalizing b with
  | nil => exact id
  | cons op ops ih =>
    obtain ⟨hop, hops⟩ := List.forall_mem_cons.mp h
    rintro (⟨hstuck, -⟩ | ⟨b₁, -, hleft⟩)
    · cases op with
      | andNotInplace other => cases hop
      | _ => exact hstuck
    · exact ih hops b₁ hleft

/-- A bitmap that started as the set is the set afterwards just if nothing is left over. -/
theorem values_all_iff (h : onHeapAll ops b = some b') {S : Set ℕ}
    (hS : {v | b.contains v = true} = S) :
    {v | b'.contains v = true} = plainAll ops S ↔ ∀ v, ¬ LeftOver v ops b := by
  rw [Set.ext_iff]
  refine forall_congr' fun v => ?_
  have hv : b.contains v = true ↔ v ∈ S := by
    rw [← hS]
    exact Iff.rfl
  have hdiffer := differ_all_iff h S v
  simp only [Set.mem_ofPred_eq]
  grind

end Runs

end BitmapOp

/-! ### Bitmaps and their files -/

namespace BackedBitmap

/-- The bitmap lies in files. -/
def isMapped (s : BackedBitmap) : Bool :=
  match s.store with
  | .heap _ => false
  | .mapped _ => true

end BackedBitmap

/-- A bitmap that was created or opened in a directory, and the directory's files. -/
structure FileBitmap where
  bitmap : BackedBitmap
  files : MappedStore

namespace FileBitmap

open ByteCodec

variable {codec : ContainerCodec}

/-- A new bitmap in a directory. -/
def create : FileBitmap := ⟨BackedBitmap.create, MappedStore.create⟩

/-- The files after an operation: what is mapped is the files, and a bitmap on the heap has no
part in them. Flushing leaves both as they are. -/
def written (b : BackedBitmap) (files : MappedStore) : MappedStore :=
  match b.store with
  | .heap _ => files
  | .mapped m => m

def apply (op : BitmapOp codec) (s : FileBitmap) : Option FileBitmap :=
  (op.apply s.bitmap).map fun b => ⟨b, written b s.files⟩

def run (ops : List (BitmapOp codec)) (s : FileBitmap) : Option FileBitmap :=
  ops.foldlM (fun s op => apply op s) s

/-- `open(dir)` on what the bitmap left there. -/
def reopen (s : FileBitmap) : Option FileBitmap :=
  s.files.reopen.map fun m => ⟨⟨.mapped m⟩, m⟩

/-- The bitmaps that `create` and `open` make. -/
inductive Made (codec : ContainerCodec) : FileBitmap → Prop
  | create : Made codec FileBitmap.create
  | reopen {s t u : FileBitmap} (ops : List (BitmapOp codec)) (hs : Made codec s)
      (ht : s.run ops = some t) (hu : t.reopen = some u) : Made codec u

/-- The operations before the first one in place. -/
def before (ops : List (BitmapOp codec)) : List (BitmapOp codec) :=
  ops.takeWhile fun op => !op.inPlace

/-- The bitmap lies in its files and stands for a heap-backed one. -/
structure InFiles (codec : ContainerCodec) (s : FileBitmap) (b : RoaringBitmap) : Prop where
  mapped : s.bitmap = ⟨.mapped s.files⟩
  stands : s.files.Represents codec b.store

section Steps

variable {s t : FileBitmap} {b b' : RoaringBitmap} {op : BitmapOp codec}
  {ops : List (BitmapOp codec)}

theorem InFiles.holds (hs : s.InFiles codec b) : s.bitmap.Holds codec b := by
  rw [BackedBitmap.Holds, hs.mapped]
  exact hs.stands

/-- Changing containers keeps the backing. -/
private theorem isMapped_modify {s : BackedBitmap} {key : ℕ} {create : Bool}
    {f : Container → Bool × Container} {r : Bool × ContainerStore}
    (h : s.store.modify codec key create f = some r) :
    (⟨r.2⟩ : BackedBitmap).isMapped = s.isMapped := by
  obtain ⟨store⟩ := s
  cases store with
  | heap h' =>
    obtain rfl := Option.some.inj h
    rfl
  | mapped m =>
    obtain ⟨x, -, rfl⟩ := map_eq_some_iff.mp h
    rfl

private theorem isMapped_foldlM {create : Bool} {f : ℕ → Container → Bool × Container}
    {keys : List ℕ} {s t : BackedBitmap}
    (h : keys.foldlM (fun (b : BackedBitmap) key =>
      (b.store.modify codec key create (f key)).map fun r => (⟨r.2⟩ : BackedBitmap)) s = some t) :
    t.isMapped = s.isMapped := by
  induction keys generalizing s with
  | nil =>
    obtain rfl := Option.some.inj h
    rfl
  | cons key keys ih =>
    rw [List.foldlM_cons] at h
    obtain ⟨s₁, hs₁, hrest⟩ := bind_eq_some_iff.mp h
    obtain ⟨r, hr, rfl⟩ := map_eq_some_iff.mp hs₁
    rw [ih hrest, isMapped_modify hr]

/-- **A bitmap leaves its files with the first operation in place**, and never comes back. -/
theorem isMapped_apply {s t : BackedBitmap} (h : op.apply s = some t) :
    t.isMapped = (s.isMapped && !op.inPlace) := by
  cases op with
  | insert value | remove value =>
    obtain ⟨x, hx, rfl⟩ := map_eq_some_iff.mp h
    obtain ⟨r, hr, rfl⟩ := map_eq_some_iff.mp hx
    rw [isMapped_modify hr]
    exact (Bool.and_true _).symm
  | clear =>
    obtain rfl := Option.some.inj h
    obtain ⟨store⟩ := s
    cases store <;> rfl
  | flip lo hi =>
    rw [BitmapOp.apply, BackedBitmap.flip] at h
    split_ifs at h
    · obtain rfl := Option.some.inj h
      exact (Bool.and_true _).symm
    · rw [isMapped_foldlM h]
      exact (Bool.and_true _).symm
  | optimize =>
    rw [BitmapOp.apply, BackedBitmap.optimize] at h
    rw [isMapped_foldlM h]
    exact (Bool.and_true _).symm
  | andInplace other | orInplace other | andNotInplace other =>
    obtain ⟨es, -, h⟩ := bind_eq_some_iff.mp h
    obtain ⟨es', -, h⟩ := bind_eq_some_iff.mp h
    obtain rfl := Option.some.inj h
    exact (Bool.and_false _).symm

/-- An operation that does not panic has its flip admitted. -/
theorem onHeap_of_apply {s t : BackedBitmap} (h : op.apply s = some t) (b : RoaringBitmap) :
    ∃ b', op.onHeap b = some b' := by
  refine BitmapOp.onHeap_isSome ?_ b
  cases op with
  | flip lo hi =>
    rw [BitmapOp.apply, BackedBitmap.flip] at h
    split_ifs at h with hnone hspan
    · exact .inl hnone
    · exact .inr (not_lt.mp hspan)
  | _ => trivial

/-- The files after an operation that keeps the bitmap in them. -/
theorem InFiles.apply (hs : s.InFiles codec b) (hop : op.inPlace = false)
    (ht : s.apply op = some t) : ∃ b', op.onHeap b = some b' ∧ t.InFiles codec b' := by
  obtain ⟨r, hr, rfl⟩ := map_eq_some_iff.mp ht
  obtain ⟨b', hb'⟩ := onHeap_of_apply hr b
  obtain ⟨r', hr', hholds⟩ := BitmapOp.apply_holds hs.holds hb'
  obtain rfl : r = r' := Option.some.inj (hr ▸ hr')
  have hmapped := isMapped_apply hr
  rw [hs.mapped, hop] at hmapped
  refine ⟨b', hb', ?_⟩
  obtain ⟨store⟩ := r
  cases store with
  | heap h => cases hmapped
  | mapped m => exact ⟨rfl, hholds⟩

/-- The files of a bitmap on the heap stay as they are. -/
theorem files_run_of_heap (hs : s.bitmap.isMapped = false) (ht : s.run ops = some t) :
    t.files = s.files := by
  induction ops generalizing s with
  | nil =>
    obtain rfl := Option.some.inj ht
    rfl
  | cons op ops ih =>
    rw [run, List.foldlM_cons] at ht
    obtain ⟨s₁, hs₁, hrest⟩ := bind_eq_some_iff.mp ht
    obtain ⟨r, hr, rfl⟩ := map_eq_some_iff.mp hs₁
    have hheap := isMapped_apply hr
    rw [hs, Bool.false_and] at hheap
    rw [ih hheap hrest]
    obtain ⟨store⟩ := r
    cases store with
    | heap h => rfl
    | mapped m => cases hheap

/-- **The files keep what the bitmap was before the first operation in place.** -/
theorem InFiles.run (hs : s.InFiles codec b) (ht : s.run ops = some t) :
    ∃ b', BitmapOp.onHeapAll (before ops) b = some b' ∧ t.files.Represents codec b'.store := by
  induction ops generalizing s b with
  | nil =>
    obtain rfl := Option.some.inj ht
    exact ⟨b, rfl, hs.stands⟩
  | cons op ops ih =>
    rw [FileBitmap.run, List.foldlM_cons] at ht
    obtain ⟨s₁, hs₁, hrest⟩ := bind_eq_some_iff.mp ht
    cases hop : op.inPlace with
    | false =>
      obtain ⟨b₁, hb₁, hin⟩ := hs.apply hop hs₁
      obtain ⟨b', hb', hstands⟩ := ih hin hrest
      refine ⟨b', ?_, hstands⟩
      rw [before, List.takeWhile_cons_of_pos (by rw [hop]; rfl), BitmapOp.onHeapAll_cons, hb₁]
      exact hb'
    | true =>
      obtain ⟨r, hr, rfl⟩ := map_eq_some_iff.mp hs₁
      have hheap := isMapped_apply hr
      rw [hop, Bool.not_true, Bool.and_false] at hheap
      have hfiles := files_run_of_heap hheap hrest
      refine ⟨b, ?_, ?_⟩
      · rw [before, List.takeWhile_cons_of_neg (by rw [hop]; exact Bool.false_ne_true)]
        rfl
      · rw [hfiles]
        obtain ⟨store⟩ := r
        cases store with
        | heap h => exact hs.stands
        | mapped m => cases hheap

/-- A run whose flips are admitted does not panic. -/
theorem run_isSome (hs : s.bitmap.Holds codec b) (hflips : ∀ op ∈ ops, op.Admitted) :
    ∃ t, s.run ops = some t := by
  induction ops generalizing s b with
  | nil => exact ⟨s, rfl⟩
  | cons op ops ih =>
    obtain ⟨hop, hops⟩ := List.forall_mem_cons.mp hflips
    obtain ⟨b₁, hb₁⟩ := BitmapOp.onHeap_isSome hop b
    obtain ⟨r, hr, hholds⟩ := BitmapOp.apply_holds hs hb₁
    obtain ⟨t, ht⟩ := ih (s := ⟨r, written r s.files⟩) hholds hops
    refine ⟨t, ?_⟩
    rw [run, List.foldlM_cons, apply, hr]
    exact ht

theorem inFiles_reopen (ht : t.files.Represents codec b.store) :
    ∃ u, t.reopen = some u ∧ u.InFiles codec b :=
  ⟨⟨⟨.mapped t.files⟩, t.files⟩, by rw [reopen, MappedStore.Represents.reopen ht]; rfl, rfl, ht⟩

/-- **Every bitmap that is made** lies in its files. -/
theorem inFiles_of_made (hs : Made codec s) : ∃ b, s.InFiles codec b := by
  induction hs with
  | create => exact ⟨new, rfl, MappedStore.represents_create⟩
  | reopen ops _ ht hu ih =>
    obtain ⟨b, hb⟩ := ih
    obtain ⟨b', -, hstands⟩ := hb.run ht
    obtain ⟨u, hu', hin⟩ := inFiles_reopen hstands
    exact ⟨b', Option.some.inj (hu' ▸ hu) ▸ hin⟩

end Steps

/-! ### A codec -/

/-- So many numbers of `w` bytes each. -/
def readNums (w : ℕ) : ℕ → List UInt8 → List ℕ
  | 0, _ => []
  | n + 1, bytes => leNat (bytes.take w) :: readNums w n (bytes.drop w)

theorem readNums_flatMap (w : ℕ) {l : List ℕ} (h : ∀ n ∈ l, n < 256 ^ w) :
    readNums w l.length (l.flatMap (leBytes w)) = l := by
  induction l with
  | nil => rfl
  | cons n l ih =>
    obtain ⟨hn, hl⟩ := List.forall_mem_cons.mp h
    rw [List.length_cons, List.flatMap_cons, readNums, List.take_left' (length_leBytes w n),
      List.drop_left' (length_leBytes w n), ih hl, leNat_leBytes, Nat.mod_eq_of_lt hn]

theorem length_flatMap_leBytes (w : ℕ) (l : List ℕ) :
    (l.flatMap (leBytes w)).length = l.length * w := by
  induction l with
  | nil => exact (Nat.zero_mul w).symm
  | cons n l ih =>
    rw [List.flatMap_cons, List.length_append, ih, length_leBytes, List.length_cons, Nat.succ_mul,
      Nat.add_comm]

/-- A list of numbers of `w` bytes each, to the end. -/
def readAll (w : ℕ) (bytes : List UInt8) : List ℕ := readNums w (bytes.length / w) bytes

theorem readAll_flatMap {w : ℕ} (hw : 0 < w) {l : List ℕ} (h : ∀ n ∈ l, n < 256 ^ w) :
    readAll w (l.flatMap (leBytes w)) = l := by
  rw [readAll, length_flatMap_leBytes, Nat.mul_div_cancel _ hw, readNums_flatMap w h]

instance decidableSortedLows (l : List ℕ) : Decidable (SortedLows l) :=
  decidable_of_iff ((l.Pairwise fun a b => a < b) ∧ ∀ v ∈ l, v < 65536)
    ⟨fun h => ⟨h.1, h.2⟩, fun h => ⟨h.ascending, h.bounded⟩⟩

instance decidableSortedRuns (runs : List Run) : Decidable (SortedRuns runs) :=
  decidable_of_iff ((runs.Pairwise fun a b => a.end < b.start) ∧ ∀ r ∈ runs, r.end < 65536)
    ⟨fun h => ⟨h.1, h.2⟩, fun h => ⟨h.ordered, h.fits⟩⟩

/-- A container's kind, and then its numbers. -/
def kindThenNumbers : Container → List UInt8
  | .array a => 0 :: a.values.flatMap (leBytes 2)
  | .bitset b => 1 :: (b.bits.toList.map BitVec.toNat).flatMap (leBytes 8)
  | .run r => 2 :: (r.runs.map fun x => x.start * 65536 + x.length).flatMap (leBytes 4)

/-- Read them back. -/
def ofKindThenNumbers : List UInt8 → Option Container
  | [] => none
  | kind :: bytes =>
    if kind = 0 then
      if h : SortedLows (readAll 2 bytes) then some (.array ⟨readAll 2 bytes, h⟩) else none
    else if kind = 1 then
      let words := ((readAll 8 bytes).map (BitVec.ofNat 64)).toArray
      if h : words.size = 1024 then some (.bitset (BitsetContainer.recounted ⟨words, h⟩)) else none
    else
      let runs := (readAll 4 bytes).map fun n => (⟨n / 65536, n % 65536⟩ : Run)
      if h : SortedRuns runs then some (.run (RunContainer.fromRuns runs h)) else none

theorem ofKindThenNumbers_kindThenNumbers (c : Container) :
    ofKindThenNumbers (kindThenNumbers c) = some c := by
  cases c with
  | array a =>
    have hread := readAll_flatMap (w := 2) (by norm_num) a.sorted.bounded
    rw [kindThenNumbers, ofKindThenNumbers, if_pos rfl]
    simp only [hread, dif_pos a.sorted]
  | bitset b =>
    have hread := readAll_flatMap (w := 8) (l := b.bits.toList.map BitVec.toNat) (by norm_num) (by
      intro n hn
      obtain ⟨x, -, rfl⟩ := List.mem_map.mp hn
      exact x.isLt)
    have hwords : ((b.bits.toList.map BitVec.toNat).map (BitVec.ofNat 64)) = b.bits.toList := by
      rw [List.map_map]
      refine (List.map_congr_left fun x _ => ?_).trans (List.map_id _)
      rw [Function.comp_apply, BitVec.ofNat_toNat, BitVec.setWidth_eq]
      rfl
    rw [kindThenNumbers, ofKindThenNumbers, if_neg (by decide), if_pos rfl]
    simp only [hread, hwords]
    obtain ⟨bits, card, hcard⟩ := b
    subst hcard
    rw [dif_pos (by simp)]
    rfl
  | run r =>
    have hfits : ∀ x ∈ r.runs, x.start < 65536 ∧ x.length < 65536 := by
      intro x hx
      have hlt := r.sorted.fits x hx
      rw [Run.end] at hlt
      omega
    have hread := readAll_flatMap (w := 4) (l := r.runs.map fun x => x.start * 65536 + x.length)
      (by norm_num) (by
        intro n hn
        obtain ⟨x, hx, rfl⟩ := List.mem_map.mp hn
        have := hfits x hx
        omega)
    have hruns : ((r.runs.map fun x => x.start * 65536 + x.length).map fun n =>
        (⟨n / 65536, n % 65536⟩ : Run)) = r.runs := by
      rw [List.map_map]
      refine (List.map_congr_left fun x hx => ?_).trans (List.map_id _)
      have := hfits x hx
      have hstart : (x.start * 65536 + x.length) / 65536 = x.start := by omega
      have hlength : (x.start * 65536 + x.length) % 65536 = x.length := by omega
      simp only [Function.comp_apply, id, hstart, hlength]
    rw [kindThenNumbers, ofKindThenNumbers, if_neg (by decide), if_neg (by decide)]
    simp only [hread, hruns, dif_pos r.sorted]
    obtain ⟨runs, card, hsorted, hcard⟩ := r
    subst hcard
    rfl

/-- A codec that writes a container's kind and its numbers. -/
def plainCodec : ContainerCodec :=
  ⟨kindThenNumbers, ofKindThenNumbers, ofKindThenNumbers_kindThenNumbers⟩

/-! ### Main result -/

/-- **What a file-backed bitmap keeps.** After any operations whose flips are admitted, the
bitmap opened again is exactly the set the operations compute, and so is a heap-backed one that
held the same values, just if the operations from the first one in place on leave that set as it
was before, and the heap-backed bitmap has no value left over from a stuck difference. -/
theorem reopened_exactly_iff (codec : ContainerCodec) {s : FileBitmap} (hs : Made codec s)
    (twin : RoaringBitmap) (htwin : (BackedBitmap.ofHeap twin).values codec = s.bitmap.values codec)
    (ops : List (BitmapOp codec)) (hflips : ∀ op ∈ ops, op.Admitted) :
    ∃ t u heap, s.run ops = some t ∧ t.reopen = some u ∧
      BitmapOp.applyAll ops (BackedBitmap.ofHeap twin) = some heap ∧
      ((u.bitmap.values codec = BitmapOp.plainAll ops (s.bitmap.values codec) ∧
          heap.values codec = BitmapOp.plainAll ops (s.bitmap.values codec)) ↔
        BitmapOp.plainAll (before ops) (s.bitmap.values codec) =
            BitmapOp.plainAll ops (s.bitmap.values codec) ∧
          ∀ v, ¬ BitmapOp.LeftOver v ops twin) := by
  obtain ⟨b, hin⟩ := inFiles_of_made hs
  obtain ⟨t, ht⟩ := run_isSome hin.holds hflips
  obtain ⟨kept, hkept, hfiles⟩ := hin.run ht
  obtain ⟨u, hu, hopen⟩ := inFiles_reopen hfiles
  obtain ⟨twin', htwin'⟩ := BitmapOp.onHeapAll_isSome hflips twin
  obtain ⟨heap, hheap, hholds⟩ :=
    BitmapOp.applyAll_holds (BackedBitmap.holds_ofHeap codec twin) htwin'
  refine ⟨t, u, heap, ht, hu, hheap, ?_⟩
  -- before the first operation in place no difference can be stuck
  have hexact : u.bitmap.values codec = BitmapOp.plainAll (before ops) (s.bitmap.values codec) := by
    rw [hopen.holds.values]
    refine (BitmapOp.values_all_iff hkept hin.holds.values.symm).mpr fun v => ?_
    refine BitmapOp.not_leftOver (fun op hop => ?_) b v
    simpa using List.mem_takeWhile_imp hop
  have hleft : heap.values codec = BitmapOp.plainAll ops (s.bitmap.values codec) ↔
      ∀ v, ¬ BitmapOp.LeftOver v ops twin := by
    rw [hholds.values]
    rw [(BackedBitmap.holds_ofHeap codec twin).values] at htwin
    exact BitmapOp.values_all_iff htwin' htwin
  rw [hexact, hleft]

/-- The bitmap `{2}` on the heap. -/
def two : Operand plainCodec :=
  ⟨BackedBitmap.ofHeap (RoaringBitmap.new.insert 2).2, (RoaringBitmap.new.insert 2).2,
    BackedBitmap.holds_ofHeap plainCodec _⟩

/-- Insert 1, and then unite with `{2}`. -/
def insertThenUnite : List (BitmapOp plainCodec) := [.insert 1, .orInplace two]

theorem reopened_exactly_iff_insertThenUnite :
    ∃ t u heap, create.run insertThenUnite = some t ∧ t.reopen = some u ∧
      BitmapOp.applyAll insertThenUnite (BackedBitmap.ofHeap RoaringBitmap.new) = some heap ∧
      ((u.bitmap.values plainCodec =
            BitmapOp.plainAll insertThenUnite (create.bitmap.values plainCodec) ∧
          heap.values plainCodec =
            BitmapOp.plainAll insertThenUnite (create.bitmap.values plainCodec)) ↔
        BitmapOp.plainAll (before insertThenUnite) (create.bitmap.values plainCodec) =
            BitmapOp.plainAll insertThenUnite (create.bitmap.values plainCodec) ∧
          ∀ v, ¬ BitmapOp.LeftOver v insertThenUnite RoaringBitmap.new) := by
  refine reopened_exactly_iff plainCodec Made.create RoaringBitmap.new ?_ insertThenUnite ?_
  · have hin : create.InFiles plainCodec RoaringBitmap.new := ⟨rfl, MappedStore.represents_create⟩
    rw [hin.holds.values, (BackedBitmap.holds_ofHeap plainCodec RoaringBitmap.new).values]
  · simp [insertThenUnite, BitmapOp.Admitted]

/-- The union is not in the files. -/
theorem union_not_kept : ¬ ∃ t u, create.run insertThenUnite = some t ∧ t.reopen = some u ∧
    u.bitmap.values plainCodec =
      BitmapOp.plainAll insertThenUnite (create.bitmap.values plainCodec) := by
  rintro ⟨t, u, ht, hu, hvalues⟩
  have hrun : ((create.run insertThenUnite).bind FileBitmap.reopen).map
      (fun u => u.bitmap.contains plainCodec 2) = some (some false) := by decide +kernel
  rw [ht, Option.bind_some, hu, map_some, Option.some.injEq] at hrun
  have htwo : two.bitmap.contains plainCodec 2 = some true := by decide +kernel
  have hmem : 2 ∈ u.bitmap.values plainCodec := by
    rw [hvalues]
    exact .inr htwo
  rw [BackedBitmap.values, Set.mem_ofPred_eq, hrun] at hmem
  cases hmem

end FileBitmap

end Minnal
