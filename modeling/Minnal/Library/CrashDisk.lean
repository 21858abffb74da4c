import Mathlib.Data.List.GetD
import Mathlib.Data.List.Infix
import Mathlib.Order.MinMax

/-!
# Files across a power loss

A file has its **current** content, what a reader of the running system sees, and the older
contents it has had since its last fsync. A power loss leaves an **image**: a length that one
of these contents had, and at each byte what one of them had there. Bytes that no write has
touched since the last fsync are therefore kept, and a byte written since is kept or lost on
its own. A number of leading bytes (`head`) may be declared to be kept or lost as one piece, as
a header inside one sector is. A file whose directory entry was never fsynced may be gone.

A directory is a list of numbered files. Programs act on it by `Step`s, one per system call,
so that a crash can be placed between any two.
-/

namespace CrashDisk

/-- A file: its content and the contents it has had since its last fsync. -/
structure File where
  data : List UInt8
  older : List (List UInt8)
  /-- Whether its directory entry is durable. -/
  named : Bool
  deriving DecidableEq

/-- A directory of numbered files. -/
abbrev Disk := List (ℕ × File)

/-- One system call. -/
inductive Step where
  /-- Create the file, or truncate it if it exists. -/
  | create (id : ℕ)
  | write (id pos : ℕ) (bytes : List UInt8)
  | setLen (id len : ℕ)
  | sync (id : ℕ)
  | syncDir
  /-- Move a file that is complete and durable into place. -/
  | install (id : ℕ) (content : List UInt8)

/-- A positional write; a gap past the end reads as zeros. -/
def writeAt (file : List UInt8) (pos : ℕ) (bytes : List UInt8) : List UInt8 :=
  file.take pos ++ List.replicate (pos - file.length) 0 ++ bytes ++ file.drop (pos + bytes.length)

/-- Cut or zero-extend to a length. -/
def resize (file : List UInt8) (len : ℕ) : List UInt8 :=
  file.take len ++ List.replicate (len - file.length) 0

namespace File

/-- The contents the file may have on the disk. -/
def contents (f : File) : List (List UInt8) := f.data :: f.older

/-- Change the content without an fsync. -/
def change (f : File) (data : List UInt8) : File := { f with data := data, older := f.contents }

/-- A file that is as it is on the disk. -/
def durable (data : List UInt8) : File := ⟨data, [], true⟩

/-- Whether a power loss may leave this image of the file. -/
def survives (head : ℕ) (f : File) (image : List UInt8) : Bool :=
  (f.contents.any fun c => decide (c.length = image.length)) &&
    ((List.range image.length).all fun i => f.contents.any fun c => c.getD i 0 == image.getD i 0) &&
    f.contents.any fun c => (List.range (min head image.length)).all fun i =>
      c.getD i 0 == image.getD i 0

end File

/-- Change the file numbered `id`. -/
def modify (id : ℕ) (g : File → File) (d : Disk) : Disk :=
  d.map fun x => if x.1 = id then (x.1, g x.2) else x

/-- What a system call does. -/
def apply (d : Disk) : Step → Disk
  | .create id =>
    if d.any fun x => decide (x.1 = id) then modify id (fun f => f.change []) d
    else d ++ [(id, ⟨[], [], false⟩)]
  | .write id pos bytes => modify id (fun f => f.change (writeAt f.data pos bytes)) d
  | .setLen id len => modify id (fun f => f.change (resize f.data len)) d
  | .sync id => modify id (fun f => { f with older := [] }) d
  | .syncDir => d.map fun x => (x.1, { x.2 with named := true })
  | .install id content => d ++ [(id, ⟨content, [], false⟩)]

/-- Several system calls. -/
def applyAll (d : Disk) (steps : List Step) : Disk := steps.foldl apply d

/-- What a reader sees. -/
def files (d : Disk) : List (ℕ × List UInt8) := d.map fun x => (x.1, x.2.data)

/-- Whether a power loss may leave these files. -/
def survivors (head : ℕ) : Disk → List (ℕ × List UInt8) → Bool
  | [], images => images.isEmpty
  | (_, f) :: d, [] => !f.named && survivors head d []
  | (id, f) :: d, (jd, image) :: images =>
    (decide (id = jd) && f.survives head image && survivors head d images) ||
      (!f.named && survivors head d ((jd, image) :: images))

/-- The directory a restart finds. -/
def restart (images : List (ℕ × List UInt8)) : Disk := images.map fun x => (x.1, .durable x.2)

/-! ### Contents -/

variable {l : List UInt8}

theorem getD_eq_of_lt {i : ℕ} (h : i < l.length) : l.getD i 0 = l[i] := by
  rw [List.getD_eq_getElem?_getD, List.getElem?_eq_getElem h, Option.getD_some]

variable {p : List UInt8}

/-- A prefix, byte by byte. -/
theorem isPrefix_of_getD (hlen : p.length ≤ l.length) (h : ∀ i < p.length, l.getD i 0 = p.getD i 0)
    : p <+: l := by
  rw [List.prefix_iff_eq_take]
  refine List.ext_getElem (by simp [hlen]) fun i hi hi' => ?_
  have heq := h i hi
  rw [getD_eq_of_lt hi, getD_eq_of_lt (hi.trans_le hlen)] at heq
  rw [List.getElem_take, heq]

theorem getD_of_isPrefixOf (h : p <+: l) {i : ℕ} (hi : i < p.length) : l.getD i 0 = p.getD i 0 := by
  obtain ⟨rest, rfl⟩ := h
  rw [List.getD_append _ _ _ _ hi]

variable {head : ℕ} {f : File} {image : List UInt8}

/-- The image has the length of one of the contents and at each byte what one of them has. -/
theorem File.of_survives (h : f.survives head image = true) :
    (∃ c ∈ f.contents, c.length = image.length) ∧
      (∀ i, i < image.length → ∃ c ∈ f.contents, c.getD i 0 = image.getD i 0) ∧
      ∃ c ∈ f.contents, ∀ i, i < head → i < image.length → c.getD i 0 = image.getD i 0 := by
  simp only [File.survives, Bool.and_eq_true, List.any_eq_true, List.all_eq_true, List.mem_range,
    decide_eq_true_eq, beq_iff_eq, lt_min_iff] at h
  obtain ⟨⟨hlen, hbytes⟩, c, hc, hhead⟩ := h
  exact ⟨hlen, hbytes, c, hc, fun i hi hi' => hhead i ⟨hi, hi'⟩⟩

/-- What all contents start with, the image starts with. -/
theorem File.isPrefix_survives (h : f.survives head image = true) (hp : ∀ c ∈ f.contents, p <+: c) :
    p <+: image := by
  obtain ⟨⟨c, hc, hlen⟩, hbytes, -⟩ := File.of_survives h
  have hle : p.length ≤ image.length := hlen ▸ (hp c hc).length_le
  refine isPrefix_of_getD hle fun i hi => ?_
  obtain ⟨c', hc', hi'⟩ := hbytes i (hi.trans_le hle)
  rw [← hi', getD_of_isPrefixOf (hp c' hc') hi]

/-- A file that is as it is on the disk stays so. -/
theorem File.eq_of_survives (h : f.survives head image = true) (hsynced : f.older = []) :
    image = f.data := by
  have hcontents : f.contents = [f.data] := by rw [File.contents, hsynced]
  obtain ⟨⟨c, hc, hlen⟩, -, -⟩ := File.of_survives h
  have hp : f.data <+: image := by
    refine File.isPrefix_survives h fun c hc => ?_
    rw [hcontents, List.mem_singleton] at hc
    rw [hc]
  rw [hcontents, List.mem_singleton] at hc
  exact (hp.eq_of_length (by rw [← hlen, hc])).symm

/-! ### Writes -/

/-- A write where a known beginning ends. -/
theorem writeAt_append (p r bytes : List UInt8) :
    writeAt (p ++ r) p.length bytes = p ++ (bytes ++ r.drop bytes.length) := by
  have hdrop : (p ++ r).drop (p.length + bytes.length) = r.drop bytes.length := by
    rw [List.drop_append]
    simp
  simp [writeAt, hdrop]

theorem resize_append {r : List UInt8} : resize (p ++ r) p.length = p := by
  simp [resize]

theorem resize_of_le {len : ℕ} (h : p.length ≤ len) :
    resize p len = p ++ List.replicate (len - p.length) 0 := by
  rw [resize, List.take_of_length_le h]

/-! ### The last file of a directory -/

section Last

variable {d : Disk} {id : ℕ} {f : File}

theorem modify_last (hd : ∀ x ∈ d, x.1 ≠ id) (g : File → File) :
    modify id g (d ++ [(id, f)]) = d ++ [(id, g f)] := by
  have hkeep : d.map (fun x => if x.1 = id then (x.1, g x.2) else x) = d :=
    (List.map_congr_left fun x hx => if_neg (hd x hx)).trans (List.map_id d)
  rw [modify, List.map_append, hkeep]
  simp

theorem create_new (hd : ∀ x ∈ d, x.1 ≠ id) : apply d (.create id) = d ++ [(id, ⟨[], [], false⟩)] := by
  have hnone : (d.any fun x => decide (x.1 = id)) = false := by
    simpa using hd
  simp [apply, hnone]

theorem create_last (hd : ∀ x ∈ d, x.1 ≠ id) :
    apply (d ++ [(id, f)]) (.create id) = d ++ [(id, f.change [])] := by
  have hsome : ((d ++ [(id, f)]).any fun x => decide (x.1 = id)) = true := by simp
  rw [apply, if_pos hsome, modify_last hd]

theorem write_last (hd : ∀ x ∈ d, x.1 ≠ id) (pos : ℕ) (bytes : List UInt8) :
    apply (d ++ [(id, f)]) (.write id pos bytes) =
      d ++ [(id, f.change (writeAt f.data pos bytes))] := by
  rw [apply, modify_last hd]

theorem setLen_last (hd : ∀ x ∈ d, x.1 ≠ id) (len : ℕ) :
    apply (d ++ [(id, f)]) (.setLen id len) = d ++ [(id, f.change (resize f.data len))] := by
  rw [apply, modify_last hd]

theorem sync_last (hd : ∀ x ∈ d, x.1 ≠ id) :
    apply (d ++ [(id, f)]) (.sync id) = d ++ [(id, { f with older := [] })] := by
  rw [apply, modify_last hd]

theorem syncDir_last (hd : ∀ x ∈ d, x.2.named = true) :
    apply (d ++ [(id, f)]) .syncDir = d ++ [(id, { f with named := true })] := by
  have hkeep : d.map (fun x => (x.1, { x.2 with named := true })) = d := by
    refine (List.map_congr_left fun x hx => ?_).trans (List.map_id d)
    obtain ⟨jd, g⟩ := x
    have hg := hd _ hx
    simp only at hg
    rw [← hg]
    rfl
  simp [apply, hkeep]

end Last

@[simp] theorem applyAll_nil (d : Disk) : applyAll d [] = d := rfl

@[simp] theorem applyAll_cons (d : Disk) (s : Step) (steps : List Step) :
    applyAll d (s :: steps) = applyAll (apply d s) steps := rfl

theorem applyAll_append (d : Disk) (steps more : List Step) :
    applyAll d (steps ++ more) = applyAll (applyAll d steps) more :=
  List.foldl_append

/-! ### Between any two system calls -/

/-- The directory has the property before the first of the steps and after each of them. -/
def Throughout (I : Disk → Prop) (d : Disk) (steps : List Step) : Prop :=
  ∀ n, I (applyAll d (steps.take n))

section Throughout

variable {I : Disk → Prop} {d : Disk} {steps more : List Step}

theorem Throughout.last (h : Throughout I d steps) : I (applyAll d steps) := by
  simpa using h steps.length

theorem throughout_nil (h : I d) : Throughout I d [] := fun n => by simpa using h

theorem throughout_cons {s : Step} (h : I d) (hrest : Throughout I (apply d s) steps) :
    Throughout I d (s :: steps) := by
  intro n
  cases n with
  | zero => exact h
  | succ n => exact hrest n

theorem Throughout.append (h : Throughout I d steps) (hmore : Throughout I (applyAll d steps) more) :
    Throughout I d (steps ++ more) := by
  intro n
  rw [List.take_append, applyAll_append]
  rcases Nat.lt_or_ge n steps.length with hlt | hge
  · have hzero : n - steps.length = 0 := by omega
    rw [hzero, List.take_zero]
    exact h n
  · rw [List.take_of_length_le hge]
    exact hmore (n - steps.length)

end Throughout

/-! ### Power loss of a directory -/

/-- Files that are as they are on the disk are found again. -/
theorem survivors_append {d rest : Disk} {images : List (ℕ × List UInt8)}
    (hd : ∀ x ∈ d, x.2.older = [] ∧ x.2.named = true) (h : survivors head (d ++ rest) images = true) :
    ∃ left, images = files d ++ left ∧ survivors head rest left = true := by
  induction d generalizing images with
  | nil => exact ⟨images, rfl, h⟩
  | cons x d ih =>
    obtain ⟨id, f⟩ := x
    obtain ⟨⟨hsynced, hnamed⟩, hd⟩ := List.forall_mem_cons.mp hd
    simp only at hsynced hnamed
    rcases images with _ | ⟨⟨jd, image⟩, images⟩
    · simp [survivors, hnamed] at h
    simp only [List.cons_append, survivors, hnamed, Bool.not_true, Bool.false_and, Bool.or_false,
      Bool.and_eq_true, decide_eq_true_eq] at h
    obtain ⟨⟨rfl, hsurv⟩, hrest⟩ := h
    obtain ⟨left, rfl, hleft⟩ := ih hd hrest
    refine ⟨left, ?_, hleft⟩
    rw [File.eq_of_survives hsurv hsynced]
    rfl

/-- A last file is found as an image, or not at all if it has no durable name. -/
theorem survivors_singleton {id : ℕ} {images : List (ℕ × List UInt8)}
    (h : survivors head [(id, f)] images = true) :
    (images = [] ∧ f.named = false) ∨
      ∃ image, images = [(id, image)] ∧ f.survives head image = true := by
  rcases images with _ | ⟨⟨jd, image⟩, images⟩
  · left
    simpa [survivors] using h
  · right
    simp only [survivors, Bool.or_eq_true, Bool.and_eq_true, decide_eq_true_eq,
      List.isEmpty_iff, Bool.not_eq_true'] at h
    rcases h with ⟨⟨rfl, hsurv⟩, rfl⟩ | ⟨-, hcons⟩
    · exact ⟨image, rfl, hsurv⟩
    · cases hcons

theorem restart_files {d : Disk} (hd : ∀ x ∈ d, x.2.older = [] ∧ x.2.named = true) :
    restart (files d) = d := by
  rw [restart, files, List.map_map]
  refine (List.map_congr_left fun x hx => ?_).trans (List.map_id d)
  obtain ⟨hsynced, hnamed⟩ := hd x hx
  obtain ⟨id, data, older, named⟩ := x
  simp only at hsynced hnamed
  rw [hsynced, hnamed]
  rfl

@[simp] theorem files_append (d rest : Disk) : files (d ++ rest) = files d ++ files rest :=
  List.map_append

@[simp] theorem restart_append (images more : List (ℕ × List UInt8)) :
    restart (images ++ more) = restart images ++ restart more :=
  List.map_append

@[simp] theorem files_restart (images : List (ℕ × List UInt8)) : files (restart images) = images := by
  simp [files, restart, File.durable, Function.comp_def]

end CrashDisk
