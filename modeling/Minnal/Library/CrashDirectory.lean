import Mathlib.Tactic.Common

/-!
# A directory across a power loss

A directory gives names to files. What programs see changes at once; what is on the disk changes
when the kernel writes it back. A file is on the disk as it is from its fsync to its next write,
and a power loss leaves any bytes in one that was written since. A name is **linked**, **unlinked**
or **moved** in one piece: a change made since the last fsync of the directory may have reached the
disk or not, and such changes reach it in any order (`Persists`).

Programs act by `Step`s, one per system call, so that a power loss can be placed between any two.
What holds throughout a list of steps is proved step by step.
-/

namespace CrashDirectory

variable {ν α : Type}

/-- A file: its content, and whether it was fsynced since its last write. -/
structure Node (α : Type) where
  data : α
  synced : Bool

/-- A change of names. Files are numbered. -/
inductive Edit (ν : Type) where
  | link (name : ν) (file : ℕ)
  | unlink (name : ν)
  | move (source target : ν) (file : ℕ)

/-- One system call. -/
inductive Step (ν α : Type) where
  /-- Create the file, or truncate it if it exists. -/
  | create (name : ν) (blank : α)
  | write (name : ν) (content : α)
  | sync (name : ν)
  | rename (source target : ν)
  | remove (name : ν)
  | syncDir

variable [DecidableEq ν]

def Edit.apply (names : ν → Option ℕ) : Edit ν → ν → Option ℕ
  | .link name file => Function.update names name (some file)
  | .unlink name => Function.update names name none
  | .move source target file =>
    Function.update (Function.update names source none) target (some file)

/-- What writing back some of the changes, in some order, makes of the names on the disk. -/
inductive Persists (disk : ν → Option ℕ) (pending : List (Edit ν)) : (ν → Option ℕ) → Prop where
  | none : Persists disk pending disk
  | more {names : ν → Option ℕ} {e : Edit ν} (h : Persists disk pending names) (he : e ∈ pending) :
      Persists disk pending (e.apply names)

variable {disk names : ν → Option ℕ} {pending : List (Edit ν)}

theorem Persists.mono {more : List (Edit ν)} (h : Persists disk pending names)
    (hsub : pending ⊆ more) : Persists disk more names := by
  induction h with
  | none => exact .none
  | more _ he ih => exact ih.more (hsub he)

/-- The files, the names that programs see and those on the disk, and the changes made since the
last fsync of the directory. -/
structure Directory (ν α : Type) [DecidableEq ν] where
  nodes : List (Node α)
  names : ν → Option ℕ
  disk : ν → Option ℕ
  pending : List (Edit ν)
  /-- The changes lead from the one to the other. -/
  reached : Persists disk pending names

namespace Directory

/-- The content under a name. -/
def content (d : Directory ν α) (name : ν) : Option α :=
  ((d.names name).bind fun i => d.nodes[i]?).map Node.data

/-- Make a change of names. -/
def edit (d : Directory ν α) (e : Edit ν) : Directory ν α :=
  { d with
    names := e.apply d.names
    pending := d.pending ++ [e]
    reached := (d.reached.mono (List.subset_append_left _ _)).more (by simp) }

/-- Change the file under a name. -/
def onFile (d : Directory ν α) (name : ν) (f : Node α → Node α) : Directory ν α :=
  match d.names name with
  | none => d
  | some i => { d with nodes := d.nodes.modify i f }

def apply (d : Directory ν α) : Step ν α → Directory ν α
  | .create name blank =>
    match d.names name with
    | none => edit { d with nodes := d.nodes ++ [⟨blank, false⟩] } (.link name d.nodes.length)
    | some _ => d.onFile name fun _ => ⟨blank, false⟩
  | .write name content => d.onFile name fun _ => ⟨content, false⟩
  | .sync name => d.onFile name fun node => { node with synced := true }
  | .rename source target =>
    match d.names source with
    | none => d
    | some i => d.edit (.move source target i)
  | .remove name => d.edit (.unlink name)
  | .syncDir => { d with disk := d.names, pending := [], reached := .none }

def applyAll (d : Directory ν α) (steps : List (Step ν α)) : Directory ν α := steps.foldl apply d

/-- **A power loss** leaves some of the changes of names, and any bytes in files not fsynced. -/
structure Crash (d e : Directory ν α) : Prop where
  persists : Persists d.disk d.pending e.disk
  names : e.names = e.disk
  pending : e.pending = []
  length : e.nodes.length = d.nodes.length
  synced : ∀ node ∈ e.nodes, node.synced = true
  kept : ∀ (i : ℕ) (a : α), d.nodes[i]? = some ⟨a, true⟩ → e.nodes[i]? = some ⟨a, true⟩

end Directory

open Directory

/-! ### What a power loss leaves of the names -/

/-- What a change makes of a name depends on that name only. -/
theorem Edit.apply_congr (e : Edit ν) {n m : ν → Option ℕ} {name : ν} (h : n name = m name) :
    e.apply n name = e.apply m name := by
  cases e with
  | link a i => simp only [Edit.apply, Function.update_apply, h]
  | unlink a => simp only [Edit.apply, Function.update_apply, h]
  | move a b i => simp only [Edit.apply, Function.update_apply, h]

/-- **What every change keeps** holds of whatever a power loss leaves. -/
theorem Persists.invariant (h : Persists disk pending names) {P : (ν → Option ℕ) → Prop}
    (hdisk : P disk) (hedit : ∀ e ∈ pending, ∀ n, P n → P (e.apply n)) : P names := by
  induction h with
  | none => exact hdisk
  | more _ he ih => exact hedit _ he _ ih

theorem Persists.eq_of_nil (h : Persists disk [] names) : names = disk :=
  h.invariant (P := fun n => n = disk) rfl nofun

/-- Changes of other names leave a name as the changes before them did. -/
theorem Persists.append {more : List (Edit ν)} (h : Persists disk (pending ++ more) names)
    {kept : ν → Prop} (hmore : ∀ e ∈ more, ∀ n, ∀ name, kept name → e.apply n name = n name) :
    ∃ before, Persists disk pending before ∧ ∀ name, kept name → names name = before name := by
  induction h with
  | none => exact ⟨disk, .none, fun _ _ => rfl⟩
  | @more n e _ he ih =>
    obtain ⟨before, hbefore, hsame⟩ := ih
    rcases List.mem_append.mp he with he | he
    · exact ⟨e.apply before, hbefore.more he, fun name hname => e.apply_congr (hsame name hname)⟩
    · exact ⟨before, hbefore, fun name hname =>
        (hmore e he n name hname).trans (hsame name hname)⟩

/-! ### What a step does -/

/-- What a directory is, field by field. -/
structure Shape (d : Directory ν α) (nodes : List (Node α)) (names disk : ν → Option ℕ)
    (pending : List (Edit ν)) : Prop where
  nodes : d.nodes = nodes
  names : d.names = names
  disk : d.disk = disk
  pending : d.pending = pending

theorem shape_self (d : Directory ν α) : Shape d d.nodes d.names d.disk d.pending :=
  ⟨rfl, rfl, rfl, rfl⟩

namespace Shape

variable {d : Directory ν α} {nodes : List (Node α)} {node : Node α} {names disk : ν → Option ℕ}
  {pending : List (Edit ν)} {name : ν} {i : ℕ}

theorem edit (h : Shape d nodes names disk pending) (e : Edit ν) :
    Shape (d.edit e) nodes (e.apply names) disk (pending ++ [e]) := by
  obtain ⟨rfl, rfl, rfl, rfl⟩ := h
  exact ⟨rfl, rfl, rfl, rfl⟩

theorem create (h : Shape d nodes names disk pending) (hnew : names name = none) (blank : α) :
    Shape (d.apply (.create name blank)) (nodes ++ [⟨blank, false⟩])
      (Function.update names name (some nodes.length)) disk
      (pending ++ [Edit.link name nodes.length]) := by
  obtain ⟨rfl, rfl, rfl, rfl⟩ := h
  rw [Directory.apply, hnew]
  exact ⟨rfl, rfl, rfl, rfl⟩

/-- The last file is changed. -/
theorem onFile_last (h : Shape d (nodes ++ [node]) names disk pending)
    (hname : names name = some nodes.length) (f : Node α → Node α) :
    Shape (d.onFile name f) (nodes ++ [f node]) names disk pending := by
  obtain ⟨hnodes, rfl, rfl, rfl⟩ := h
  rw [onFile, hname]
  refine ⟨?_, rfl, rfl, rfl⟩
  dsimp only
  have hlast : nodes.length < (nodes ++ [node]).length := by simp
  rw [hnodes, List.modify_eq_take_cons_drop hlast]
  simp

theorem write (h : Shape d (nodes ++ [node]) names disk pending)
    (hname : names name = some nodes.length) (content : α) :
    Shape (d.apply (.write name content)) (nodes ++ [⟨content, false⟩]) names disk pending :=
  h.onFile_last hname _

theorem sync {content : α} {synced : Bool}
    (h : Shape d (nodes ++ [⟨content, synced⟩]) names disk pending)
    (hname : names name = some nodes.length) :
    Shape (d.apply (.sync name)) (nodes ++ [⟨content, true⟩]) names disk pending :=
  h.onFile_last hname _

theorem rename (h : Shape d nodes names disk pending) (source target : ν)
    (hsource : names source = some i) :
    Shape (d.apply (.rename source target)) nodes
      (Function.update (Function.update names source none) target (some i)) disk
      (pending ++ [Edit.move source target i]) := by
  rw [Directory.apply, h.names, hsource]
  exact h.edit (.move source target i)

theorem remove (h : Shape d nodes names disk pending) (name : ν) :
    Shape (d.apply (.remove name)) nodes (Function.update names name none) disk
      (pending ++ [Edit.unlink name]) :=
  h.edit (.unlink name)

theorem syncDir (h : Shape d nodes names disk pending) :
    Shape (d.apply .syncDir) nodes names names [] :=
  ⟨h.nodes, h.names, h.names, rfl⟩

end Shape

/-! ### Throughout a list of steps -/

/-- `I` holds before, between and after the steps. -/
def Throughout (I : Directory ν α → Prop) (d : Directory ν α) (steps : List (Step ν α)) : Prop :=
  ∀ n, I (d.applyAll (steps.take n))

variable {I : Directory ν α → Prop} {d : Directory ν α} {steps more : List (Step ν α)}

theorem throughout_nil (h : I d) : Throughout I d [] := fun n => by
  rw [List.take_nil]
  exact h

theorem throughout_cons {s : Step ν α} (h : I d) (hrest : Throughout I (d.apply s) steps) :
    Throughout I d (s :: steps) := by
  intro n
  cases n with
  | zero => exact h
  | succ n => exact hrest n

/-- What every step keeps holds throughout. -/
theorem throughout_of_invariant (h : I d)
    (hstep : ∀ s ∈ steps, ∀ d, I d → I (d.apply s)) : Throughout I d steps := by
  induction steps generalizing d with
  | nil => exact throughout_nil h
  | cons s steps ih =>
    exact throughout_cons h (ih (hstep s List.mem_cons_self d h) fun s' hs' =>
      hstep s' (List.mem_cons_of_mem _ hs'))

theorem Throughout.mono {J : Directory ν α → Prop} (h : Throughout I d steps)
    (hIJ : ∀ d, I d → J d) : Throughout J d steps := fun n => hIJ _ (h n)

theorem Throughout.last (h : Throughout I d steps) : I (d.applyAll steps) := by
  have hall := h steps.length
  rwa [List.take_length] at hall

theorem applyAll_append (d : Directory ν α) (steps more : List (Step ν α)) :
    d.applyAll (steps ++ more) = (d.applyAll steps).applyAll more := List.foldl_append

theorem Throughout.append (h : Throughout I d steps)
    (hmore : Throughout I (d.applyAll steps) more) : Throughout I d (steps ++ more) := by
  intro n
  rw [List.take_append]
  rcases Nat.le_total n steps.length with hn | hn
  · rw [Nat.sub_eq_zero_of_le hn, List.take_zero, List.append_nil]
    exact h n
  · rw [List.take_of_length_le hn, Directory.applyAll, List.foldl_append]
    exact hmore _

end CrashDirectory
