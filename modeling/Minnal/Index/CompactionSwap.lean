import Minnal.Index.BlobTable
import Minnal.Library.CrashDirectory

/-!
# The swap of a compacted blob store

Compaction of a store on the disk writes the new key table and the new values beside the old files,
and then swaps both files in under a **commit marker**: before the marker is on the disk, opening
the store drops the new files; from then on it finishes the swap. A power loss between any two
system calls, and again during the recovery, leaves names from which opening comes to the old pair
or to the new one (`Left`), never to one file of each.
-/

set_option linter.dupNamespace false

namespace Minnal

open List (mem_singleton mem_append prefix_append not_mem_nil)

variable {c f : BlobDir}

namespace BlobCompaction

open CrashDirectory BlobStore Function

/-- The files of a store's directory. -/
inductive FileName where
  | keys
  | vals
  | keysNew
  | valsNew
  | commit
  deriving DecidableEq

/-- What is in them: a key table with the write position in its header, values, or nothing. -/
inductive BlobFile where
  | keys (table : List (Option Slot)) (writePos : ℕ)
  | vals (bytes : List UInt8)
  | blank

abbrev BlobDir := Directory FileName BlobFile

/-- `commit_compaction`: the system calls, for the new key table and the new values. -/
def commit_compaction (table : List (Option Slot)) (writePos : ℕ) (valBuf : List UInt8) :
    List (Step FileName BlobFile) :=
  -- stage the new pair
  [Step.create FileName.valsNew BlobFile.blank, .write .valsNew (.vals valBuf)] ++
  (if valBuf.length < BlobStore.initialValSize then
    [Step.write FileName.valsNew
      (BlobFile.vals (CrashDisk.resize valBuf BlobStore.initialValSize))] else []) ++
  [Step.sync FileName.valsNew, .create .keysNew BlobFile.blank,
    .write .keysNew (.keys table writePos), .sync .keysNew, .syncDir,
    -- the commit point
    .create .commit .blank, .sync .commit, .syncDir,
    -- swap both files
    .rename .valsNew .vals, .rename .keysNew .keys, .syncDir, .remove .commit, .syncDir]

/-- `recover_compaction`: the system calls, for the files that exist. -/
def recover_compaction (d : BlobDir) : List (Step FileName BlobFile) :=
  if (d.names .commit).isSome then
    (if (d.names .valsNew).isSome then [Step.rename FileName.valsNew .vals] else []) ++
    (if (d.names .keysNew).isSome then [Step.rename FileName.keysNew .keys] else []) ++
    [Step.syncDir, .remove FileName.commit, .syncDir]
  else
    (if (d.names .keysNew).isSome then [Step.remove FileName.keysNew] else []) ++
    (if (d.names .valsNew).isSome then [Step.remove FileName.valsNew] else []) ++
    (if (d.names .keysNew).isSome ∨ (d.names .valsNew).isSome then [Step.syncDir] else [])

/-- **The store that opening reads** from the files. -/
def openPair (layout : BlobLayout) (d : BlobDir) : Option BlobStore :=
  match d.content .keys, d.content .vals with
  | some (.keys table writePos), some (.vals bytes) =>
    some (BlobStore.openWith layout table writePos bytes)
  | _, _ => none

/-- No compaction is under way. -/
structure Settled (d : BlobDir) : Prop where
  commit : ∀ names, Persists d.disk d.pending names → names .commit = none
  keysNew : d.names .keysNew = none
  valsNew : d.names .valsNew = none

/-- **Power losses**, the first while the steps are made, others during the recovery. -/
inductive AfterLosses (d : BlobDir) (steps : List (Step FileName BlobFile)) : BlobDir → Prop where
  | first {e : BlobDir} (n : ℕ) (h : (d.applyAll (steps.take n)).Crash e) : AfterLosses d steps e
  | again {e e' : BlobDir} (h : AfterLosses d steps e) (n : ℕ)
      (h' : (e.applyAll ((recover_compaction e).take n)).Crash e') : AfterLosses d steps e'

/-! ### What power losses leave -/

variable {d e : BlobDir} {table : List (Option Slot)} {writePos : ℕ} {valBuf : List UInt8}

/-- The new values, which are at least as long as a new value file. -/
def newVals (valBuf : List UInt8) : List UInt8 :=
  valBuf ++ List.replicate (BlobStore.initialValSize - valBuf.length) 0

/-- The pair is the old one, as a power loss before the compaction leaves it. -/
def OldPair (d : BlobDir) (names : FileName → Option ℕ) : Prop :=
  names .commit = none ∧ ∃ before, Persists d.disk d.pending before ∧
    names .keys = before .keys ∧ names .vals = before .vals

/-- A file is moved or is to be moved. -/
def Moving (names : FileName → Option ℕ) (source target : FileName) (file : ℕ) : Prop :=
  names source = some file ∨ (names source = none ∧ names target = some file)

/-- The swap is to be finished. -/
structure Committed (keys vals : ℕ) (names : FileName → Option ℕ) : Prop where
  commit : (names .commit).isSome = true
  vals : Moving names .valsNew .vals vals
  keys : Moving names .keysNew .keys keys

/-- The swap is finished. -/
structure Swapped (keys vals : ℕ) (names : FileName → Option ℕ) : Prop where
  valsNew : names .valsNew = none
  vals : names .vals = some vals
  keysNew : names .keysNew = none
  keys : names .keys = some keys

/-- Files that were on the disk are as they were. -/
def Untouched (d e : BlobDir) : Prop :=
  ∀ (i : ℕ) (a : BlobFile), d.nodes[i]? = some ⟨a, true⟩ → e.nodes[i]? = some ⟨a, true⟩

/-- The new files are on the disk. -/
structure Written (d e : BlobDir) (table : List (Option Slot)) (writePos : ℕ)
    (valBuf : List UInt8) : Prop where
  vals : e.nodes[d.nodes.length]? = some ⟨.vals (newVals valBuf), true⟩
  keys : e.nodes[d.nodes.length + 1]? = some ⟨.keys table writePos, true⟩

/-- **What is left**: the old pair, or the new files in a swap that is to be finished or is. -/
structure Left (d : BlobDir) (table : List (Option Slot)) (writePos : ℕ) (valBuf : List UInt8)
    (e : BlobDir) (names : FileName → Option ℕ) : Prop where
  untouched : Untouched d e
  names : OldPair d names ∨ (Written d e table writePos valBuf ∧
    (Committed (d.nodes.length + 1) d.nodes.length names ∨
      Swapped (d.nodes.length + 1) d.nodes.length names))

/-- Whatever a power loss leaves is in order. -/
def Safe (d : BlobDir) (table : List (Option Slot)) (writePos : ℕ) (valBuf : List UInt8)
    (e : BlobDir) : Prop :=
  ∀ names, Persists e.disk e.pending names → Left d table writePos valBuf e names

theorem Untouched.trans (h : Untouched d e) (h' : Untouched e c) : Untouched d c :=
  fun i a ha => h' i a (h i a ha)

theorem Written.mono (h : Written d e table writePos valBuf) (h' : Untouched e c) :
    Written d c table writePos valBuf :=
  ⟨h' _ _ h.vals, h' _ _ h.keys⟩

theorem Safe.left (h : Safe d table writePos valBuf c) (hcrash : c.Crash e) :
    Left d table writePos valBuf e e.disk := by
  obtain ⟨huntouched, hnames⟩ := h e.disk hcrash.persists
  have hkept : Untouched c e := hcrash.kept
  exact ⟨huntouched.trans hkept, hnames.imp id fun hnew => ⟨hnew.1.mono hkept, hnew.2⟩⟩

/-- What the changes keep is safe. -/
theorem safe_of_invariant {P : (FileName → Option ℕ) → Prop} (huntouched : Untouched d e)
    (hdisk : P e.disk) (hedit : ∀ x ∈ e.pending, ∀ n, P n → P (x.apply n))
    (hleft : ∀ n, P n → OldPair d n ∨ (Written d e table writePos valBuf ∧
      (Committed (d.nodes.length + 1) d.nodes.length n ∨
        Swapped (d.nodes.length + 1) d.nodes.length n))) : Safe d table writePos valBuf e :=
  fun _ hnames => ⟨huntouched, hleft _ (hnames.invariant hdisk hedit)⟩

/-! ### The phases of the swap -/

/-- While the new files are staged, only their names change. -/
theorem safe_staging (hd : Settled d) (huntouched : Untouched d e) (hdisk : e.disk = d.disk)
    {more : List (Edit FileName)} (hpending : e.pending = d.pending ++ more)
    (hmore : ∀ x ∈ more, ∀ n, ∀ name, (name = .keys ∨ name = .vals ∨ name = .commit) →
      x.apply n name = n name) : Safe d table writePos valBuf e := by
  intro names hnames
  rw [hdisk, hpending] at hnames
  obtain ⟨before, hbefore, hsame⟩ := hnames.append hmore
  refine ⟨huntouched, .inl ⟨?_, before, hbefore, ?_, ?_⟩⟩
  · rw [hsame _ (.inr (.inr rfl)), hd.commit before hbefore]
  · exact hsame _ (.inl rfl)
  · exact hsame _ (.inr (.inl rfl))

/-- Both pairs are on the disk, and the marker may be. -/
structure Staged (d : BlobDir) (names : FileName → Option ℕ) : Prop where
  keys : names .keys = d.names .keys
  vals : names .vals = d.names .vals
  keysNew : names .keysNew = some (d.nodes.length + 1)
  valsNew : names .valsNew = some d.nodes.length

theorem safe_staged (huntouched : Untouched d e) (hwritten : Written d e table writePos valBuf)
    (hdisk : Staged d e.disk) (hpending : ∀ x ∈ e.pending, ∃ i, x = .link .commit i) :
    Safe d table writePos valBuf e := by
  refine safe_of_invariant huntouched hdisk (fun x hx n hn => ?_) fun n hn => ?_
  · obtain ⟨i, rfl⟩ := hpending x hx
    exact ⟨hn.keys, hn.vals, hn.keysNew, hn.valsNew⟩
  · cases hcommit : n .commit with
    | none => exact .inl ⟨hcommit, d.names, d.reached, hn.keys, hn.vals⟩
    | some i =>
      exact .inr ⟨hwritten, .inl ⟨by rw [hcommit]; rfl, .inl hn.valsNew, .inl hn.keysNew⟩⟩

/-- Finishing the swap moves files that are to be moved. -/
theorem safe_committed (huntouched : Untouched d e) (hwritten : Written d e table writePos valBuf)
    (hdisk : Committed (d.nodes.length + 1) d.nodes.length e.disk)
    (hpending : ∀ x ∈ e.pending, x = .move .valsNew .vals d.nodes.length ∨
      x = .move .keysNew .keys (d.nodes.length + 1)) : Safe d table writePos valBuf e := by
  refine safe_of_invariant huntouched hdisk (fun x hx n hn => ?_) fun n hn =>
    .inr ⟨hwritten, .inl hn⟩
  rcases hpending x hx with rfl | rfl
  · exact ⟨hn.commit, .inr ⟨rfl, rfl⟩, hn.keys⟩
  · exact ⟨hn.commit, hn.vals, .inr ⟨rfl, rfl⟩⟩

/-- Removing the marker leaves the new pair. -/
theorem safe_swapped (huntouched : Untouched d e) (hwritten : Written d e table writePos valBuf)
    (hdisk : Swapped (d.nodes.length + 1) d.nodes.length e.disk)
    (hpending : ∀ x ∈ e.pending, x = .unlink .commit) : Safe d table writePos valBuf e := by
  refine safe_of_invariant huntouched hdisk (fun x hx n hn => ?_) fun n hn =>
    .inr ⟨hwritten, .inr hn⟩
  rw [hpending x hx]
  exact ⟨hn.valsNew, hn.vals, hn.keysNew, hn.keys⟩

/-- Removing staged files leaves the old pair. -/
theorem safe_old (huntouched : Untouched d e) (hdisk : OldPair d e.disk)
    (hpending : ∀ x ∈ e.pending, x = .unlink .keysNew ∨ x = .unlink .valsNew) :
    Safe d table writePos valBuf e := by
  refine safe_of_invariant huntouched hdisk (fun x hx n hn => ?_) fun n hn => .inl hn
  rcases hpending x hx with rfl | rfl
  · exact hn
  · exact hn

/-! ### Every step of the swap is safe -/

theorem untouched_of_isPrefix (h : d.nodes <+: e.nodes) : Untouched d e := by
  obtain ⟨extra, hextra⟩ := h
  intro i a ha
  rw [← hextra, List.getElem?_append_left (List.getElem?_eq_some_iff.mp ha).1, ha]

/-- What the steps have staged before the first fsync of the directory. -/
theorem safe_of_staging_shape (hd : Settled d) {nodes : List (Node BlobFile)}
    {names : FileName → Option ℕ} {more : List (Edit FileName)}
    (h : Shape e nodes names d.disk (d.pending ++ more)) (hnodes : d.nodes <+: nodes)
    (hmore : ∀ x ∈ more, (∃ i, x = .link .valsNew i) ∨ ∃ i, x = .link .keysNew i) :
    Safe d table writePos valBuf e := by
  refine safe_staging hd (untouched_of_isPrefix (h.nodes ▸ hnodes)) h.disk h.pending
    fun x hx n name hname => ?_
  rcases hmore x hx with ⟨i, rfl⟩ | ⟨i, rfl⟩
  · rcases hname with rfl | rfl | rfl <;> rfl
  · rcases hname with rfl | rfl | rfl <;> rfl

/-- The files once both new ones are on the disk. -/
def writtenNodes (d : BlobDir) (table : List (Option Slot)) (writePos : ℕ)
    (valBuf : List UInt8) : List (Node BlobFile) :=
  d.nodes ++ [⟨.vals (newVals valBuf), true⟩] ++ [⟨.keys table writePos, true⟩]

/-- The new files are written. -/
theorem written_of_isPrefix (h : writtenNodes d table writePos valBuf <+: e.nodes) :
    Untouched d e ∧ Written d e table writePos valBuf := by
  have hold : d.nodes <+: writtenNodes d table writePos valBuf :=
    (prefix_append _ _).trans (prefix_append _ _)
  obtain ⟨extra, hextra⟩ := h
  refine ⟨untouched_of_isPrefix (hold.trans ⟨extra, hextra⟩), ?_, ?_⟩
  · rw [← hextra, writtenNodes]
    simp
  · rw [← hextra, writtenNodes]
    simp

/-- The values are staged. -/
theorem safe_stage_vals (hd : Settled d) (table : List (Option Slot)) (writePos : ℕ)
    (valBuf : List UInt8) :
    let steps := [Step.create FileName.valsNew BlobFile.blank, .write .valsNew (.vals valBuf)] ++
      (if valBuf.length < initialValSize then
        [Step.write FileName.valsNew (BlobFile.vals (CrashDisk.resize valBuf initialValSize))]
      else [])
    Throughout (Safe d table writePos valBuf) d steps ∧
      Shape (d.applyAll steps) (d.nodes ++ [⟨.vals (newVals valBuf), false⟩])
        (update d.names .valsNew (some d.nodes.length)) d.disk
        (d.pending ++ [Edit.link FileName.valsNew d.nodes.length]) := by
  have hself : Shape d d.nodes d.names d.disk (d.pending ++ []) := by
    rw [List.append_nil]
    exact shape_self d
  have hlink : ∀ x ∈ [Edit.link FileName.valsNew d.nodes.length],
      (∃ i, x = .link .valsNew i) ∨ ∃ i, x = .link .keysNew i := fun x hx =>
    .inl ⟨_, mem_singleton.mp hx⟩
  have hcreate := (shape_self d).create hd.valsNew .blank
  have hname : update d.names .valsNew (some d.nodes.length) .valsNew =
      some d.nodes.length := update_self ..
  have hwrite := hcreate.write hname (.vals valBuf)
  have hnodes : ∀ {node : Node BlobFile}, d.nodes <+: d.nodes ++ [node] := prefix_append _ _
  have hstart : Safe d table writePos valBuf d :=
    safe_of_staging_shape hd hself List.prefix_rfl nofun
  intro steps
  by_cases hshort : valBuf.length < initialValSize
  · have hpad := hwrite.write hname (.vals (CrashDisk.resize valBuf initialValSize))
    have hresize : CrashDisk.resize valBuf initialValSize = newVals valBuf :=
      CrashDisk.resize_of_le hshort.le
    have hsteps : steps = [.create .valsNew .blank, .write .valsNew (.vals valBuf),
        .write .valsNew (.vals (CrashDisk.resize valBuf initialValSize))] := by
      simp only [steps, if_pos hshort]
      rfl
    rw [hsteps]
    refine ⟨throughout_cons hstart (throughout_cons (safe_of_staging_shape hd hcreate hnodes hlink)
      (throughout_cons (safe_of_staging_shape hd hwrite hnodes hlink)
        (throughout_nil (safe_of_staging_shape hd hpad hnodes hlink)))), ?_⟩
    rw [← hresize]
    exact hpad
  · have hvals : valBuf = newVals valBuf := by
      rw [newVals, Nat.sub_eq_zero_of_le (not_lt.mp hshort), List.replicate_zero, List.append_nil]
    have hsteps : steps = [.create .valsNew .blank, .write .valsNew (.vals valBuf)] := by
      simp only [steps, if_neg hshort]
      rfl
    rw [hsteps]
    refine ⟨throughout_cons hstart (throughout_cons (safe_of_staging_shape hd hcreate hnodes hlink)
      (throughout_nil (safe_of_staging_shape hd hwrite hnodes hlink))), ?_⟩
    rw [← hvals]
    exact hwrite

/-- The names once both new files are staged. -/
def stagedNames (d : BlobDir) : FileName → Option ℕ :=
  Function.update (Function.update d.names .valsNew (some d.nodes.length)) .keysNew
    (some (d.nodes.length + 1))

/-- The key table is staged beside the values. -/
theorem safe_stage_keys (hd : Settled d) (table : List (Option Slot)) (writePos : ℕ)
    (valBuf : List UInt8)
    (h : Shape e (d.nodes ++ [⟨.vals (newVals valBuf), false⟩])
      (update d.names .valsNew (some d.nodes.length)) d.disk
      (d.pending ++ [Edit.link FileName.valsNew d.nodes.length])) :
    let steps := [.sync .valsNew, .create .keysNew .blank, .write .keysNew (.keys table writePos),
      .sync .keysNew]
    Throughout (Safe d table writePos valBuf) e steps ∧
      Shape (e.applyAll steps) (writtenNodes d table writePos valBuf) (stagedNames d) d.disk
        (d.pending ++ [Edit.link FileName.valsNew d.nodes.length,
          .link .keysNew (d.nodes.length + 1)]) := by
  have hlen : (d.nodes ++ [(⟨.vals (newVals valBuf), true⟩ : Node BlobFile)]).length =
      d.nodes.length + 1 := by simp
  have hnone : update d.names .valsNew (some d.nodes.length) .keysNew = none := hd.keysNew
  have hkeys : stagedNames d .keysNew =
      some (d.nodes ++ [(⟨.vals (newVals valBuf), true⟩ : Node BlobFile)]).length := by
    rw [hlen]
    rfl
  have h₁ := h.sync (update_self ..)
  have h₂ := h₁.create hnone .blank
  rw [hlen, List.append_assoc d.pending] at h₂
  have h₃ := h₂.write hkeys (.keys table writePos)
  have h₄ := h₃.sync hkeys
  have hvalsLink : ∀ x ∈ [Edit.link FileName.valsNew d.nodes.length],
      (∃ i, x = .link .valsNew i) ∨ ∃ i, x = .link .keysNew i := fun x hx =>
    .inl ⟨_, mem_singleton.mp hx⟩
  have hlinks : ∀ x ∈ [Edit.link FileName.valsNew d.nodes.length] ++
      [Edit.link FileName.keysNew (d.nodes.length + 1)],
      (∃ i, x = .link .valsNew i) ∨ ∃ i, x = .link .keysNew i := fun x hx =>
    (mem_append.mp hx).elim (hvalsLink x) fun hx => .inr ⟨_, mem_singleton.mp hx⟩
  have hone : ∀ {node : Node BlobFile}, d.nodes <+: d.nodes ++ [node] := prefix_append _ _
  have htwo : ∀ {node node' : Node BlobFile}, d.nodes <+: d.nodes ++ [node] ++ [node'] :=
    hone.trans (prefix_append _ _)
  refine ⟨?_, h₄⟩
  refine throughout_cons (safe_of_staging_shape hd h hone hvalsLink) ?_
  refine throughout_cons (safe_of_staging_shape hd h₁ hone hvalsLink) ?_
  refine throughout_cons (safe_of_staging_shape hd h₂ htwo hlinks) ?_
  refine throughout_cons (safe_of_staging_shape hd h₃ htwo hlinks) ?_
  exact throughout_nil (safe_of_staging_shape hd h₄ htwo hlinks)

section Swap

variable {names disk : FileName → Option ℕ} {pending : List (Edit FileName)}
  {nodes : List (Node BlobFile)}

theorem safe_of_staged_shape (hnodes : writtenNodes d table writePos valBuf <+: nodes)
    (h : Shape e nodes names (stagedNames d) pending)
    (hpending : ∀ x ∈ pending, ∃ i, x = .link .commit i) : Safe d table writePos valBuf e := by
  obtain ⟨huntouched, hwritten⟩ := written_of_isPrefix (h.nodes ▸ hnodes)
  exact safe_staged huntouched hwritten (h.disk ▸ ⟨rfl, rfl, rfl, rfl⟩) (h.pending ▸ hpending)

theorem safe_of_committed_shape (hnodes : writtenNodes d table writePos valBuf <+: nodes)
    (h : Shape e nodes names disk pending)
    (hdisk : Committed (d.nodes.length + 1) d.nodes.length disk)
    (hpending : ∀ x ∈ pending, x = .move .valsNew .vals d.nodes.length ∨
      x = .move .keysNew .keys (d.nodes.length + 1)) : Safe d table writePos valBuf e := by
  obtain ⟨huntouched, hwritten⟩ := written_of_isPrefix (h.nodes ▸ hnodes)
  exact safe_committed huntouched hwritten (h.disk ▸ hdisk) (h.pending ▸ hpending)

theorem safe_of_swapped_shape (hnodes : writtenNodes d table writePos valBuf <+: nodes)
    (h : Shape e nodes names disk pending)
    (hdisk : Swapped (d.nodes.length + 1) d.nodes.length disk)
    (hpending : ∀ x ∈ pending, x = .unlink .commit) : Safe d table writePos valBuf e := by
  obtain ⟨huntouched, hwritten⟩ := written_of_isPrefix (h.nodes ▸ hnodes)
  exact safe_swapped huntouched hwritten (h.disk ▸ hdisk) (h.pending ▸ hpending)

/-- From the marker on, every step is safe. -/
theorem safe_swap (hd : Settled d)
    (h : Shape e (writtenNodes d table writePos valBuf) (stagedNames d) (stagedNames d) []) :
    Throughout (Safe d table writePos valBuf) e
      [.create .commit .blank, .sync .commit, .syncDir, .rename .valsNew .vals,
        .rename .keysNew .keys, .syncDir, .remove .commit, .syncDir] := by
  have hcommit : stagedNames d .commit = none := hd.commit d.names d.reached
  have h₁ := h.create hcommit .blank
  have h₂ := h₁.sync (update_self ..)
  have h₃ := h₂.syncDir
  have h₄ := h₃.rename .valsNew .vals rfl
  have h₅ := h₄.rename .keysNew .keys rfl
  have h₆ := h₅.syncDir
  have h₇ := h₆.remove .commit
  have h₈ := h₇.syncDir
  have hnil : ∀ {P : Edit FileName → Prop}, ∀ x ∈ ([] : List (Edit FileName)), P x := fun x hx =>
    absurd hx not_mem_nil
  have hmore : ∀ {node : Node BlobFile}, writtenNodes d table writePos valBuf <+:
      writtenNodes d table writePos valBuf ++ [node] := prefix_append _ _
  have hmarked : ∀ {i : ℕ}, Committed (d.nodes.length + 1) d.nodes.length
      (update (stagedNames d) .commit (some i)) := ⟨rfl, .inl rfl, .inl rfl⟩
  refine throughout_cons (safe_of_staged_shape List.prefix_rfl h hnil) ?_
  refine throughout_cons (safe_of_staged_shape hmore h₁ fun x hx => ⟨_, mem_singleton.mp hx⟩) ?_
  refine throughout_cons (safe_of_staged_shape hmore h₂ fun x hx => ⟨_, mem_singleton.mp hx⟩) ?_
  refine throughout_cons (safe_of_committed_shape hmore h₃ hmarked hnil) ?_
  refine throughout_cons (safe_of_committed_shape hmore h₄ hmarked fun x hx =>
    .inl (mem_singleton.mp hx)) ?_
  refine throughout_cons (safe_of_committed_shape hmore h₅ hmarked fun x hx =>
    (mem_append.mp hx).imp mem_singleton.mp mem_singleton.mp) ?_
  refine throughout_cons (safe_of_swapped_shape hmore h₆ ⟨rfl, rfl, rfl, rfl⟩ hnil) ?_
  refine throughout_cons (safe_of_swapped_shape hmore h₇ ⟨rfl, rfl, rfl, rfl⟩ fun x hx =>
    mem_singleton.mp hx) ?_
  exact throughout_nil (safe_of_swapped_shape hmore h₈ ⟨rfl, rfl, rfl, rfl⟩ hnil)

end Swap

/-- **Every step of the compaction is safe.** -/
theorem safe_commit_compaction (hd : Settled d) (table : List (Option Slot)) (writePos : ℕ)
    (valBuf : List UInt8) :
    Throughout (Safe d table writePos valBuf) d (commit_compaction table writePos valBuf) := by
  obtain ⟨hvals, hvalsShape⟩ := safe_stage_vals hd table writePos valBuf
  obtain ⟨hkeys, hkeysShape⟩ := safe_stage_keys hd table writePos valBuf hvalsShape
  have hsynced := hkeysShape.syncDir
  exact hvals.append (hkeys.append (throughout_cons hkeys.last (safe_swap hd hsynced)))

/-! ### Every step of the recovery is safe -/

/-- While staged files are removed. -/
structure Dropping (d e f : BlobDir) : Prop where
  nodes : f.nodes = e.nodes
  names : ∀ name, (name = .keys ∨ name = .vals ∨ name = .commit) → f.names name = e.names name
  disk : OldPair d f.disk
  pending : ∀ x ∈ f.pending, x = .unlink .keysNew ∨ x = .unlink .valsNew

theorem OldPair.congr {names names' : FileName → Option ℕ} (h : OldPair d names)
    (hsame : ∀ name, (name = .keys ∨ name = .vals ∨ name = .commit) → names' name = names name) :
    OldPair d names' := by
  obtain ⟨hcommit, before, hbefore, hkeys, hvals⟩ := h
  exact ⟨(hsame _ (.inr (.inr rfl))).trans hcommit, before, hbefore,
    (hsame _ (.inl rfl)).trans hkeys, (hsame _ (.inr (.inl rfl))).trans hvals⟩

theorem Dropping.step (hold : OldPair d e.names) (h : Dropping d e f) {s : Step FileName BlobFile}
    (hs : s = .remove .keysNew ∨ s = .remove .valsNew ∨ s = .syncDir) :
    Dropping d e (f.apply s) := by
  rcases hs with rfl | rfl | rfl
  · refine ⟨h.nodes, fun name hname => ?_, h.disk, fun x hx => ?_⟩
    · rw [← h.names name hname]
      rcases hname with rfl | rfl | rfl <;> rfl
    · exact (mem_append.mp hx).elim (h.pending x) fun hx => .inl (mem_singleton.mp hx)
  · refine ⟨h.nodes, fun name hname => ?_, h.disk, fun x hx => ?_⟩
    · rw [← h.names name hname]
      rcases hname with rfl | rfl | rfl <;> rfl
    · exact (mem_append.mp hx).elim (h.pending x) fun hx => .inr (mem_singleton.mp hx)
  · exact ⟨h.nodes, h.names, hold.congr h.names, nofun⟩

/-- Without the marker, the staged files are removed. -/
theorem dropping_recover (hold : OldPair d e.names) (hdisk : e.names = e.disk)
    (hpending : e.pending = []) : Throughout (Dropping d e) e (recover_compaction e) := by
  have hnone : ¬ (e.names .commit).isSome = true := by rw [hold.1]; nofun
  have hstart : Dropping d e e := ⟨rfl, fun _ _ => rfl, hdisk ▸ hold, by
    rw [hpending]
    exact nofun⟩
  refine throughout_of_invariant hstart fun s hs f hf => hf.step hold ?_
  rw [recover_compaction, if_neg hnone] at hs
  simp only [mem_append] at hs
  rcases hs with (hs | hs) | hs
  · split_ifs at hs
    · exact .inl (mem_singleton.mp hs)
    · cases hs
  · split_ifs at hs
    · exact .inr (.inl (mem_singleton.mp hs))
    · cases hs
  · split_ifs at hs
    · exact .inr (.inr (mem_singleton.mp hs))
    · cases hs

theorem Dropping.safe (h : Dropping d e f) (huntouched : Untouched d e) :
    Safe d table writePos valBuf f := by
  refine safe_old (fun i a ha => ?_) h.disk h.pending
  rw [h.nodes]
  exact huntouched i a ha

section Finish

variable {names disk : FileName → Option ℕ} {pending : List (Edit FileName)}
  {nodes : List (Node BlobFile)} {I : BlobDir → Prop}

/-- A new file is moved unless it was. -/
theorem finish_file {source target : FileName} {file : ℕ} (h : Shape f nodes names disk pending)
    (hmoving : Moving names source target file) (hne : source ≠ target)
    (hI : ∀ g names' pending', Shape g nodes names' disk pending' →
      (∀ x ∈ pending', x ∈ pending ∨ x = .move source target file) → I g) :
    let steps := if (names source).isSome then [.rename source target] else []
    Throughout I f steps ∧ ∃ names' pending', Shape (f.applyAll steps) nodes names' disk pending' ∧
      names' source = none ∧ names' target = some file ∧
      (∀ name, name ≠ source → name ≠ target → names' name = names name) ∧
      ∀ x ∈ pending', x ∈ pending ∨ x = .move source target file := by
  have hstart : I f := hI f names pending h fun x hx => .inl hx
  rcases hmoving with hsource | ⟨hsource, htarget⟩
  · have hmove := h.rename source target hsource
    have hpending : ∀ x ∈ pending ++ [Edit.move source target file],
        x ∈ pending ∨ x = .move source target file := fun x hx =>
      (mem_append.mp hx).imp id mem_singleton.mp
    rw [hsource]
    refine ⟨throughout_cons hstart (throughout_nil (hI _ _ _ hmove hpending)), _, _, hmove, ?_, ?_,
      fun name hs ht => ?_, hpending⟩
    · rw [update_of_ne hne, update_self]
    · rw [update_self]
    · rw [update_of_ne ht, update_of_ne hs]
  · rw [hsource]
    exact ⟨throughout_nil hstart, names, pending, h, hsource, htarget, fun _ _ _ => rfl,
      fun x hx => .inl hx⟩

/-- With the marker, the swap is finished. -/
theorem safe_finish (huntouched : Untouched d e) (hwritten : Written d e table writePos valBuf)
    (hcommitted : Committed (d.nodes.length + 1) d.nodes.length e.names) (hdisk : e.names = e.disk)
    (hpending : e.pending = []) :
    Throughout (Safe d table writePos valBuf) e (recover_compaction e) ∧
      Swapped (d.nodes.length + 1) d.nodes.length
        (e.applyAll (recover_compaction e)).names ∧
      (e.applyAll (recover_compaction e)).nodes = e.nodes := by
  have hbase : ∀ {g : BlobDir}, g.nodes = e.nodes →
      Untouched d g ∧ Written d g table writePos valBuf := fun hg =>
    ⟨fun i a ha => hg ▸ huntouched i a ha, ⟨hg ▸ hwritten.vals, hg ▸ hwritten.keys⟩⟩
  have hself : Shape e e.nodes e.names e.names [] := ⟨rfl, rfl, hdisk.symm, hpending⟩
  have hmoves : ∀ g names' pending', Shape g e.nodes names' e.names pending' →
      (∀ x ∈ pending', x = .move .valsNew .vals d.nodes.length ∨
        x = .move .keysNew .keys (d.nodes.length + 1)) → Safe d table writePos valBuf g :=
    fun g names' pending' hg hx => safe_committed (hbase hg.nodes).1 (hbase hg.nodes).2
      (hg.disk ▸ hcommitted) (hg.pending ▸ hx)
  obtain ⟨hvals, names₁, pending₁, h₁, hvalsNew, hvalsName, hother, hx₁⟩ :=
    finish_file hself hcommitted.vals nofun fun g names' pending' hg hx =>
      hmoves g names' pending' hg fun x hx' => .inl ((hx x hx').resolve_left not_mem_nil)
  have hx₁ : ∀ x ∈ pending₁, x = .move .valsNew .vals d.nodes.length := fun x hx =>
    (hx₁ x hx).resolve_left not_mem_nil
  have hkeysMoving : Moving names₁ .keysNew .keys (d.nodes.length + 1) := by
    rw [Moving, hother .keysNew nofun nofun, hother .keys nofun nofun]
    exact hcommitted.keys
  obtain ⟨hkeys, names₂, pending₂, h₂, hkeysNew, hkeysName, hother₂, hx₂⟩ :=
    finish_file h₁ hkeysMoving nofun fun g names' pending' hg hx =>
      hmoves g names' pending' hg fun x hx' => (hx x hx').imp (hx₁ x) id
  have hx₂ : ∀ x ∈ pending₂, x = .move .valsNew .vals d.nodes.length ∨
      x = .move .keysNew .keys (d.nodes.length + 1) := fun x hx => (hx₂ x hx).imp (hx₁ x) id
  have hswapped : Swapped (d.nodes.length + 1) d.nodes.length names₂ :=
    ⟨(hother₂ .valsNew nofun nofun).trans hvalsNew, (hother₂ .vals nofun nofun).trans hvalsName,
      hkeysNew, hkeysName⟩
  have h₃ := h₂.syncDir
  have h₄ := h₃.remove .commit
  have h₅ := h₄.syncDir
  have hdone : ∀ {g : BlobDir} {names disk : FileName → Option ℕ}
      {pending : List (Edit FileName)}, Shape g e.nodes names disk pending →
      Swapped (d.nodes.length + 1) d.nodes.length disk → (∀ x ∈ pending, x = .unlink .commit) →
      Safe d table writePos valBuf g := fun hg hdisk hx =>
    safe_swapped (hbase hg.nodes).1 (hbase hg.nodes).2 (hg.disk ▸ hdisk) (hg.pending ▸ hx)
  have hunmarked : Swapped (d.nodes.length + 1) d.nodes.length
      (update names₂ .commit none) :=
    ⟨hswapped.valsNew, hswapped.vals, hswapped.keysNew, hswapped.keys⟩
  rw [hother .keysNew nofun nofun] at hkeys h₂ h₃ h₄ h₅
  have hrecover : recover_compaction e =
      ((if (e.names .valsNew).isSome then [Step.rename FileName.valsNew .vals] else []) ++
        (if (e.names .keysNew).isSome then [Step.rename FileName.keysNew .keys] else [])) ++
      [Step.syncDir, .remove FileName.commit, .syncDir] := by
    rw [recover_compaction, if_pos hcommitted.commit]
  have htail := throughout_cons (hmoves _ _ _ h₂ hx₂)
    (throughout_cons (hdone h₃ hswapped nofun)
      (throughout_cons (hdone h₄ hswapped fun x hx => mem_singleton.mp hx)
        (throughout_nil (hdone h₅ hunmarked nofun))))
  have hend : Shape (e.applyAll (recover_compaction e)) e.nodes
      (update names₂ .commit none) (update names₂ .commit none) [] := by
    rw [hrecover, applyAll_append, applyAll_append]
    exact h₅
  refine ⟨?_, hend.names ▸ hunmarked, hend.nodes⟩
  rw [hrecover, List.append_assoc]
  exact hvals.append (hkeys.append htail)

end Finish

/-- What opening comes to. -/
def Recovered (d : BlobDir) (table : List (Option Slot)) (writePos : ℕ) (valBuf : List UInt8)
    (f : BlobDir) : Prop :=
  Untouched d f ∧ (OldPair d f.names ∨ (Written d f table writePos valBuf ∧
    Swapped (d.nodes.length + 1) d.nodes.length f.names))

/-- **The recovery** is safe throughout, and ends with the old pair or the new one. -/
theorem Left.recover (h : Left d table writePos valBuf e e.disk) (hdisk : e.names = e.disk)
    (hpending : e.pending = []) :
    Throughout (Safe d table writePos valBuf) e (recover_compaction e) ∧
      Recovered d table writePos valBuf (e.applyAll (recover_compaction e)) := by
  obtain ⟨huntouched, hold | ⟨hwritten, hnew⟩⟩ := h
  · rw [← hdisk] at hold
    have hdrop := dropping_recover hold hdisk hpending
    exact ⟨hdrop.mono fun f hf => hf.safe huntouched,
      fun i a ha => hdrop.last.nodes ▸ huntouched i a ha, .inl (hold.congr hdrop.last.names)⟩
  rw [← hdisk] at hnew
  have hmarked : (e.names .commit).isSome = true →
      Committed (d.nodes.length + 1) d.nodes.length e.names := fun hcommit =>
    hnew.elim id fun hs => ⟨hcommit, .inr ⟨hs.valsNew, hs.vals⟩, .inr ⟨hs.keysNew, hs.keys⟩⟩
  by_cases hcommit : (e.names .commit).isSome = true
  · obtain ⟨hsafe, hswapped, hnodes⟩ :=
      safe_finish huntouched hwritten (hmarked hcommit) hdisk hpending
    exact ⟨hsafe, fun i a ha => hnodes ▸ huntouched i a ha,
      .inr ⟨⟨hnodes ▸ hwritten.vals, hnodes ▸ hwritten.keys⟩, hswapped⟩⟩
  · have hswapped := hnew.resolve_left fun hc => hcommit hc.commit
    have hnone : recover_compaction e = [] := by
      rw [recover_compaction, if_neg hcommit, hswapped.keysNew, hswapped.valsNew]
      rfl
    rw [hnone]
    refine ⟨throughout_nil (safe_swapped huntouched hwritten (hdisk ▸ hswapped) ?_), huntouched,
      .inr ⟨hwritten, hswapped⟩⟩
    rw [hpending]
    exact nofun

/-- **After any power losses**, what is left is in order. -/
theorem left_of_losses (hd : Settled d)
    (h : AfterLosses d (commit_compaction table writePos valBuf) e) :
    Left d table writePos valBuf e e.disk ∧ e.names = e.disk ∧ e.pending = [] := by
  induction h with
  | first n hcrash =>
    exact ⟨(safe_commit_compaction hd table writePos valBuf n).left hcrash, hcrash.names,
      hcrash.pending⟩
  | again _ n hcrash ih =>
    obtain ⟨hleft, hdisk, hpending⟩ := ih
    exact ⟨((hleft.recover hdisk hpending).1 n).left hcrash, hcrash.names, hcrash.pending⟩

/-- Opening the new pair reads what was written. -/
theorem openPair_of_swapped (hwritten : Written d f table writePos valBuf)
    (hswapped : Swapped (d.nodes.length + 1) d.nodes.length f.names) (layout : BlobLayout) :
    openPair layout f = some (openWith layout table writePos (newVals valBuf)) := by
  have hkeys : f.content .keys = some (.keys table writePos) := by
    rw [Directory.content, hswapped.keys, Option.bind_some, hwritten.keys]
    rfl
  have hvals : f.content .vals = some (.vals (newVals valBuf)) := by
    rw [Directory.content, hswapped.vals, Option.bind_some, hwritten.vals]
    rfl
  rw [openPair, hkeys, hvals]

/-- **The swap is atomic.** After any power losses during a compaction and the recoveries from
them, opening comes to the old pair or to the new one. -/
theorem recovered_of_losses (hd : Settled d)
    (h : AfterLosses d (commit_compaction table writePos valBuf) e) :
    Recovered d table writePos valBuf (e.applyAll (recover_compaction e)) := by
  obtain ⟨hleft, hdisk, hpending⟩ := left_of_losses hd h
  exact (hleft.recover hdisk hpending).2

/-! ### No key is lost -/

variable {s : BlobStore} {keys vals : ℕ}

/-- **A flushed store**: the directory has its pair, all on the disk. -/
structure Flushed (d : BlobDir) (s : BlobStore) (keys vals : ℕ) : Prop where
  settled : Settled d
  pending : d.pending = []
  keysName : d.names .keys = some keys
  valsName : d.names .vals = some vals
  keysFile : d.nodes[keys]? = some ⟨.keys (s.slots.map some) s.valueWritePos, true⟩
  valsFile : d.nodes[vals]? = some ⟨.vals s.vals, true⟩

/-- The old pair is read as it was. -/
theorem openPair_of_oldPair (hd : Flushed d s keys vals) (huntouched : Untouched d f)
    (hold : OldPair d f.names) : openPair s.layout f = some (BlobTable.reopen s) := by
  obtain ⟨-, before, hbefore, hkeys, hvals⟩ := hold
  rw [hd.pending] at hbefore
  obtain rfl : before = d.names :=
    hbefore.eq_of_nil.trans (hd.pending ▸ d.reached).eq_of_nil.symm
  have hkeysFile : f.content .keys = some (.keys (s.slots.map some) s.valueWritePos) := by
    rw [Directory.content, hkeys, hd.keysName, Option.bind_some, huntouched _ _ hd.keysFile]
    rfl
  have hvalsFile : f.content .vals = some (.vals s.vals) := by
    rw [Directory.content, hvals, hd.valsName, Option.bind_some, huntouched _ _ hd.valsFile]
    rfl
  rw [openPair, hkeysFile, hvalsFile]
  rfl

/-- **Compaction loses no key.** A flushed store is compacted; power losses come between any two
of the system calls, and of those of each recovery. Opening then reads the old store or the
compacted one, in order, and finds for each key what the store had for it. -/
theorem keys_of_losses (hs : BlobTable.Healthy hashKey s)
    (hfile : s.compact.valueWritePos ≤ BlobTable.isizeMax) (hd : Flushed d s keys vals)
    (h : AfterLosses d (commit_compaction (s.compact.slots.map some) s.compact.valueWritePos
      (s.compact.vals.take s.compact.valueWritePos)) e) :
    ∃ t, openPair s.layout (e.applyAll (recover_compaction e)) = some t ∧
      (t = BlobTable.reopen s ∨ t = BlobTable.reopen s.compact) ∧
      BlobTable.Healthy hashKey t ∧
      ∀ key, Option.Rel (fun q p => owned s.layout t.vals q =
        owned s.layout s.vals p) (t.find key) (s.find key) := by
  obtain ⟨hcompact, hrel⟩ := hs.compact hfile
  obtain ⟨huntouched, hold | ⟨hwritten, hswapped⟩⟩ := recovered_of_losses hd.settled h
  · obtain ⟨hslots, -, hhealthy⟩ := hs.reopen
    refine ⟨_, openPair_of_oldPair hd huntouched hold, .inl rfl, hhealthy, fun key => ?_⟩
    rw [find, hslots]
    change Option.Rel _ (s.find key) (s.find key)
    cases s.find key with
    | none => exact .none
    | some p => exact .some rfl
  · obtain ⟨hslots, -, hhealthy⟩ := hcompact.reopen
    have hvals : newVals (s.compact.vals.take s.compact.valueWritePos) = s.compact.vals := by
      rw [compact, List.take_left]
      rfl
    refine ⟨BlobTable.reopen s.compact, ?_, .inr rfl, hhealthy, fun key => ?_⟩
    · rw [openPair_of_swapped hwritten hswapped, hvals]
      rfl
    · rw [find]
      exact hslots ▸ hrel key

/-- The directory of a flushed store. -/
def directoryOf (s : BlobStore) : BlobDir where
  nodes := [⟨.keys (s.slots.map some) s.valueWritePos, true⟩, ⟨.vals s.vals, true⟩]
  names := fun name => match name with
    | .keys => some 0
    | .vals => some 1
    | _ => none
  disk := fun name => match name with
    | .keys => some 0
    | .vals => some 1
    | _ => none
  pending := []
  reached := .none

/-- Its compaction, up to the commit point. -/
def committed (s : BlobStore) (table : List (Option Slot)) (writePos : ℕ) (valBuf : List UInt8) :
    BlobDir :=
  (directoryOf s).applyAll ((commit_compaction table writePos valBuf).take 11)

/-- A power loss there may leave every file as it is. -/
theorem crash_committed (h : valBuf.length < initialValSize) :
    (committed s table writePos valBuf).Crash (committed s table writePos valBuf) := by
  rw [committed, commit_compaction, if_pos h]
  exact ⟨.none, rfl, rfl, rfl, fun _ => List.all_eq_true.mp rfl _, fun _ _ h => h⟩

/-- A store with one key. -/
def oneKey : BlobTable.Traced :=
  (StepRun.run (BlobTable.step hashKey) (BlobTable.create .flat)
    [.append [1, 2], .setSlot 7 ⟨0, 2⟩]).get (by decide +kernel)

/-- After a power loss at the commit point, opening finds the key. -/
theorem keys_of_losses_committed :
    ∃ (t : BlobStore) (e : BlobDir), oneKey.store.find 7 = some ⟨0, 2⟩ ∧ (t.find 7).isSome = true ∧
      openPair oneKey.store.layout (e.applyAll (recover_compaction e)) = some t := by
  obtain ⟨t, ht, -, -, hrel⟩ := keys_of_losses
    (BlobTable.inv_run (t := oneKey) (Option.some_get _).symm).healthy (by decide +kernel)
    ⟨⟨fun names h => by rw [h.eq_of_nil]; rfl, rfl, rfl⟩, rfl, rfl, rfl, rfl, rfl⟩
    (.first 11 (crash_committed (s := oneKey.store) (by decide +kernel)))
  have hfind : oneKey.store.find 7 = some ⟨0, 2⟩ := by decide +kernel
  refine ⟨t, _, hfind, ?_, ht⟩
  have hsome := hrel 7
  rw [hfind] at hsome
  generalize t.find 7 = q at hsome ⊢
  cases hsome
  rfl

end BlobCompaction

end Minnal
