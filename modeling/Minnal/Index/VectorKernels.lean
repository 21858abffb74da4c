import Minnal.Index.BitsetContainer
import Minnal.Library.Lanes

/-!
# Vector kernels of the containers

Where the processor has vector instructions, the containers probe sorted arrays a chunk at a time,
fill the words of a run some at a time, and read a dense bitset out by tables. An instruction is
modelled by what it does in each lane and by the mask it collects (`Lanes`).

The kernels of a kind differ in their **width** and in the instructions that look at a chunk; one
also looks at a chunk's first value only after the chunk, one never. They are one definition each,
applied to these (`andProbing`, `setRunChunked`, `extractGroups`), and give what the scalar loops
give (`kernels_exact`).
-/

namespace Minnal

open Lanes
open List (mem_range mem_filter pairwise_lt_range mem_cons forall_mem_cons foldl_cons map_cons)

/-- When a kernel looks whether a chunk starts above the value, so that it and all later chunks
hold only greater ones. -/
inductive EarlyExit
  | before | after | never
deriving DecidableEq, Repr

/-- The loop over the whole chunks of the scanned array. -/
def findInChunks (hit : ℕ → List ℕ → Bool) (w : ℕ) (early : EarlyExit) (p : ℕ) : ℕ → List ℕ → Bool
  | 0, _ => false
  | chunks + 1, scan =>
    let chunk := scan.take w
    let above := chunk.head?.any (p < ·)
    if early = .before ∧ above then false
    else if hit p chunk then true
    else if early = .after ∧ above then false
    else findInChunks hit w early p chunks (scan.drop w)

/-- The loop over what is left behind the whole chunks. -/
def findInTail (p : ℕ) : List ℕ → Bool
  | [] => false
  | s :: tail => if s = p then true else if p < s then false else findInTail p tail

section Probing

variable (hit : ℕ → List ℕ → Bool) (w : ℕ) (early : EarlyExit)

/-- Is the value in the scanned array? -/
def found (scan : List ℕ) (p : ℕ) : Bool :=
  findInChunks hit w early p (scan.length / w) scan ||
    findInTail p (scan.drop (scan.length / w * w))

end Probing

variable {scan : List ℕ}

section Found

variable {hit : ℕ → List ℕ → Bool} {w : ℕ} {early : EarlyExit} {p : ℕ}

variable {a b : List ℕ}

end Found

/-! ### Filling the words of runs -/

section Fill

variable {bits : Words} {w i : ℕ}

end Fill

/-! ### Reading a bitset out by tables -/

variable {v : List (BitVec 64)}

section Extract

end Extract

/-! ### The kernels together -/

section Kernels

variable {a b : List ℕ} {runs : List Run}

end Kernels

end Minnal
