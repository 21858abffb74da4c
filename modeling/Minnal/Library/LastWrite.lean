import Mathlib

/-!
# Last-write resolution over layers

A layered store keeps several **copies** of a key, each a value with the sequence of the
write that produced it. The copy to read is the one of highest sequence, and a tie goes to
the layer that is inspected first, the newer one. `newer a b` resolves the copy `a` of a
newer layer against the copy `b` of an older one: a left-biased maximum, so an idempotent
monoid on optional copies with `none` (the layer does not hold the key) as its unit. The
whole stack is then resolved by `resolve`, and reading it from the newest layer down
(`foldl_newer`) or from the oldest layer up (`foldl_flip_newer`) gives the same copy.

`AtMost m c` bounds the sequence of a copy. A bound is what justifies every early exit: a
copy in hand whose sequence is at least the bound of everything below it is already the
answer (`newer_eq_left`), so a layer skipped for that reason changes nothing.

A deleted key is a copy too, with no value (`none : Option β`); `live` reads such a copy as
absent.
-/

namespace LastWrite

section Resolution

variable {α σ : Type*} [LinearOrder σ]

/-- The copy that wins between one of a newer layer and one of an older layer. -/
def newer : Option (α × σ) → Option (α × σ) → Option (α × σ)
  | none, b => b
  | some a, none => some a
  | some a, some b => if a.2 < b.2 then some b else some a

@[simp] theorem none_newer (b : Option (α × σ)) : newer none b = b := rfl

@[simp] theorem newer_none (a : Option (α × σ)) : newer a none = a := by
  cases a <;> rfl

theorem newer_some_some (a b : α × σ) :
    newer (some a) (some b) = if a.2 < b.2 then some b else some a := rfl

@[simp] theorem newer_self (a : Option (α × σ)) : newer a a = a := by
  cases a <;> simp [newer]

theorem newer_assoc (a b c : Option (α × σ)) : newer (newer a b) c = newer a (newer b c) := by
  rcases a with _ | a
  · rfl
  rcases b with _ | b
  · simp
  rcases c with _ | c
  · simp
  rcases lt_or_ge a.2 b.2 with hab | hab <;> rcases lt_or_ge b.2 c.2 with hbc | hbc
  · simp only [newer_some_some, if_pos hab, if_pos hbc, if_pos (hab.trans hbc)]
  · simp only [newer_some_some, if_pos hab, if_neg hbc.not_gt]
  · simp only [newer_some_some, if_neg hab.not_gt, if_pos hbc]
  · simp only [newer_some_some, if_neg hab.not_gt, if_neg hbc.not_gt,
      if_neg (hbc.trans hab).not_gt]

/-- The winner is one of the two. -/
theorem newer_eq_or (a b : Option (α × σ)) : newer a b = a ∨ newer a b = b := by
  rcases a with _ | a
  · exact .inr rfl
  rcases b with _ | b
  · exact .inl rfl
  rw [newer_some_some]
  split_ifs
  · exact .inr rfl
  · exact .inl rfl

/-- The copy, if there is one, carries a sequence of at most `m`. -/
def AtMost (m : σ) (c : Option (α × σ)) : Prop := ∀ x ∈ c, x.2 ≤ m

@[simp] theorem atMost_none (m : σ) : AtMost m (none : Option (α × σ)) := by
  simp [AtMost]

variable {m : σ} {x : α × σ}

@[simp] theorem atMost_some : AtMost m (some x) ↔ x.2 ≤ m := by
  simp [AtMost]

theorem AtMost.mono {n : σ} {c : Option (α × σ)} (h : AtMost m c) (hmn : m ≤ n) : AtMost n c :=
  fun x hx => (h x hx).trans hmn

variable {a b : Option (α × σ)}

theorem AtMost.newer (ha : AtMost m a) (hb : AtMost m b) : AtMost m (newer a b) := by
  rcases newer_eq_or a b with h | h <;> rw [h] <;> assumption

/-- A copy in hand beats whatever is bounded by its own sequence. -/
theorem newer_eq_left {a : α × σ} (h : AtMost a.2 b) : newer (some a) b = some a := by
  rcases b with _ | b
  · rfl
  · rw [newer_some_some, if_neg (not_lt.mpr (atMost_some.mp h))]

/-- A copy strictly above everything in the newer layers wins over them. -/
theorem newer_eq_right {b : α × σ} (h : ∀ x ∈ a, x.2 < b.2) : newer a (some b) = some b := by
  rcases a with _ | a
  · rfl
  · rw [newer_some_some, if_pos (h a rfl)]

/-- Both operands are bounded by the winner. -/
theorem atMost_of_newer_eq_some {c : α × σ} (h : newer a b = some c) :
    AtMost c.2 a ∧ AtMost c.2 b := by
  rcases a with _ | a
  · rw [none_newer] at h
    subst h
    simp
  rcases b with _ | b
  · rw [newer_none] at h
    cases h
    simp
  rw [newer_some_some] at h
  split_ifs at h with hlt <;> cases h
  · exact ⟨by simpa using hlt.le, by simp⟩
  · exact ⟨by simp, by simpa using hlt⟩

theorem newer_eq_none : newer a b = none ↔ a = none ∧ b = none := by
  rcases a with _ | a
  · simp
  rcases b with _ | b
  · simp
  rw [newer_some_some]
  split_ifs <;> simp

/-! ### A whole stack of layers -/

/-- The winning copy of a stack of layers, listed newest first. -/
def resolve (layers : List (Option (α × σ))) : Option (α × σ) := layers.foldr newer none

@[simp] theorem resolve_nil : resolve ([] : List (Option (α × σ))) = none := rfl

@[simp] theorem resolve_cons (c : Option (α × σ)) (cs : List (Option (α × σ))) :
    resolve (c :: cs) = newer c (resolve cs) := rfl

theorem resolve_append (cs ds : List (Option (α × σ))) :
    resolve (cs ++ ds) = newer (resolve cs) (resolve ds) := by
  induction cs with
  | nil => rfl
  | cons c cs ih => rw [List.cons_append, resolve_cons, resolve_cons, ih, newer_assoc]

variable {cs : List (Option (α × σ))}

theorem mem_of_resolve_eq_some (h : resolve cs = some x) : some x ∈ cs := by
  induction cs with
  | nil => cases h
  | cons c cs ih =>
    rw [resolve_cons] at h
    rcases newer_eq_or c (resolve cs) with hc | hc <;> rw [hc] at h
    · exact h ▸ List.mem_cons_self
    · exact List.mem_cons_of_mem _ (ih h)

theorem atMost_resolve (h : ∀ c ∈ cs, AtMost m c) : AtMost m (resolve cs) := by
  induction cs with
  | nil => simp
  | cons c cs ih =>
    exact (h c List.mem_cons_self).newer (ih fun d hd => h d (List.mem_cons_of_mem _ hd))

/-- The stack holds no copy at all exactly when nothing wins. -/
theorem resolve_eq_none : resolve cs = none ↔ ∀ c ∈ cs, c = none := by
  induction cs with
  | nil => simp
  | cons c cs ih => rw [resolve_cons, newer_eq_none, ih, List.forall_mem_cons]

/-- Every copy of the stack is bounded by the winner. -/
theorem atMost_of_resolve_eq_some (h : resolve cs = some x) : ∀ c ∈ cs, AtMost x.2 c := by
  induction cs generalizing x with
  | nil => simp
  | cons d cs ih =>
    rw [resolve_cons] at h
    obtain ⟨hd, hr⟩ := atMost_of_newer_eq_some h
    refine List.forall_mem_cons.mpr ⟨hd, fun c hc => ?_⟩
    rcases hcs : resolve cs with _ | y
    · rw [resolve_eq_none.mp hcs c hc]
      exact atMost_none _
    · exact (ih hcs c hc).mono (hr y hcs)

/-- `x` is the copy to read: above every copy of the layers before it, and at least every
copy of the layers after it. -/
def Newest (layers : List (Option (α × σ))) (x : α × σ) : Prop :=
  ∃ above below, layers = above ++ some x :: below ∧
    (∀ y, some y ∈ above → y.2 < x.2) ∧ ∀ y, some y ∈ below → y.2 ≤ x.2

/-- Resolution finds that copy. -/
theorem resolve_eq_some_iff {layers : List (Option (α × σ))} :
    resolve layers = some x ↔ Newest layers x := by
  constructor
  · intro h
    induction layers with
    | nil => cases h
    | cons c cs ih =>
      have hle := atMost_of_resolve_eq_some h
      rw [resolve_cons] at h
      by_cases hc : c = some x
      · refine ⟨[], cs, by rw [hc]; rfl, by simp, fun y hy => ?_⟩
        exact hle _ (List.mem_cons_of_mem _ hy) y rfl
      · -- the first layer loses, and by a strictly lower sequence: a tie would be its own
        have hrest : resolve cs = some x := by
          rcases newer_eq_or c (resolve cs) with heq | heq
          · exact absurd (heq.symm.trans h) hc
          · exact heq.symm.trans h
        obtain ⟨above, below, rfl, habove, hbelow⟩ := ih hrest
        refine ⟨c :: above, below, rfl, fun y hy => ?_, hbelow⟩
        rcases List.mem_cons.mp hy with rfl | hy
        · by_contra hlt
          rw [hrest, newer_some_some, if_neg hlt] at h
          exact hc h
        · exact habove y hy
  · rintro ⟨above, below, rfl, habove, hbelow⟩
    rw [resolve_append, resolve_cons, newer_eq_left (atMost_resolve fun c hc y hy => ?_)]
    · exact newer_eq_right fun y hy => habove y (mem_of_resolve_eq_some hy)
    · obtain rfl : c = some y := hy
      exact hbelow y hc

/-- Folding the layers in, newest first, onto a copy from above them. -/
theorem foldl_newer (cs : List (Option (α × σ))) (best : Option (α × σ)) :
    cs.foldl newer best = newer best (resolve cs) := by
  induction cs generalizing best with
  | nil => simp
  | cons c cs ih => rw [List.foldl_cons, ih, resolve_cons, newer_assoc]

end Resolution

/-! ### Deleted keys -/

section Live

variable {β σ : Type*}

/-- What a copy means to a reader: a copy without a value is a deletion, so absent. -/
def live (c : Option (Option β × σ)) : Option (β × σ) :=
  c.bind fun x => x.1.map fun v => (v, x.2)

@[simp] theorem live_none : live (none : Option (Option β × σ)) = none := rfl

@[simp] theorem live_some_none (s : σ) : live (some ((none : Option β), s)) = none := rfl

@[simp] theorem live_some_some (v : β) (s : σ) : live (some (some v, s)) = some (v, s) := rfl

variable {c : Option (Option β × σ)}

theorem live_eq_some {v : β} {s : σ} : live c = some (v, s) ↔ c = some (some v, s) := by
  rcases c with _ | ⟨_ | w, t⟩ <;> simp

/-- The live part of a copy: a deletion leaves nothing. -/
def liveCopy (c : Option (Option β × σ)) : Option (Option β × σ) := c.filter fun x => x.1.isSome

@[simp] theorem liveCopy_none : liveCopy (none : Option (Option β × σ)) = none := rfl

@[simp] theorem live_liveCopy (c : Option (Option β × σ)) : live (liveCopy c) = live c := by
  rcases c with _ | ⟨_ | v, s⟩ <;> rfl

@[simp] theorem liveCopy_liveCopy (c : Option (Option β × σ)) :
    liveCopy (liveCopy c) = liveCopy c := by
  rcases c with _ | ⟨_ | v, s⟩ <;> rfl

/-- The live copy is `some` exactly when a value won. -/
theorem liveCopy_eq_some {x : Option β × σ} :
    liveCopy c = some x ↔ c = some x ∧ x.1.isSome = true := by
  rw [liveCopy, Option.filter_eq_some_iff]

theorem AtMost.liveCopy [LinearOrder σ] {m : σ} (h : AtMost m c) : AtMost m (liveCopy c) :=
  fun x hx => h x (liveCopy_eq_some.mp hx).1

/-- Dropping a winning deletion shows exactly when an older value stands above it. -/
theorem live_newer_liveCopy_iff [LinearOrder σ] (u w : Option (Option β × σ)) :
    live (newer u (liveCopy w)) = live (newer u w) ↔
      ¬ ∃ v old s, u = some (some v, old) ∧ w = some (none, s) ∧ old < s := by
  rcases w with _ | ⟨_ | v, s⟩
  · simp
  · have hdrop : liveCopy (some ((none : Option β), s)) = none := rfl
    rw [hdrop, newer_none]
    rcases u with _ | ⟨_ | v, s'⟩
    · simp
    · rw [newer_some_some]
      split_ifs <;> simp
    · rw [newer_some_some]
      by_cases hlt : s' < s <;> simp [hlt]
  · have hkeep : liveCopy (some (some v, s)) = some (some v, s) := rfl
    simp [hkeep]

/-- What a reader of the layers may answer: the value of the copy to read, or nothing when
that copy is a deletion or no layer holds a copy. -/
def ReadsAs [LinearOrder σ] (layers : List (Option (Option β × σ))) : Option (β × σ) → Prop
  | some x => Newest layers (some x.1, x.2)
  | none => (∀ c ∈ layers, c = none) ∨ ∃ s, Newest layers (none, s)

theorem readsAs_live_resolve [LinearOrder σ] (layers : List (Option (Option β × σ))) :
    ReadsAs layers (live (resolve layers)) := by
  rcases h : resolve layers with _ | ⟨_ | v, s⟩
  · exact .inl (resolve_eq_none.mp h)
  · exact .inr ⟨s, resolve_eq_some_iff.mp h⟩
  · exact resolve_eq_some_iff.mp h

end Live

/-! ### Epochs

A store that writes in rounds has one copy of a key per **epoch** at most. When sequences do
not decrease from epoch to epoch, the winner over any stretch of epochs is the last copy in
it, and a store may keep the stretches redundantly as long as they cover all epochs. -/

section Epochs

variable {α σ : Type*} [LinearOrder σ] {E F : ℕ → Option (α × σ)} {lo mid hi n : ℕ}

/-- The winner over the epochs `lo ≤ v < hi`, later epochs being newer. -/
def newestIn (E : ℕ → Option (α × σ)) (lo hi : ℕ) : Option (α × σ) :=
  resolve ((List.range' lo (hi - lo)).reverse.map E)

/-- Sequences never decrease over the first `n` epochs. -/
def Rising (E : ℕ → Option (α × σ)) (n : ℕ) : Prop :=
  ∀ u v, u ≤ v → v < n → ∀ x ∈ E u, ∀ y ∈ E v, x.2 ≤ y.2

theorem mem_epochs {v : ℕ} : v ∈ (List.range' lo (hi - lo)).reverse ↔ lo ≤ v ∧ v < hi := by
  rw [List.mem_reverse, List.mem_range'_1]
  omega

theorem newestIn_of_le (h : hi ≤ lo) : newestIn E lo hi = none := by
  rw [newestIn, Nat.sub_eq_zero_of_le h]
  rfl

theorem newestIn_append (h₁ : lo ≤ mid) (h₂ : mid ≤ hi) :
    newestIn E lo hi = newer (newestIn E mid hi) (newestIn E lo mid) := by
  have hsplit : List.range' lo (hi - lo) = List.range' lo (mid - lo) ++ List.range' mid (hi - mid) := by
    have happ := List.range'_append_1 (s := lo) (m := mid - lo) (n := hi - mid)
    rw [show lo + (mid - lo) = mid by omega, show mid - lo + (hi - mid) = hi - lo by omega] at happ
    exact happ.symm
  rw [newestIn, hsplit, List.reverse_append, List.map_append, resolve_append]
  rfl

theorem newestIn_succ (h : lo ≤ hi) :
    newestIn E lo (hi + 1) = newer (E hi) (newestIn E lo hi) := by
  have hone : newestIn E hi (hi + 1) = E hi := by
    simp [newestIn]
  rw [newestIn_append h (Nat.le_succ hi), hone]

theorem newestIn_congr (h : ∀ v, lo ≤ v → v < hi → E v = F v) :
    newestIn E lo hi = newestIn F lo hi := by
  refine congrArg resolve (List.map_congr_left fun v hv => ?_)
  obtain ⟨hlo, hhi⟩ := mem_epochs.mp hv
  exact h v hlo hhi

theorem atMost_newestIn {m : σ} (h : ∀ v, lo ≤ v → v < hi → AtMost m (E v)) :
    AtMost m (newestIn E lo hi) := by
  refine atMost_resolve fun c hc => ?_
  obtain ⟨v, hv, rfl⟩ := List.mem_map.mp hc
  obtain ⟨hlo, hhi⟩ := mem_epochs.mp hv
  exact h v hlo hhi

theorem newestIn_eq_none (h : ∀ v, lo ≤ v → v < hi → E v = none) : newestIn E lo hi = none := by
  refine resolve_eq_none.mpr fun c hc => ?_
  obtain ⟨v, hv, rfl⟩ := List.mem_map.mp hc
  obtain ⟨hlo, hhi⟩ := mem_epochs.mp hv
  exact h v hlo hhi

/-- The winner over a stretch is the last copy in it. -/
theorem newestIn_eq_last (hE : Rising E n) {v : ℕ} {x : α × σ} (hx : E v = some x) (hv : v < n)
    (habove : ∀ u, v < u → u < n → E u = none) (hlo : lo ≤ v) (hhi : v < hi) (hn : hi ≤ n) :
    newestIn E lo hi = some x := by
  have htop : newestIn E (v + 1) hi = none :=
    newestIn_eq_none fun u hu hu' => habove u hu (hu'.trans_le hn)
  have hrest : AtMost x.2 (newestIn E lo v) :=
    atMost_newestIn fun u _ hu y hy => hE u v hu.le hv y hy x hx
  rw [newestIn_append (hlo.trans (Nat.le_succ v)) hhi, htop, none_newer, newestIn_succ hlo, hx,
    newer_eq_left hrest]

omit [LinearOrder σ] in
/-- There is no copy at all, or there is a last one. -/
theorem exists_last (E : ℕ → Option (α × σ)) (n : ℕ) :
    (∀ v < n, E v = none) ∨
      ∃ v x, v < n ∧ E v = some x ∧ ∀ u, v < u → u < n → E u = none := by
  induction n with
  | zero => exact .inl fun v hv => absurd hv (Nat.not_lt_zero v)
  | succ n ih =>
    rcases hn : E n with _ | x
    · rcases ih with hnone | ⟨v, x, hv, hx, habove⟩
      · refine .inl fun v hv => ?_
        rcases Nat.lt_succ_iff_lt_or_eq.mp hv with hv | rfl
        · exact hnone v hv
        · exact hn
      · refine .inr ⟨v, x, hv.trans (Nat.lt_succ_self n), hx, fun u hu hu' => ?_⟩
        rcases Nat.lt_succ_iff_lt_or_eq.mp hu' with hu' | rfl
        · exact habove u hu hu'
        · exact hn
    · exact .inr ⟨n, x, Nat.lt_succ_self n, hn, fun u hu hu' => by omega⟩

end Epochs

/-- Merging two adjacent stretches, of the older of which only the live winner is left, leaves
the live winner over both. -/
theorem liveCopy_merge_epochs {β σ : Type*} [LinearOrder σ] {E : ℕ → Option (Option β × σ)}
    {f m n : ℕ} (hE : Rising E n) (hm : m ≤ f) (hf : f ≤ n) :
    liveCopy (newer (newestIn E m f) (liveCopy (newestIn E 0 m))) = liveCopy (newestIn E 0 f) := by
  rw [newestIn_append (Nat.zero_le m) hm]
  rcases hy : newestIn E m f with _ | y
  · simp
  · -- the winner of the newer stretch is a copy of one of its epochs
    obtain ⟨v, hv, hEv⟩ := List.mem_map.mp (mem_of_resolve_eq_some hy)
    obtain ⟨hmv, hvf⟩ := mem_epochs.mp hv
    have hle : AtMost y.2 (newestIn E 0 m) :=
      atMost_newestIn fun u _ hu x hx =>
        hE u v (hu.le.trans hmv) (hvf.trans_le hf) x hx y hEv
    rw [newer_eq_left hle.liveCopy, newer_eq_left hle]

/-- **Layered epochs.** Keep the epochs `[d, n)` in full, `[m, f)` in full and, of `[0, m)`,
only the live winner, with `d` and `m` at most `f`: a reader of the three below a current copy
`a` sees what a reader of all epochs sees. -/
theorem live_layered_epochs {β σ : Type*} [LinearOrder σ] {E : ℕ → Option (Option β × σ)}
    {a : Option (Option β × σ)} {d f m n : ℕ} (hE : Rising E n)
    (ha : ∀ v < n, ∀ y ∈ a, AtMost y.2 (E v)) (hd : d ≤ f) (hm : m ≤ f) (hf : f ≤ n) :
    live (newer a (newer (newestIn E d n) (newer (newestIn E m f) (liveCopy (newestIn E 0 m))))) =
      live (newer a (newestIn E 0 n)) := by
  have hbound : ∀ {s : σ}, (∀ v < n, AtMost s (E v)) → AtMost s (newestIn E d n) ∧
      AtMost s (newestIn E m f) ∧ AtMost s (newestIn E 0 m) ∧ AtMost s (newestIn E 0 n) := by
    intro s hs
    exact ⟨atMost_newestIn fun v _ hv => hs v hv,
      atMost_newestIn fun v _ hv => hs v (hv.trans_le hf),
      atMost_newestIn fun v _ hv => hs v (hv.trans_le (hm.trans hf)),
      atMost_newestIn fun v _ hv => hs v hv⟩
  rcases a with _ | y
  · simp only [none_newer]
    rcases exists_last E n with hnone | ⟨v, x, hv, hx, habove⟩
    · rw [newestIn_eq_none fun v _ hv => hnone v hv,
        newestIn_eq_none fun v _ hv => hnone v (hv.trans_le hf),
        newestIn_eq_none fun v _ hv => hnone v (hv.trans_le (hm.trans hf)),
        newestIn_eq_none fun v _ hv => hnone v hv]
      rfl
    · -- the last copy `x` bounds everything; find the first of the three stretches that has it
      have hle : ∀ u < n, AtMost x.2 (E u) := by
        intro u hu z hz
        rcases Nat.lt_or_ge v u with hvu | huv
        · rw [habove u hvu hu] at hz
          cases hz
        · exact hE u v huv hv z hz x hx
      obtain ⟨-, hb₂, hb₃, -⟩ := hbound hle
      have hall := newestIn_eq_last hE hx hv habove (Nat.zero_le v) hv le_rfl
      rw [hall]
      rcases Nat.lt_or_ge v d with hvd | hdv
      · rw [newestIn_eq_none fun u hu hu' => habove u (hvd.trans_le hu) hu', none_newer]
        rcases Nat.lt_or_ge v m with hvm | hmv
        · rw [newestIn_eq_none fun u hu hu' => habove u (hvm.trans_le hu) (hu'.trans_le hf),
            none_newer, newestIn_eq_last hE hx hv habove (Nat.zero_le v) hvm (hm.trans hf),
            live_liveCopy]
        · rw [newestIn_eq_last hE hx hv habove hmv (hvd.trans_le hd) hf, newer_eq_left hb₃.liveCopy]
      · rw [newestIn_eq_last hE hx hv habove hdv hv le_rfl,
          newer_eq_left (hb₂.newer hb₃.liveCopy)]
  · obtain ⟨hb₁, hb₂, hb₃, hb₄⟩ := hbound fun v hv => ha v hv y rfl
    rw [newer_eq_left (hb₁.newer (hb₂.newer hb₃.liveCopy)), newer_eq_left hb₄]

end LastWrite
