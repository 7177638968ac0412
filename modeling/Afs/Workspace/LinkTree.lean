import Afs.Foundations.Forest
import Afs.Foundations.Tally
import Afs.Workspace.Store

/-!
# The tree of a workspace

What a workspace is, apart from how Redis keeps it: inodes, each with the slot it says it sits in,
and the entries of the directories, which lead from slots to inodes.

`Step` is what a publication may do to a tree: place an inode in a slot (create, rewrite, move,
restore), remove one, or write the root. The invariants are kept step by step:

* `Linked`: every inode is found in the one slot it names, below a directory;
* `Whole`: moreover no entry and no content is left over from an inode that is gone;
* `Balanced`: the counters are the tallies of the inodes;
* `Grown`: every inode climbs to the root.
-/

namespace Afs

open Function (update update_apply update_comm update_of_ne update_self)

/-- What the counters of a workspace measure. -/
inductive Measure
  | files
  | directories
  | symlinks
  | bytes
  deriving DecidableEq

/-- An inode: `slot` is the directory and the name it says it has. -/
structure Node (ι ν : Type) where
  kind : Kind
  slot : Option (ι × ν)
  size : ℤ
  revision : Rev

/-- What an inode adds to a measure. -/
def Node.weight {ι ν : Type} (m : Measure) (x : Node ι ν) : ℤ :=
  match m, x.kind with
  | .files, .file | .directories, .dir | .symlinks, .symlink => 1
  | .bytes, .file => x.size
  | _, _ => 0

/-- A directory counts as a directory, whatever its size. -/
theorem Node.weight_of_dir {ι ν : Type} {x y : Node ι ν} (hx : x.kind = .dir) (hy : y.kind = .dir)
    (m : Measure) : x.weight m = y.weight m := by
  cases m <;> simp [Node.weight, hx, hy]

/-- A tree: the inodes there are, the entries of their directories, the inodes that have content,
and the counters. -/
structure LinkTree (ι ν : Type) where
  node : ι → Option (Node ι ν)
  entry : ι × ν → Option ι
  filled : ι → Prop
  books : Measure → ℤ

namespace LinkTree

variable {ι ν : Type} {root : ι} {t t' : LinkTree ι ν}

/-- There is a directory `d`. -/
def IsDir (t : LinkTree ι ν) (d : ι) : Prop := ∃ x, t.node d = some x ∧ x.kind = .dir

/-- Every inode but the root is found in the slot it names and in no other one, and only
directories have entries. -/
structure Linked (root : ι) (t : LinkTree ι ν) : Prop where
  root_dir : ∀ x, t.node root = some x → x.kind = .dir
  root_free : ∀ s, t.entry s ≠ some root
  home : ∀ i x, t.node i = some x → i ≠ root → ∃ s, x.slot = some s ∧ t.entry s = some i
  dirs : ∀ s i, t.entry s = some i → t.IsDir s.1
  once : ∀ s s' i, t.entry s = some i → t.entry s' = some i → s = s'

/-- Nothing is left over either: entries lead to inodes, and only inodes have content. -/
structure Whole (root : ι) (t : LinkTree ι ν) : Prop extends Linked root t where
  live : ∀ s i, t.entry s = some i → ∃ x, t.node i = some x
  content : ∀ i, t.filled i → ∃ x, t.node i = some x

/-- The counters are the tallies of the inodes. -/
structure Balanced (root : ι) (t : LinkTree ι ν) : Prop where
  rooted : t.IsDir root
  finite : (places t.node).Finite
  books : ∀ m, t.books m = tally (Node.weight m) t.node

variable [DecidableEq ι] [DecidableEq ν]

/-- The parent an inode names; the root has none. -/
def up (root : ι) (node : ι → Option (Node ι ν)) (i : ι) : Option ι :=
  if i = root then none else ((node i).bind (·.slot)).map Prod.fst

/-- Every inode climbs to the root. -/
def Grown (root : ι) (t : LinkTree ι ν) : Prop :=
  ∀ i x, t.node i = some x → Forest.Climbs (up root t.node) i root

/-! ## Steps -/

/-- What a system of publications does: which inodes it moves below which directories, whether it
moves inodes onto their own slot, whether it starts the counters again. -/
structure Habits (ι ν : Type) where
  moves : LinkTree ι ν → ι → ι → Prop
  ownSlot : Prop
  resets : Prop

/-- The inode that makes room when `i` is placed in `s`. -/
def replaced (t : LinkTree ι ν) (i : ι) (s : ι × ν) : Option (Node ι ν) :=
  match t.entry s with
  | some v => if v = i then none else t.node v
  | none => none

/-- The inode `i` is placed in the slot `s`. It comes from the slot `source`, which may be `s`
itself, or it is new. -/
structure Placing (root : ι) (H : Habits ι ν) (t : LinkTree ι ν) (i : ι) (x : Node ι ν)
    (s : ι × ν) (source : Option (ι × ν)) (t' : LinkTree ι ν) : Prop where
  ne_root : i ≠ root
  slot : x.slot = some s
  dir : t.IsDir s.1
  new : source = none → t.node i = none ∧ ∀ s', t.entry s' ≠ some i
  linked : ∀ s₀, source = some s₀ → t.entry s₀ = some i
  empty : ∀ v, t.entry s = some v → v ≠ i → ∀ n, t.entry (v, n) = none
  kind : ∀ y, t.node i = some y → y.kind = x.kind
  moves : ∀ s₀, source = some s₀ → s₀ ≠ s → H.moves t i s.1
  node : ∀ j, t'.node j = if j = i then some x else if t.entry s = some j then none else t.node j
  entry : ∀ s', t'.entry s' = if s' = s then some i else if source = some s' then none
    else t.entry s'
  filled : ∀ j, t'.filled j → j = i ∨ t.filled j ∧ t.entry s ≠ some j
  books : t.Whole root → ∀ m, t'.books m = t.books m + x.weight m -
    weigh (Node.weight m) (t.node i) - weigh (Node.weight m) (t.replaced i s)

/-- The inode `i` is removed from the slot `s`. -/
structure Removing (root : ι) (t : LinkTree ι ν) (i : ι) (s : ι × ν) (t' : LinkTree ι ν) :
    Prop where
  linked : t.entry s = some i
  childless : ∀ n j, t.entry (i, n) = some j → t.node j = none
  node : ∀ j, t'.node j = if j = i then none else t.node j
  entry : ∀ s', t'.entry s' = if s' = s ∨ s'.1 = i then none else t.entry s'
  filled : ∀ j, t'.filled j → t.filled j ∧ j ≠ i
  books : t.Whole root → ∀ m, t'.books m = t.books m - weigh (Node.weight m) (t.node i)

/-- The inode `i` is moved onto its own slot `s`, where it makes room for itself: its entry stays,
and it is gone. -/
structure Vanishing (H : Habits ι ν) (t : LinkTree ι ν) (i : ι) (s : ι × ν)
    (t' : LinkTree ι ν) : Prop where
  ownSlot : H.ownSlot
  linked : t.entry s = some i
  empty : ∀ n, t.entry (i, n) = none
  node : ∀ j, t'.node j = if j = i then none else t.node j
  entry : ∀ s', t'.entry s' = t.entry s'

/-- The root is written. -/
structure Rooting (root : ι) (H : Habits ι ν) (t : LinkTree ι ν) (x : Node ι ν)
    (t' : LinkTree ι ν) : Prop where
  kind : x.kind = .dir
  node : ∀ j, t'.node j = if j = root then some x else t.node j
  entry : ∀ s', t'.entry s' = t.entry s'
  filled : ∀ j, t'.filled j → t.filled j
  books : H.resets ∨ ∀ m, t'.books m = t.books m

/-- What one command does to the tree. The index is the inode it writes. -/
inductive Step (root : ι) (H : Habits ι ν) (t : LinkTree ι ν) :
    Option (ι × Node ι ν) → LinkTree ι ν → Prop
  | stay : Step root H t none t
  | place {i x s o t'} (h : Placing root H t i x s o t') : Step root H t (some (i, x)) t'
  | remove {i s t'} (h : Removing root t i s t') : Step root H t none t'
  | vanish {i s t'} (h : Vanishing H t i s t') : Step root H t none t'
  | root {x t'} (h : Rooting root H t x t') : Step root H t (some (root, x)) t'

variable {H : Habits ι ν} {i : ι} {x : Node ι ν} {s : ι × ν} {source : Option (ι × ν)}
  {new : Option (ι × Node ι ν)}

/-- Only the written inode is new. -/
theorem Step.node_cases (h : Step root H t new t') {j : ι} {y : Node ι ν}
    (hy : t'.node j = some y) : t.node j = some y ∨ new = some (j, y) := by
  cases h with
  | stay => exact .inl hy
  | place h =>
    rw [h.node] at hy
    split_ifs at hy with hj hv
    · cases hy
      exact .inr (by rw [hj])
    · exact .inl hy
  | remove h | vanish h =>
    rw [h.node] at hy
    split_ifs at hy
    exact .inl hy
  | root h =>
    rw [h.node] at hy
    split_ifs at hy with hj
    · cases hy
      exact .inr (by rw [hj])
    · exact .inl hy

/-- A new entry leads to the written inode. -/
theorem Step.entry_cases (h : Step root H t new t') {j : ι} {s : ι × ν}
    (hs : t'.entry s = some j) : t.entry s = some j ∨ ∃ y, new = some (j, y) := by
  cases h with
  | stay => exact .inl hs
  | place h =>
    rw [h.entry] at hs
    split_ifs at hs
    · cases hs
      exact .inr ⟨_, rfl⟩
    · exact .inl hs
  | remove h =>
    rw [h.entry] at hs
    split_ifs at hs
    exact .inl hs
  | vanish h => exact .inl (by rw [← h.entry, hs])
  | root h => exact .inl (by rw [← h.entry, hs])

section

variable (hroot : i ≠ root) (hslot : x.slot = some s) (hdir : t.IsDir s.1)

include hroot hslot hdir

/-- A new inode in a free slot. -/
theorem Step.create
    (hnew : t.node i = none) (hunlinked : ∀ s', t.entry s' ≠ some i) (hfree : t.entry s = none)
    (hnode : t'.node = update t.node i (some x)) (hentry : t'.entry = update t.entry s (some i))
    (hfilled : ∀ j, t'.filled j → j = i ∨ t.filled j)
    (hbooks : ∀ m, t'.books m = t.books m + x.weight m) : Step root H t (some (i, x)) t' := by
  refine .place (s := s) (o := none) ⟨hroot, hslot, hdir, fun _ => ⟨hnew, hunlinked⟩,
    nofun, fun v hv => ?_, fun y hy => ?_, nofun,
    fun j => ?_, fun s' => ?_, fun j hj => ?_, fun _ m => ?_⟩
  · rw [hfree] at hv
    cases hv
  · rw [hnew] at hy
    cases hy
  · rw [hnode, hfree, update_apply, if_neg (c := none = some j) (by simp)]
  · rw [hentry, update_apply, if_neg (c := none = some s') (by simp)]
  · exact (hfilled j hj).imp_right fun hf => ⟨hf, by simp [hfree]⟩
  · simp [hbooks m, hnew, replaced, hfree]

/-- An inode written where it is. -/
theorem Step.rewrite
    (hlinked : t.entry s = some i) (hkind : ∀ y, t.node i = some y → y.kind = x.kind)
    (hnode : t'.node = update t.node i (some x)) (hentry : t'.entry = t.entry)
    (hfilled : ∀ j, t'.filled j → j = i ∨ t.filled j)
    (hbooks : ∀ y, t.node i = some y → ∀ m, t'.books m = t.books m + x.weight m - y.weight m) :
    Step root H t (some (i, x)) t' := by
  have hvictim : ∀ {v}, t.entry s = some v → v = i := fun {v} hv => by
    rw [hlinked] at hv
    exact (Option.some.inj hv).symm
  refine .place (s := s) (o := some s) ⟨hroot, hslot, hdir, nofun,
    fun s₀ hs => ?_, fun v hv hne => absurd (hvictim hv) hne, hkind, fun s₀ hs hne => ?_,
    fun j => ?_, fun s' => ?_, fun j hj => ?_, fun ht m => ?_⟩
  · cases hs
    exact hlinked
  · cases hs
    exact absurd rfl hne
  · rw [hnode, update_apply]
    split_ifs with hj hv
    · rfl
    · exact absurd (hvictim hv) hj
    · rfl
  · rw [hentry]
    split_ifs with hs hs'
    · rw [hs, hlinked]
    · cases hs'
      exact absurd rfl hs
    · rfl
  · by_cases hji : j = i
    · exact .inl hji
    · exact .inr ⟨(hfilled j hj).resolve_left hji, fun hv => hji (hvictim hv)⟩
  · obtain ⟨y, hy⟩ := ht.live s i hlinked
    simp [hbooks y hy m, hy, replaced, hlinked]

/-- An inode moved to a free slot. -/
theorem Step.move {s₀ : ι × ν} {y : Node ι ν} (hlinked : t.entry s₀ = some i) (hy : t.node i = some y)
    (hkind : y.kind = x.kind) (hfree : t.entry s = none) (hmoves : H.moves t i s.1)
    (hnode : t'.node = update t.node i (some x))
    (hentry : t'.entry = update (update t.entry s₀ none) s (some i))
    (hfilled : ∀ j, t'.filled j → t.filled j)
    (hbooks : ∀ m, t'.books m = t.books m + x.weight m - y.weight m) :
    Step root H t (some (i, x)) t' := by
  refine .place (s := s) (o := some s₀) ⟨hroot, hslot, hdir, nofun,
    fun s₁ h => ?_, fun v hv => ?_, fun z hz => ?_, fun _ _ _ => hmoves, fun j => ?_, fun s' => ?_,
    fun j hj => .inr ⟨hfilled j hj, by simp [hfree]⟩, fun _ m => ?_⟩
  · cases h
    exact hlinked
  · rw [hfree] at hv
    cases hv
  · rw [hy] at hz
    cases hz
    exact hkind
  · rw [hnode, hfree, update_apply, if_neg (c := none = some j) (by simp)]
  · rw [hentry, update_apply, update_apply]
    simp only [Option.some.injEq, eq_comm (a := s₀)]
  · simp [hbooks m, hy, replaced, hfree]

end

/-- An inode placed where another one makes room for it. -/
theorem Step.evict (source : Option (ι × ν)) {v : ι} {z : Node ι ν} (hroot : i ≠ root) (hslot : x.slot = some s)
    (hdir : t.IsDir s.1) (hnew : source = none → t.node i = none ∧ ∀ s', t.entry s' ≠ some i)
    (hlinked : ∀ s₀, source = some s₀ → t.entry s₀ = some i) (hv : t.entry s = some v)
    (hvi : v ≠ i) (hz : t.node v = some z) (hempty : ∀ n, t.entry (v, n) = none)
    (hkind : ∀ y, t.node i = some y → y.kind = x.kind) (hmoves : source.isSome → H.moves t i s.1)
    (hnode : t'.node = update (update t.node v none) i (some x))
    (hentry : ∀ s', t'.entry s' = if s' = s then some i else if source = some s' then none
      else t.entry s') (hfilled : ∀ j, t'.filled j → j = i ∨ t.filled j ∧ j ≠ v)
    (hbooks : ∀ m, t'.books m = t.books m + x.weight m - weigh (Node.weight m) (t.node i) -
      z.weight m) : Step root H t (some (i, x)) t' := by
  refine .place (s := s) (o := source) ⟨hroot, hslot, hdir, hnew, hlinked, fun w hw _ => ?_,
    hkind, fun s₀ h _ => hmoves (by simp [h]), fun j => ?_, hentry, fun j hj => ?_, fun _ m => ?_⟩
  · rw [hv] at hw
    cases hw
    exact hempty
  · rw [hnode, update_apply, update_apply, hv]
    simp only [Option.some.injEq, eq_comm (a := v)]
  · refine (hfilled j hj).imp_right fun h => ⟨h.1, fun hj => h.2 ?_⟩
    rw [hv] at hj
    exact (Option.some.inj hj).symm
  · simp [hbooks m, replaced, hv, hvi, hz]

/-! ## Links -/

namespace Placing

variable (h : Placing root H t i x s source t')

include h

/-- The directory of the slot is not the inode that makes room. -/
theorem dir_ne_victim {v : ι} (hv : t.entry s = some v) (hvi : v ≠ i) : s.1 ≠ v := by
  rintro rfl
  have hnone := h.empty _ hv hvi s.2
  rw [Prod.mk.eta, hv] at hnone
  cases hnone

theorem isDir_of_entry {d : ι} (hd : t.IsDir d) (hdv : t.entry s ≠ some d ∨ d = i) :
    t'.IsDir d := by
  obtain ⟨y, hy, hk⟩ := hd
  by_cases hdi : d = i
  · subst hdi
    exact ⟨x, by rw [h.node, if_pos rfl], by rw [← h.kind y hy, hk]⟩
  · refine ⟨y, ?_, hk⟩
    rw [h.node, if_neg hdi, if_neg (hdv.resolve_right hdi), hy]

/-- An inode with entries keeps them and stays. -/
theorem entry_dir {s' : ι × ν} {j : ι} (hs : t.entry s' = some j) :
    t.entry s ≠ some s'.1 ∨ s'.1 = i := by
  by_cases hi : s'.1 = i
  · exact .inr hi
  · refine .inl fun hv => ?_
    have hnone := h.empty _ hv hi s'.2
    rw [Prod.mk.eta, hs] at hnone
    cases hnone

variable (ht : t.Linked root)

include ht

/-- The old entries of the placed inode are gone. -/
theorem entry_eq_iff {s' : ι × ν} : t'.entry s' = some i ↔ s' = s := by
  rw [h.entry]
  constructor
  · intro hs
    split_ifs at hs with he hsrc
    · exact he
    · cases source with
      | none => exact absurd hs ((h.new rfl).2 s')
      | some s₀ => exact absurd (ht.once _ _ _ (h.linked s₀ rfl) hs ▸ rfl) hsrc
  · rintro rfl
    rw [if_pos rfl]

theorem linked_after : t'.Linked root where
  root_dir y hy := by
    have hroot := ht.root_free s
    rw [h.node, if_neg (Ne.symm h.ne_root), if_neg hroot] at hy
    exact ht.root_dir y hy
  root_free s' hs := by
    rw [h.entry] at hs
    split_ifs at hs
    · cases hs
      exact h.ne_root rfl
    · exact ht.root_free s' hs
  home j y hy hj := by
    rw [h.node] at hy
    split_ifs at hy with hji hv
    · cases hy
      subst hji
      exact ⟨s, h.slot, by rw [h.entry, if_pos rfl]⟩
    · obtain ⟨s', hslot, hs'⟩ := ht.home j y hy hj
      refine ⟨s', hslot, ?_⟩
      have hne : s' ≠ s := by
        rintro rfl
        exact hv hs'
      have hsrc : source ≠ some s' := by
        intro hsrc
        have hi := h.linked s' hsrc
        rw [hs'] at hi
        cases hi
        exact hji rfl
      rw [h.entry, if_neg hne, if_neg hsrc, hs']
  dirs s' j hs := by
    rw [h.entry] at hs
    split_ifs at hs with he hsrc
    · subst he
      refine h.isDir_of_entry h.dir ?_
      by_cases hi : s'.1 = i
      · exact .inr hi
      · refine .inl fun hv => ?_
        exact h.dir_ne_victim hv hi rfl
    · exact h.isDir_of_entry (ht.dirs s' j hs) (h.entry_dir hs)
  once s₁ s₂ j h₁ h₂ := by
    by_cases hji : j = i
    · subst hji
      rw [(h.entry_eq_iff ht).mp h₁, (h.entry_eq_iff ht).mp h₂]
    · rw [h.entry] at h₁ h₂
      split_ifs at h₁ with he₁
      · cases h₁
        exact absurd rfl hji
      split_ifs at h₂ with he₂
      · cases h₂
        exact absurd rfl hji
      exact ht.once s₁ s₂ j h₁ h₂

end Placing

namespace Removing

variable (h : Removing root t i s t') (ht : t.Linked root)

include h ht

theorem linked_after : t'.Linked root := by
  have hroot : i ≠ root := by
    rintro rfl
    exact ht.root_free s h.linked
  refine ⟨fun y hy => ?_, fun s' hs => ?_, fun j y hy hj => ?_, fun s' j hs => ?_,
    fun s₁ s₂ j h₁ h₂ => ?_⟩
  · rw [h.node, if_neg (Ne.symm hroot)] at hy
    exact ht.root_dir y hy
  · rw [h.entry] at hs
    split_ifs at hs
    exact ht.root_free s' hs
  · rw [h.node] at hy
    split_ifs at hy with hji
    obtain ⟨s', hslot, hs'⟩ := ht.home j y hy hj
    refine ⟨s', hslot, ?_⟩
    have hkeep : ¬ (s' = s ∨ s'.1 = i) := by
      rintro (rfl | hd)
      · rw [h.linked] at hs'
        cases hs'
        exact hji rfl
      · have hnone := h.childless s'.2 j (by rw [← hd, Prod.mk.eta, hs'])
        rw [hy] at hnone
        cases hnone
    rw [h.entry, if_neg hkeep, hs']
  · rw [h.entry] at hs
    split_ifs at hs with hkeep
    obtain ⟨y, hy, hk⟩ := ht.dirs s' j hs
    exact ⟨y, by rw [h.node, if_neg fun hd => hkeep (.inr hd), hy], hk⟩
  · rw [h.entry] at h₁ h₂
    split_ifs at h₁
    split_ifs at h₂
    exact ht.once s₁ s₂ j h₁ h₂

end Removing

omit [DecidableEq ν] in
theorem Vanishing.linked_after (h : Vanishing H t i s t') (ht : t.Linked root) :
    t'.Linked root := by
  have hroot : i ≠ root := by
    rintro rfl
    exact ht.root_free s h.linked
  refine ⟨fun y hy => ?_, fun s' hs => ?_, fun j y hy hj => ?_, fun s' j hs => ?_,
    fun s₁ s₂ j h₁ h₂ => ?_⟩
  · rw [h.node, if_neg (Ne.symm hroot)] at hy
    exact ht.root_dir y hy
  · exact ht.root_free s' (by rw [← h.entry, hs])
  · rw [h.node] at hy
    split_ifs at hy
    obtain ⟨s', hslot, hs'⟩ := ht.home j y hy hj
    exact ⟨s', hslot, by rw [h.entry, hs']⟩
  · rw [h.entry] at hs
    obtain ⟨y, hy, hk⟩ := ht.dirs s' j hs
    have hd : s'.1 ≠ i := by
      intro hd
      have hnone := h.empty s'.2
      rw [← hd, Prod.mk.eta, hs] at hnone
      cases hnone
    exact ⟨y, by rw [h.node, if_neg hd, hy], hk⟩
  · rw [h.entry] at h₁ h₂
    exact ht.once s₁ s₂ j h₁ h₂

omit [DecidableEq ν] in
theorem Rooting.linked_after (h : Rooting root H t x t') (ht : t.Linked root) : t'.Linked root := by
  refine ⟨fun y hy => ?_, fun s' hs => ?_, fun j y hy hj => ?_, fun s' j hs => ?_,
    fun s₁ s₂ j h₁ h₂ => ?_⟩
  · rw [h.node, if_pos rfl] at hy
    cases hy
    exact h.kind
  · exact ht.root_free s' (by rw [← h.entry, hs])
  · rw [h.node, if_neg hj] at hy
    obtain ⟨s', hslot, hs'⟩ := ht.home j y hy hj
    exact ⟨s', hslot, by rw [h.entry, hs']⟩
  · rw [h.entry] at hs
    obtain ⟨y, hy, hk⟩ := ht.dirs s' j hs
    by_cases hd : s'.1 = root
    · exact ⟨x, by rw [h.node, if_pos hd], h.kind⟩
    · exact ⟨y, by rw [h.node, if_neg hd, hy], hk⟩
  · rw [h.entry] at h₁ h₂
    exact ht.once s₁ s₂ j h₁ h₂

/-- **Links stay consistent.** -/
theorem Step.linked (h : Step root H t new t') (ht : t.Linked root) : t'.Linked root := by
  cases h with
  | stay => exact ht
  | place h | remove h | vanish h | root h => exact h.linked_after ht

/-! ## Nothing is left over -/

theorem Placing.whole_after (h : Placing root H t i x s source t') (ht : t.Whole root) :
    t'.Whole root where
  toLinked := h.linked_after ht.toLinked
  live s' j hs := by
    rw [h.entry] at hs
    split_ifs at hs with he
    · cases hs
      exact ⟨x, by rw [h.node, if_pos rfl]⟩
    · by_cases hji : j = i
      · exact ⟨x, by rw [h.node, if_pos hji]⟩
      · obtain ⟨y, hy⟩ := ht.live s' j hs
        have hv : t.entry s ≠ some j := fun hv => he (ht.once s' s j hs hv)
        exact ⟨y, by rw [h.node, if_neg hji, if_neg hv, hy]⟩
  content j hj := by
    by_cases hji : j = i
    · exact ⟨x, by rw [h.node, if_pos hji]⟩
    · obtain ⟨hf, hv⟩ := (h.filled j hj).resolve_left hji
      obtain ⟨y, hy⟩ := ht.content j hf
      exact ⟨y, by rw [h.node, if_neg hji, if_neg hv, hy]⟩

theorem Removing.whole_after (h : Removing root t i s t') (ht : t.Whole root) : t'.Whole root where
  toLinked := h.linked_after ht.toLinked
  live s' j hs := by
    rw [h.entry] at hs
    split_ifs at hs with hkeep
    obtain ⟨y, hy⟩ := ht.live s' j hs
    have hji : j ≠ i := by
      rintro rfl
      exact hkeep (.inl (ht.once s' s j hs h.linked))
    exact ⟨y, by rw [h.node, if_neg hji, hy]⟩
  content j hj := by
    obtain ⟨hf, hji⟩ := h.filled j hj
    obtain ⟨y, hy⟩ := ht.content j hf
    exact ⟨y, by rw [h.node, if_neg hji, hy]⟩

omit [DecidableEq ν] in
theorem Rooting.whole_after (h : Rooting root H t x t') (ht : t.Whole root) : t'.Whole root := by
  have hnode : ∀ j, (∃ y, t.node j = some y) → ∃ y, t'.node j = some y := by
    rintro j ⟨y, hy⟩
    rw [h.node]
    split_ifs
    · exact ⟨x, rfl⟩
    · exact ⟨y, hy⟩
  refine ⟨h.linked_after ht.toLinked, fun s' j hs => ?_, fun j hj => ?_⟩
  · exact hnode j (ht.live s' j (by rw [← h.entry, hs]))
  · exact hnode j (ht.content j (h.filled j hj))

/-- **Nothing is left over**, as long as no inode is moved onto its own slot. -/
theorem Step.whole (hH : ¬ H.ownSlot) (h : Step root H t new t') (ht : t.Whole root) :
    t'.Whole root := by
  cases h with
  | stay => exact ht
  | place h | remove h | root h => exact h.whole_after ht
  | vanish h => exact absurd h.ownSlot hH

/-! ## Counters -/

/-- Placing an inode changes the inodes at two places at most. -/
theorem Placing.node_eq (h : Placing root H t i x s source t') :
    t'.node = update t.node i (some x) ∧ t.replaced i s = none ∨
      ∃ v, v ≠ i ∧ t.entry s = some v ∧ t.replaced i s = t.node v ∧
        t'.node = update (update t.node v none) i (some x) := by
  by_cases hv : ∃ v, t.entry s = some v ∧ v ≠ i
  · obtain ⟨v, hv, hvi⟩ := hv
    refine .inr ⟨v, hvi, hv, by simp [replaced, hv, hvi], ?_⟩
    funext j
    rw [h.node, hv]
    by_cases hji : j = i
    · subst hji
      rw [if_pos rfl, update_self]
    · rw [if_neg hji, update_of_ne hji]
      by_cases hjv : j = v
      · subst hjv
        rw [if_pos rfl, update_self]
      · rw [if_neg (by simpa using Ne.symm hjv), update_of_ne hjv]
  · have hentry : ∀ v, t.entry s = some v → v = i := fun v hs => by
      by_contra hvi
      exact hv ⟨v, hs, hvi⟩
    refine .inl ⟨?_, ?_⟩
    · funext j
      rw [h.node]
      by_cases hji : j = i
      · subst hji
        rw [if_pos rfl, update_self]
      · rw [if_neg hji, update_of_ne hji, if_neg fun hs => hji (hentry j hs)]
    · unfold replaced
      split
      · next v hs => rw [if_pos (hentry v hs)]
      · rfl

theorem Placing.balanced_after (h : Placing root H t i x s source t') (ht : t.Whole root)
    (hb : t.Balanced root) : t'.Balanced root where
  rooted := by
    obtain ⟨y, hy, hk⟩ := hb.rooted
    exact ⟨y, by rw [h.node, if_neg (Ne.symm h.ne_root), if_neg (ht.root_free s), hy], hk⟩
  finite := by
    obtain ⟨hnode, -⟩ | ⟨v, -, -, -, hnode⟩ := h.node_eq
    · rw [hnode]
      exact finite_places_update hb.finite i _
    · rw [hnode]
      exact finite_places_update (finite_places_update hb.finite v _) i _
  books m := by
    rw [h.books ht m, hb.books m]
    obtain ⟨hnode, hrep⟩ | ⟨v, hvi, -, hrep, hnode⟩ := h.node_eq
    · rw [hnode, tally_update _ hb.finite, hrep, weigh_none, weigh_some]
      omega
    · rw [hnode, tally_update _ (finite_places_update hb.finite v _), tally_update _ hb.finite,
        update_of_ne (Ne.symm hvi), hrep, weigh_none, weigh_some]
      omega

theorem Removing.balanced_after (h : Removing root t i s t') (ht : t.Whole root)
    (hb : t.Balanced root) : t'.Balanced root := by
  have hroot : i ≠ root := by
    rintro rfl
    exact ht.root_free s h.linked
  have hnode : t'.node = update t.node i none := by
    funext j
    rw [h.node, update_apply]
  refine ⟨?_, ?_, fun m => ?_⟩
  · obtain ⟨y, hy, hk⟩ := hb.rooted
    exact ⟨y, by rw [h.node, if_neg (Ne.symm hroot), hy], hk⟩
  · rw [hnode]
    exact finite_places_update hb.finite i _
  · rw [h.books ht m, hb.books m, hnode, tally_update _ hb.finite, weigh_none]
    omega

omit [DecidableEq ν] in
theorem Rooting.balanced_after (hH : ¬ H.resets) (h : Rooting root H t x t')
    (hb : t.Balanced root) : t'.Balanced root := by
  have hnode : t'.node = update t.node root (some x) := by
    funext j
    rw [h.node, update_apply]
  refine ⟨⟨x, by rw [h.node, if_pos rfl], h.kind⟩, ?_, fun m => ?_⟩
  · rw [hnode]
    exact finite_places_update hb.finite root _
  · obtain ⟨y, hy, hk⟩ := hb.rooted
    rw [h.books.resolve_left hH m, hb.books m, hnode, tally_update _ hb.finite, hy, weigh_some,
      weigh_some, Node.weight_of_dir h.kind hk m]
    omega

/-- **The counters follow the inodes**, as long as no inode is moved onto its own slot and the
counters are not started again. -/
theorem Step.balanced (hown : ¬ H.ownSlot) (hreset : ¬ H.resets) (h : Step root H t new t')
    (ht : t.Whole root) (hb : t.Balanced root) : t'.Balanced root := by
  cases h with
  | stay => exact hb
  | place h => exact h.balanced_after ht hb
  | remove h => exact h.balanced_after ht hb
  | vanish h => exact absurd h.ownSlot hown
  | root h => exact h.balanced_after hreset hb

/-! ## Climbing to the root -/

section Climb

open Forest Option

omit [DecidableEq ν] in
theorem up_root (node : ι → Option (Node ι ν)) : up root node root = none := if_pos rfl

omit [DecidableEq ν] in
theorem up_update (hi : i ≠ root) (node : ι → Option (Node ι ν)) (x : Option (Node ι ν)) :
    up root (update node i x) =
      update (up root node) i ((x.bind (·.slot)).map Prod.fst) := by
  funext j
  by_cases hji : j = i
  · subst hji
    simp only [up, if_neg hi, update_self]
  · simp only [up, update_of_ne hji]

omit [DecidableEq ν] in
/-- The parent of an inode is a directory with an entry for it. -/
theorem Linked.up_eq_some (ht : t.Linked root) {p : ι} (hp : up root t.node i = some p) :
    i ≠ root ∧ ∃ x n, t.node i = some x ∧ x.slot = some (p, n) ∧ t.entry (p, n) = some i := by
  unfold up at hp
  split_ifs at hp with hi
  obtain ⟨⟨d, n⟩, hslot, rfl⟩ := map_eq_some_iff.mp hp
  obtain ⟨x, hx, hslot⟩ := bind_eq_some_iff.mp hslot
  obtain ⟨s, hs, hentry⟩ := ht.home i x hx hi
  rw [hslot] at hs
  cases hs
  exact ⟨hi, x, n, hx, hslot, hentry⟩

omit [DecidableEq ν] in
/-- What lies above an inode is an inode. -/
theorem Linked.node_of_climbs (ht : t.Linked root) {a : ι} (hi : ∃ x, t.node i = some x)
    (h : Climbs (up root t.node) i a) : ∃ x, t.node a = some x := by
  induction h with
  | refl => exact hi
  | tail _ hstep _ =>
    obtain ⟨-, -, n, -, -, hentry⟩ := ht.up_eq_some hstep
    obtain ⟨y, hy, -⟩ := ht.dirs _ _ hentry
    exact ⟨y, hy⟩

/-- A placed inode is not above the directory it is placed in. -/
theorem Placing.not_climbs (h : Placing root H t i x s source t') (ht : t.Linked root)
    (hg : t.Grown root) (hH : ∀ j d, H.moves t j d → ¬ Climbs (up root t.node) d j) :
    ¬ Climbs (up root t.node) s.1 i := by
  obtain ⟨y, hy, -⟩ := h.dir
  cases hi : t.node i with
  | none =>
    intro hclimb
    obtain ⟨z, hz⟩ := ht.node_of_climbs ⟨y, hy⟩ hclimb
    rw [hi] at hz
    cases hz
  | some z =>
    obtain ⟨s₀, hslot, hs₀⟩ := ht.home i z hi h.ne_root
    cases hsrc : source with
    | none => exact absurd hs₀ ((h.new hsrc).2 s₀)
    | some s₁ =>
      obtain rfl := ht.once _ _ _ hs₀ (h.linked s₁ hsrc)
      by_cases hs : s₀ = s
      · subst hs
        -- the slot stays: its directory is the parent already
        have hup : up root t.node i = some s₀.1 := by
          rw [up, if_neg h.ne_root, hi, bind_some, hslot, map_some]
        exact not_cycle (up_root _) (hg i z hi) hup
      · exact hH _ _ (h.moves s₀ hsrc hs)

theorem Placing.grown_after (h : Placing root H t i x s source t') (ht : t.Linked root)
    (hg : t.Grown root) (hH : ∀ j d, H.moves t j d → ¬ Climbs (up root t.node) d j) :
    t'.Grown root := by
  obtain ⟨y, hy, -⟩ := h.dir
  have hdir := hg s.1 y hy
  have hnot := h.not_climbs ht hg hH
  have hplaced : ∀ j, Climbs (up root t.node) j root ∨ j = i →
      Climbs (up root (update t.node i (some x))) j root := by
    intro j hj
    rw [up_update h.ne_root, bind_some, h.slot, map_some]
    obtain hj | rfl := hj
    · exact climbs_update hdir hnot hj
    · exact .head (update_self _ _ _) (climbs_update_of_not hdir hnot _)
  have hold : ∀ j z, t'.node j = some z → Climbs (up root t.node) j root ∨ j = i := by
    intro j z hz
    rw [h.node] at hz
    split_ifs at hz with hji
    · exact .inr hji
    · exact .inl (hg j z hz)
  intro j z hz
  obtain ⟨hnode, -⟩ | ⟨v, hvi, hv, -, hnode⟩ := h.node_eq
  · rw [hnode]
    exact hplaced j (hold j z hz)
  · have hvroot : v ≠ root := by
      rintro rfl
      exact ht.root_free s hv
    have hjv : j ≠ v := by
      rintro rfl
      rw [h.node, if_neg hvi, if_pos hv] at hz
      cases hz
    rw [hnode, update_comm hvi, up_update hvroot]
    refine climbs_erase (fun k hk => ?_) hjv (hplaced j (hold j z hz))
    rw [up_update h.ne_root, bind_some, h.slot, map_some] at hk
    by_cases hki : k = i
    · subst hki
      rw [update_self] at hk
      exact h.dir_ne_victim hv hvi (Option.some.inj hk)
    · rw [update_of_ne hki] at hk
      obtain ⟨-, -, n, -, -, hentry⟩ := ht.up_eq_some hk
      rw [h.empty v hv hvi n] at hentry
      cases hentry

omit [DecidableEq ν] in
/-- Removing an inode that is nobody's parent. -/
theorem grown_erase (ht : t.Linked root) (hg : t.Grown root) (hi : t.entry s = some i)
    (hchild : ∀ n j, t.entry (i, n) = some j → t.node j = none)
    (hnode : ∀ j, t'.node j = if j = i then none else t.node j) : t'.Grown root := by
  have hroot : i ≠ root := by
    rintro rfl
    exact ht.root_free s hi
  have heq : t'.node = update t.node i none := by
    funext j
    rw [hnode, update_apply]
  intro j z hz
  have hji : j ≠ i := by
    rintro rfl
    rw [hnode, if_pos rfl] at hz
    cases hz
  rw [hnode, if_neg hji] at hz
  rw [heq, up_update hroot]
  refine climbs_erase (fun k hk => ?_) hji (hg j z hz)
  obtain ⟨-, y, n, hy, -, hentry⟩ := ht.up_eq_some hk
  rw [hchild n k hentry] at hy
  cases hy

omit [DecidableEq ν] in
theorem Rooting.grown_after (h : Rooting root H t x t') (hg : t.Grown root) : t'.Grown root := by
  have hup : up root t'.node = up root t.node := by
    funext j
    unfold up
    split_ifs with hj
    · rfl
    · rw [h.node, if_neg hj]
  intro j z hz
  rw [hup]
  rw [h.node] at hz
  split_ifs at hz with hj
  · rw [hj]
    exact .refl root
  · exact hg j z hz

/-- **The tree stays a tree**, as long as nothing is moved below itself. -/
theorem Step.grown (hH : ∀ j d, H.moves t j d → ¬ Climbs (up root t.node) d j)
    (h : Step root H t new t') (ht : t.Linked root) (hg : t.Grown root) : t'.Grown root := by
  cases h with
  | stay => exact hg
  | place h => exact h.grown_after ht hg hH
  | remove h => exact grown_erase ht hg h.linked h.childless h.node
  | vanish h =>
    refine grown_erase ht hg h.linked (fun n j hj => ?_) h.node
    rw [h.empty n] at hj
    cases hj
  | root h => exact h.grown_after hg

end Climb

end LinkTree

end Afs
