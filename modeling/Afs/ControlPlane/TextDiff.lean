import Afs.Workspace.Path

/-!
# Text diffs

The diff of two versions of a text is one hunk: the lines between those that both have at the start
and those that both have at the end, and up to three lines around them. `Describes` says what the
hunks of a diff are for. They serve it for every two texts but an empty one and one with a single
empty line: their lines are joined to the same bytes, so no hunk is built.
-/

namespace Afs.ControlPlane

open List

/-! ## Lines -/

def newline : UInt8 := 10

def carriageReturn : UInt8 := 13

/-- `strings.SplitAfter`, for a separator of one byte. -/
def splitAfter (sep : UInt8) : Bytes → List Bytes
  | [] => [[]]
  | b :: rest =>
    if b = sep then [b] :: splitAfter sep rest
    else
      match splitAfter sep rest with
      | [] => [[b]]
      | piece :: pieces => (b :: piece) :: pieces

/-- `strings.TrimSuffix`, for a suffix of one byte. -/
def trimSuffix (s : Bytes) (b : UInt8) : Bytes := if s.getLast? = some b then s.dropLast else s

def splitDiffLines (text : Bytes) : List Bytes :=
  if text = [] then []
  else
    let raw := splitAfter newline text
    let raw := if raw.getLast? = some [] then raw.dropLast else raw
    raw.map fun line => trimSuffix (trimSuffix line newline) carriageReturn

section Lines

variable {sep b : UInt8} {s text : Bytes} {p : Bytes}

theorem flatten_splitAfter (sep : UInt8) (text : Bytes) : (splitAfter sep text).flatten = text := by
  induction text with
  | nil => rfl
  | cons b rest ih =>
    unfold splitAfter
    split_ifs
    · rw [flatten_cons, ih, singleton_append]
    · split
      · next h =>
        rw [h] at ih
        rw [← ih]
        rfl
      · next h =>
        rw [h, flatten_cons] at ih
        rw [flatten_cons, cons_append, ih]

/-- The separator is at the end of a piece only. -/
theorem of_mem_splitAfter (hp : p ∈ splitAfter sep text) :
    ∃ q, sep ∉ q ∧ (p = q ∨ p = q ++ [sep]) := by
  induction text generalizing p with
  | nil =>
    rw [splitAfter, mem_singleton] at hp
    exact ⟨[], not_mem_nil, .inl hp⟩
  | cons b rest ih =>
    unfold splitAfter at hp
    split_ifs at hp with hb
    · obtain rfl | hp := mem_cons.mp hp
      · exact ⟨[], not_mem_nil, .inr (by rw [hb]; rfl)⟩
      · exact ih hp
    · split at hp
      · exact ⟨[b], by simpa using Ne.symm hb, .inl (mem_singleton.mp hp)⟩
      · next piece pieces hpieces =>
        rw [hpieces] at ih
        obtain rfl | hp := mem_cons.mp hp
        · obtain ⟨q, hq, h⟩ := ih mem_cons_self
          refine ⟨b :: q, by simp [hq, Ne.symm hb], ?_⟩
          rcases h with rfl | rfl
          · exact .inl rfl
          · exact .inr rfl
        · exact ih (mem_cons_of_mem _ hp)

theorem trimSuffix_eq_nil : trimSuffix s b = [] ↔ s = [] ∨ s = [b] := by
  unfold trimSuffix
  split_ifs with h
  · obtain ⟨l, rfl⟩ := getLast?_eq_some_iff.mp h
    simp
  · refine ⟨.inl, fun hs => hs.resolve_right ?_⟩
    rintro rfl
    exact h rfl

theorem mem_of_mem_trimSuffix {a : UInt8} (h : a ∈ trimSuffix s b) : a ∈ s := by
  unfold trimSuffix at h
  split_ifs at h
  · exact mem_of_mem_dropLast h
  · exact h

/-- No line holds a newline. -/
theorem newline_notMem_of_mem_splitDiffLines {line : Bytes} (h : line ∈ splitDiffLines text) :
    newline ∉ line := by
  unfold splitDiffLines at h
  split_ifs at h with ht
  · cases h
  obtain ⟨p, hp, rfl⟩ := mem_map.mp h
  have hp : p ∈ splitAfter newline text := by
    split_ifs at hp
    · exact mem_of_mem_dropLast hp
    · exact hp
  intro hmem
  replace hmem := mem_of_mem_trimSuffix hmem
  obtain ⟨q, hq, rfl | rfl⟩ := of_mem_splitAfter hp
  · exact hq (mem_of_mem_trimSuffix hmem)
  · rw [trimSuffix, getLast?_concat, if_pos rfl, dropLast_concat] at hmem
    exact hq hmem

/-- The pieces that are kept make up the text. -/
theorem flatten_kept (l : List Bytes) :
    (if l.getLast? = some [] then l.dropLast else l).flatten = l.flatten := by
  split_ifs with h
  · obtain ⟨l', rfl⟩ := getLast?_eq_some_iff.mp h
    simp
  · rfl

theorem splitDiffLines_eq_nil : splitDiffLines text = [] ↔ text = [] := by
  refine ⟨fun h => ?_, fun h => if_pos h⟩
  unfold splitDiffLines at h
  split_ifs at h with ht
  · exact ht
  · rw [← flatten_splitAfter newline text, ← flatten_kept, map_eq_nil_iff.mp h]
    rfl

/-- The text has a single line, and nothing on it. -/
def Blank (text : Bytes) : Prop :=
  text = [newline] ∨ text = [carriageReturn] ∨ text = [carriageReturn, newline]

theorem splitDiffLines_eq_blank : splitDiffLines text = [[]] ↔ Blank text := by
  constructor
  · intro h
    unfold splitDiffLines at h
    split_ifs at h with ht
    obtain ⟨p, hraw, hp⟩ := map_eq_singleton_iff.mp h
    obtain rfl : p = text := by
      rw [← flatten_splitAfter newline text, ← flatten_kept, hraw]
      simp
    obtain hp | hp := trimSuffix_eq_nil.mp hp
    · exact .inl ((trimSuffix_eq_nil.mp hp).resolve_left ht)
    · unfold trimSuffix at hp
      split_ifs at hp with hlast
      · obtain ⟨l, rfl⟩ := getLast?_eq_some_iff.mp hlast
        rw [dropLast_concat] at hp
        exact .inr (.inr (by rw [hp]; rfl))
      · exact .inr (.inl hp)
  · rintro (rfl | rfl | rfl) <;> decide

end Lines

/-! ## Hunks -/

inductive DiffLineKind
  | context
  | delete
  | insert
deriving DecidableEq

structure TextDiffLine where
  kind : DiffLineKind
  oldLine : ℕ := 0
  newLine : ℕ := 0
  text : Bytes

structure TextDiffHunk where
  oldStart : ℕ
  oldLines : ℕ
  newStart : ℕ
  newLines : ℕ
  lines : List TextDiffLine

def diffTextContext : ℕ := 3

/-- How many elements two lists have in common at the start. -/
def common {α : Type} [DecidableEq α] : List α → List α → ℕ
  | a :: l, b :: l' => if a = b then common l l' + 1 else 0
  | _, _ => 0

/-- A loop of `buildTextDiffHunks`: one line for each text, counted from `i`. -/
def diffLines (line : ℕ → Bytes → TextDiffLine) (i : ℕ) (texts : List Bytes) : List TextDiffLine :=
  (texts.zipIdx i).map fun x => line x.2 x.1

/-- The lines of a hunk: unchanged ones from `contextStart`, the change, and `after` unchanged
ones. -/
def hunkLines (oldLines newLines : List Bytes)
    (contextStart pre oldChangeEnd newChangeEnd after : ℕ) : List TextDiffLine :=
  diffLines (fun i t => { kind := .context, oldLine := i + 1, newLine := i + 1, text := t })
      contextStart (oldLines.extract contextStart pre) ++
    diffLines (fun i t => { kind := .delete, oldLine := i + 1, text := t })
      pre (oldLines.extract pre oldChangeEnd) ++
    diffLines (fun i t => { kind := .insert, newLine := i + 1, text := t })
      pre (newLines.extract pre newChangeEnd) ++
    diffLines (fun k t => { kind := .context, oldLine := oldChangeEnd + k + 1
                            newLine := newChangeEnd + k + 1, text := t })
      0 (oldLines.extract oldChangeEnd (oldChangeEnd + after))

/-- The hunk of two texts that have `pre` lines in common at the start and `suffix` lines at the
end. -/
def textDiffHunk (oldLines newLines : List Bytes) (pre suffix : ℕ) : TextDiffHunk :=
  let contextStart := pre - diffTextContext
  let oldChangeEnd := oldLines.length - suffix
  let newChangeEnd := newLines.length - suffix
  let oldContextEnd := min oldLines.length (oldChangeEnd + diffTextContext)
  let newContextEnd := min newLines.length (newChangeEnd + diffTextContext)
  { oldStart := contextStart + 1
    oldLines := oldContextEnd - contextStart
    newStart := contextStart + 1
    newLines := newContextEnd - contextStart
    lines := hunkLines oldLines newLines contextStart pre oldChangeEnd newChangeEnd
      (min (oldContextEnd - oldChangeEnd) (newContextEnd - newChangeEnd)) }

def buildTextDiffHunks (oldLines newLines : List Bytes) : List TextDiffHunk :=
  if [newline].intercalate oldLines = [newline].intercalate newLines then []
  else
    let pre := common oldLines newLines
    -- the loop over the suffix stops where the common lines at the start end
    let hunk := textDiffHunk oldLines newLines pre
      (common (oldLines.drop pre).reverse (newLines.drop pre).reverse)
    if hunk.lines = [] then [] else [hunk]

/-! ## What hunks are for -/

/-- Lines of a hunk that are numbered from `i` in the old text and from `j` in the new one and make
the lines `new` of the lines `old`. -/
inductive Patches : ℕ → ℕ → List TextDiffLine → List Bytes → List Bytes → Prop
  | nil (i j : ℕ) : Patches i j [] [] []
  | context {i j : ℕ} {lines old new} (t : Bytes) (h : Patches (i + 1) (j + 1) lines old new) :
    Patches i j (⟨.context, i, j, t⟩ :: lines) (t :: old) (t :: new)
  | delete {i j : ℕ} {lines old new} (t : Bytes) (h : Patches (i + 1) j lines old new) :
    Patches i j (⟨.delete, i, 0, t⟩ :: lines) (t :: old) new
  | insert {i j : ℕ} {lines old new} (t : Bytes) (h : Patches i (j + 1) lines old new) :
    Patches i j (⟨.insert, 0, j, t⟩ :: lines) old (t :: new)

/-- Hunks that make `new` of `old`, which start at the lines `i` and `j` of the two texts: what is
not in a hunk stays. -/
inductive Applies : ℕ → ℕ → List TextDiffHunk → List Bytes → List Bytes → Prop
  | nil (i j : ℕ) (rest : List Bytes) : Applies i j [] rest rest
  | cons {i j : ℕ} {h : TextDiffHunk} {hunks : List TextDiffHunk} {same a b old new : List Bytes}
    (oldStart : h.oldStart = i + same.length) (newStart : h.newStart = j + same.length)
    (lines : Patches h.oldStart h.newStart h.lines a b)
    (oldLines : h.oldLines = a.length) (newLines : h.newLines = b.length)
    (rest : Applies (h.oldStart + h.oldLines) (h.newStart + h.newLines) hunks old new) :
    Applies i j (h :: hunks) (same ++ a ++ old) (same ++ b ++ new)

/-- The hunks describe the change from `old` to `new`. -/
structure Describes (old new : List Bytes) (hunks : List TextDiffHunk) : Prop where
  empty : hunks = [] ↔ old = new
  applies : Applies 1 1 hunks old new

section Hunks

variable {i j : ℕ} {a b a' b' : List Bytes} {lines lines' : List TextDiffLine}

theorem Patches.append (h : Patches i j lines a b)
    (h' : Patches (i + a.length) (j + b.length) lines' a' b') :
    Patches i j (lines ++ lines') (a ++ a') (b ++ b') := by
  induction h with
  | nil => exact h'
  | context t _ ih => exact .context t (ih (by simpa [Nat.add_assoc, Nat.add_comm 1] using h'))
  | delete t _ ih => exact .delete t (ih (by simpa [Nat.add_assoc, Nat.add_comm 1] using h'))
  | insert t _ ih => exact .insert t (ih (by simpa [Nat.add_assoc, Nat.add_comm 1] using h'))

theorem Patches.at (h : Patches i j lines a b) {i' j' : ℕ} (hi : i = i') (hj : j = j') :
    Patches i' j' lines a b := hi ▸ hj ▸ h

theorem patches_context (i j k : ℕ) (texts : List Bytes) : Patches (i + k + 1) (j + k + 1)
    (diffLines (fun k t => ⟨.context, i + k + 1, j + k + 1, t⟩) k texts) texts texts := by
  induction texts generalizing k with
  | nil => exact .nil _ _
  | cons t texts ih => exact .context t (ih (k + 1))

theorem patches_delete (i j : ℕ) (texts : List Bytes) :
    Patches (i + 1) j (diffLines (fun i t => ⟨.delete, i + 1, 0, t⟩) i texts) texts [] := by
  induction texts generalizing i with
  | nil => exact .nil _ _
  | cons t texts ih => exact .delete t (ih (i + 1))

theorem patches_insert (i j : ℕ) (texts : List Bytes) :
    Patches i (j + 1) (diffLines (fun j t => ⟨.insert, 0, j + 1, t⟩) j texts) [] texts := by
  induction texts generalizing j with
  | nil => exact .nil _ _
  | cons t texts ih => exact .insert t (ih (j + 1))

theorem exists_common {α : Type} [DecidableEq α] (l l' : List α) :
    ∃ s x y, l = s ++ x ∧ l' = s ++ y ∧ common l l' = s.length := by
  fun_induction common l l' with
  | case1 l a l' ih =>
    obtain ⟨s, x, y, hl, hl', h⟩ := ih
    exact ⟨a :: s, x, y, by rw [hl]; rfl, by rw [hl']; rfl, by rw [h]; rfl⟩
  | case2 => exact ⟨[], _, _, rfl, rfl, rfl⟩
  | case3 => exact ⟨[], _, _, rfl, rfl, rfl⟩

theorem extract_middle (u v w : List Bytes) :
    (u ++ v ++ w).extract u.length (u ++ v).length = v := by simp

/-- The hunk that replaces the lines `x` between common ones by `y`. -/
theorem patches_hunkLines (c p x y q r : List Bytes) : Patches (c.length + 1) (c.length + 1)
      (hunkLines (c ++ p ++ x ++ q ++ r) (c ++ p ++ y ++ q ++ r) c.length (c ++ p).length
        (c ++ p ++ x).length (c ++ p ++ y).length q.length) (p ++ x ++ q) (p ++ y ++ q) := by
  have hp : (c ++ p ++ x ++ q ++ r).extract c.length (c ++ p).length = p := by
    rw [append_assoc _ q, append_assoc _ x]
    exact extract_middle c p _
  have hx : (c ++ p ++ x ++ q ++ r).extract (c ++ p).length (c ++ p ++ x).length = x := by
    rw [append_assoc _ q]
    exact extract_middle (c ++ p) x _
  have hy : (c ++ p ++ y ++ q ++ r).extract (c ++ p).length (c ++ p ++ y).length = y := by
    rw [append_assoc _ q]
    exact extract_middle (c ++ p) y _
  have hq : (c ++ p ++ x ++ q ++ r).extract (c ++ p ++ x).length
      ((c ++ p ++ x).length + q.length) = q := by
    rw [← length_append]
    exact extract_middle _ q r
  unfold hunkLines
  rw [hp, hx, hy, hq]
  have hcontext := patches_context 0 0 c.length p
  simp only [Nat.zero_add] at hcontext
  have hdelete := hcontext.append ((patches_delete (c ++ p).length (c ++ p).length.succ x).at
    (by simp; omega) (by simp; omega))
  have hinsert := hdelete.append ((patches_insert (c ++ p ++ x).length.succ (c ++ p).length y).at
    (by simp; omega) (by simp; omega))
  have hafter := hinsert.append
    ((patches_context (c ++ p ++ x).length (c ++ p ++ y).length 0 q).at (by simp; omega) (by simp; omega))
  simpa only [append_nil] using hafter

theorem Patches.eq_nil (h : Patches i j [] a b) : a = [] ∧ b = [] := by
  cases h
  exact ⟨rfl, rfl⟩

theorem textDiffHunk_patches {c p x y q r : List Bytes} {h : TextDiffHunk}
    (hc : (c ++ p).length - diffTextContext = c.length)
    (hq : min (q ++ r).length diffTextContext = q.length)
    (hh : textDiffHunk (c ++ p ++ x ++ q ++ r) (c ++ p ++ y ++ q ++ r) (c ++ p).length
      (q ++ r).length = h) :
    h.oldStart = c.length + 1 ∧ h.newStart = c.length + 1 ∧ h.oldLines = (p ++ x ++ q).length ∧
      h.newLines = (p ++ y ++ q).length ∧
      Patches (c.length + 1) (c.length + 1) h.lines (p ++ x ++ q) (p ++ y ++ q) := by
  have hend : ∀ z, (c ++ p ++ z ++ q ++ r).length - (q ++ r).length = (c ++ p ++ z).length ∧
      min (c ++ p ++ z ++ q ++ r).length ((c ++ p ++ z).length + diffTextContext) =
        (c ++ p ++ z).length + q.length ∧
      (c ++ p ++ z).length + q.length - c.length = (p ++ z ++ q).length := by
    intro z
    simp only [length_append] at hq ⊢
    omega
  subst hh
  unfold textDiffHunk
  simp only [hend, hc, Nat.add_sub_cancel_left, min_self]
  exact ⟨trivial, trivial, trivial, trivial, patches_hunkLines c p x y q r⟩

theorem exists_context (s t : List Bytes) :
    (∃ c p, s = c ++ p ∧ (c ++ p).length - diffTextContext = c.length) ∧
      ∃ q r, t = q ++ r ∧ min (q ++ r).length diffTextContext = q.length := by
  refine ⟨⟨s.take (s.length - diffTextContext), _, (take_append_drop ..).symm, ?_⟩,
    ⟨t.take diffTextContext, _, (take_append_drop ..).symm, ?_⟩⟩
  · rw [take_append_drop, length_take, min_eq_left (Nat.sub_le ..)]
  · rw [take_append_drop, length_take, min_comm]

/-- Texts that are not joined to the same bytes. -/
theorem describes_of_join_ne {old new : List Bytes}
    (hjoin : [newline].intercalate old ≠ [newline].intercalate new) :
    Describes old new (buildTextDiffHunks old new) := by
  have hne : old ≠ new := fun h => hjoin (by rw [h])
  obtain ⟨s, x₀, y₀, rfl, rfl, hpre⟩ := exists_common old new
  obtain ⟨t, x, y, hx, hy, hsuffix⟩ := exists_common x₀.reverse y₀.reverse
  obtain ⟨⟨c, p, rfl, hc⟩, q, r, ht, hq⟩ := exists_context s t.reverse
  obtain rfl : x₀ = x.reverse ++ (q ++ r) := by rw [← ht, ← reverse_append, ← hx, reverse_reverse]
  obtain rfl : y₀ = y.reverse ++ (q ++ r) := by rw [← ht, ← reverse_append, ← hy, reverse_reverse]
  have hlength : t.length = (q ++ r).length := by rw [← ht, length_reverse]
  unfold buildTextDiffHunks
  rw [if_neg hjoin, hpre]
  dsimp only
  rw [drop_left, drop_left, hsuffix, hlength]
  simp only [← append_assoc] at hne ⊢
  generalize hh : textDiffHunk _ _ _ (q ++ r).length = h
  obtain ⟨hoS, hnS, hold, hnew, hpatch⟩ := textDiffHunk_patches hc hq hh
  have hlines : h.lines ≠ [] := by
    intro hnil
    rw [hnil] at hpatch
    obtain ⟨hx, hy⟩ := hpatch.eq_nil
    simp only [append_eq_nil_iff] at hx hy
    exact hne (by rw [hx.1.2, hy.1.2])
  rw [if_neg hlines]
  refine ⟨⟨nofun, fun h => absurd h hne⟩, ?_⟩
  have happlies := Applies.cons (hoS.trans (Nat.add_comm ..)) (hnS.trans (Nat.add_comm ..))
    (hpatch.at hoS.symm hnS.symm) hold hnew (.nil _ _ r)
  simpa only [append_assoc] using happlies

end Hunks

/-! ## Lines and the bytes they are joined to -/

theorem join_eq_join {a b : List Bytes} (ha : ∀ l ∈ a, newline ∉ l) (hb : ∀ l ∈ b, newline ∉ l)
    (h : [newline].intercalate a = [newline].intercalate b) :
    a = b ∨ a = [] ∧ b = [[]] ∨ a = [[]] ∧ b = [] := by
  by_cases hna : a = [] <;> by_cases hnb : b = []
  · exact .inl (hna.trans hnb.symm)
  · refine .inr (.inl ⟨hna, ?_⟩)
    rw [← splitOn_intercalate newline hb hnb, ← h, hna]
    rfl
  · refine .inr (.inr ⟨?_, hnb⟩)
    rw [← splitOn_intercalate newline ha hna, h, hnb]
    rfl
  · left
    rw [← splitOn_intercalate newline ha hna, h, splitOn_intercalate newline hb hnb]

/-- **Text diffs describe the change**, unless one text is empty and the other is a single empty
line. -/
theorem describes_buildTextDiffHunks_iff (old new : Bytes) :
    Describes (splitDiffLines old) (splitDiffLines new)
        (buildTextDiffHunks (splitDiffLines old) (splitDiffLines new)) ↔
      ¬ (old = [] ∧ Blank new ∨ Blank old ∧ new = []) := by
  by_cases hjoin : [newline].intercalate (splitDiffLines old) =
      [newline].intercalate (splitDiffLines new)
  · have hnil : buildTextDiffHunks (splitDiffLines old) (splitDiffLines new) = [] := if_pos hjoin
    have heq : splitDiffLines old = splitDiffLines new ↔
        ¬ (old = [] ∧ Blank new ∨ Blank old ∧ new = []) := by
      simp only [← splitDiffLines_eq_nil, ← splitDiffLines_eq_blank]
      refine ⟨fun h => ?_, fun h => ?_⟩
      · rw [h]
        rintro (⟨h₁, h₂⟩ | ⟨h₁, h₂⟩) <;> cases h₁.symm.trans h₂
      · exact (join_eq_join (fun _ => newline_notMem_of_mem_splitDiffLines)
          (fun _ => newline_notMem_of_mem_splitDiffLines) hjoin).resolve_right h
    rw [hnil, ← heq]
    refine ⟨fun h => h.empty.mp rfl, fun h => ⟨⟨fun _ => h, fun _ => rfl⟩, ?_⟩⟩
    rw [h]
    exact .nil _ _ _
  · refine iff_of_true (describes_of_join_ne hjoin) ?_
    rintro (⟨h₁, h₂⟩ | ⟨h₁, h₂⟩)
    · exact hjoin (by rw [splitDiffLines_eq_nil.mpr h₁, splitDiffLines_eq_blank.mpr h₂]; rfl)
    · exact hjoin (by rw [splitDiffLines_eq_blank.mpr h₁, splitDiffLines_eq_nil.mpr h₂]; rfl)

/-- A newline is added to an empty text, and no hunk says so. -/
theorem added_newline_not_described :
    buildTextDiffHunks (splitDiffLines []) (splitDiffLines [newline]) = [] ∧
      ¬ Describes (splitDiffLines []) (splitDiffLines [newline])
        (buildTextDiffHunks (splitDiffLines []) (splitDiffLines [newline])) := by
  refine ⟨rfl, fun h => ?_⟩
  cases h.empty.mp rfl

end Afs.ControlPlane
