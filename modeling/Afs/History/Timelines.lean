import Afs.History.Listings

/-!
# What happened at a path

`PathPage` merges two timelines: that of the path, and that of the file which is there now. A record
may be in both of them. The page is cut from what both reads bring, without what is there twice, in
the order of the sequence numbers; since each read brings one record more than a page has, nothing
before the cut is missing.
-/

namespace Afs.History

open List

/-- The order of a listing: newest first or oldest first. -/
def InOrder (newestFirst : Bool) (a b : ℕ) : Prop := if newestFirst then b < a else a < b

instance (d : Bool) : DecidableRel (InOrder d) := fun a b => by
  unfold InOrder
  infer_instance

theorem InOrder.trans {d : Bool} {a b c : ℕ} (h : InOrder d a b) (h' : InOrder d b c) :
    InOrder d a c := by
  cases d
  · exact lt_trans (a := a) (b := b) h h'
  · exact lt_trans (a := c) (b := b) h' h

theorem InOrder.asymm {d : Bool} {a b : ℕ} (h : InOrder d a b) : ¬ InOrder d b a := by
  cases d
  · exact lt_asymm (a := a) (b := b) h
  · exact lt_asymm (a := b) (b := a) h

/-- A list in the order of a listing. -/
def directed {α : Type} (newestFirst : Bool) (l : List α) : List α :=
  if newestFirst then l.reverse else l

@[simp]
theorem mem_directed {α : Type} {d : Bool} {l : List α} {a : α} : a ∈ directed d l ↔ a ∈ l := by
  cases d <;> simp [directed]

theorem filter_directed {α : Type} (d : Bool) (p : α → Bool) (l : List α) :
    (directed d l).filter p = directed d (l.filter p) := by
  cases d <;> simp [directed, filter_reverse]

section PathPage

variable {s : Store} {h : HistoryKeys} {rs : List Record} {path : Path} {d : Bool}

/-- Records are numbered in the order of their capture. -/
theorem Represents.sorted_directed (hrep : Represents h rs) (d : Bool) :
    (directed d rs).Pairwise fun a b => InOrder d a.sequence b.sequence := by
  have hsorted : rs.Pairwise fun a b => a.sequence < b.sequence :=
    hrep.journal.earlier.imp fun hab => hab.sequence
  cases d with
  | false => exact hsorted
  | true => exact pairwise_reverse.mpr hsorted

/-- What one read of the script brings. -/
theorem entriesFrom_map (d : Bool) (xs : List Record) (cursor limit : ℕ) :
    entriesFrom d (xs.map fun r => (r.id, r.sequence)) cursor limit =
      (((directed d xs).filter fun r => cursor = 0 ∨ InOrder d cursor r.sequence).take (limit + 1)).map
        fun r => (r.id, r.sequence) := by
  cases d with
  | false => exact rangeByScore_map xs Record.sequence cursor (limit + 1)
  | true => exact revRangeByScore_map xs Record.sequence cursor (limit + 1)

/-- Leaving out what was seen before leaves each record once. -/
theorem unseen_map {xs : List Record} (hinj : ∀ a ∈ xs, ∀ b ∈ xs, a.id = b.id → a = b)
    (f : Record → ℕ) (seen : List RecordId) :
    ∃ ys : List Record, unseen seen (xs.map fun r => (r.id, f r)) = (ys.map fun r => (r.id, f r)) ∧ ys.Nodup ∧
      ∀ r, r ∈ ys ↔ r ∈ xs ∧ r.id ∉ seen := by
  induction xs generalizing seen with
  | nil => exact ⟨[], rfl, nodup_nil, fun r => by simp⟩
  | cons r xs ih =>
    have hinj' : ∀ a ∈ xs, ∀ b ∈ xs, a.id = b.id → a = b := fun a ha b hb =>
      hinj a (mem_cons_of_mem _ ha) b (mem_cons_of_mem _ hb)
    by_cases hr : r.id ∈ seen
    · obtain ⟨ys, heq, hnodup, hmem⟩ := ih hinj' seen
      refine ⟨ys, ?_, hnodup, fun r' => ?_⟩
      · rw [map_cons, unseen, if_pos hr, heq]
      · rw [hmem, mem_cons]
        constructor
        · exact fun h => ⟨.inr h.1, h.2⟩
        · rintro ⟨rfl | h, hnot⟩
          · exact absurd hr hnot
          · exact ⟨h, hnot⟩
    · obtain ⟨ys, heq, hnodup, hmem⟩ := ih hinj' (r.id :: seen)
      refine ⟨r :: ys, ?_, nodup_cons.mpr ⟨fun h => ?_, hnodup⟩, fun r' => ?_⟩
      · rw [map_cons, unseen, if_neg hr, heq, map_cons]
      · exact ((hmem r).mp h).2 mem_cons_self
      · rw [mem_cons, hmem, mem_cons, mem_cons, not_or]
        constructor
        · rintro (rfl | ⟨h, -, hnot⟩)
          · exact ⟨.inl rfl, hr⟩
          · exact ⟨.inr h, hnot⟩
        · rintro ⟨rfl | h, hnot⟩
          · exact .inl rfl
          · by_cases hid : r'.id = r.id
            · exact .inl (hinj r' (mem_cons_of_mem _ h) r mem_cons_self hid)
            · exact .inr ⟨h, hid, hnot⟩

/-- Sorting records by their sequence numbers, when these are distinct. -/
theorem mergeSort_sequence {ys : List Record} (hnodup : ys.Nodup)
    (hinj : ∀ a ∈ ys, ∀ b ∈ ys, a.sequence = b.sequence → a = b) (d : Bool) :
    let sorted := ((ys.map fun r => (r, r.sequence)).mergeSort (sequenceOrder d)).map Prod.fst
    sorted.Pairwise (fun a b => InOrder d a.sequence b.sequence) ∧ ∀ r, r ∈ sorted ↔ r ∈ ys := by
  intro sorted
  have hperm := mergeSort_perm (ys.map fun r => (r, r.sequence)) (sequenceOrder d)
  have hfst : (ys.map fun r => (r, r.sequence)).map Prod.fst = ys := by
    rw [map_map]
    exact map_id ys
  have hsorted : sorted.Perm ys := hfst ▸ hperm.map Prod.fst
  have hpairwise : ((ys.map fun r => (r, r.sequence)).mergeSort (sequenceOrder d)).Pairwise
      fun a b => sequenceOrder d a b = true := by
    refine pairwise_mergeSort (fun a b c hab hbc => ?_) (fun a b => ?_) _
    · unfold sequenceOrder at hab hbc ⊢
      cases d <;> simp at hab hbc ⊢ <;> omega
    · unfold sequenceOrder
      cases d <;> simp <;> omega
  refine ⟨?_, fun r => hsorted.mem_iff⟩
  have hdistinct := hsorted.nodup_iff.mpr hnodup
  rw [List.Nodup, pairwise_map] at hdistinct
  rw [pairwise_map]
  refine (hpairwise.and hdistinct).imp_of_mem fun {a b} ha hb hab => ?_
  obtain ⟨r, hr, rfl⟩ := mem_map.mp (hperm.mem_iff.mp ha)
  obtain ⟨r', hr', rfl⟩ := mem_map.mp (hperm.mem_iff.mp hb)
  have hne : r.sequence ≠ r'.sequence := fun heq => hab.2 (hinj r hr r' hr' heq)
  have hle := hab.1
  unfold sequenceOrder at hle
  cases d <;> simp [InOrder] at hle ⊢ <;> omega

/-- The records that `PathPage` is about: what happened at the path, and everything that happened to
the file which is there now. -/
def atPath (s : Store) (path : Path) (r : Record) : Bool :=
  r.path = path ∨ r.previousPath = some path ∨ liveFile s path = some r.fileId

/-- The records that one read of the script brings. -/
def readRecords (rs : List Record) (d : Bool) (before limit : ℕ) (i : Index) : List Record :=
  ((directed d (rs.filter (Index.lists i))).filter
    fun r => before = 0 ∨ InOrder d before r.sequence).take (limit + 1)

theorem readRecords_subset (d : Bool) (before limit : ℕ) (i : Index) :
    readRecords rs d before limit i ⊆ rs := fun _ hr =>
  mem_of_mem_filter (mem_directed.mp (mem_of_mem_filter (mem_of_mem_take hr)))

/-- **What the script of `PathPage` returns**: what its reads bring, once and in order, up to the
length of a page and one more. -/
theorem pathPageScript_spec (hrep : Represents s.history rs) (path : Path) (limit before : ℕ)
    (d : Bool) : ∃ l : List Record, pathPageScript s path limit before d = l.take (limit + 1) ∧
      l.Pairwise (fun a b => InOrder d a.sequence b.sequence) ∧
      ∀ r, r ∈ l ↔ r ∈ readRecords rs d before limit (.timeline path) ∨
        ∃ file, liveFile s path = some file ∧
          r ∈ readRecords rs d before limit (.fileTimeline file) := by
  have hread : ∀ i, entriesFrom d (s.history.index i) before limit =
      (readRecords rs d before limit i).map fun r => (r.id, r.sequence) := fun i => by
    rw [hrep.journal.index, entriesFrom_map]
    rfl
  obtain ⟨xs, hscript, hxs⟩ : ∃ xs : List Record,
      pathPageScript s path limit before d =
        ((((unseen [] (xs.map fun r => (r.id, r.sequence))).filterMap fun e =>
          (s.history.records e.1).map fun r => (r, e.2)).mergeSort (sequenceOrder d)).map
            Prod.fst).take (limit + 1) ∧
      ∀ r, r ∈ xs ↔ r ∈ readRecords rs d before limit (.timeline path) ∨
        ∃ file, liveFile s path = some file ∧
          r ∈ readRecords rs d before limit (.fileTimeline file) := by
    cases hlive : liveFile s path with
    | none =>
      refine ⟨readRecords rs d before limit (.timeline path), ?_, fun r => by simp⟩
      simp only [pathPageScript, hlive, hread]
    | some file =>
      refine ⟨readRecords rs d before limit (.timeline path) ++
        readRecords rs d before limit (.fileTimeline file), ?_, fun r => by simp⟩
      simp only [pathPageScript, hlive, hread, map_append]
  have hsub : xs ⊆ rs := fun r hr => by
    obtain hr | ⟨file, -, hr⟩ := (hxs r).mp hr
    · exact readRecords_subset _ _ _ _ hr
    · exact readRecords_subset _ _ _ _ hr
  have hinj : ∀ a ∈ xs, ∀ b ∈ xs, a.id = b.id → a = b := fun a ha b hb =>
    inj_on_of_nodup_map hrep.journal.nodup (hsub ha) (hsub hb)
  obtain ⟨ys, hys, hnodup, hmem⟩ := unseen_map hinj Record.sequence []
  have hsub' : ys ⊆ rs := fun r hr => hsub ((hmem r).mp hr).1
  have hitems : ((ys.map fun r => (r.id, r.sequence)).filterMap fun e =>
      (s.history.records e.1).map fun r => (r, e.2)) = ys.map fun r => (r, r.sequence) := by
    rw [filterMap_map, ← filterMap_eq_map]
    refine filterMap_congr fun r hr => ?_
    rw [Function.comp_apply, hrep.journal.record_iff.mpr ⟨hsub' hr, rfl⟩]
    rfl
  have hsequence : (rs.map (·.sequence)).Nodup := by
    rw [List.Nodup, pairwise_map]
    exact hrep.journal.earlier.imp fun hab => hab.sequence.ne
  obtain ⟨hsorted, hperm⟩ := mergeSort_sequence hnodup
    (fun a ha b hb => inj_on_of_nodup_map hsequence (hsub' ha) (hsub' hb)) d
  refine ⟨_, ?_, hsorted, fun r => ?_⟩
  · rw [hscript, hys, hitems]
  · rw [hperm, hmem, hxs]
    simp

/-- The script reads enough of what `PathPage` is about to cut a page. -/
theorem cut_pathPageScript {κ : Type} (hrep : Represents s.history rs) (key : Record → κ)
    (limit before : ℕ) (d : Bool) : cut limit key (pathPageScript s path limit before d) =
      cut limit key ((directed d (rs.filter (atPath s path))).filter
        fun r => before = 0 ∨ InOrder d before r.sequence) := by
  have hasymm : Std.Asymm fun a b : Record => InOrder d a.sequence b.sequence :=
    ⟨fun _ _ h => h.asymm⟩
  have hsorted := (hrep.sorted_directed d).filter (atPath s path)
  rw [filter_directed] at hsorted
  obtain ⟨l, hl, hlsorted, hlmem⟩ := pathPageScript_spec hrep path limit before d
  have hlists : ∀ r, atPath s path r = true ↔ Index.lists (.timeline path) r = true ∨
      ∃ file, liveFile s path = some file ∧ Index.lists (.fileTimeline file) r = true := fun r => by
    simp only [atPath, Index.lists, decide_eq_true_eq, ← or_assoc]
    refine or_congr_right ⟨fun h => ⟨_, h, rfl⟩, ?_⟩
    rintro ⟨file, hlive, rfl⟩
    exact hlive
  -- What a read brings is on the list, and what is among the first of the list a read brings.
  have hread : ∀ i, (∀ r, Index.lists i r = true → atPath s path r = true) →
      ∀ r ∈ readRecords rs d before limit i, r ∈ (directed d (rs.filter (atPath s path))).filter
        fun r => before = 0 ∨ InOrder d before r.sequence := fun i hi r hr => by
    obtain ⟨hr, hbeyond⟩ := mem_filter.mp (mem_of_mem_take hr)
    obtain ⟨hr, hlist⟩ := mem_filter.mp (mem_directed.mp hr)
    exact mem_filter.mpr
      ⟨mem_directed.mpr (mem_filter.mpr ⟨hr, hi r hlist⟩), hbeyond⟩
  have hfirst : ∀ i, (∀ r, Index.lists i r = true → atPath s path r = true) →
      ∀ r ∈ ((directed d (rs.filter (atPath s path))).filter
        fun r => before = 0 ∨ InOrder d before r.sequence).take (limit + 1),
      Index.lists i r = true → r ∈ readRecords rs d before limit i := fun i hi r hr hlist => by
    have hbeyond := (mem_filter.mp (mem_of_mem_take hr)).2
    rw [← filter_directed, filter_filter] at hr
    rw [readRecords, ← filter_directed, filter_filter]
    refine mem_take_filter (fun a ha => ?_) hr ?_
    · rw [Bool.and_eq_true] at ha ⊢
      exact ⟨ha.1, hi a ha.2⟩
    · rw [Bool.and_eq_true]
      exact ⟨hbeyond, hlist⟩
  have htimeline : ∀ r, Index.lists (.timeline path) r = true → atPath s path r = true := fun r h =>
    (hlists r).mpr (.inl h)
  have hfile : ∀ file, liveFile s path = some file → ∀ r,
      Index.lists (.fileTimeline file) r = true → atPath s path r = true := fun file hlive r h =>
    (hlists r).mpr (.inr ⟨file, hlive, h⟩)
  rw [hl, cut_take]
  refine cut_eq_of_sorted key hlsorted (hsorted.filter _) (fun r hr => ?_) fun r hr => ?_
  · obtain hr | ⟨file, hlive, hr⟩ := (hlmem r).mp hr
    · exact hread _ htimeline r hr
    · exact hread _ (hfile file hlive) r hr
  · have hat := (mem_filter.mp
      (mem_directed.mp (mem_of_mem_filter (mem_of_mem_take hr)))).2
    rw [hlmem]
    obtain hlist | ⟨file, hlive, hlist⟩ := (hlists r).mp hat
    · exact .inl (hfirst _ htimeline r hr hlist)
    · exact .inr ⟨file, hlive, hfirst _ (hfile file hlive) r hr hlist⟩

/-- The cursor after a record. -/
def Record.cursor (r : Record) : PathCursor := ⟨r.fileId, r.version, r.sequence⟩

/-- Cursors are ordered by their sequence numbers. -/
def CursorOrder (d : Bool) (a b : PathCursor) : Prop := InOrder d a.sequence b.sequence

instance (d : Bool) : DecidableRel (CursorOrder d) := fun a b =>
  inferInstanceAs (Decidable (InOrder d a.sequence b.sequence))

instance (d : Bool) : IsTrans PathCursor (CursorOrder d) := ⟨fun _ _ _ h h' => InOrder.trans h h'⟩

instance (d : Bool) : Std.Asymm (CursorOrder d) := ⟨fun _ _ h => InOrder.asymm h⟩

/-- A cursor that a page returns: it has its numbers. -/
def PathCursor.Complete (c : PathCursor) : Prop := c.ordinal ≠ 0 ∧ c.sequence ≠ 0

/-- **A page of `PathPage`** is a page of what it is about, and no error. -/
theorem pathPage_page (hrep : Represents s.history rs) (limit : ℤ) (d : Bool) {c : Option PathCursor}
    (hc : ∀ cur ∈ c, cur.Complete) : (pathPage s path limit c d).map PathPageResult.toPage =
      some (pageOf (pageLimit limit) Record.cursor (CursorOrder d)
        (directed d (rs.filter (atPath s path))) c) := by
  obtain ⟨before, hpage, hbeyond⟩ : ∃ before, pathPage s path limit c d = some
      { versions := (pathPageScript s path (pageLimit limit) before d).take (pageLimit limit)
        nextCursor := if pageLimit limit <
            (pathPageScript s path (pageLimit limit) before d).length then
          ((pathPageScript s path (pageLimit limit) before d).take (pageLimit limit)).getLast?.map
            Record.cursor else none } ∧
      ∀ r : Record, Beyond Record.cursor (CursorOrder d) c r ↔
        before = 0 ∨ InOrder d before r.sequence := by
    cases c with
    | none => exact ⟨0, rfl, fun r => ⟨fun _ => .inl rfl, fun _ => nofun⟩⟩
    | some cur =>
      obtain ⟨hordinal, hsequence⟩ := hc cur rfl
      have hresolve : cur.resolve s = some cur.sequence := by
        simp only [PathCursor.resolve, if_neg hordinal, if_pos hsequence]
      refine ⟨cur.sequence, ?_, fun r => ?_⟩
      · simp only [pathPage, hresolve]
        rfl
      · rw [beyond_some]
        exact ⟨.inr, fun h => h.resolve_left hsequence⟩
  have hfilter : (directed d (rs.filter (atPath s path))).filter
      (fun r => Beyond Record.cursor (CursorOrder d) c r) =
      (directed d (rs.filter (atPath s path))).filter
        fun r => before = 0 ∨ InOrder d before r.sequence := by
    simp only [hbeyond]
  rw [hpage, pageOf, hfilter, ← cut_pathPageScript hrep]
  rfl

/-- **`PathPage` is complete, in both directions.** -/
theorem pathPage_complete (hc : Catalogue s.history rs) (path : Path) (limit : ℤ) (d : Bool) :
    ∃ n items, Follows (fun _ c => (pathPage s path limit c d).map PathPageResult.toPage)
        0 none n items ∧
      items.Pairwise (fun a b => if d then b.sequence < a.sequence else a.sequence < b.sequence) ∧
      ∀ r, r ∈ items ↔ s.history.records r.id = some r ∧
        (r.path = path ∨ r.previousPath = some path ∨ liveFile s path = some r.fileId) := by
  have hsorted : (directed d (rs.filter (atPath s path))).Pairwise fun a b =>
      CursorOrder d a.cursor b.cursor := by
    rw [← filter_directed]
    exact (hc.represents.sorted_directed d).filter _
  obtain ⟨n, hfollows⟩ := follows_still (pageLimit_pos limit) hsorted
  refine ⟨n, _, ?_, hsorted, fun r => ?_⟩
  · refine hfollows.congr (P := fun c => ∀ cur ∈ c, cur.Complete) (fun _ c hcur => ?_)
      (fun _ c items c' _ h => ?_) nofun
    · exact pathPage_page hc.represents limit d hcur
    · rintro _ ⟨⟩
      have hnext := congrArg Page.next (Option.some.inj h)
      rw [pageOf, cut] at hnext
      obtain ⟨-, hnext⟩ | ⟨-, hnext⟩ := ite_eq_iff.mp hnext
      · obtain ⟨r, hr, rfl⟩ := Option.map_eq_some_iff.mp hnext
        have hmem := mem_of_mem_filter (mem_of_mem_take (mem_of_getLast? hr))
        have hmem := mem_of_mem_filter (mem_directed.mp hmem)
        have hversion := hc.numbered r hmem
        have hsequence := (hc.represents.sequences r hmem).1
        exact ⟨Nat.ne_zero_of_lt hversion, Nat.ne_zero_of_lt hsequence⟩
      · cases hnext
  · rw [mem_directed, mem_filter, hc.represents.journal.record_iff, atPath, decide_eq_true_eq]
    simp

end PathPage

end Afs.History
