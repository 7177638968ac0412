import Mathlib.Data.List.TakeWhile
import Afs.Foundations.Paging
import Afs.History.Catalogue
import Afs.History.Query

/-!
# Listings are complete

Following the cursors of the three listings of a history that does not change yields what they are
about, once and in order. The versions of one lineage are also listed completely while records are
captured and pruned between the pages, as long as the lineage belongs to the path: a lineage that has
no version at the path belongs to it only while its file is there.
-/

namespace Afs.History

open List

/-! ## Pages -/

/-- A page of versions; a cursor of zero is none. -/
def VersionPage.toPage (p : VersionPage) : Page Record ℕ :=
  ⟨p.versions, if p.nextBefore = 0 then none else some p.nextBefore⟩

/-- A page of lineages; a cursor of zero is none. -/
def LineagePage.toPage (p : LineagePage) : Page (LineageId × ℕ) ℕ :=
  ⟨p.files, if p.nextBefore = 0 then none else some p.nextBefore⟩

/-- A page of a path. -/
def PathPageResult.toPage (p : PathPageResult) : Page Record PathCursor := ⟨p.versions, p.nextCursor⟩

/-- Newest first. -/
abbrev Newer (a b : ℕ) : Prop := b < a

instance : IsTrans ℕ Newer := ⟨fun _ _ _ h h' => lt_trans h' h⟩

instance : Std.Asymm Newer := ⟨fun _ _ h => lt_asymm h⟩

variable {α : Type} {c : Option ℕ} {key : α → ℕ}

theorem beyond_newer (hc : c ≠ some 0) (a : α) :
    Beyond key Newer c a ↔ c.getD 0 = 0 ∨ key a < c.getD 0 := by
  cases c with
  | none => simp [Beyond]
  | some k =>
    have hk : k ≠ 0 := fun h => hc (congrArg some h)
    simp [beyond_some, hk]

/-- A cut whose keys are positive, with zero for no cursor. -/
theorem cut_toPage {l : List α} {limit : ℕ} (hpos : ∀ a ∈ l, 1 ≤ key a) (hlimit : 0 < limit) :
    let next := if limit < l.length then ((l.take limit).getLast?.map key).getD 0 else 0
    (⟨l.take limit, if next = 0 then none else some next⟩ : Page α ℕ) = cut limit key l := by
  dsimp only
  rw [cut]
  by_cases hlen : limit < l.length
  · have hne : l.take limit ≠ [] := fun h => by
      have hlength := congrArg List.length h
      rw [length_take, length_nil] at hlength
      omega
    have hmem := mem_of_mem_take (getLast_mem hne)
    have hkey := hpos _ hmem
    rw [if_pos hlen, if_pos hlen, List.getLast?_eq_some_getLast hne, Option.map_some, Option.getD_some,
      if_neg (by omega)]
  · rw [if_neg hlen, if_neg hlen, if_pos rfl]

/-- The next cursor of a page is not zero. -/
theorem next_ne_zero {limit : ℕ} {l : List α} (hpos : ∀ a ∈ l, 1 ≤ key a) {items : List α}
    {c' : ℕ} (h : pageOf limit key Newer l c = ⟨items, some c'⟩) :
    (some c' : Option ℕ) ≠ some 0 := by
  have hnext := congrArg Page.next h
  rw [pageOf, cut] at hnext
  dsimp only at hnext
  split at hnext
  · obtain ⟨r, hr, rfl⟩ := Option.map_eq_some_iff.mp hnext
    have hmem := mem_of_mem_filter (mem_of_mem_take (mem_of_getLast? hr))
    have hpos := hpos r hmem
    rw [Ne, Option.some.injEq]
    omega
  · cases hnext

section Records

variable {h : HistoryKeys} {rs : List Record}

/-- The records an index leads to. -/
theorem Journal.filterMap_records (hj : Journal h rs) {xs : List Record} (hsub : xs ⊆ rs)
    (f : Record → ℕ) : ((xs.map fun r => (r.id, f r)).filterMap fun e => h.records e.1) = xs := by
  induction xs with
  | nil => rfl
  | cons r xs ih =>
    have hr := hj.record_iff.mpr ⟨hsub mem_cons_self, rfl⟩
    rw [map_cons, filterMap_cons, hr]
    exact congrArg _ (ih fun x hx => hsub (mem_cons_of_mem _ hx))

theorem revRangeByScore_map (xs : List Record) (f : Record → ℕ) (before count : ℕ) :
    ZSet.revRangeByScore (xs.map fun r => (r.id, f r)) before count =
      ((xs.reverse.filter fun r => before = 0 ∨ f r < before).take count).map fun r => (r.id, f r) := by
  rw [ZSet.revRangeByScore, ← map_reverse, filter_map, ← map_take]
  rfl

theorem rangeByScore_map (xs : List Record) (f : Record → ℕ) (after count : ℕ) :
    ZSet.rangeByScore (xs.map fun r => (r.id, f r)) after count =
      ((xs.filter fun r => after = 0 ∨ after < f r).take count).map fun r => (r.id, f r) := by
  rw [ZSet.rangeByScore, filter_map, ← map_take]
  rfl

end Records

/-! ## Versions of a lineage -/

section List

variable {s : Store} {rs : List Record} {path : Path} {file : Option LineageId} {l : LineageId}

/-- The versions of a lineage are numbered in the order of their capture. -/
theorem Represents.sorted_versions {h : HistoryKeys} (hrep : Represents h rs) (l : LineageId) :
    (lineage rs l).reverse.Pairwise fun a b => Newer a.version b.version := by
  rw [pairwise_reverse]
  have hsub := hrep.journal.earlier.sublist (filter_sublist (p := fun r => r.fileId = l))
  refine hsub.imp_of_mem fun {a b} ha hb hab => hab.version ?_
  rw [lineage_fileId ha, lineage_fileId hb]

/-- The versions that a listing is about, newest first. -/
def versionsAt (s : Store) (rs : List Record) (path : Path) (file : Option LineageId) : List Record :=
  ((selectLineage s path file).map fun l => (lineage rs l).reverse).getD []

theorem mem_versionsAt {r : Record} :
    r ∈ versionsAt s rs path file ↔ r ∈ rs ∧ selectLineage s path file = some r.fileId := by
  rw [versionsAt]
  cases selectLineage s path file with
  | none => simp
  | some l => simp [lineage, eq_comm]

theorem sorted_versionsAt (hrep : Represents s.history rs) (path : Path) (file : Option LineageId) :
    (versionsAt s rs path file).Pairwise fun a b => Newer a.version b.version := by
  rw [versionsAt]
  cases selectLineage s path file with
  | none => exact .nil
  | some l => exact hrep.sorted_versions l

/-- **A page of `List`** is a page of the versions it is about. -/
theorem list_page (hc : Catalogue s.history rs) (limit : ℤ) (hcur : c ≠ some 0) :
    (list s path limit (c.getD 0) file).toPage =
      pageOf (pageLimit limit) Record.version Newer (versionsAt s rs path file) c := by
  cases hsel : selectLineage s path file with
  | none =>
    have hlist : list s path limit (c.getD 0) file = {} := by rw [list, listScript, hsel]; rfl
    rw [hlist, versionsAt, hsel]
    simp [VersionPage.toPage, pageOf, cut]
  | some l =>
    have hsub : lineage rs l ⊆ rs := fun _ hr => mem_of_mem_filter hr
    have hvalues : ((s.history.versions l).revRangeByScore (c.getD 0) (pageLimit limit + 1)).filterMap
        (fun e => s.history.records e.1) =
        ((lineage rs l).reverse.filter fun r => Beyond Record.version Newer c r).take
          (pageLimit limit + 1) := by
      rw [hc.represents.journal.versions, revRangeByScore_map, hc.represents.journal.filterMap_records]
      · simp only [beyond_newer hcur]
      · exact fun r hr => hsub (mem_reverse.mp (mem_of_mem_filter (mem_of_mem_take hr)))
    have hat : versionsAt s rs path file = (lineage rs l).reverse := by rw [versionsAt, hsel]; rfl
    rw [pageOf, hat, ← cut_take, ← hvalues, list, listScript, hsel]
    refine cut_toPage (fun r hr => hc.numbered r ?_) (pageLimit_pos limit)
    rw [hvalues] at hr
    exact hsub (mem_reverse.mp (mem_of_mem_filter (mem_of_mem_take hr)))

/-- The listing is followed as its pages are. -/
theorem list_follows {w : ℕ → Store} {rs : ℕ → List Record} (hc : ∀ k, Catalogue (w k).history (rs k))
    {limit : ℤ} {n : ℕ} {items : List Record}
    (h : Follows (fun k c => some (pageOf (pageLimit limit) Record.version Newer
      (versionsAt (w k) (rs k) path file) c)) 0 none n items) :
    Follows (fun k c => some (list (w k) path limit (c.getD 0) file).toPage) 0 none n items := by
  refine h.congr (P := (· ≠ some 0)) (fun k c hcur => ?_) (fun k c items c' _ h => ?_) nofun
  · rw [list_page (hc k) limit hcur]
  · exact next_ne_zero (fun r hr => (hc k).numbered r (mem_versionsAt.mp hr).1) (Option.some.inj h)

/-- **`List` is complete.** -/
theorem list_complete (hc : Catalogue s.history rs) (path : Path) (limit : ℤ)
    (file : Option LineageId) :
    ∃ n items, Follows (fun _ c => some (list s path limit (c.getD 0) file).toPage) 0 none n items ∧
      items.Pairwise (fun a b => b.version < a.version) ∧
      ∀ r, r ∈ items ↔
        s.history.records r.id = some r ∧ selectLineage s path file = some r.fileId := by
  have hsorted := sorted_versionsAt hc.represents path file
  obtain ⟨n, hfollows⟩ := follows_still (pageLimit_pos limit) hsorted
  refine ⟨n, _, list_follows (fun _ => hc) hfollows, hsorted, fun r => ?_⟩
  rw [mem_versionsAt, hc.represents.journal.record_iff, and_iff_left rfl]

/-- A cursor is before another one; the first page is before all. -/
def EarlierCursor : Option ℕ → Option ℕ → Prop
  | some a, some b => a < b
  | some _, none => True
  | none, _ => False

theorem wellFounded_earlierCursor : WellFounded EarlierCursor := by
  have hsome : ∀ n, Acc EarlierCursor (some n) := fun n => by
    induction n using Nat.strong_induction_on with
    | _ n ih =>
      refine ⟨_, fun c hc => ?_⟩
      cases c with
      | none => exact hc.elim
      | some m => exact ih m hc
  refine ⟨fun c => ?_⟩
  cases c with
  | some n => exact hsome n
  | none =>
    refine ⟨_, fun c hc => ?_⟩
    cases c with
    | none => exact hc.elim
    | some m => exact hsome m

/-- The lineage is at the path now, or had a version there. -/
def BelongsTo (s : Store) (path : Path) (l : LineageId) : Prop :=
  liveFile s path = some l ∨ ∃ n, (l, n) ∈ s.history.path path

theorem selectLineage_of_belongsTo (h : BelongsTo s path l) : selectLineage s path (some l) = some l := by
  refine if_neg fun hnot => ?_
  obtain hlive | ⟨n, hmem⟩ := h
  · exact hnot.1 hlive.symm
  · obtain ⟨-, hscore⟩ := hnot
    rw [ZSet.score, Option.isNone_map, Option.isNone_iff_eq_none, List.find?_eq_none] at hscore
    exact hscore _ hmem (decide_eq_true rfl)

/-- **`List` of one lineage ends while the history changes**, and it is complete if the lineage
belongs to the path whenever a page is read. The store `w k` is the one of page `k`. -/
theorem list_moving {w : ℕ → Store} (hw : ∀ k, ∃ rs, Catalogue (w k).history rs) (path : Path)
    (limit : ℤ) (l : LineageId) : ∃ n items,
      Follows (fun k c => some (list (w k) path limit (c.getD 0) (some l)).toPage) 0 none n items ∧
      items.Pairwise (fun a b => b.version < a.version) ∧
      ((∀ k ≤ n, BelongsTo (w k) path l) → ∀ r, r.fileId = l →
        (∀ k ≤ n, (w k).history.records r.id = some r) → r ∈ items) := by
  choose rs hc using hw
  obtain ⟨n, items, -, hfollows, hsorted, -, hitems⟩ := follows_moving (pageLimit_pos limit)
    (fun k => sorted_versionsAt (hc k).represents path (some l))
    wellFounded_earlierCursor (fun k c r _ hr => by
      cases c with
      | none => trivial
      | some b => exact (beyond_some.mp hr : r.version < b)) 0 none
  refine ⟨n, items, list_follows hc hfollows, hsorted, fun hbelongs r hl hlisted => ?_⟩
  refine hitems r nofun fun k _ hk => mem_versionsAt.mpr ⟨?_, ?_⟩
  · exact ((hc k).represents.journal.record_iff.mp (hlisted k hk)).1
  · rw [hl]
    exact selectLineage_of_belongsTo (hbelongs k hk)

end List

/-! ## Lineages at a path -/

variable {e : LineageId × ℕ} {l : List (LineageId × ℕ)}

section Lineages

variable {s : Store} {rs : List Record} {path : Path}

/-- The lineage that is at the path now but has no version there, with the number of its head. -/
def liveEntry (s : Store) (path : Path) : Option (LineageId × ℕ) :=
  (liveFile s path).bind fun file =>
    if ((s.history.path path).score file).isSome then none
    else (((s.history.file file).bind (·.head)).bind s.history.retention.score).map (file, ·)

/-- An entry is put among the entries of a listing that is newest first. -/
def putEntry (e : LineageId × ℕ) (l : List (LineageId × ℕ)) : List (LineageId × ℕ) :=
  l.takeWhile (fun e' => ¬ e'.2 < e.2) ++ e :: l.dropWhile fun e' => ¬ e'.2 < e.2

theorem mem_putEntry {e' : LineageId × ℕ} : e' ∈ putEntry e l ↔ e' = e ∨ e' ∈ l := by
  rw [putEntry, mem_append, mem_cons]
  conv_rhs => rw [← takeWhile_append_dropWhile (p := fun e' => ¬ e'.2 < e.2) (l := l), mem_append]
  tauto

theorem sorted_putEntry (hl : l.Pairwise fun a b => Newer a.2 b.2) (hne : ∀ e' ∈ l, e'.2 ≠ e.2) :
    (putEntry e l).Pairwise fun a b => Newer a.2 b.2 := by
  have hparts := takeWhile_append_dropWhile (p := fun e' => ¬ e'.2 < e.2) (l := l)
  have hsplit := hl
  rw [← hparts, pairwise_append] at hsplit
  obtain ⟨hbefore, hafter, hacross⟩ := hsplit
  have hhigh : ∀ a ∈ l.takeWhile (fun e' => ¬ e'.2 < e.2), e.2 < a.2 := fun a ha => by
    have hle : ¬ a.2 < e.2 := by simpa using mem_takeWhile_imp ha
    have := hne a (takeWhile_subset _ ha)
    omega
  have hlow : ∀ b ∈ l.dropWhile (fun e' => ¬ e'.2 < e.2), b.2 < e.2 := fun b hb => by
    cases hd : l.dropWhile (fun e' => ¬ e'.2 < e.2) with
    | nil =>
      rw [hd] at hb
      cases hb
    | cons d ds =>
      have hdlt : d.2 < e.2 := by
        have hhead := head_dropWhile_not (fun e' => decide (¬ e'.2 < e.2)) (l := l)
          (by rw [hd]; exact cons_ne_nil _ _)
        simp only [hd, head_cons] at hhead
        simpa using hhead
      rw [hd] at hb hafter
      obtain rfl | hb := mem_cons.mp hb
      · exact hdlt
      · exact lt_trans ((pairwise_cons.mp hafter).1 b hb) hdlt
  refine pairwise_append.mpr ⟨hbefore, pairwise_cons.mpr ⟨hlow, hafter⟩, fun a ha b hb => ?_⟩
  obtain rfl | hb := mem_cons.mp hb
  · exact hhigh a ha
  · exact hacross a ha b hb

/-- A listing with the live entry, if there is one. -/
def withEntry (live : Option (LineageId × ℕ)) (l : List (LineageId × ℕ)) : List (LineageId × ℕ) :=
  match live with
  | none => l
  | some e => putEntry e l

variable {live : Option (LineageId × ℕ)}

theorem mem_withEntry : e ∈ withEntry live l ↔ live = some e ∨ e ∈ l := by
  cases live with
  | none => simp [withEntry]
  | some e' => rw [withEntry, mem_putEntry, Option.some.injEq, eq_comm]

theorem sorted_withEntry
    (hl : l.Pairwise fun a b => Newer a.2 b.2) (hne : ∀ e, live = some e → ∀ e' ∈ l, e'.2 ≠ e.2) :
    (withEntry live l).Pairwise fun a b => Newer a.2 b.2 := by
  cases live with
  | none => exact hl
  | some e => exact sorted_putEntry hl (hne e rfl)

theorem score_eq_some {z : ZSet RecordId} {id : RecordId} {n : ℕ} (h : z.score id = some n) :
    (id, n) ∈ z := by
  obtain ⟨e, he, rfl⟩ := Option.map_eq_some_iff.mp h
  have hid : e.1 = id := by simpa using List.find?_some he
  subst hid
  exact mem_of_find?_eq_some he

theorem score_isNone_iff {z : ZSet LineageId} {l : LineageId} :
    (z.score l).isSome = false ↔ ∀ n, (l, n) ∉ z := by
  rw [ZSet.score, Option.isSome_map, Option.isSome_eq_false_iff, Option.isNone_iff_eq_none,
    List.find?_eq_none]
  constructor
  · intro h n hmem
    exact h _ hmem (decide_eq_true rfl)
  · rintro h ⟨l', n⟩ hmem hl
    have hl : l' = l := of_decide_eq_true hl
    exact h n (hl ▸ hmem)

section

variable (hc : Catalogue s.history rs)

include hc

/-- What the live entry is. -/
theorem liveEntry_eq_some_iff :
    liveEntry s path = some e ↔ liveFile s path = some e.1 ∧ (∀ n, (e.1, n) ∉ s.history.path path) ∧
      ∃ r, s.history.records r.id = some r ∧ (entry s.history e.1).head = some r.id ∧
        r.sequence = e.2 := by
  have hrep := hc.represents
  have hhead : ∀ l, (s.history.file l).bind (·.head) = (entry s.history l).head := fun l => by
    rw [entry]
    cases s.history.file l <;> rfl
  rw [liveEntry, Option.bind_eq_some_iff]
  constructor
  · rintro ⟨file, hlive, h⟩
    obtain ⟨-, h⟩ | ⟨hscore, h⟩ := ite_eq_iff.mp h
    · cases h
    obtain ⟨n, hn, rfl⟩ := Option.map_eq_some_iff.mp h
    obtain ⟨id, hid, hn⟩ := Option.bind_eq_some_iff.mp hn
    have hmem := score_eq_some hn
    rw [hrep.journal.retention] at hmem
    obtain ⟨r, hr, he⟩ := mem_map.mp hmem
    cases he
    refine ⟨hlive, score_isNone_iff.mp (by simpa using hscore), r, ?_, ?_, rfl⟩
    · exact hrep.journal.record_iff.mpr ⟨hr, rfl⟩
    · rw [← hhead, hid]
  · rintro ⟨hlive, hscore, r, hr, hid, hseq⟩
    obtain ⟨hmem, -⟩ := hrep.journal.record_iff.mp hr
    refine ⟨e.1, hlive, ?_⟩
    rw [if_neg (by simpa using score_isNone_iff.mpr hscore), hhead, hid, Option.bind_some,
      hrep.journal.retention, score_map hrep.journal.nodup hmem, hseq]
    rfl

/-- The number of the live entry is its own, and positive. -/
theorem liveEntry_fresh (h : liveEntry s path = some e) :
    1 ≤ e.2 ∧ ∀ e' ∈ s.history.path path, e'.2 ≠ e.2 := by
  obtain ⟨-, hnot, r, hr, hhead, hseq⟩ := (liveEntry_eq_some_iff hc).mp h
  obtain ⟨hmem, -⟩ := hc.represents.journal.record_iff.mp hr
  have hlineage : r.fileId = e.1 := by
    rw [(hc.represents.points e.1).head] at hhead
    obtain ⟨r', hlast, hid⟩ := Option.map_eq_some_iff.mp hhead
    obtain ⟨hr', hl⟩ := mem_filter.mp (mem_of_getLast? hlast)
    rw [inj_on_of_nodup_map hc.represents.journal.nodup hmem hr' hid.symm]
    exact of_decide_eq_true hl
  refine ⟨hseq ▸ (hc.represents.sequences r hmem).1, fun e' he' hn => ?_⟩
  have hown := hc.paths.own path e' he' r hmem (hseq.trans hn.symm)
  refine hnot e'.2 ?_
  rw [← hlineage, hown]
  exact he'

/-- The lineages at a path, newest first. -/
def lineagesAt (s : Store) (path : Path) : List (LineageId × ℕ) :=
  withEntry (liveEntry s path) (s.history.path path).reverse

omit hc in
theorem mem_lineagesAt :
    e ∈ lineagesAt s path ↔ liveEntry s path = some e ∨ e ∈ s.history.path path := by
  rw [lineagesAt, mem_withEntry, mem_reverse]

/-- The lineages that had a version at the path, newest first. -/
theorem Catalogue.sorted_path :
    (s.history.path path).reverse.Pairwise fun a b => Newer a.2 b.2 := by
  rw [pairwise_reverse]
  exact hc.paths.sorted path

theorem sorted_lineagesAt (path : Path) : (lineagesAt s path).Pairwise fun a b => Newer a.2 b.2 :=
  sorted_withEntry hc.sorted_path fun _ hlive e' he' =>
    (liveEntry_fresh hc hlive).2 e' (mem_reverse.mp he')

/-- The numbers of the lineages at a path are positive. -/
theorem lineagesAt_pos (he : e ∈ lineagesAt s path) : 1 ≤ e.2 := by
  obtain he | he := mem_lineagesAt.mp he
  · exact (liveEntry_fresh hc he).1
  · exact (hc.paths.given path e he).1

omit hc in
/-- The script puts the live entry among those it has read. -/
theorem lineagesScript_eq (s : Store) (path : Path) (before count : ℕ) :
    lineagesScript s path before count =
      withEntry ((liveEntry s path).filter fun e => before = 0 ∨ e.2 < before)
        ((s.history.path path).revRangeByScore before (count + 1)) := by
  rw [lineagesScript, liveEntry]
  cases liveFile s path with
  | none => rfl
  | some file =>
    rw [Option.bind_some]
    dsimp only
    by_cases hscore : ((s.history.path path).score file).isSome
    · rw [if_pos hscore, if_pos hscore]
      rfl
    · rw [if_neg hscore, if_neg hscore]
      cases ((s.history.file file).bind (·.head)).bind s.history.retention.score with
      | none => rfl
      | some n => by_cases hn : before = 0 ∨ n < before <;> simp [hn, Option.filter, withEntry, putEntry]

/-- The script reads enough of the lineages at the path to cut a page. -/
theorem cut_lineagesScript (path : Path) (limit before : ℕ) :
    lineagesScript s path before limit ⊆ lineagesAt s path ∧
    cut limit Prod.snd (lineagesScript s path before limit) =
      cut limit Prod.snd ((lineagesAt s path).filter fun e => before = 0 ∨ e.2 < before) := by
  have hasymm : Std.Asymm fun a b : LineageId × ℕ => Newer a.2 b.2 := ⟨fun _ _ h => lt_asymm h⟩
  have hsorted := sorted_lineagesAt hc path
  have hpast : (s.history.path path).revRangeByScore before (limit + 1) ⊆
      (s.history.path path).reverse.filter fun e => before = 0 ∨ e.2 < before :=
    fun e he => mem_of_mem_take he
  have hsub : lineagesScript s path before limit ⊆
      (lineagesAt s path).filter fun e => before = 0 ∨ e.2 < before := fun e he => by
    rw [lineagesScript_eq, mem_withEntry, Option.filter_eq_some_iff] at he
    rw [mem_filter, lineagesAt, mem_withEntry]
    obtain ⟨hlive, hlt⟩ | he := he
    · exact ⟨.inl hlive, hlt⟩
    · exact (mem_filter.mp (hpast he)).imp_left .inr
  refine ⟨fun e he => mem_of_mem_filter (hsub he), ?_⟩
  refine cut_eq_of_sorted Prod.snd ?_ (hsorted.filter _) hsub fun e he => ?_
  · rw [lineagesScript_eq]
    refine sorted_withEntry ((hc.sorted_path.filter _).sublist (take_sublist _ _)) fun e h e' he' => ?_
    have hmem := mem_reverse.mp (mem_of_mem_filter (hpast he'))
    exact (liveEntry_fresh hc (Option.filter_eq_some_iff.mp h).1).2 e' hmem
  · obtain ⟨hmem, hlt⟩ := mem_filter.mp (mem_of_mem_take he)
    rw [lineagesScript_eq, mem_withEntry, Option.filter_eq_some_iff]
    by_cases hlive : liveEntry s path = some e
    · exact .inl ⟨hlive, hlt⟩
    · -- Without the live entry the others come no later.
      have hfirst := mem_take_filter
        (p := fun e => (before = 0 ∨ e.2 < before) ∧ liveEntry s path ≠ some e)
        (fun a ha => decide_eq_true (of_decide_eq_true ha).1) he
        (decide_eq_true ⟨of_decide_eq_true hlt, hlive⟩)
      have hrest : (lineagesAt s path).filter
          (fun e => (before = 0 ∨ e.2 < before) ∧ liveEntry s path ≠ some e) =
          (s.history.path path).reverse.filter fun e => before = 0 ∨ e.2 < before := by
        refine eq_of_sorted (hsorted.filter _) (hc.sorted_path.filter _) fun a => ?_
        rw [mem_filter, mem_filter, lineagesAt, mem_withEntry, decide_eq_true_eq,
          decide_eq_true_eq]
        constructor
        · rintro ⟨h, hlt, hne⟩
          exact ⟨h.resolve_left hne, hlt⟩
        · rintro ⟨h, hlt⟩
          refine ⟨.inr h, hlt, fun hlive => ?_⟩
          exact (liveEntry_fresh hc hlive).2 a (mem_reverse.mp h) rfl
      rw [hrest] at hfirst
      exact .inr hfirst

/-- **A page of `Lineages`** is a page of the lineages at the path. -/
theorem lineages_page (limit : ℤ) (hcur : c ≠ some 0) : (lineages s path limit (c.getD 0)).toPage =
      pageOf (pageLimit limit) Prod.snd Newer (lineagesAt s path) c := by
  obtain ⟨hsub, hcut⟩ := cut_lineagesScript hc path (pageLimit limit) (c.getD 0)
  have hbeyond : pageOf (pageLimit limit) Prod.snd Newer (lineagesAt s path) c =
      cut (pageLimit limit) Prod.snd
        ((lineagesAt s path).filter fun e => c.getD 0 = 0 ∨ e.2 < c.getD 0) := by
    simp only [pageOf, beyond_newer hcur]
  rw [hbeyond, ← hcut]
  exact cut_toPage (fun e he => lineagesAt_pos hc (hsub he)) (pageLimit_pos limit)

/-- **`Lineages` is complete.** -/
theorem lineages_complete (path : Path) (limit : ℤ) :
    ∃ n items, Follows (fun _ c => some (lineages s path limit (c.getD 0)).toPage) 0 none n items ∧
      items.Pairwise (fun a b => b.2 < a.2) ∧ (items.map Prod.fst).Nodup ∧
      ∀ e, e ∈ items ↔ e ∈ s.history.path path ∨
        liveFile s path = some e.1 ∧ (∀ n, (e.1, n) ∉ s.history.path path) ∧
          ∃ r, s.history.records r.id = some r ∧ (entry s.history e.1).head = some r.id ∧
            r.sequence = e.2 := by
  have hsorted := sorted_lineagesAt hc path
  obtain ⟨n, hfollows⟩ := follows_still (pageLimit_pos limit) hsorted
  refine ⟨n, _, ?_, hsorted, ?_, fun e => ?_⟩
  · refine hfollows.congr (P := (· ≠ some 0)) (fun _ c hcur => ?_) (fun _ c items c' _ h => ?_) nofun
    · rw [lineages_page hc limit hcur]
    · exact next_ne_zero (fun e he => lineagesAt_pos hc he) (Option.some.inj h)
  · rw [List.Nodup, pairwise_map]
    refine (hsorted.imp_of_mem fun {a b} ha hb hab => ?_)
    intro hfst
    obtain ha | ha := mem_lineagesAt.mp ha <;> obtain hb | hb := mem_lineagesAt.mp hb
    · rw [Option.some.inj (ha.symm.trans hb)] at hab
      exact lt_irrefl _ hab
    · obtain ⟨-, hnot, -⟩ := (liveEntry_eq_some_iff hc).mp ha
      exact hnot b.2 (hfst ▸ hb)
    · obtain ⟨-, hnot, -⟩ := (liveEntry_eq_some_iff hc).mp hb
      exact hnot a.2 (hfst ▸ ha)
    · have heq := inj_on_of_nodup_map (hc.paths.unique path) ha hb hfst
      rw [heq] at hab
      exact lt_irrefl _ hab
  · rw [mem_lineagesAt, or_comm, liveEntry_eq_some_iff hc]

end

end Lineages

end Afs.History
