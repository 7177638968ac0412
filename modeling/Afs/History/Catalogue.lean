import Afs.History.Sweep

/-!
# The index of lineages by path

Beside the records and their timelines the history keeps, for every path, the lineages that had a
version there, each with the number of its last one. Entries are never removed, so they may be about
records that are gone; their numbers are still those lineages' own, since numbers are given once.
-/

namespace Afs.History

open List

/-- The index of lineages by path, when the numbers up to `bound` have been given and the records
`rs` are kept. -/
structure PathIndex (path : Path → ZSet LineageId) (rs : List Record) (bound : ℕ) : Prop where
  sorted : ∀ p, (path p).Pairwise fun a b => a.2 < b.2
  unique : ∀ p, ((path p).map Prod.fst).Nodup
  given : ∀ p, ∀ e ∈ path p, 1 ≤ e.2 ∧ e.2 ≤ bound
  own : ∀ p, ∀ e ∈ path p, ∀ r ∈ rs, r.sequence = e.2 → r.fileId = e.1

/-- The keys of a history show the records `rs`, and its lineages are indexed by path. -/
structure Catalogue (h : HistoryKeys) (rs : List Record) : Prop where
  represents : Represents h rs
  numbered : ∀ r ∈ rs, 1 ≤ r.version
  paths : PathIndex h.path rs (h.sequence.getD 0)

/-- A history with a policy and nothing else. -/
theorem Catalogue.empty (policy : Option Policy) : Catalogue { policy := policy } [] where
  represents := .empty policy
  numbered := forall_mem_nil _
  paths := ⟨fun _ => .nil, fun _ => nodup_nil, fun _ => forall_mem_nil _,
    fun _ => forall_mem_nil _⟩

section PathIndex

variable {h : HistoryKeys} {rs ns : List Record} {r : Record} {bound : ℕ}
  {path : Path → ZSet LineageId}

theorem PathIndex.subset (hp : PathIndex path rs bound) {rs' : List Record} (hsub : rs' ⊆ rs) :
    PathIndex path rs' bound :=
  ⟨hp.sorted, hp.unique, hp.given, fun p e he r hr => hp.own p e he r (hsub hr)⟩

theorem PathIndex.mono (hp : PathIndex path rs bound) {bound' : ℕ} (hle : bound ≤ bound') :
    PathIndex path rs bound' :=
  ⟨hp.sorted, hp.unique, fun p e he => ⟨(hp.given p e he).1, (hp.given p e he).2.trans hle⟩, hp.own⟩

/-- Adding a record moves its lineage to the end, under the paths the record names. -/
theorem addRecord_path (h : HistoryKeys) (r : Record) (p : Path) : (addRecord h r).path p =
      if p = r.path ∨ r.previousPath = some p then (h.path p).add r.fileId r.sequence
      else h.path p := by
  have hadd : ∀ z : ZSet LineageId, (z.add r.fileId r.sequence).add r.fileId r.sequence =
      z.add r.fileId r.sequence := fun z => by simp [ZSet.add]
  dsimp only [addRecord]
  cases hprev : r.previousPath with
  | none => by_cases hp : p = r.path <;> simp [hp]
  | some q =>
    by_cases hp : p = r.path <;> by_cases hq : q = p
    · subst hp hq
      simp [hadd]
    · subst hp
      simp [Function.update_of_ne (Ne.symm hq)]
    · subst hq
      simp [Function.update_of_ne hp]
    · simp [Function.update_of_ne (Ne.symm hq), hp, hq]

/-- **Adding a record indexes it.** -/
theorem PathIndex.add (hp : PathIndex h.path rs bound) (hbound : bound < r.sequence)
    (hrs : ∀ r' ∈ rs, r'.sequence < r.sequence) :
    PathIndex (addRecord h r).path (rs ++ [r]) r.sequence := by
  have hkeep : ∀ p, ((h.path p).filter fun e => e.1 ≠ r.fileId).Sublist (h.path p) := fun p =>
    filter_sublist
  have hmem : ∀ p e, e ∈ (addRecord h r).path p → e ∈ h.path p ∨ e = (r.fileId, r.sequence) := by
    intro p e he
    rw [addRecord_path] at he
    split at he
    · exact (mem_append.mp he).imp (fun h => (hkeep p).subset h) mem_singleton.mp
    · exact .inl he
  refine ⟨fun p => ?_, fun p => ?_, fun p e he => ?_, fun p e he r' hr' hseq => ?_⟩
  · rw [addRecord_path]
    split
    · refine pairwise_append.mpr ⟨(hp.sorted p).sublist (hkeep p), pairwise_singleton _ _,
        fun a ha b hb => ?_⟩
      rw [mem_singleton.mp hb]
      exact (hp.given p a ((hkeep p).subset ha)).2.trans_lt hbound
    · exact hp.sorted p
  · rw [addRecord_path]
    split
    · rw [ZSet.add, map_append, nodup_append]
      refine ⟨(hp.unique p).sublist ((hkeep p).map _), nodup_singleton _, fun x hx y hy => ?_⟩
      obtain ⟨e, he, rfl⟩ := mem_map.mp hx
      rw [map_singleton, mem_singleton] at hy
      rw [hy]
      exact of_decide_eq_true (mem_filter.mp he).2
    · exact hp.unique p
  · obtain he | rfl := hmem p e he
    · obtain ⟨hpos, hle⟩ := hp.given p e he
      exact ⟨hpos, hle.trans hbound.le⟩
    · exact ⟨Nat.one_le_of_lt hbound, le_rfl⟩
  · obtain he | rfl := hmem p e he <;> obtain hr' | hr' := mem_append.mp hr'
    · exact hp.own p e he r' hr' hseq
    · rw [mem_singleton.mp hr'] at hseq
      exact absurd hseq ((hp.given p e he).2.trans_lt hbound).ne'
    · exact absurd hseq (hrs r' hr').ne
    · rw [mem_singleton.mp hr']

/-- Adding several records. -/
theorem PathIndex.addAll (hp : PathIndex h.path rs bound) (hns : (rs ++ ns).Pairwise Earlier)
    (hlater : ∀ r ∈ ns, bound < r.sequence) {bound' : ℕ} (hle : bound ≤ bound')
    (hmax : ∀ r ∈ ns, r.sequence ≤ bound') :
    PathIndex (ns.foldl addRecord h).path (rs ++ ns) bound' := by
  induction ns generalizing h rs bound with
  | nil =>
    rw [append_nil]
    exact hp.mono hle
  | cons r ns ih =>
    have hsplit := hns
    rw [append_cons] at hns ⊢
    have hfirst := (pairwise_append.mp hsplit).2.2
    have hrest := (pairwise_append.mp hns).2.2
    refine ih (hp.add (hlater r mem_cons_self) fun r' hr' =>
      (hfirst r' hr' r mem_cons_self).sequence) hns (fun r' hr' => ?_)
      (hmax r mem_cons_self) fun r' hr' => hmax r' (mem_cons_of_mem _ hr')
    exact (hrest r (mem_append_right _ (mem_singleton_self r)) r' hr').sequence

end PathIndex

section Steps

variable {s : Store} {h h' : HistoryKeys} {rs : List Record}

/-- A step of the journal that indexes the records it adds. -/
theorem Catalogue.turn {out ns : List Record} (hc : Catalogue h rs) (ht : Turn h rs out ns h')
    (hpath : h'.path = (ns.foldl addRecord h).path) :
    Catalogue h' (dropKeys Record.id out rs ++ ns) := by
  refine ⟨ht.represents, fun r hr => ?_, ?_⟩
  · obtain hr | hr := mem_append.mp hr
    · exact hc.numbered r (dropKeys_subset hr)
    · exact Nat.one_le_of_lt (ht.later r hr).2
  · rw [hpath]
    have hall := hc.paths.addAll ht.earlier (fun r hr => (ht.later r hr).1) ht.sequence fun r hr =>
      (ht.represents.sequences r (mem_append_right _ hr)).2
    refine hall.subset fun r hr => ?_
    obtain hr | hr := mem_append.mp hr
    · exact mem_append_left _ (dropKeys_subset hr)
    · exact mem_append_right _ hr

/-- **A capture keeps the catalogue.** -/
theorem Catalogue.capture {operation origin : Token} {now : ℕ} {changes : List Change} {cap : Captured}
    (hc : Catalogue s.history rs) (hids : (changes.map (·.id)).Nodup)
    (hcap : capture s operation origin now changes = .ok cap) :
    ∃ rs', Catalogue cap.history rs' := by
  obtain ⟨out, ns, ht, hpath⟩ := capture_evolves hc.represents hids hcap
  exact ⟨_, hc.turn ht hpath⟩

/-- A sweep leaves the index of lineages alone. -/
theorem prune_path {now : ℤ} {limit : ℕ} (hp : prune h now limit = .ok h') : h'.path = h.path := by
  obtain rfl | ⟨_, _, _, w, _, _, _, _, _, _, -, rfl⟩ := prune_cases hp
  · rfl
  · exact path_dropAll h w.plans

/-- **A sweep keeps the catalogue.** -/
theorem Catalogue.prune {now : ℤ} {limit : ℕ} (hc : Catalogue h rs)
    (hp : prune h now limit = .ok h') : ∃ rs', Catalogue h' rs' := by
  obtain ⟨out, ht⟩ := prune_turn hc.represents hp
  exact ⟨_, hc.turn ht (prune_path hp)⟩

end Steps

end Afs.History
