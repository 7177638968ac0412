import Mathlib.Data.List.AList
import Mathlib.Data.List.Infix

/-!
# Tables of paths

A finite table whose keys are paths, read as a tree: what is under a path can be taken out as a
whole and moved to another place. Each operation is said by what a lookup finds afterwards.
-/

namespace Afs

open List

variable {κ α : Type} [DecidableEq κ]

/-- A finite table keyed by paths. -/
abbrev Table (κ α : Type) := AList fun _ : List κ => α

namespace Table

variable {t : Table κ α} {p q src dst : List κ}

/-- The table of a list, whose first entry for a key counts. -/
def ofList (l : List (List κ × α)) : Table κ α := l.foldr (fun e t => t.insert e.1 e.2) ∅

/-- The table without what is at and under a path. -/
def removeAll (t : Table κ α) (p : List κ) : Table κ α where
  entries := t.entries.filter fun e => ¬ p <+: e.1
  nodupKeys := t.nodupKeys.sublist filter_sublist

/-- The part of the table whose values pass a test. -/
def only (t : Table κ α) (f : α → Bool) : Table κ α where
  entries := t.entries.filter fun e => f e.2
  nodupKeys := t.nodupKeys.sublist filter_sublist

omit [DecidableEq κ] in
theorem mem_entries_iff_lookup [DecidableEq κ] {a : α} : ⟨p, a⟩ ∈ t.entries ↔ t.lookup p = some a :=
  AList.mem_lookup_iff.symm

theorem ext_lookup_iff {o o' : Option α} (h : ∀ a, o = some a ↔ o' = some a) : o = o' :=
  Option.ext fun a => by simpa using h a

theorem lookup_removeAll : (t.removeAll p).lookup q = if p <+: q then none else t.lookup q := by
  refine ext_lookup_iff fun a => ?_
  rw [← mem_entries_iff_lookup, removeAll, mem_filter]
  by_cases hq : p <+: q
  · simp [hq]
  · simp [hq, mem_entries_iff_lookup]

theorem lookup_only {f : α → Bool} : (t.only f).lookup q = (t.lookup q).filter f := by
  refine ext_lookup_iff fun a => ?_
  rw [← mem_entries_iff_lookup, only, mem_filter, mem_entries_iff_lookup,
    Option.filter_eq_some_iff]

/-- Where a path under `src` goes when `src` becomes `dst`. -/
def relocate (src dst q : List κ) : List κ := dst ++ q.drop src.length

omit [DecidableEq κ] in
theorem relocate_append : relocate src dst (src ++ q) = dst ++ q := by
  rw [relocate, drop_left]

/-- The table with what is at and under `src` moved to `dst`, in place of what was there. -/
def move (t : Table κ α) (src dst : List κ) : Table κ α where
  entries := (t.entries.filter fun e => src <+: e.1).map (fun e => ⟨relocate src dst e.1, e.2⟩) ++
    t.entries.filter fun e => ¬ src <+: e.1 ∧ ¬ dst <+: e.1
  nodupKeys := by
    rw [List.NodupKeys, List.keys, map_append, nodup_append]
    refine ⟨?_, t.nodupKeys.sublist filter_sublist, ?_⟩
    · rw [map_map]
      have hsub : ((t.entries.filter fun e => src <+: e.1).map Sigma.fst).Nodup :=
        t.nodupKeys.sublist filter_sublist
      have hmap : (t.entries.filter fun e => src <+: e.1).map
            (Sigma.fst ∘ fun e => (⟨relocate src dst e.1, e.2⟩ : Sigma fun _ : List κ => α)) =
          ((t.entries.filter fun e => src <+: e.1).map Sigma.fst).map (relocate src dst) := by
        rw [map_map]
        rfl
      rw [hmap]
      refine hsub.map_on fun a ha b hb hab => ?_
      obtain ⟨ea, hea, rfl⟩ := mem_map.mp ha
      obtain ⟨eb, heb, rfl⟩ := mem_map.mp hb
      obtain ⟨ra, hra⟩ := of_decide_eq_true (mem_filter.mp hea).2
      obtain ⟨rb, hrb⟩ := of_decide_eq_true (mem_filter.mp heb).2
      rw [← hra, ← hrb, relocate_append, relocate_append] at hab
      rw [← hra, ← hrb, append_cancel_left hab]
    · intro a ha b hb hab
      subst hab
      obtain ⟨e, he, rfl⟩ := mem_map.mp hb
      obtain ⟨e', he', hee'⟩ := mem_map.mp ha
      obtain ⟨e'', -, rfl⟩ := mem_map.mp he'
      have hdst := (of_decide_eq_true (mem_filter.mp he).2).2
      exact hdst (hee' ▸ prefix_append ..)

theorem lookup_move : (t.move src dst).lookup q =
    if dst <+: q then t.lookup (relocate dst src q) else if src <+: q then none else t.lookup q := by
  refine ext_lookup_iff fun a => ?_
  rw [← mem_entries_iff_lookup, move, mem_append, mem_map, mem_filter]
  by_cases hdst : dst <+: q
  · obtain ⟨r, rfl⟩ := hdst
    rw [if_pos (prefix_append ..), relocate_append]
    constructor
    · rintro (⟨e, he, heq⟩ | ⟨-, h⟩)
      · obtain ⟨hmem, hsrc⟩ := mem_filter.mp he
        obtain ⟨r', hr'⟩ := of_decide_eq_true hsrc
        obtain ⟨q', a'⟩ := e
        simp only at hr'
        subst hr'
        simp only [relocate_append, Sigma.mk.injEq, append_cancel_left_eq, heq_eq_eq] at heq
        obtain ⟨rfl, rfl⟩ := heq
        exact mem_entries_iff_lookup.mp hmem
      · simp at h
    · intro h
      refine .inl ⟨⟨src ++ r, a⟩, mem_filter.mpr ⟨mem_entries_iff_lookup.mpr h, by simp⟩, ?_⟩
      rw [relocate_append]
  · rw [if_neg hdst]
    constructor
    · rintro (⟨e, -, heq⟩ | ⟨hmem, h⟩)
      · exact absurd ((Sigma.mk.inj heq).1 ▸ prefix_append ..) hdst
      · rw [if_neg (of_decide_eq_true h).1]
        exact mem_entries_iff_lookup.mp hmem
    · by_cases hsrc : src <+: q
      · simp [hsrc]
      · rw [if_neg hsrc]
        exact fun h => .inr ⟨mem_entries_iff_lookup.mpr h, by simp [hsrc, hdst]⟩

/-- The last components of the keys right under a path. -/
def names (t : Table κ α) (p : List κ) : List κ :=
  t.keys.filterMap fun q => if q ≠ [] ∧ q.dropLast = p then q.getLast? else none

theorem mem_names {n : κ} : n ∈ t.names p ↔ (t.lookup (p ++ [n])).isSome := by
  rw [AList.lookup_isSome, AList.mem_keys, names, mem_filterMap]
  constructor
  · rintro ⟨q, hq, hn⟩
    obtain ⟨⟨-, hp⟩, hlast⟩ | ⟨-, h⟩ := ite_eq_iff.mp hn
    · rwa [← hp, dropLast_append_getLast? n hlast]
    · cases h
  · intro h
    exact ⟨p ++ [n], h, by simp⟩

end Table

end Afs
