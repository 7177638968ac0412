import Mathlib.Algebra.BigOperators.Group.List.Basic
import Mathlib.Algebra.Order.Ring.Int
import Mathlib.Data.List.Nodup
import Mathlib.Data.List.Perm.Basic
import Mathlib.Logic.Function.Basic

/-!
# Keyed lists

Lists whose members have distinct keys: finding a member, taking members out, and what stays last.
They are the abstract side of stores that keep one value per key and list the keys in the order in
which they came.
-/

namespace Afs

open List

variable {α β κ : Type} [DecidableEq κ] {k : α → κ} {l d : List α} {a : α} {i : κ}

/-- The member with a key. -/
def keyed (k : α → κ) (l : List α) (i : κ) : Option α := l.find? fun a => k a = i

/-- The members whose keys are not among those of `d`. -/
def dropKeys (k : α → κ) (d l : List α) : List α := l.filter fun a => k a ∉ d.map k

theorem keyed_eq_some_iff (hl : (l.map k).Nodup) : keyed k l i = some a ↔ a ∈ l ∧ k a = i := by
  constructor
  · intro h
    exact ⟨mem_of_find?_eq_some h, by simpa using List.find?_some h⟩
  · rintro ⟨ha, rfl⟩
    cases hf : keyed k l (k a) with
    | none => simpa using (List.find?_eq_none.mp hf) a ha
    | some b =>
      have hb := mem_of_find?_eq_some hf
      have hi : k b = k a := by simpa using List.find?_some hf
      rw [inj_on_of_nodup_map hl hb ha hi]

theorem keyed_self (hl : (l.map k).Nodup) (ha : a ∈ l) : keyed k l (k a) = some a :=
  (keyed_eq_some_iff hl).mpr ⟨ha, rfl⟩

theorem keyed_eq_none_iff : keyed k l i = none ↔ i ∉ l.map k := by
  rw [keyed, List.find?_eq_none]
  simp

theorem keyed_append_of_notMem (hi : i ∉ l.map k) (l' : List α) :
    keyed k (l ++ l') i = keyed k l' i := by
  have hnone := keyed_eq_none_iff.mpr hi
  rw [keyed] at hnone
  rw [keyed, List.find?_append, hnone, Option.none_or, keyed]

theorem keyed_append_single_ne (h : k a ≠ i) : keyed k (l ++ [a]) i = keyed k l i := by
  rw [keyed, List.find?_append]
  simp [h, keyed]

theorem keyed_filter_ne (i' : κ) :
    keyed k (l.filter fun a => k a ≠ i') i = if i = i' then none else keyed k l i := by
  rw [keyed, List.find?_filter]
  split
  · next h =>
    subst h
    rw [List.find?_eq_none]
    simp
  · next h =>
    congr 1
    funext a
    by_cases ha : k a = i
    · simp [ha, h]
    · simp [ha]

omit [DecidableEq κ] in
theorem nodup_filter (hl : (l.map k).Nodup) (p : α → Bool) : ((l.filter p).map k).Nodup :=
  hl.sublist ((filter_sublist).map k)

theorem dropKeys_subset : dropKeys k d l ⊆ l := fun _ ha => mem_of_mem_filter ha

theorem dropKeys_nil : dropKeys k [] l = l := by simp [dropKeys]

theorem dropKeys_cons (b : α) :
    dropKeys k (b :: d) l = dropKeys k d (l.filter fun a => k a ≠ k b) := by
  rw [dropKeys, dropKeys, filter_filter]
  refine filter_congr fun a _ => ?_
  rw [← Bool.decide_and]
  refine decide_eq_decide.mpr ?_
  rw [map_cons, mem_cons, not_or, and_comm]

/-- Members whose keys differ stay when one is taken d. -/
theorem mem_filter_ne_of_nodup {b : α} (hout : ((b :: d).map k).Nodup) (hsub : d ⊆ l) :
    d ⊆ l.filter fun a => k a ≠ k b := by
  intro a ha
  rw [map_cons, nodup_cons] at hout
  refine mem_filter.mpr ⟨hsub ha, decide_eq_true ?_⟩
  intro he
  exact hout.1 (he ▸ mem_map_of_mem ha)

/-- **What is taken d and what stays make up the list.** -/
theorem perm_append_dropKeys (hl : (l.map k).Nodup) (hout : (d.map k).Nodup) (hsub : d ⊆ l) :
    (d ++ dropKeys k d l).Perm l := by
  have hin : d.Perm (l.filter fun a => k a ∈ d.map k) := by
    rw [perm_ext_iff_of_nodup hout.of_map (hl.of_map.filter _)]
    intro a
    rw [mem_filter]
    constructor
    · intro ha
      exact ⟨hsub ha, decide_eq_true (mem_map_of_mem ha)⟩
    · rintro ⟨ha, hi⟩
      obtain ⟨b, hb, hba⟩ := mem_map.mp (of_decide_eq_true hi)
      rwa [← inj_on_of_nodup_map hl (hsub hb) ha hba]
  have hsplit := filter_append_perm (fun a => decide (k a ∈ d.map k)) l
  have hrest : (l.filter fun a => !decide (k a ∈ d.map k)) = dropKeys k d l :=
    filter_congr fun a _ => decide_not.symm
  rw [hrest] at hsplit
  exact (hin.append_right _).trans hsplit

theorem dropKeys_snoc (b : α) :
    dropKeys k (d ++ [b]) l = (dropKeys k d l).filter fun a => k a ≠ k b := by
  rw [dropKeys, dropKeys, filter_filter]
  refine filter_congr fun a _ => ?_
  rw [← Bool.decide_and]
  refine decide_eq_decide.mpr ?_
  rw [map_append, mem_append, not_or, map_singleton, mem_singleton, and_comm]

/-- One member and the others make up the list. -/
theorem perm_cons_filter_ne (hl : (l.map k).Nodup) (ha : a ∈ l) :
    (a :: l.filter fun b => k b ≠ k a).Perm l := by
  have hperm := perm_append_dropKeys (d := [a]) hl (by simp) (by simpa using ha)
  rwa [dropKeys_cons, dropKeys_nil] at hperm

theorem mem_dropKeys : a ∈ dropKeys k d l ↔ a ∈ l ∧ k a ∉ d.map k := by
  rw [dropKeys, mem_filter, decide_eq_true_iff]

/-- The last member stays last as long as it stays. -/
theorem getLast?_filter {p : α → Bool} (h : ∀ a, l.getLast? = some a → p a = true) :
    (l.filter p).getLast? = l.getLast? := by
  rcases eq_nil_or_concat l with rfl | ⟨l', b, rfl⟩
  · rfl
  · have hb : p b = true := h b (by simp)
    simp [filter_append, hb]

/-- A list that is sorted by `r` has its greatest member last. -/
theorem rel_getLast? {r : α → α → Prop} (hl : l.Pairwise r) (hlast : l.getLast? = some a) {b : α}
    (hb : b ∈ l) : b = a ∨ r b a := by
  rcases eq_nil_or_concat l with rfl | ⟨l', c, rfl⟩
  · cases hb
  · have hca : c = a := by simpa using hlast
    subst hca
    rw [concat_eq_append, pairwise_append] at hl
    rw [concat_eq_append, mem_append, mem_singleton] at hb
    rcases hb with hb | hb
    · exact .inr (hl.2.2 b hb c (mem_singleton_self c))
    · exact .inl hb

/-- Updates at distinct keys, one after the other. -/
theorem foldl_update {v : α → β → β} (hl : (l.map k).Nodup) (f : κ → β) (i : κ) :
    l.foldl (fun f a => Function.update f (k a) (v a (f (k a)))) f i =
      (keyed k l i).elim (f i) fun a => v a (f i) := by
  induction l generalizing f with
  | nil => rfl
  | cons a l ih =>
    rw [map_cons, nodup_cons] at hl
    rw [foldl_cons, ih hl.2]
    by_cases hi : k a = i
    · subst hi
      have hself : keyed k (a :: l) (k a) = some a := by simp [keyed]
      rw [keyed_eq_none_iff.mpr hl.1, hself]
      exact Function.update_self ..
    · have hcons : keyed k (a :: l) i = keyed k l i := by simp [keyed, hi]
      rw [hcons, Function.update_of_ne (Ne.symm hi)]

theorem foldl_update_congr {u v : α → β → β} (hl : (l.map k).Nodup) {f : κ → β}
    (h : ∀ a ∈ l, u a (f (k a)) = v a (f (k a))) :
    l.foldl (fun f a => Function.update f (k a) (u a (f (k a)))) f =
      l.foldl (fun f a => Function.update f (k a) (v a (f (k a)))) f := by
  funext i
  rw [foldl_update hl, foldl_update hl]
  cases hi : keyed k l i with
  | none => rfl
  | some a =>
    obtain ⟨ha, rfl⟩ := (keyed_eq_some_iff hl).mp hi
    exact h a ha

/-! ## Sums over a list -/

theorem sum_map_filter (p : α → Bool) (f : α → ℤ) (l : List α) :
    ((l.filter p).map f).sum = (l.map fun a => if p a then f a else 0).sum := by
  induction l with
  | nil => rfl
  | cons a l ih =>
    rw [filter_cons]
    split
    · next h => simp [h, ih]
    · next h => simp [h, ih]

theorem sum_map_eq_sub {f g h : α → ℤ} (hl : ∀ a ∈ l, f a = g a - h a) :
    (l.map f).sum = (l.map g).sum - (l.map h).sum := by
  induction l with
  | nil => rfl
  | cons a l ih =>
    have ha := hl a mem_cons_self
    have htail := ih fun b hb => hl b (mem_cons_of_mem _ hb)
    simp only [map_cons, sum_cons]
    omega

end Afs
