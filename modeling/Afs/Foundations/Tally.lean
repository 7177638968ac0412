import Mathlib.Algebra.BigOperators.Finprod
import Mathlib.Algebra.Ring.Int.Defs
import Mathlib.Data.Set.Card
import Afs.Foundations.Keyed

/-!
# Tallies

The sum of a weight over a partial function that is defined at finitely many places, and how it
changes when the function changes at one place.
-/

namespace Afs

open List
open Function (update update_apply update_of_ne update_self)

variable {ι α : Type}

/-- The weight of a value that may be missing. -/
def weigh (w : α → ℤ) (o : Option α) : ℤ := (o.map w).getD 0

@[simp] theorem weigh_none (w : α → ℤ) : weigh w none = 0 := rfl

@[simp] theorem weigh_some (w : α → ℤ) (a : α) : weigh w (some a) = w a := rfl

/-- The places where a partial function is defined. -/
def places (f : ι → Option α) : Set ι := {i | f i ≠ none}

/-- The sum of the weights of all values. -/
noncomputable def tally (w : α → ℤ) (f : ι → Option α) : ℤ := ∑ᶠ i, weigh w (f i)

theorem support_weigh_subset (w : α → ℤ) (f : ι → Option α) :
    Function.support (fun i => weigh w (f i)) ⊆ places f := by
  intro i hi hnone
  exact hi (by simp [hnone])

variable {f : ι → Option α}

/-- **A tally that counts.** The weight is one where `p` holds and zero elsewhere. -/
theorem tally_eq_ncard {w : α → ℤ} {p : α → Prop} (hf : (places f).Finite)
    (hone : ∀ a, p a → w a = 1) (hzero : ∀ a, ¬ p a → w a = 0) :
    tally w f = ({i | ∃ a, f i = some a ∧ p a} : Set ι).ncard := by
  have hsub : {i | ∃ a, f i = some a ∧ p a} ⊆ places f := by
    rintro i ⟨a, ha, -⟩ hnone
    rw [hnone] at ha
    cases ha
  have hs := hf.subset hsub
  have hsupp : Function.support (fun i => weigh w (f i)) ⊆ hs.toFinset := by
    intro i hi
    rw [Set.Finite.coe_toFinset]
    cases ha : f i with
    | none => exact absurd (by simp [ha]) hi
    | some a =>
      refine ⟨a, ha, ?_⟩
      by_contra hp
      exact hi (by simp [ha, hzero a hp])
  have hall : ∀ i ∈ hs.toFinset, weigh w (f i) = 1 := by
    intro i hi
    obtain ⟨a, ha, hp⟩ := hs.mem_toFinset.mp hi
    rw [ha, weigh_some, hone a hp]
  rw [tally, finsum_eq_sum_of_support_subset _ hsupp, Finset.sum_congr rfl hall,
    Set.ncard_eq_toFinset_card _ hs]
  simp

theorem tally_nonneg {w : α → ℤ} (h : ∀ i a, f i = some a → 0 ≤ w a) : 0 ≤ tally w f := by
  refine finsum_nonneg fun i => ?_
  cases ha : f i with
  | none => exact le_rfl
  | some a => exact h i a ha

variable [DecidableEq ι]

theorem places_update_subset (f : ι → Option α) (i : ι) (x : Option α) :
    places (update f i x) ⊆ insert i (places f) := by
  intro j hj
  by_cases hji : j = i
  · exact .inl hji
  · refine .inr fun hnone => hj ?_
    rw [update_of_ne hji, hnone]

theorem finite_places_update (hf : (places f).Finite) (i : ι) (x : Option α) :
    (places (update f i x)).Finite :=
  (hf.insert i).subset (places_update_subset f i x)

/-- **A tally follows an update.** -/
theorem tally_update (w : α → ℤ) (hf : (places f).Finite) (i : ι) (x : Option α) :
    tally w (update f i x) = tally w f + weigh w x - weigh w (f i) := by
  have hsplit : ∀ g : ι → Option α, places g ⊆ insert i hf.toFinset →
      tally w g = weigh w (g i) + ∑ j ∈ (insert i hf.toFinset).erase i, weigh w (g j) := by
    intro g hg
    have hsub : Function.support (fun j => weigh w (g j)) ⊆ ↑(insert i hf.toFinset) := by
      rw [Finset.coe_insert]
      exact (support_weigh_subset w g).trans hg
    rw [tally, finsum_eq_sum_of_support_subset _ hsub,
      Finset.add_sum_erase _ (fun j => weigh w (g j)) (Finset.mem_insert_self i _)]
  have hf' : places (update f i x) ⊆ insert i hf.toFinset := by
    simpa using places_update_subset f i x
  have hrest : ∑ j ∈ (insert i hf.toFinset).erase i, weigh w (update f i x j) =
      ∑ j ∈ (insert i hf.toFinset).erase i, weigh w (f j) := by
    refine Finset.sum_congr rfl fun j hj => ?_
    rw [update_of_ne (Finset.ne_of_mem_erase hj)]
  rw [hsplit _ hf', hsplit f (by simp), hrest, update_self]
  omega

/-- A tally follows updates at distinct places. -/
theorem tally_foldl_update {β : Type} (w : α → ℤ) {key : β → ι} {x : β → Option α} {l : List β}
    (hl : (l.map key).Nodup) (hf : (places f).Finite) :
    (places (l.foldl (fun f b => update f (key b) (x b)) f)).Finite ∧
      tally w (l.foldl (fun f b => update f (key b) (x b)) f) =
        tally w f + (l.map fun b => weigh w (x b) - weigh w (f (key b))).sum := by
  induction l generalizing f with
  | nil => exact ⟨hf, by simp⟩
  | cons b l ih =>
    rw [map_cons, nodup_cons] at hl
    obtain ⟨hfin, htally⟩ := ih hl.2 (finite_places_update hf (key b) (x b))
    refine ⟨hfin, ?_⟩
    have hrest : (l.map fun b' => weigh w (x b') - weigh w (update f (key b) (x b) (key b'))) =
        l.map fun b' => weigh w (x b') - weigh w (f (key b')) :=
      map_congr_left fun b' hb' => by
        rw [update_of_ne]
        rintro he
        exact hl.1 (he ▸ mem_map_of_mem hb')
    rw [foldl_cons, htally, hrest, tally_update w hf, map_cons, sum_cons]
    omega

/-- **A tally over a keyed list is a sum.** -/
theorem tally_keyed (w : α → ℤ) {k : α → ι} {l : List α} (hl : (l.map k).Nodup) :
    (places (keyed k l)).Finite ∧ tally w (keyed k l) = (l.map w).sum := by
  induction l with
  | nil =>
    have hnone : places (keyed k []) = ∅ := Set.eq_empty_of_forall_notMem fun i hi => hi rfl
    refine ⟨by rw [hnone]; exact Set.finite_empty, ?_⟩
    rw [tally, map_nil, sum_nil]
    exact finsum_eq_zero_of_forall_eq_zero fun i => rfl
  | cons a l ih =>
    rw [map_cons, nodup_cons] at hl
    obtain ⟨hfin, hsum⟩ := ih hl.2
    have hcons : keyed k (a :: l) = update (keyed k l) (k a) (some a) := by
      funext i
      rw [keyed, List.find?_cons, update_apply]
      by_cases hi : k a = i
      · simp [hi]
      · simp [hi, Ne.symm hi, keyed]
    have hnew : keyed k l (k a) = none := keyed_eq_none_iff.mpr hl.1
    rw [hcons]
    refine ⟨finite_places_update hfin _ _, ?_⟩
    rw [tally_update w hfin, hnew, hsum, map_cons, sum_cons, weigh_some, weigh_none]
    omega

end Afs
