import Mathlib.Logic.Function.Basic
import Mathlib.Logic.Relation

/-!
# Forests of parent pointers

A forest is a function `up` that gives a node its parent, if it has one. `Climbs up i a` says that
following parents from `i` leads to `a`. A node that climbs to one without a parent is on no cycle,
and hanging a node below another one keeps every climb to a root unless the new parent lies below
the node itself.
-/

namespace Afs.Forest

open Function

variable {ι : Type} {up : ι → Option ι} {a i j p r v : ι}

/-- Following parents from `i` leads to `a`, in finitely many steps. -/
def Climbs (up : ι → Option ι) (i a : ι) : Prop :=
  Relation.ReflTransGen (fun i p => up i = some p) i a

theorem Climbs.refl (i : ι) : Climbs up i i := Relation.ReflTransGen.refl

theorem Climbs.head (hi : up i = some p) (hp : Climbs up p a) : Climbs up i a :=
  Relation.ReflTransGen.head hi hp

theorem Climbs.cases_head (h : Climbs up i a) : i = a ∨ ∃ p, up i = some p ∧ Climbs up p a :=
  Relation.ReflTransGen.cases_head h

/-- What climbs to a root is on no cycle. -/
theorem not_cycle (hr : up r = none) (h : Climbs up i r) (hi : up i = some p) :
    ¬ Climbs up p i := by
  intro hcycle
  -- from every node of the cycle the climb goes on, so it never ends at the root
  have key : ∀ j, Climbs up j r → ∀ q, up j = some q → Climbs up q j → False := by
    intro j hj
    induction hj using Relation.ReflTransGen.head_induction_on with
    | refl =>
      intro q hq _
      rw [hr] at hq
      cases hq
    | head hjk _ ih =>
      intro q hq hqj
      have hqk : some q = some _ := hq.symm.trans hjk
      cases hqk
      obtain rfl | ⟨q', hq', hq'j⟩ := hqj.cases_head
      · exact ih _ hjk (.refl _)
      · exact ih q' hq' (Relation.ReflTransGen.tail hq'j hjk)
  exact key i h p hi hcycle

section Update

variable [DecidableEq ι]

/-- A climb that does not pass `i` does not see where `i` hangs. -/
theorem climbs_update_of_not (h : Climbs up j r) (hij : ¬ Climbs up j i) (x : Option ι) :
    Climbs (Function.update up i x) j r := by
  induction h using Relation.ReflTransGen.head_induction_on with
  | refl => exact .refl r
  | @head j k hjk _ ih =>
    have hne : j ≠ i := by
      rintro rfl
      exact hij (.refl j)
    have hup : update up i x j = some k := by rw [update_of_ne hne, hjk]
    exact .head hup (ih fun hki => hij (.head hjk hki))

/-- **Hanging a node elsewhere.** If the new parent climbs to the root and not to the node itself,
everything that climbed to the root still does. -/
theorem climbs_update (hp : Climbs up p r) (hpi : ¬ Climbs up p i) (h : Climbs up j r) :
    Climbs (Function.update up i (some p)) j r := by
  induction h using Relation.ReflTransGen.head_induction_on with
  | refl => exact .refl r
  | @head j k hjk _ ih =>
    by_cases hij : j = i
    · subst hij
      exact .head (update_self _ _ _) (climbs_update_of_not hp hpi _)
    · have hup : update up i (some p) j = some k := by rw [update_of_ne hij, hjk]
      exact .head hup ih

/-- A node that is nobody's parent can go. -/
theorem climbs_erase (hv : ∀ k, up k ≠ some v) (hj : j ≠ v) (h : Climbs up j r) :
    Climbs (Function.update up v none) j r := by
  refine climbs_update_of_not h (fun hjv => ?_) none
  obtain rfl | ⟨k, hk, hkv⟩ := Relation.ReflTransGen.cases_tail hjv
  · exact hj rfl
  · exact hv _ hkv

end Update

end Afs.Forest
