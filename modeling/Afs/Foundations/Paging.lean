import Mathlib.Data.List.Sort
import Mathlib.Order.WellFounded
import Mathlib.Tactic.Common

/-!
# Paging

A listing that is read page by page. A page has at most `limit` items and, if there are more, a
cursor: the key of its last item, from which the next page goes on. The pages may be cut from
different lists, if the listing changes in the meantime. What is listed all the time is yielded,
once and in order; if the listing does not change, the pages together are the listing.
-/

namespace Afs

open List

/-- A page and the cursor of the next one. -/
structure Page (α κ : Type) where
  items : List α
  next : Option κ

variable {α κ : Type}

/-- The first page of a list. -/
def cut (limit : ℕ) (key : α → κ) (l : List α) : Page α κ where
  items := l.take limit
  next := if limit < l.length then (l.take limit).getLast?.map key else none

/-- The cursors are followed from `c` on, starting with page `k`; page `n` is the last one. No page
is an error. -/
inductive Follows (page : ℕ → Option κ → Option (Page α κ)) : ℕ → Option κ → ℕ → List α → Prop
  | last {k c items} : page k c = some ⟨items, none⟩ → Follows page k c k items
  | more {k c items c' n rest} : page k c = some ⟨items, some c'⟩ →
      Follows page (k + 1) (some c') n rest → Follows page k c n (items ++ rest)

/-- The pages agree at the cursors that are met. -/
theorem Follows.congr {page page' : ℕ → Option κ → Option (Page α κ)} {P : Option κ → Prop}
    (hpage : ∀ k c, P c → page' k c = page k c)
    (hnext : ∀ k c items c', P c → page k c = some ⟨items, some c'⟩ → P (some c')) {k n : ℕ}
    {c : Option κ} {items : List α} (hc : P c) (h : Follows page k c n items) :
    Follows page' k c n items := by
  induction h with
  | last h => exact .last ((hpage _ _ hc).trans h)
  | more h _ ih => exact .more ((hpage _ _ hc).trans h) (ih (hnext _ _ _ _ hc h))

theorem cut_take (limit : ℕ) (key : α → κ) (l : List α) :
    cut limit key (l.take (limit + 1)) = cut limit key l := by
  have htake : (l.take (limit + 1)).take limit = l.take limit := by
    rw [take_take, min_eq_left (Nat.le_succ limit)]
  have hlength : limit < (l.take (limit + 1)).length ↔ limit < l.length := by
    rw [length_take]
    omega
  rw [cut, cut, htake]
  simp only [hlength]

variable {l : List α} {lt : α → α → Prop}

/-- Two lists with the same members in the same order are equal. -/
theorem eq_of_sorted [Std.Asymm lt] {u : List α} (hl : l.Pairwise lt)
    (hu : u.Pairwise lt) (h : ∀ a, a ∈ l ↔ a ∈ u) : l = u := by
  have hnodup : ∀ {l : List α}, l.Pairwise lt → l.Nodup := fun hl => hl.imp fun {a b} hab => by
    rintro rfl
    exact Std.Asymm.asymm _ _ hab hab
  exact ((perm_ext_iff_of_nodup (hnodup hl) (hnodup hu)).mpr h).eq_of_pairwise
    (fun a b _ _ hab hba => absurd hba (Std.Asymm.asymm _ _ hab)) hl hu

/-- **A cut only looks at the first items.** `l` has them all, and nothing else. -/
theorem cut_eq_of_sorted [Std.Asymm lt] {u : List α} {limit : ℕ} (key : α → κ)
    (hl : l.Pairwise lt) (hu : u.Pairwise lt) (hsub : l ⊆ u) (hfirst : u.take (limit + 1) ⊆ l) :
    cut limit key l = cut limit key u := by
  classical
  -- Both are in the same order, so `l` is `u` without what is not in `l`.
  have hfilter : l = u.filter (· ∈ l) := by
    refine eq_of_sorted hl (hu.filter _) fun a => ?_
    rw [mem_filter, decide_eq_true_eq]
    exact ⟨fun ha => ⟨hsub ha, ha⟩, fun ha => ha.2⟩
  have hsplit : l = u.take (limit + 1) ++ (u.drop (limit + 1)).filter (· ∈ l) := by
    conv_lhs => rw [hfilter, ← take_append_drop (limit + 1) u, filter_append]
    congr 1
    exact filter_eq_self.mpr fun a ha => decide_eq_true (hfirst ha)
  have htake : l.take (limit + 1) = u.take (limit + 1) := by
    by_cases hlen : limit + 1 ≤ u.length
    · rw [hsplit, take_append_of_le_length (by rw [length_take]; omega), take_take,
        min_self]
    · have hall : u.take (limit + 1) = u := take_of_length_le (by omega)
      have hnone : u.drop (limit + 1) = [] := drop_eq_nil_of_le (by omega)
      rw [hall, hnone, filter_nil, append_nil] at hsplit
      rw [hsplit]
  rw [← cut_take, htake, cut_take]

/-- An item that passes a finer test is not later among those that pass it. -/
theorem mem_take_filter {p q : α → Bool} (hpq : ∀ a, p a = true → q a = true) {n : ℕ} {a : α}
    (ha : a ∈ (l.filter q).take n) (hp : p a = true) : a ∈ (l.filter p).take n := by
  induction l generalizing n with
  | nil => simp at ha
  | cons b l ih =>
    cases n with
    | zero => simp at ha
    | succ n =>
      by_cases hq : q b = true
      · rw [filter_cons_of_pos hq, take_succ_cons, mem_cons] at ha
        by_cases hpb : p b = true
        · rw [filter_cons_of_pos hpb, take_succ_cons, mem_cons]
          exact ha.imp_right ih
        · rw [filter_cons_of_neg hpb]
          obtain rfl | ha := ha
          · exact absurd hp hpb
          · exact (take_subset_take_left _ (Nat.le_succ n)) (ih ha)
      · have hpb : ¬ p b = true := fun h => hq (hpq b h)
        rw [filter_cons_of_neg hq] at ha
        rw [filter_cons_of_neg hpb]
        exact ih ha

section Follow

variable {key : α → κ} {r : κ → κ → Prop} [DecidableRel r] {limit : ℕ}

/-- An item comes after a cursor. -/
def Beyond (key : α → κ) (r : κ → κ → Prop) (c : Option κ) (a : α) : Prop := ∀ k ∈ c, r k (key a)

instance (key : α → κ) (c : Option κ) (a : α) : Decidable (Beyond key r c a) :=
  match c with
  | none => isTrue nofun
  | some k => decidable_of_iff (r k (key a)) ⟨fun h _ hk => Option.mem_some.mp hk ▸ h, fun h => h k rfl⟩

omit [DecidableRel r] in
theorem beyond_some {k : κ} {a : α} : Beyond key r (some k) a ↔ r k (key a) :=
  ⟨fun h => h k rfl, fun h _ hk => Option.mem_some.mp hk ▸ h⟩

/-- The page of the items after a cursor. -/
def pageOf (limit : ℕ) (key : α → κ) (r : κ → κ → Prop) [DecidableRel r] (l : List α) (c : Option κ) :
    Page α κ := cut limit key (l.filter fun a => Beyond key r c a)

omit [DecidableRel r] in
/-- What a cut shows and what it leaves: all of it, or the items up to the cursor, with those that
are left after it. -/
theorem cut_cases (hlimit : 0 < limit) (hl : l.Pairwise fun a b => r (key a) (key b)) :
    cut limit key l = ⟨l, none⟩ ∨ ∃ a ∈ l, cut limit key l = ⟨l.take limit, some (key a)⟩ ∧
      (∀ b ∈ l.take limit, b = a ∨ r (key b) (key a)) ∧
      ∀ b ∈ l, b ∈ l.take limit ∨ r (key a) (key b) := by
  by_cases hlen : limit < l.length
  · right
    have hne : l.take limit ≠ [] := fun h => by
      have hlength := congrArg List.length h
      rw [length_take, length_nil] at hlength
      omega
    have hlast := List.getLast?_eq_some_getLast hne
    have hparts := take_append_drop limit l
    rw [← hparts, pairwise_append] at hl
    obtain ⟨hbefore, -, hacross⟩ := hl
    refine ⟨(l.take limit).getLast hne, mem_of_mem_take (getLast_mem hne), ?_, fun b hb => ?_,
      fun b hb => ?_⟩
    · rw [cut, if_pos hlen, hlast]
      rfl
    · rw [← dropLast_append_getLast hne] at hb
      obtain hb | hb := mem_append.mp hb
      · rw [← dropLast_append_getLast hne, pairwise_append] at hbefore
        exact .inr (hbefore.2.2 b hb _ (mem_singleton_self _))
      · exact .inl (mem_singleton.mp hb)
    · rw [← hparts] at hb
      obtain hb | hb := mem_append.mp hb
      · exact .inl hb
      · exact .inr (hacross _ (getLast_mem hne) b hb)
  · left
    rw [cut, if_neg hlen, take_of_length_le (by omega)]

/-- **Following the cursors of a listing that may change.** The cursors become smaller, so there is a
last page; the items come in order, and one that is listed whenever a page is cut is among them. -/
theorem follows_moving [IsTrans κ r] (hlimit : 0 < limit) {l : ℕ → List α}
    (hl : ∀ k, (l k).Pairwise fun a b => r (key a) (key b)) {R : Option κ → Option κ → Prop}
    (hR : WellFounded R) (hstep : ∀ k c a, a ∈ l k → Beyond key r c a → R (some (key a)) c) (k : ℕ)
    (c : Option κ) :
    ∃ n items, k ≤ n ∧ Follows (fun k c => some (pageOf limit key r (l k) c)) k c n items ∧
      items.Pairwise (fun a b => r (key a) (key b)) ∧
      (∀ a ∈ items, Beyond key r c a ∧ ∃ j, k ≤ j ∧ j ≤ n ∧ a ∈ l j) ∧
      ∀ a, Beyond key r c a → (∀ j, k ≤ j → j ≤ n → a ∈ l j) → a ∈ items := by
  induction c using hR.induction generalizing k with
  | _ c ih =>
    have hsorted := (hl k).filter fun a => Beyond key r c a
    have hmem : ∀ a, a ∈ (l k).filter (fun a => Beyond key r c a) ↔ a ∈ l k ∧ Beyond key r c a :=
      fun a => by rw [mem_filter, decide_eq_true_eq]
    obtain hcut | ⟨a, ha, hcut, hbefore, hafter⟩ := cut_cases hlimit hsorted
    · refine ⟨k, _, le_rfl, .last (congrArg some hcut), hsorted, fun a ha => ?_, fun a hc hall => ?_⟩
      · obtain ⟨hlisted, hc⟩ := (hmem a).mp ha
        exact ⟨hc, k, le_rfl, le_rfl, hlisted⟩
      · exact (hmem a).mpr ⟨hall k le_rfl le_rfl, hc⟩
    · obtain ⟨hak, hac⟩ := (hmem a).mp ha
      obtain ⟨n, rest, hkn, hfollows, hrest, hbeyond, hall⟩ := ih _ (hstep k c a hak hac) (k + 1)
      have hover : ∀ b, Beyond key r (some (key a)) b → Beyond key r c b := fun b hb x hx =>
        IsTrans.trans _ _ _ (hac x hx) (beyond_some.mp hb)
      refine ⟨n, _, Nat.le_of_succ_le hkn, .more (congrArg some hcut) hfollows, ?_, fun b hb => ?_,
        fun b hc hlisted => ?_⟩
      · refine pairwise_append.mpr ⟨hsorted.sublist (take_sublist _ _), hrest, fun b hb d hd => ?_⟩
        have had := beyond_some.mp (hbeyond d hd).1
        obtain rfl | hba := hbefore b hb
        · exact had
        · exact IsTrans.trans _ _ _ hba had
      · obtain hb | hb := mem_append.mp hb
        · obtain ⟨hlisted, hc⟩ := (hmem b).mp (mem_of_mem_take hb)
          exact ⟨hc, k, le_rfl, Nat.le_of_succ_le hkn, hlisted⟩
        · obtain ⟨hb, j, hkj, hjn, hlisted⟩ := hbeyond b hb
          exact ⟨hover b hb, j, Nat.le_of_succ_le hkj, hjn, hlisted⟩
      · obtain hb | hb := hafter b ((hmem b).mpr ⟨hlisted k le_rfl (Nat.le_of_succ_le hkn), hc⟩)
        · exact mem_append_left _ hb
        · refine mem_append_right _ (hall b (beyond_some.mpr hb) fun j hj hjn => ?_)
          exact hlisted j (Nat.le_of_succ_le hj) hjn

/-- **Following the cursors of a listing that does not change.** -/
theorem follows_still [IsTrans κ r] [Std.Asymm r] (hlimit : 0 < limit)
    (hl : l.Pairwise fun a b => r (key a) (key b)) :
    ∃ n, Follows (fun _ c => some (pageOf limit key r l c)) 0 none n l := by
  let rest := fun c : Option κ => (l.filter fun a => Beyond key r c a).length
  have hstep : ∀ (k : ℕ) c a, a ∈ l → Beyond key r c a → rest (some (key a)) < rest c := by
    intro k c a ha hc
    have hself : ¬ Beyond key r (some (key a)) a := fun h =>
      Std.Asymm.asymm _ _ (beyond_some.mp h) (beyond_some.mp h)
    have hsub : (l.filter fun b => Beyond key r (some (key a)) b) =
        (l.filter fun b => Beyond key r c b).filter fun b => Beyond key r (some (key a)) b := by
      rw [filter_filter]
      refine filter_congr fun b hb => ?_
      by_cases hab : Beyond key r (some (key a)) b
      · have hcb : Beyond key r c b := fun x hx => IsTrans.trans _ _ _ (hc x hx) (beyond_some.mp hab)
        simp [hab, hcb]
      · simp [hab]
    change (l.filter fun b => Beyond key r (some (key a)) b).length <
      (l.filter fun b => Beyond key r c b).length
    rw [hsub]
    refine length_filter_lt_length_iff_exists.mpr ⟨a, ?_, ?_⟩
    · rw [mem_filter, decide_eq_true_eq]
      exact ⟨ha, hc⟩
    · simpa using hself
  obtain ⟨n, items, -, hfollows, hsorted, hsub, hall⟩ := follows_moving (l := fun _ => l) hlimit
    (fun _ => hl) (InvImage.wf rest Nat.lt_wfRel.wf) hstep 0 none
  have hasymm : Std.Asymm fun a b => r (key a) (key b) := ⟨fun a b => Std.Asymm.asymm (key a) (key b)⟩
  have heq : items = l := eq_of_sorted hsorted hl fun a =>
    ⟨fun ha => (hsub a ha).2.elim fun _ h => h.2.2, fun ha => hall a nofun fun _ _ _ => ha⟩
  exact ⟨n, heq ▸ hfollows⟩

end Follow

end Afs
