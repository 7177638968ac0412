import Mathlib.Logic.Function.Basic
import Mathlib.Logic.Relation
import Afs.Foundations.Prog

/-!
# Programs that share a store

A pool is a store and any number of programs under way on it, each in a context of its own. A
step of the pool starts a program, or lets one of the programs have its next exchange with the
store. A program started over another one takes its place, so a program may stop at any time.

`Pool.invariant` is the rule for what holds of every state a pool reaches. It lets the invariant
speak about the observers of the programs, in states that nothing in the pool records.
-/

namespace Afs

open Function (update update_of_ne update_self)

open List Prog

/-- A program under way. -/
structure Thread (S : Sig) (κ α : Type) where
  ctx : κ
  rest : Prog S α

/-- A store and the programs under way on it. -/
structure Pool (S : Sig) (κ α σ : Type) where
  store : σ
  threads : ℕ → Option (Thread S κ α) := fun _ => none

namespace Pool

variable {S : Sig} {κ α σ τ : Type} {starts : κ → Prog S α → Prop}
  {Exec : κ → (c : S.Cmd) → σ → S.Rep c → σ → Prop}

/-- One step of a pool, where `starts` are the programs that may be started. -/
inductive Step (starts : κ → Prog S α → Prop)
    (Exec : κ → (c : S.Cmd) → σ → S.Rep c → σ → Prop) : Pool S κ α σ → Pool S κ α σ → Prop
  | start {P : Pool S κ α σ} (i : ℕ) (ctx : κ) (p : Prog S α) (hp : starts ctx p) :
      Step starts Exec P ⟨P.store, update P.threads i (some ⟨ctx, p⟩)⟩
  | exchange {P : Pool S κ α σ} (i : ℕ) (ctx : κ) (c : S.Cmd) (k : S.Rep c → Prog S α)
      (r : S.Rep c) (s' : σ) (hi : P.threads i = some ⟨ctx, .ask c k⟩)
      (hexec : Exec ctx c P.store r s') :
      Step starts Exec P ⟨s', update P.threads i (some ⟨ctx, k r⟩)⟩

/-- The states a pool reaches. -/
def Run (starts : κ → Prog S α → Prop) (Exec : κ → (c : S.Cmd) → σ → S.Rep c → σ → Prop) :
    Pool S κ α σ → Pool S κ α σ → Prop :=
  Relation.ReflTransGen (Step starts Exec)

/-- Every program of the pool has an observer that allows what is left of it, and the observers
together with the store satisfy `I`. -/
def Observed (M : Monitor S τ) (I : σ → (ℕ → Option τ) → Prop) (P : Pool S κ α σ) : Prop :=
  ∃ g : ℕ → Option τ, I P.store g ∧
    ∀ i T, P.threads i = some T → ∃ t, g i = some t ∧ Track M (fun _ _ => True) t T.rest

section Invariant

variable {M : Monitor S τ} {I : σ → (ℕ → Option τ) → Prop} {t₀ : τ}
  {threads : ℕ → Option (Thread S κ α)}

/-- A thread and its observer replaced, the others kept. -/
theorem observers_update {g : ℕ → Option τ} {i : ℕ}
    {ctx : κ} {p : Prog S α} {t : τ} {A : ℕ → Prop} (hg : ∀ j T, A j → threads j = some T →
      ∃ t, g j = some t ∧ Track M (fun _ _ => True) t T.rest)
    (hp : Track M (fun _ _ => True) t p) (j : ℕ) (T : Thread S κ α) (hj : A j)
    (hT : update threads i (some ⟨ctx, p⟩) j = some T) :
    ∃ t', update g i (some t) j = some t' ∧ Track M (fun _ _ => True) t' T.rest := by
  by_cases hij : j = i
  · subst hij
    rw [update_self] at hT ⊢
    cases hT
    exact ⟨t, rfl, hp⟩
  · rw [update_of_ne hij] at hT ⊢
    exact hg j T hj hT

theorem observed_update {g : ℕ → Option τ} {i : ℕ}
    {ctx : κ} {p : Prog S α} {t : τ} {s : σ} (hI : I s (update g i (some t)))
    (hg : ∀ j T, threads j = some T → ∃ t, g j = some t ∧ Track M (fun _ _ => True) t T.rest)
    (hp : Track M (fun _ _ => True) t p) : Observed M I ⟨s, update threads i (some ⟨ctx, p⟩)⟩ :=
  ⟨_, hI, fun j T => observers_update (A := fun _ => True) (fun j T _ => hg j T) hp j T trivial⟩

/-- **Invariants of a pool.** If a starting program is one its observer allows, and every exchange
that an observer allows is one it takes for possible and keeps `I`, then `I` holds, for some
observers, in every state the pool reaches. -/
theorem invariant (hproper : ∀ ctx p, starts ctx p → Track M (fun _ _ => True) t₀ p)
    (hstart : ∀ s g i, I s g → I s (update g i (some t₀)))
    (hstep : ∀ ctx s g i t c r s', I s g → g i = some t → M.allows t c → Exec ctx c s r s' →
      M.admits t c r ∧ I s' (update g i (some (M.next t c r))))
    {s₀ : σ} (h₀ : I s₀ fun _ => none) {P : Pool S κ α σ}
    (h : Run starts Exec ⟨s₀, fun _ => none⟩ P) : Observed M I P := by
  induction h with
  | refl => exact ⟨fun _ => none, h₀, nofun⟩
  | tail _ hlast ih =>
    cases hlast with
    | start i ctx p hp =>
      obtain ⟨g, hI, hg⟩ := ih
      exact observed_update (hstart _ g i hI) hg (hproper ctx p hp)
    | exchange i ctx c k r s' hi hexec =>
      obtain ⟨g, hI, hg⟩ := ih
      obtain ⟨t, ht, hallows, hrest⟩ := hg i _ hi
      obtain ⟨hadmits, hI'⟩ := hstep ctx _ g i t c r s' hI ht hallows hexec
      exact observed_update hI' hg (hrest r hadmits)

end Invariant

/-! ## A program of the pool runs by itself -/

/-- Steps of one slot, the others as they were. -/
def Slot (starts : κ → Prog S α → Prop) (Exec : κ → (c : S.Cmd) → σ → S.Rep c → σ → Prop) (j : ℕ) :
    Pool S κ α σ → Pool S κ α σ → Prop :=
  Relation.ReflTransGen fun P P' =>
    Step starts Exec P P' ∧ ∀ i, i ≠ j → P'.threads i = P.threads i

variable {P : Pool S κ α σ}

theorem Slot.run {j : ℕ} {Q : Pool S κ α σ} (h : Slot starts Exec j P Q) : Run starts Exec P Q :=
  Relation.ReflTransGen.mono (fun _ _ hstep => hstep.1) P Q h

theorem Slot.threads {i j : ℕ} {Q : Pool S κ α σ} (h : Slot starts Exec j P Q) (hij : i ≠ j) :
    Q.threads i = P.threads i := by
  induction h with
  | refl => rfl
  | tail _ hlast ih => exact (hlast.2 i hij).trans ih

variable {exec : (c : S.Cmd) → σ → S.Rep c × σ}

/-- Nothing keeps a program from having all its exchanges in one go. -/
theorem slot_thread {ctx : κ} (p : Prog S α) (j : ℕ) (hj : P.threads j = some ⟨ctx, p⟩)
    (hexec : ∀ e ∈ (interleave exec [] p P.store).1, Exec ctx e.cmd e.before e.reply e.after) :
    ∃ threads, Slot starts Exec j P ⟨(p.run exec P.store).2, threads⟩ := by
  induction p generalizing P with
  | ret a => exact ⟨P.threads, .refl⟩
  | ask c k ih =>
    have hfirst := hexec _ mem_cons_self
    obtain ⟨threads, h⟩ := ih (exec c P.store).1
      (P := ⟨(exec c P.store).2, update P.threads j (some ⟨ctx, k (exec c P.store).1⟩)⟩)
      (update_self _ _ _) fun e he => hexec e (mem_cons_of_mem _ he)
    exact ⟨threads, .head ⟨.exchange j ctx c k _ _ hj hfirst, fun i hi => update_of_ne hi _ _⟩ h⟩

/-- A program is started and runs to its end. -/
theorem slot_program {ctx : κ} {p : Prog S α} (hp : starts ctx p) (j : ℕ)
    (hexec : ∀ e ∈ (interleave exec [] p P.store).1, Exec ctx e.cmd e.before e.reply e.after) :
    ∃ threads, Slot starts Exec j P ⟨(p.run exec P.store).2, threads⟩ := by
  have hj : update P.threads j (some ⟨ctx, p⟩) j = some ⟨ctx, p⟩ :=
    update_self j _ _
  obtain ⟨threads, h⟩ := slot_thread p j
    (P := ⟨P.store, update P.threads j (some ⟨ctx, p⟩)⟩) hj hexec
  exact ⟨threads, .head ⟨.start j ctx p hp, fun i hi => update_of_ne hi _ _⟩ h⟩

theorem run_program {ctx : κ} {p : Prog S α} (hp : starts ctx p)
    (hexec : ∀ e ∈ (interleave exec [] p P.store).1, Exec ctx e.cmd e.before e.reply e.after) :
    ∃ threads, Run starts Exec P ⟨(p.run exec P.store).2, threads⟩ := by
  obtain ⟨threads, h⟩ := slot_program hp 0 hexec
  exact ⟨threads, h.run⟩

/-! ## A program among the others -/

/-- `Call starts Exec i ctx P p tr p' Q`: a program that has slot `i` to itself goes from `p` to
`p'` with the exchanges `tr`, while the pool goes from `P` to `Q`. The program may return what it
likes, and it has ended when `p'` is `.ret a`. -/
inductive Call (starts : κ → Prog S α → Prop) (Exec : κ → (c : S.Cmd) → σ → S.Rep c → σ → Prop)
    (i : ℕ) (ctx : κ) {β : Type} :
    Pool S κ α σ → Prog S β → List (Exchange S σ) → Prog S β → Pool S κ α σ → Prop
  | stop {P : Pool S κ α σ} {p : Prog S β} : Call starts Exec i ctx P p [] p P
  | own {P Q : Pool S κ α σ} {c : S.Cmd} {k : S.Rep c → Prog S β} {r : S.Rep c} {s' : σ}
      {tr : List (Exchange S σ)} {p' : Prog S β} (hexec : Exec ctx c P.store r s')
      (hrest : Call starts Exec i ctx ⟨s', P.threads⟩ (k r) tr p' Q) :
      Call starts Exec i ctx P (.ask c k) (⟨P.store, c, r, s'⟩ :: tr) p' Q
  | other {P P' Q : Pool S κ α σ} {p p' : Prog S β} {tr : List (Exchange S σ)}
      (hstep : Step starts Exec P P') (hfree : P'.threads i = none)
      (hrest : Call starts Exec i ctx P' p tr p' Q) : Call starts Exec i ctx P p tr p' Q

section Call

variable {β : Type} {i : ℕ} {ctx : κ} {P Q : Pool S κ α σ} {p p' : Prog S β}
  {tr : List (Exchange S σ)}

theorem Call.trace {a : β} (h : Call starts Exec i ctx P p tr (.ret a) Q) :
    p.Trace (Exec ctx) tr a := by
  generalize hp' : Prog.ret a = p' at h
  induction h with
  | stop =>
    subst hp'
    exact .ret a
  | own hexec _ ih => exact .ask hexec (ih hp')
  | other _ _ _ ih => exact ih hp'

/-- A program may wait for another one. -/
theorem Call.wait {j : ℕ} {P' : Pool S κ α σ} (hs : Slot starts Exec j P P') (hij : i ≠ j)
    (hfree : P.threads i = none) (h : Call starts Exec i ctx P' p tr p' Q) :
    Call starts Exec i ctx P p tr p' Q := by
  induction hs using Relation.ReflTransGen.head_induction_on with
  | refl => exact h
  | head hstep _ ih =>
    have hfree' := (hstep.2 i hij).trans hfree
    exact .other hstep.1 hfree' (ih hfree')

/-- A schedule in which slot `j` may act before each exchange of the call. -/
theorem Call.scheduled {j : ℕ}
    (hexec : ∀ c s, Exec ctx c s (exec c s).1 (exec c s).2) (hij : i ≠ j) (env : List (σ → σ))
    (henv : ∀ f ∈ env, ∀ P : Pool S κ α σ, ∃ threads, Slot starts Exec j P ⟨f P.store, threads⟩)
    (p : Prog S β) (P : Pool S κ α σ) (hfree : P.threads i = none) :
    ∃ Q, Call starts Exec i ctx P p (interleave exec env p P.store).1
      (.ret (interleave exec env p P.store).2) Q := by
  induction p generalizing env P with
  | ret a => exact ⟨P, .stop⟩
  | ask c k ih =>
    obtain ⟨threads, hwait⟩ : ∃ threads, Slot starts Exec j P ⟨env.headD id P.store, threads⟩ := by
      cases env with
      | nil => exact ⟨P.threads, .refl⟩
      | cons f env => exact henv f mem_cons_self P
    have hfree' : threads i = none := (hwait.threads hij).trans hfree
    obtain ⟨Q, hrest⟩ := ih (exec c (env.headD id P.store)).1 env.tail
      (fun f hf => henv f (mem_of_mem_tail hf)) ⟨(exec c (env.headD id P.store)).2, threads⟩ hfree'
    exact ⟨Q, .wait hwait hij hfree (.own (hexec _ _) hrest)⟩

/-- What a program can rely on: `Rel` holds between the store it left and the store its next
exchange meets, and `Own` of each of its exchanges. Both may depend on the observer. -/
def Spaced (M : Monitor S τ) (Rel : τ → σ → σ → Prop) (Own : τ → Exchange S σ → Prop) :
    τ → σ → List (Exchange S σ) → Prop
  | _, _, [] => True
  | t, s, e :: tr => Rel t s e.before ∧ Own t e ∧ Spaced M Rel Own (M.next t e.cmd e.reply) e.after tr

/-- The observers of a pool in which slot `i` is left to a program observed in state `t`. -/
def Beside (M : Monitor S τ) (I : σ → (ℕ → Option τ) → Prop) (i : ℕ) (t : τ) (P : Pool S κ α σ) :
    Prop :=
  ∃ g : ℕ → Option τ, I P.store g ∧ g i = some t ∧
    ∀ j T, j ≠ i → P.threads j = some T → ∃ t, g j = some t ∧ Track M (fun _ _ => True) t T.rest

variable {M : Monitor S τ} {I : σ → (ℕ → Option τ) → Prop} {t₀ : τ} {Rel : τ → σ → σ → Prop}
  {Own : τ → Exchange S σ → Prop} {t : τ} {s : σ}

/-- **What a call can rely on.** If every exchange of the others respects `Rel`, and every exchange
of the call `Own`, then the exchanges of a call are spaced by `Rel`. -/
theorem Call.spaced (hproper : ∀ ctx p, starts ctx p → Track M (fun _ _ => True) t₀ p)
    (hstart : ∀ s g i, I s g → I s (update g i (some t₀)))
    (hstep : ∀ ctx s g i t c r s', I s g → g i = some t → M.allows t c → Exec ctx c s r s' →
      M.admits t c r ∧ I s' (update g i (some (M.next t c r))))
    (hrefl : ∀ t s, Rel t s s) (htrans : ∀ t s s' s'', Rel t s s' → Rel t s' s'' → Rel t s s'')
    (hothers : ∀ ctx s g j t t' c r s', i ≠ j → I s g → g i = some t → g j = some t' →
      M.allows t' c → Exec ctx c s r s' → Rel t s s')
    (hown : ∀ s g t c r s', I s g → g i = some t → M.allows t c → Exec ctx c s r s' →
      Own t ⟨s, c, r, s'⟩) (h : Call starts Exec i ctx P p tr p' Q) (hP : Beside M I i t P)
    (hp : Track M (fun _ _ => True) t p) (hs : Rel t s P.store) : Spaced M Rel Own t s tr := by
  induction h generalizing t s with
  | stop => exact trivial
  | @own P Q c k r s' tr p' hexec _ ih =>
    obtain ⟨g, hI, hi, hg⟩ := hP
    obtain ⟨hadmits, hI'⟩ := hstep ctx _ g i t c r s' hI hi hp.1 hexec
    refine ⟨hs, hown _ g t c r s' hI hi hp.1 hexec, ih ⟨_, hI', ?_, fun j T hj hT => ?_⟩ ?_ ?_⟩
    · exact update_self i _ g
    · rw [update_of_ne hj]
      exact hg j T hj hT
    · exact hp.2 r hadmits
    · exact hrefl _ _
  | @other P P' Q p p' tr hlast hfree _ ih =>
    obtain ⟨g, hI, hi, hg⟩ := hP
    cases hlast with
    | start j ctx' q hq =>
      have hj : i ≠ j := by
        rintro rfl
        simp at hfree
      refine ih ⟨_, hstart _ g j hI, ?_, observers_update hg (hproper ctx' q hq)⟩ hp hs
      rw [update_of_ne hj]
      exact hi
    | exchange j ctx' c k r s' hT hexec =>
      have hj : i ≠ j := by
        rintro rfl
        simp at hfree
      obtain ⟨t', ht', hallows, hrest⟩ := hg j _ (Ne.symm hj) hT
      obtain ⟨hadmits, hI'⟩ := hstep ctx' _ g j t' c r s' hI ht' hallows hexec
      have hrel := hothers ctx' _ g j t t' c r s' hj hI hi ht' hallows hexec
      refine ih ⟨_, hI', ?_, observers_update hg (hrest r hadmits)⟩ hp (htrans _ _ _ _ hs hrel)
      rw [update_of_ne hj]
      exact hi

/-- A call is started like any program. -/
theorem Observed.beside (hstart : ∀ s g i, I s g → I s (update g i (some t₀)))
    (h : Observed M I P) (i : ℕ) : Beside M I i t₀ P := by
  obtain ⟨g, hI, hg⟩ := h
  refine ⟨_, hstart _ g i hI, update_self i _ g, fun j T hj hT => ?_⟩
  rw [update_of_ne hj]
  exact hg j T hT

/-- What is known of each exchange may be less. -/
theorem Spaced.mono {Own' : τ → Exchange S σ → Prop}
    (h : Spaced M Rel Own t s tr) (hown : ∀ t e, Own t e → Own' t e) : Spaced M Rel Own' t s tr := by
  induction tr generalizing t s with
  | nil => exact trivial
  | cons x tr ih => exact ⟨h.1, hown _ _ h.2.1, ih h.2.2⟩

/-- The part of a call after one of its exchanges. -/
theorem Spaced.drop {l : List (Exchange S σ)} {e : Exchange S σ}
    {tr : List (Exchange S σ)} (h : Spaced M Rel Own t s (l ++ e :: tr)) :
    Own (M.after t l) e ∧ Spaced M Rel Own (M.after t (l ++ [e])) e.after tr := by
  induction l generalizing t s with
  | nil => exact h.2
  | cons x l ih => exact ih h.2.2

theorem Spaced.take {l tr : List (Exchange S σ)}
    (h : Spaced M Rel Own t s (l ++ tr)) : Spaced M Rel Own t s l := by
  induction l generalizing t s with
  | nil => exact trivial
  | cons x l ih => exact ⟨h.1, h.2.1, ih h.2.2⟩

/-- The result of a tracked program whose exchanges are all ones its observer takes for
possible. -/
theorem Spaced.sound {E : (c : S.Cmd) → σ → S.Rep c → σ → Prop} {a : β}
    {Q : τ → β → Prop} (h : Spaced M Rel Own t s tr)
    (hadmits : ∀ t e, Own t e → M.admits t e.cmd e.reply) (hp : Track M Q t p)
    (htr : p.Trace E tr a) : Q (M.after t tr) a := by
  refine (hp.sound htr fun l e l' hl => ?_).1
  subst hl
  exact hadmits _ e h.drop.1

end Call

end Pool

end Afs
