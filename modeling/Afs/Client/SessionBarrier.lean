import Mathlib.Data.Finset.Card
import Afs.Client.Context

/-!
# The session barrier

`begin`, `finish` and `Barrier` of `native_session.go`, over the mutex, the channels and the
contexts they wait for. Any number of requests and barriers take turns. A critical section of a
request is one step; a barrier keeps the mutex while it checks the session, so it takes and releases
it in steps of their own.
-/

namespace Afs.Client.Session

open Function (update forall_update_iff update_of_ne)

/-- What the goroutines of a session share. -/
structure Shared (T : Type) where
  /-- The barrier that holds `mu` between two steps. -/
  mu : Option T := none
  active : ℤ := 0
  paused : Bool := false
  /-- The number of the channel `changed`; those before it are closed. -/
  changed : ℕ := 0
  /-- The barrier whose token is in the channel `barrier`. -/
  barrier : Option T := none
  lost : Bool := false
  /-- `s.ctx` is done. -/
  done : Bool := false
  /-- Redis still has the generation of the session. -/
  generation : Bool := true
  /-- Redis still has the lease of the session. -/
  lease : Bool := true

/-- How far a `check` is: it looks at the session, then asks Redis. -/
inductive Stage
  | look
  | ask

/-- How far a request or a barrier is. -/
inductive Phase
  | idle
  /-- A request at the lock of `begin`. -/
  | entering
  /-- In the `select` of `begin`. -/
  | kept (changed : ℕ)
  | refused (e : Err)
  /-- In the check of `begin`. -/
  | opening (stage : Stage)
  | running
  /-- In the check of `finish`. -/
  | closing (stage : Stage)
  /-- At the lock of `finish`. -/
  | leaving (e : Option Err)
  | finished (e : Option Err)
  /-- A barrier in its first `select`. -/
  | sending
  | locking
  /-- At the head of the loop, with the mutex. -/
  | testing
  /-- In the `select` of the loop. -/
  | waiting (changed : ℕ)
  | woken
  | cancelled (e : Err)
  | checking (stage : Stage)
  /-- Before the second deferred function, and before the first. -/
  | reopening (e : Option Err)
  | releasing (e : Option Err)
  | returned (e : Option Err)

/-- A request that was admitted and has not finished. -/
def Phase.inFlight : Phase → Bool
  | .opening _ | .running | .closing _ | .leaving _ => true
  | _ => false

/-- What a barrier has taken: its token, then the gate, then the mutex. -/
def Phase.grip : Phase → ℕ
  | .locking | .releasing _ => 1
  | .waiting _ | .woken | .cancelled _ => 2
  | .testing | .checking _ | .reopening _ => 3
  | _ => 0

/-- A barrier that has passed its check. -/
def Phase.passed : Phase → Bool
  | .reopening e | .releasing e | .returned e => e.isNone
  | _ => false

variable {T : Type}

/-- `check`, up to its next stage (`none`) or its result. -/
inductive Check (m : Shared T) : Stage → Shared T → Option (Option Err) → Prop
  | there : m.lost = false → m.done = false → Check m .look m none
  | gone : m.lost = true ∨ m.done = true → Check m .look m (some (some .nativeSessionLost))
  | failed : Check m .ask m (some (some .network))
  | changed : m.generation = false → Check m .ask m (some (some .workspaceChanged))
  | expired : m.generation = true → m.lease = false →
      Check m .ask { m with lost := true } (some (some .nativeSessionLost))
  | valid : m.generation = true → m.lease = true → Check m .ask m (some none)

open Phase

/-- `begin` and `finish`, then `Barrier`. -/
inductive Move (m : Shared T) (t : T) : Phase → Shared T → Phase → Prop
  | request : Move m t idle m entering
  | enter : m.mu = none → m.paused = false →
      Move m t entering { m with active := m.active + 1 } (opening .look)
  | keep : m.mu = none → m.paused = true → Move m t entering m (kept m.changed)
  | retry {ch : ℕ} : ch < m.changed → Move m t (kept ch) m entering
  | refuse {ch : ℕ} (e : Err) : Move m t (kept ch) m (refused e)
  | lose {ch : ℕ} : m.done = true → Move m t (kept ch) m (refused .nativeSessionLost)
  | opens {m' : Shared T} {stage : Stage} {e : Option (Option Err)} : Check m stage m' e →
      Move m t (opening stage) m' (match e with
        | none => opening .ask
        | some none => running
        | some (some e) => leaving (some e))
  | succeed : Move m t running m (closing .look)
  | fail (e : Err) : Move m t running m (leaving (some e))
  | closes {m' : Shared T} {stage : Stage} {e : Option (Option Err)} : Check m stage m' e →
      Move m t (closing stage) m' (e.elim (closing .ask) leaving)
  | leave {e : Option Err} : m.mu = none → Move m t (leaving e)
      { m with active := m.active - 1, changed := m.changed + 1 } (finished e)
  | barrier : Move m t idle m sending
  | send : m.barrier = none → Move m t sending { m with barrier := some t } locking
  | giveUp (e : Err) : Move m t sending m (returned (some e))
  | lock : m.mu = none → Move m t locking { m with mu := some t, paused := true } testing
  | wait : 0 < m.active → Move m t testing { m with mu := none } (waiting m.changed)
  | drained : ¬ 0 < m.active → Move m t testing m (checking .look)
  | wake {ch : ℕ} : ch < m.changed → Move m t (waiting ch) m woken
  | relock : m.mu = none → Move m t woken { m with mu := some t } testing
  | cancel {ch : ℕ} (e : Err) : Move m t (waiting ch) m (cancelled e)
  | abort {e : Err} : m.mu = none →
      Move m t (cancelled e) { m with mu := some t } (reopening (some e))
  | checks {m' : Shared T} {stage : Stage} {e : Option (Option Err)} : Check m stage m' e →
      Move m t (checking stage) m' (e.elim (checking .ask) reopening)
  | reopen {e : Option Err} : Move m t (reopening e)
      { m with mu := none, paused := false, changed := m.changed + 1 } (releasing e)
  | release {e : Option Err} : Move m t (releasing e) { m with barrier := none } (returned e)

/-- A session and its goroutines. -/
structure State (T : Type) where
  shared : Shared T := {}
  phase : T → Phase := fun _ => .idle

/-- A goroutine moves, or something happens to the session. -/
inductive Step [DecidableEq T] : State T → State T → Prop
  | move {s : State T} (t : T) {m : Shared T} {q : Phase} : Move s.shared t (s.phase t) m q →
      Step s ⟨m, update s.phase t q⟩
  | outside {s : State T} (lost done generation lease : Bool) :
      Step s { s with shared := { s.shared with lost, done, generation, lease } }

/-! ## What a move does -/

variable {m m' : Shared T} {t t' : T} {p q : Phase}

/-- A request is let in or out, or the number of requests stays. -/
theorem Move.count (h : Move m t p m' q) :
    m'.active = m.active ∧ q.inFlight = p.inFlight ∨
    m'.active = m.active + 1 ∧ p.inFlight = false ∧ q.inFlight = true ∧ m.mu = none ∧
      m.paused = false ∨
    m'.active = m.active - 1 ∧ p.inFlight = true ∧ q.inFlight = false ∧ m.mu = none ∧
      m.changed < m'.changed := by
  cases h with
  | opens hc | closes hc | checks hc => cases hc <;> simp [inFlight]
  | enter hmu hp => simp [inFlight, hmu, hp]
  | leave hmu => simp [inFlight, hmu]
  | _ => simp [inFlight]

/-- The gate opens only with the closing of a channel. -/
theorem Move.changed_le (h : Move m t p m' q) : m.changed ≤ m'.changed ∧
    (m'.paused = false → m.paused = false ∨ m.changed < m'.changed) := by
  cases h with
  | opens hc | closes hc | checks hc => cases hc <;> simp
  | _ => simp

/-- What a barrier has taken is its own, and whoever waits for what has happened waits for a
closed channel. -/
structure Phase.Fits (m : Shared T) (t : T) (p : Phase) : Prop where
  mutex : m.mu = some t ↔ p.grip = 3
  token : m.barrier = some t ↔ 0 < p.grip
  gate : m.barrier = some t → (m.paused = true ↔ 2 ≤ p.grip)
  drained : ∀ stage, p = checking stage → m.active = 0
  waits : ∀ ch, p = waiting ch → ch ≤ m.changed ∧ (m.active = 0 → ch < m.changed)
  kept : ∀ ch, p = kept ch → ch ≤ m.changed ∧ (m.paused = false → ch < m.changed)

theorem Move.fits (h : Move m t p m' q) (h0 : 0 ≤ m.active)
    (hfree : m.barrier = none → m.paused = false) (hp : p.Fits m t) :
    q.Fits m' t ∧ (m'.barrier = none → m'.paused = false) := by
  obtain ⟨hmu, htoken, hgate, hdrained, -, -⟩ := hp
  cases h with
  | opens hc | closes hc | checks hc =>
    cases hc <;> refine ⟨⟨?_, ?_, ?_, ?_, ?_, ?_⟩, hfree⟩ <;> simp_all [grip]
  | drained hno =>
    refine ⟨⟨?_, ?_, ?_, fun _ _ => by omega, ?_, ?_⟩, hfree⟩ <;> simp_all [grip]
  | _ => refine ⟨⟨?_, ?_, ?_, ?_, ?_, ?_⟩, ?_⟩ <;> simp_all [grip] <;> omega

/-- A goroutine takes nothing away from another. -/
theorem Move.others (h : Move m t p m' q) (hp : p.Fits m t) (ht : t ≠ t') :
    (m'.mu = some t' ↔ m.mu = some t') ∧ (m'.barrier = some t' ↔ m.barrier = some t') ∧
      (m.barrier = some t' → m'.paused = m.paused) := by
  obtain ⟨hmu, htoken, -, -, -, -⟩ := hp
  cases h with
  | opens hc | closes hc | checks hc => cases hc <;> simp
  | _ => simp_all [grip]

theorem Move.fits_other {p' : Phase} (h : Move m t p m' q) (h0 : 0 ≤ m.active) (hp : p.Fits m t)
    (ht : t ≠ t') (h' : p'.Fits m t') : p'.Fits m' t' := by
  obtain ⟨hmu, htoken, hpaused⟩ := h.others hp ht
  obtain ⟨hchanged, hopens⟩ := h.changed_le
  refine ⟨hmu.trans h'.mutex, htoken.trans h'.token, fun hb => ?_, fun stage hst => ?_,
    fun ch hch => ?_, fun ch hch => ?_⟩
  · rw [hpaused (htoken.mp hb)]
    exact h'.gate (htoken.mp hb)
  · have hlocked := h'.mutex.mpr (by rw [hst]; rfl)
    have hcount := h.count
    rw [hlocked] at hcount
    obtain ⟨hactive, -⟩ | ⟨-, -, -, ⟨⟩, -⟩ | ⟨-, -, -, ⟨⟩, -⟩ := hcount
    exact hactive.trans (h'.drained stage hst)
  · have := h.count
    have := h'.waits ch hch
    omega
  · obtain ⟨hle, hlt⟩ := h'.kept ch hch
    refine ⟨hle.trans hchanged, fun hopen => ?_⟩
    obtain hopen | hclosed := hopens hopen
    · exact (hlt hopen).trans_le hchanged
    · exact hle.trans_lt hclosed

theorem Move.looks (h : Move m t p m' q) (hq : q = checking .ask) :
    p = checking .look ∧ m.lost = false ∧ m.done = false := by
  cases h with
  | checks hc | opens hc | closes hc => cases hc <;> first | exact ⟨rfl, ‹_›, ‹_›⟩ | cases hq
  | _ => cases hq

theorem Move.passes (h : Move m t p m' q) (hq : q.passed = true) :
    p.passed = true ∨ p = checking .ask ∧ m.generation = true ∧ m.lease = true := by
  cases h with
  | checks hc | opens hc | closes hc => cases hc <;> first | exact .inr ⟨rfl, ‹_›, ‹_›⟩ | cases hq
  | reopen | release => exact .inl hq
  | _ => cases hq

/-- A request that was admitted stays in flight until it has finished. -/
theorem Move.stays (h : Move m t p m' q) (hp : p.inFlight = true ∨ ∃ e, p = finished e) :
    q.inFlight = true ∨ ∃ e, q = finished e := by
  obtain hp | ⟨e, rfl⟩ := hp
  · cases h with
    | checks hc | opens hc | closes hc => cases hc <;> first | exact .inl rfl | cases hp
    | leave => exact .inr ⟨_, rfl⟩
    | _ => first | exact .inl rfl | cases hp
  · cases h

/-! ## The invariant -/

/-- What holds between any two steps. -/
structure Inv (s : State T) : Prop where
  count : ∃ S : Finset T, (∀ t, t ∈ S ↔ (s.phase t).inFlight) ∧ s.shared.active = S.card
  free : s.shared.barrier = none → s.shared.paused = false
  fits : ∀ t, (s.phase t).Fits s.shared t

variable {s s' : State T}

theorem Inv.nonneg (h : Inv s) : 0 ≤ s.shared.active := by
  obtain ⟨S, -, hcard⟩ := h.count
  omega

theorem Inv.none_inFlight (h : Inv s) (h0 : s.shared.active = 0) (t : T) :
    (s.phase t).inFlight = false := by
  obtain ⟨S, hS, hcard⟩ := h.count
  obtain rfl : S = ∅ := Finset.card_eq_zero.mp (by omega)
  simpa using (hS t).not

/-- Nobody keeps an open gate. -/
theorem Inv.grip_lt (h : Inv s) (hopen : s.shared.paused = false) (t : T) : (s.phase t).grip < 2 := by
  by_contra hgrip
  have htoken := (h.fits t).token.mpr (by omega)
  have := ((h.fits t).gate htoken).mpr (by omega)
  simp [hopen] at this

variable [DecidableEq T]

theorem Inv.move (h : Inv s) (hs : Move s.shared t (s.phase t) m q) :
    Inv ⟨m, update s.phase t q⟩ := by
  obtain ⟨hfits, hfree⟩ := hs.fits h.nonneg h.free (h.fits t)
  refine ⟨?_, hfree, (forall_update_iff _ fun t p => Phase.Fits m t p).mpr
    ⟨hfits, fun t' ht => hs.fits_other h.nonneg (h.fits t) ht.symm (h.fits t')⟩⟩
  obtain ⟨S, hS, hcard⟩ := h.count
  obtain ⟨hactive, hq⟩ | ⟨hactive, hp, hq, -⟩ | ⟨hactive, hp, hq, -⟩ := hs.count
  · exact ⟨S, (forall_update_iff _ fun t p => t ∈ S ↔ Phase.inFlight p).mpr
      ⟨by rw [hS, hq], fun t' _ => hS t'⟩, hactive.trans hcard⟩
  · have hnot : t ∉ S := fun ht => by simp [(hS t).mp ht] at hp
    exact ⟨insert t S, (forall_update_iff _ fun t' p => t' ∈ insert t S ↔ Phase.inFlight p).mpr
      ⟨by simp [hq], fun t' ht => by simp [ht, hS]⟩, by simp [hactive, hcard, hnot]⟩
  · have := S.card_erase_add_one ((hS t).mpr hp)
    exact ⟨S.erase t, (forall_update_iff _ fun t' p => t' ∈ S.erase t ↔ Phase.inFlight p).mpr
      ⟨by simp [hq], fun t' ht => by simp [ht, hS]⟩, by dsimp only; omega⟩

theorem Inv.step (h : Inv s) (hs : Step s s') : Inv s' := by
  cases hs with
  | move t hs => exact h.move hs
  | outside => exact ⟨h.count, h.free, fun t => by
      obtain ⟨hmu, htoken, hgate, hdrained, hwaits, hkept⟩ := h.fits t
      exact ⟨hmu, htoken, hgate, hdrained, hwaits, hkept⟩⟩

/-! ## Runs -/

theorem Step.cases {f f' : T → Phase} (h : Step ⟨m, f⟩ ⟨m', f'⟩) (t : T) :
    f' t = f t ∨ Move m t (f t) m' (f' t) := by
  cases h with
  | move t' h =>
    by_cases ht : t = t'
    · subst ht
      exact .inr (by simpa using h)
    · exact .inl (update_of_ne ht _ _)
  | outside => exact .inl rfl

/-- A run of a session, from its start. One that has come to its end goes on with steps of the
outside that change nothing. -/
structure Run (T : Type) [DecidableEq T] where
  shared : ℕ → Shared T
  phase : ℕ → T → Phase
  init : shared 0 = {}
  idle : ∀ t, phase 0 t = .idle
  step : ∀ n, Step ⟨shared n, phase n⟩ ⟨shared (n + 1), phase (n + 1)⟩

variable (ρ : Run T)

/-- At the time `k` the check of a barrier looks at the session, with success. -/
def Looks (t : T) (k : ℕ) : Prop :=
  ρ.phase k t = checking .look ∧ (ρ.shared k).lost = false ∧ (ρ.shared k).done = false

/-- At the time `k` it asks Redis, with success. -/
def Asks (t : T) (k : ℕ) : Prop :=
  ρ.phase k t = checking .ask ∧ (ρ.shared k).generation = true ∧ (ρ.shared k).lease = true

theorem inv_run (n : ℕ) : Inv ⟨ρ.shared n, ρ.phase n⟩ := by
  induction n with
  | zero =>
    rw [ρ.init, funext ρ.idle]
    exact ⟨⟨∅, by simp [inFlight]⟩, fun _ => rfl, fun _ => by constructor <;> simp [grip]⟩
  | succ n ih => exact ih.step (ρ.step n)

/-- A goroutine has moved where it has got somewhere else. -/
theorem exists_move {P : Phase → Prop} {n : ℕ} (h0 : ¬ P idle) (h : P (ρ.phase n t)) :
    ∃ k < n, ¬ P (ρ.phase k t) ∧ ∃ m q, P q ∧ Move (ρ.shared k) t (ρ.phase k t) m q := by
  induction n with
  | zero => exact absurd (ρ.idle t ▸ h) h0
  | succ n ih =>
    by_cases hP : P (ρ.phase n t)
    · obtain ⟨k, hk, hmove⟩ := ih hP
      exact ⟨k, by omega, hmove⟩
    · obtain heq | hmove := (ρ.step n).cases t
      · exact absurd (heq ▸ h) hP
      · exact ⟨n, by omega, hP, _, _, h, hmove⟩

theorem passed_run {n : ℕ} (ht : (ρ.phase n t).passed = true) :
    ∃ k l, k < l ∧ l < n ∧ Looks ρ t k ∧ Asks ρ t l := by
  obtain ⟨l, hl, hnot, m, q, hpass, hmove⟩ := exists_move ρ (P := (·.passed = true)) nofun ht
  have hasks : Asks ρ t l := (hmove.passes hpass).resolve_left hnot
  obtain ⟨k, hk, -, m, q, hask, hmove⟩ := exists_move ρ (P := (· = checking .ask)) nofun hasks.1
  exact ⟨k, l, hk, hl, hmove.looks hask, hasks⟩

theorem stays_run {j k : ℕ} (hjk : j ≤ k) (h : (ρ.phase j t).inFlight = true) :
    (ρ.phase k t).inFlight = true ∨ ∃ e, ρ.phase k t = finished e := by
  induction k, hjk using Nat.le_induction with
  | base => exact .inl h
  | succ k hjk ih =>
    obtain heq | hmove := (ρ.step k).cases t
    · rwa [heq]
    · exact hmove.stays ih

/-- **The session barrier is a barrier.** In every run the counter is the number of requests in
flight. A barrier succeeds only after it has found the session valid at a time when every request
admitted so far had finished. No request is admitted while a barrier keeps the gate closed, and
whoever waits for what has already happened waits for a closed channel. A barrier that has returned
leaves the gate open, unless another one has closed it. -/
theorem barrier_run (n : ℕ) :
    (0 ≤ (ρ.shared n).active ∧ ∃ S : Finset T, (∀ t, t ∈ S ↔ (ρ.phase n t).inFlight) ∧
      (ρ.shared n).active = S.card) ∧
    (∀ t, ρ.phase n t = returned none → ∃ k l, k < l ∧ l < n ∧ Looks ρ t k ∧ Asks ρ t l ∧
      (∀ t', (ρ.phase l t').inFlight = false) ∧ ∀ j ≤ l, ∀ t',
        (ρ.phase j t').inFlight = true → ∃ e, ρ.phase l t' = finished e) ∧
    (∀ t, (ρ.phase n t).inFlight = false → (ρ.phase (n + 1) t).inFlight = true →
      ∀ t', (ρ.phase n t').grip < 2) ∧
    (∀ t ch, (ρ.phase n t = waiting ch → (ρ.shared n).active = 0 → ch < (ρ.shared n).changed) ∧
      (ρ.phase n t = kept ch → (ρ.shared n).paused = false → ch < (ρ.shared n).changed)) ∧
    ∀ t e, ρ.phase n t = returned e → (ρ.shared n).paused = false ∧ (ρ.shared n).mu = none ∨
      ∃ t' ≠ t, 2 ≤ (ρ.phase n t').grip := by
  have hinv := inv_run ρ n
  refine ⟨⟨hinv.nonneg, hinv.count⟩, fun t ht => ?_, fun t hout hin => hinv.grip_lt ?_,
    fun t ch => ⟨fun h => ((hinv.fits t).waits ch h).2, fun h => ((hinv.fits t).kept ch h).2⟩,
    fun t e ht => ?_⟩
  · obtain ⟨k, l, hkl, hl, hlooks, hasks⟩ := passed_run ρ (t := t) (n := n) (by rw [ht]; rfl)
    have hnone := (inv_run ρ l).none_inFlight (((inv_run ρ l).fits t).drained _ hasks.1)
    refine ⟨k, l, hkl, hl, hlooks, hasks, hnone, fun j hj t' hin => ?_⟩
    exact (stays_run ρ hj hin).resolve_left (by simp [hnone t'])
  · obtain heq | hmove := (ρ.step n).cases t
    · simp_all
    · have := hmove.count
      simp_all
  · by_cases hkeeps : ∃ t', 2 ≤ (ρ.phase n t').grip
    · obtain ⟨t', hgrip⟩ := hkeeps
      refine .inr ⟨t', ?_, hgrip⟩
      rintro rfl
      simp [ht, grip] at hgrip
    · rw [not_exists] at hkeeps
      refine .inl ⟨?_, ?_⟩
      · cases hb : (ρ.shared n).barrier with
        | none => exact hinv.free hb
        | some t' => exact Bool.eq_false_iff.mpr fun hp => hkeeps t' (((hinv.fits t').gate hb).mp hp)
      · refine Option.eq_none_iff_forall_ne_some.mpr fun t' hmu => hkeeps t' ?_
        rw [(hinv.fits t').mutex.mp hmu]
        omega

end Afs.Client.Session
