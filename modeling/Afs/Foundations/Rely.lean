import Mathlib.Logic.Function.Basic
import Mathlib.Logic.Relation
import Afs.Foundations.Prog

/-!
# Programs that rely on each other

A team is a store and the programs started on it, numbered in the order of their start from some
number on that the store does not know; the number is the identity of a program. A program that is
never given another exchange has crashed. Every member keeps the exchanges it has had.

What a member does is judged against a *contract*: an invariant of the store, what the member may
rely on when others take a step, and what it guarantees of its own exchanges. `Safe` is the
judgement, read off the program's tree. `Team.safe` composes the members: if what one guarantees is
what the others rely on, every run keeps the invariant and every exchange keeps its guarantee.
-/

namespace Afs

open Function (update update_of_ne update_self)

open List Prog Relation

variable {S : Sig} {κ α β σ : Type}

/-! ## Contracts -/

/-- What a program of a team can count on and has to keep. -/
structure Contract (S : Sig) (σ : Type) where
  inv : σ → Prop
  rely : σ → σ → Prop
  exec : (c : S.Cmd) → σ → S.Rep c → σ → Prop
  guar : (c : S.Cmd) → σ → S.Rep c → σ → Prop

/-- Started in a state, the program keeps the invariant and its guarantee with every exchange, and
returns in a state that satisfies `Q`. Before each exchange the others may have taken any number of
steps it relies on. -/
def Safe (C : Contract S σ) (Q : α → σ → Prop) : Prog S α → σ → Prop
  | .ret a, s => Q a s
  | .ask c k, s => ∀ s₁, ReflTransGen C.rely s s₁ → C.inv s₁ → ∀ r s', C.exec c s₁ r s' →
      (C.guar c s₁ r s' ∧ C.inv s') ∧ Safe C Q (k r) s'

/-- A fact that survives the steps of the others. -/
def Contract.Stable (C : Contract S σ) (A : σ → Prop) : Prop := ∀ s s', A s → C.rely s s' → A s'

variable {A : σ → Prop} {C : Contract S σ}

theorem Contract.Stable.star (hA : C.Stable A) {s s' : σ}
    (h : ReflTransGen C.rely s s') (hs : A s) : A s' := by
  induction h with
  | refl => exact hs
  | tail _ hlast ih => exact hA _ _ ih hlast

variable {p : Prog S α}

namespace Safe

variable {C : Contract S σ} {Q Q' : α → σ → Prop} {R : β → σ → Prop} {s : σ}

theorem mono (h : Safe C Q p s) (hQ : ∀ a s, Q a s → Q' a s) : Safe C Q' p s := by
  induction p generalizing s with
  | ret a => exact hQ a s h
  | ask c k ih =>
    intro s₁ hs hinv r s' hexec
    obtain ⟨hkeep, hrest⟩ := h s₁ hs hinv r s' hexec
    exact ⟨hkeep, ih r hrest⟩

theorem bind {f : α → Prog S β} (h : Safe C Q p s) (hf : ∀ a s, Q a s → Safe C R (f a) s) :
    Safe C R (p >>= f) s := by
  induction p generalizing s with
  | ret a => exact hf a s h
  | ask c k ih =>
    intro s₁ hs hinv r s' hexec
    obtain ⟨hkeep, hrest⟩ := h s₁ hs hinv r s' hexec
    exact ⟨hkeep, ih r hrest⟩

/-- One exchange, from a fact that survives the others. -/
theorem ask {c : S.Cmd} {k : S.Rep c → Prog S α} (hA : C.Stable A) (hs : A s)
    (h : ∀ s r s', A s → C.inv s → C.exec c s r s' →
      (C.guar c s r s' ∧ C.inv s') ∧ Safe C Q (k r) s') : Safe C Q (.ask c k) s :=
  fun s₁ hstar hinv r s' hexec => h s₁ r s' (hA.star hstar hs) hinv hexec

theorem call {c : S.Cmd} {Q : S.Rep c → σ → Prop} (hA : C.Stable A) (hs : A s)
    (h : ∀ s r s', A s → C.inv s → C.exec c s r s' → (C.guar c s r s' ∧ C.inv s') ∧ Q r s') :
    Safe C Q (Prog.call c) s := .ask hA hs h

/-- The others do not make a program unsafe. -/
theorem stable (hQ : ∀ a s s', Q a s → C.rely s s' → Q a s') {s' : σ} (h : Safe C Q p s)
    (hs : C.rely s s') : Safe C Q p s' := by
  cases p with
  | ret a => exact hQ a s s' h hs
  | ask c k => exact fun s₁ hstar => h s₁ (.head hs hstar)

end Safe

/-! ## Which commands a program issues -/

/-- Whatever the replies, every command of the program satisfies `P` and its result `Q`. -/
def Prog.Only (P : S.Cmd → Prop) (Q : α → Prop) : Prog S α → Prop
  | .ret a => Q a
  | .ask c k => P c ∧ ∀ r, Only P Q (k r)

namespace Prog.Only

variable {P P' : S.Cmd → Prop} {Q Q' : α → Prop} {R : β → Prop}

theorem bind {f : α → Prog S β} (hp : Only P Q p) (hf : ∀ a, Q a → Only P R (f a)) :
    Only P R (p >>= f) := by
  induction p with
  | ret a => exact hf a hp
  | ask c k ih => exact ⟨hp.1, fun r => ih r (hp.2 r)⟩

theorem mono (hp : Only P Q p) (hP : ∀ c, P c → P' c) (hQ : ∀ a, Q a → Q' a) : Only P' Q' p := by
  induction p with
  | ret a => exact hQ a hp
  | ask c k ih => exact ⟨hP c hp.1, fun r => ih r (hp.2 r)⟩

/-- A program whose commands all keep their word by themselves, and with it some fact that the
others leave alone, is safe. -/
theorem safe {s : σ} (hp : Only P Q p) (hA : C.Stable A)
    (h : ∀ c s r s', P c → A s → C.inv s → C.exec c s r s' → (C.guar c s r s' ∧ C.inv s') ∧ A s')
    (hs : A s) : Safe C (fun a s => Q a ∧ A s) p s := by
  induction p generalizing s with
  | ret a => exact ⟨hp, hs⟩
  | ask c k ih =>
    intro s₁ hstar hinv r s' hexec
    obtain ⟨hkeep, hs'⟩ := h c s₁ r s' hp.1 (hA.star hstar hs) hinv hexec
    exact ⟨hkeep, ih r (hp.2 r) hs'⟩

/-- What the commands leave alone in the state of an observer, the program leaves alone. -/
theorem track {τ : Type} {M : Monitor S τ} {I : τ → Prop} {t : τ} (hp : Only P Q p)
    (h : ∀ t c, I t → P c → M.allows t c ∧ ∀ r, M.admits t c r → I (M.next t c r)) (ht : I t) :
    Track M (fun t _ => I t) t p := by
  induction p generalizing t with
  | ret a => exact ht
  | ask c k ih =>
    obtain ⟨hc, hnext⟩ := h t c ht hp.1
    exact ⟨hc, fun r hr => ih r (hp.2 r) (hnext r hr)⟩

end Prog.Only

/-- As long as every reply is one that `R` allows, every command of the program satisfies `P` and its
result `Q`. -/
def Prog.Under (R : (c : S.Cmd) → S.Rep c → Prop) (P : S.Cmd → Prop) (Q : α → Prop) :
    Prog S α → Prop
  | .ret a => Q a
  | .ask c k => P c ∧ ∀ r, R c r → Under R P Q (k r)

/-- The same, whatever the result. -/
abbrev Prog.Within (R : (c : S.Cmd) → S.Rep c → Prop) (P : S.Cmd → Prop) (p : Prog S α) : Prop :=
  p.Under R P fun _ => True

variable {b : β}

namespace Prog.Under

variable {R : (c : S.Cmd) → S.Rep c → Prop} {P P' : S.Cmd → Prop} {Q Q' : α → Prop} {T : β → Prop}

theorem bind {f : α → Prog S β} (hp : Under R P Q p) (hf : ∀ a, Q a → Under R P T (f a)) :
    Under R P T (p >>= f) := by
  induction p with
  | ret a => exact hf a hp
  | ask c k ih => exact ⟨hp.1, fun r hr => ih r (hp.2 r hr)⟩

theorem mono {R' : (c : S.Cmd) → S.Rep c → Prop} (hp : Under R P Q p) (hR : ∀ c r, R' c r → R c r)
    (hP : ∀ c, P c → P' c) (hQ : ∀ a, Q a → Q' a) : Under R' P' Q' p := by
  induction p with
  | ret a => exact hQ a hp
  | ask c k ih => exact ⟨hP c hp.1, fun r hr => ih r (hp.2 r (hR c r hr))⟩

theorem imp (hp : Under R P Q p) (hQ : ∀ a, Q a → Q' a) : Under R P Q' p :=
  hp.mono (fun _ _ h => h) (fun _ h => h) hQ

/-- A program that keeps its word whatever the replies. -/
theorem of_only (hp : Only P' Q p) (hP : ∀ c, P' c → P c) : Under R P Q p := by
  induction p with
  | ret a => exact hp
  | ask c k ih => exact ⟨hP c hp.1, fun r _ => ih r (hp.2 r)⟩

theorem pure {a : α} (h : Q a) : (Pure.pure a : Prog S α).Under R P Q := h

/-- A command, any of whose replies will do. -/
theorem ask {c : S.Cmd} {k : S.Rep c → Prog S α} (hc : P c)
    (hk : ∀ r, (k r).Under R P Q) : (call c >>= k).Under R P Q := ⟨hc, fun r _ => hk r⟩

theorem dite {c : Prop} [Decidable c] {p' : Prog S α} (hp : c → Under R P Q p)
    (hp' : ¬ c → Under R P Q p') : Under R P Q (if c then p else p') := by
  split_ifs with h
  · exact hp h
  · exact hp' h

theorem ite {c : Prop} [Decidable c] {p' : Prog S α} (hp : Under R P Q p) (hp' : Under R P Q p') :
    Under R P Q (if c then p else p') := dite (fun _ => hp) fun _ => hp'

/-- What a loop keeps. -/
theorem foldlM {γ : Type} {I : β → Prop} {f : β → γ → Prog S β} {l : List γ}
    (hf : ∀ b, I b → ∀ a ∈ l, Under R P I (f b a)) (hb : I b) : Under R P I (l.foldlM f b) := by
  induction l generalizing b with
  | nil => exact hb
  | cons a l ih =>
    rw [foldlM_cons]
    exact bind (hf b hb a (by simp)) fun b hb => ih (fun b hb a ha => hf b hb a (by simp [ha])) hb

end Prog.Under

/-! ## Programs that may fail -/

variable {a : α}

section Failing

variable {ε : Type}

/-- A program that may fail, judged by what its successes return. -/
def SafeE (C : Contract S σ) (Q : α → σ → Prop) (x : ExceptT ε (Prog S) α) (s : σ) : Prop :=
  Safe C (fun r s => ∀ a, r = .ok a → Q a s) x.run s

/-- The commands of a program that may fail, and what its successes return. -/
def OnlyE (P : S.Cmd → Prop) (Q : α → Prop) (x : ExceptT ε (Prog S) α) : Prop :=
  x.run.Only P fun r => ∀ a, r = .ok a → Q a

/-- The program issues no other commands. -/
abbrev Issues (P : S.Cmd → Prop) (x : ExceptT ε (Prog S) α) : Prop := OnlyE P (fun _ => True) x

variable {C : Contract S σ} {s : σ} {P P' : S.Cmd → Prop} {x : ExceptT ε (Prog S) α}
  {Q : α → σ → Prop} {f : α → ExceptT ε (Prog S) β}

theorem SafeE.bind {R : β → σ → Prop} (hx : SafeE C Q x s)
    (hf : ∀ a s, Q a s → SafeE C R (f a) s) : SafeE C R (x >>= f) s := by
  refine Safe.bind hx fun r s hr => ?_
  cases r with
  | ok a => exact hf a s (hr a rfl)
  | error e => exact nofun

theorem SafeE.pure (h : Q a s) : SafeE C Q (Pure.pure a : ExceptT ε (Prog S) α) s := by
  rintro b ⟨⟩
  exact h

theorem SafeE.throw (e : ε) : SafeE C Q (MonadExcept.throw e : ExceptT ε (Prog S) α) s := by
  rintro b ⟨⟩

theorem SafeE.lift {x : Prog S α} (hx : Safe C Q x s) :
    SafeE C Q (liftM x : ExceptT ε (Prog S) α) s := by
  refine Safe.bind (f := fun a => Prog.ret (Except.ok a)) hx fun a s ha => ?_
  rintro _ ⟨⟩
  exact ha

theorem SafeE.mono {Q' : α → σ → Prop} (hx : SafeE C Q x s)
    (h : ∀ a s, Q a s → Q' a s) : SafeE C Q' x s :=
  Safe.mono hx fun _ s hr a ha => h a s (hr a ha)

variable {Q : α → Prop}

theorem OnlyE.bind {R : β → Prop} (hx : OnlyE P Q x) (hf : ∀ a, Q a → OnlyE P R (f a)) :
    OnlyE P R (x >>= f) := by
  refine Prog.Only.bind hx fun r hr => ?_
  cases r with
  | ok a => exact hf a (hr a rfl)
  | error e => exact nofun

theorem OnlyE.pure (h : Q a) : OnlyE P Q (Pure.pure a : ExceptT ε (Prog S) α) := by
  rintro b ⟨⟩
  exact h

theorem OnlyE.throw (e : ε) : OnlyE P Q (MonadExcept.throw e : ExceptT ε (Prog S) α) := by
  rintro b ⟨⟩

theorem OnlyE.mono {Q' : α → Prop} (hx : OnlyE P Q x)
    (hP : ∀ c, P c → P' c) (hQ : ∀ a, Q a → Q' a) : OnlyE P' Q' x :=
  Prog.Only.mono hx hP fun _ hr a ha => hQ a (hr a ha)

theorem OnlyE.safe (hx : OnlyE P Q x) (hA : C.Stable A)
    (h : ∀ c s r s', P c → A s → C.inv s → C.exec c s r s' → (C.guar c s r s' ∧ C.inv s') ∧ A s')
    (hs : A s) : SafeE C (fun a s => Q a ∧ A s) x s :=
  (Prog.Only.safe hx hA h hs).mono fun _ _ hr a ha => ⟨hr.1 a ha, hr.2⟩

/-- `Prog.Under` of a program that may fail, judged by what its successes return. -/
def UnderE (R : (c : S.Cmd) → S.Rep c → Prop) (P : S.Cmd → Prop) (Q : α → Prop)
    (x : ExceptT ε (Prog S) α) : Prop := x.run.Under R P fun r => ∀ a, r = .ok a → Q a

/-- The same, whatever the successes return. -/
abbrev WithinE (R : (c : S.Cmd) → S.Rep c → Prop) (P : S.Cmd → Prop) (x : ExceptT ε (Prog S) α) :
    Prop := UnderE R P (fun _ => True) x

namespace UnderE

variable {R : (c : S.Cmd) → S.Rep c → Prop} {Q Q' : α → Prop} {T : β → Prop}

theorem pure (h : Q a) : UnderE R P Q (Pure.pure a : ExceptT ε (Prog S) α) := by
  rintro b ⟨⟩
  exact h

theorem throw (e : ε) : UnderE R P Q (MonadExcept.throw e : ExceptT ε (Prog S) α) := by
  rintro b ⟨⟩

theorem bind (hx : UnderE R P Q x)
    (hf : ∀ a, Q a → UnderE R P T (f a)) : UnderE R P T (x >>= f) := by
  refine Prog.Under.bind hx fun r hr => ?_
  cases r with
  | ok a => exact hf a (hr a rfl)
  | error e => exact nofun

theorem lift {x : Prog S α} (hx : x.Under R P Q) :
    UnderE R P Q (liftM x : ExceptT ε (Prog S) α) := by
  refine Prog.Under.bind hx fun a ha => ?_
  rintro b ⟨⟩
  exact ha

theorem run (hx : UnderE R P Q x) : x.run.Under R P fun r => ∀ a, r = .ok a → Q a := hx

theorem ret (a : α) : WithinE R P (Pure.pure a : ExceptT ε (Prog S) α) := pure trivial

theorem seq (hx : WithinE R P x) (hf : ∀ a, UnderE R P T (f a)) :
    UnderE R P T (x >>= f) := bind hx fun a _ => hf a

theorem dite {c : Prop} [Decidable c] {y : ExceptT ε (Prog S) α} (hx : c → UnderE R P Q x)
    (hy : ¬ c → UnderE R P Q y) : UnderE R P Q (if c then x else y) := by
  split_ifs with h
  · exact hx h
  · exact hy h

theorem ite {c : Prop} [Decidable c] {y : ExceptT ε (Prog S) α} (hx : UnderE R P Q x)
    (hy : UnderE R P Q y) : UnderE R P Q (if c then x else y) := dite (fun _ => hx) fun _ => hy

theorem foldlM {γ : Type} {I : β → Prop} {f : β → γ → ExceptT ε (Prog S) β} {l : List γ}
    (hf : ∀ b, I b → ∀ a ∈ l, UnderE R P I (f b a)) (hb : I b) : UnderE R P I (l.foldlM f b) := by
  induction l generalizing b with
  | nil => exact pure hb
  | cons a l ih =>
    rw [foldlM_cons]
    exact bind (hf b hb a (by simp)) fun b hb => ih (fun b hb a ha => hf b hb a (by simp [ha])) hb

end UnderE

end Failing

/-! ## Alone -/

/-- The program, by itself, goes from one state to another and returns. -/
inductive Prog.Alone (Exec : (c : S.Cmd) → σ → S.Rep c → σ → Prop) :
    Prog S α → σ → α → σ → Prop
  | ret (a : α) (s : σ) : Alone Exec (.ret a) s a s
  | ask {c : S.Cmd} {k : S.Rep c → Prog S α} {s s₁ s' : σ} {r : S.Rep c} {a : α} :
      Exec c s r s₁ → Alone Exec (k r) s₁ a s' → Alone Exec (.ask c k) s a s'

variable {Exec : (c : S.Cmd) → σ → S.Rep c → σ → Prop} {exec : (c : S.Cmd) → σ → S.Rep c × σ}

theorem Prog.alone_run (h : ∀ c s, Exec c s (exec c s).1 (exec c s).2)
    (p : Prog S α) (s : σ) : p.Alone Exec s (p.run exec s).1 (p.run exec s).2 := by
  induction p generalizing s with
  | ret a => exact .ret a s
  | ask c k ih => exact .ask (h c s) (ih _ _)

section Alone

variable {Exec : (c : S.Cmd) → σ → S.Rep c → σ → Prop} {s s' : σ}

theorem Prog.alone_ret {b : α} (h : (Prog.ret a : Prog S α).Alone Exec s b s') :
    b = a ∧ s' = s := by
  cases h
  exact ⟨rfl, rfl⟩

theorem Prog.alone_ask {c : S.Cmd} {k : S.Rep c → Prog S α} (h : (Prog.ask c k).Alone Exec s a s') :
    ∃ r s₁, Exec c s r s₁ ∧ (k r).Alone Exec s₁ a s' := by
  cases h with
  | ask hexec hrest => exact ⟨_, _, hexec, hrest⟩

/-- A run of a composition is a run of its parts. -/
theorem Prog.Alone.of_bind {f : α → Prog S β} (h : (p >>= f).Alone Exec s b s') :
    ∃ a s₁, p.Alone Exec s a s₁ ∧ (f a).Alone Exec s₁ b s' := by
  induction p generalizing s with
  | ret a => exact ⟨a, s, .ret a s, h⟩
  | ask c k ih =>
    obtain ⟨r, s₁, hexec, hrest⟩ := Prog.alone_ask h
    obtain ⟨a, s₂, hp, hf⟩ := ih r hrest
    exact ⟨a, s₂, .ask hexec hp, hf⟩

/-- What every command of a program leaves alone, the program leaves alone. -/
theorem Prog.Only.alone {P : S.Cmd → Prop} {Q : α → Prop} {R : σ → σ → Prop} (hp : p.Only P Q)
    (hrefl : ∀ s, R s s) (htrans : ∀ {a b c}, R a b → R b c → R a c)
    (h : ∀ c s r s', P c → Exec c s r s' → R s s') (hrun : p.Alone Exec s a s') : Q a ∧ R s s' := by
  induction hrun with
  | ret a s => exact ⟨hp, hrefl s⟩
  | ask hexec _ ih =>
    obtain ⟨hQ, hR⟩ := ih (hp.2 _)
    exact ⟨hQ, htrans (h _ _ _ _ hp.1 hexec) hR⟩

end Alone

variable {Q : α → σ → Prop}

theorem Safe.alone {s s' : σ} (h : Safe C Q p s)
    (hinv : C.inv s) (hrun : p.Alone C.exec s a s') : Q a s' ∧ C.inv s' := by
  induction hrun with
  | ret a s => exact ⟨h, hinv⟩
  | ask hexec _ ih =>
    obtain ⟨⟨-, hinv'⟩, hrest⟩ := h _ .refl hinv _ _ hexec
    exact ih hrest hinv'

/-! ## Beside others -/

/-- The exchanges `tr` of a program while others take steps in between, up to some point. -/
inductive Prog.Beside (Exec : (c : S.Cmd) → σ → S.Rep c → σ → Prop) (Env : σ → σ → Prop) :
    Prog S α → σ → List (Exchange S σ) → Prog S α → σ → Prop
  | stop (p : Prog S α) (s : σ) : Beside Exec Env p s [] p s
  | env {p p' : Prog S α} {s s₁ s' : σ} {tr : List (Exchange S σ)} :
      Env s s₁ → Beside Exec Env p s₁ tr p' s' → Beside Exec Env p s tr p' s'
  | ask {c : S.Cmd} {k : S.Rep c → Prog S α} {r : S.Rep c} {p' : Prog S α} {s s₁ s' : σ}
      {tr : List (Exchange S σ)} :
      Exec c s r s₁ → Beside Exec Env (k r) s₁ tr p' s' →
        Beside Exec Env (.ask c k) s (⟨s, c, r, s₁⟩ :: tr) p' s'

variable {tr : List (Exchange S σ)}

/-- **A safe program keeps its guarantee beside others.** -/
theorem Safe.beside {p' : Prog S α} {s s' : σ} (h : Safe C Q p s) (hinv : C.inv s)
    (hrely : ∀ s s', C.inv s → C.rely s s' → C.inv s')
    (hQ : ∀ a s s', Q a s → C.rely s s' → Q a s') (hrun : p.Beside C.exec C.rely s tr p' s') :
    (∀ e ∈ tr, C.guar e.cmd e.before e.reply e.after) ∧ C.inv s' ∧ Safe C Q p' s' := by
  induction hrun with
  | stop p s => exact ⟨fun e he => absurd he not_mem_nil, hinv, h⟩
  | env henv _ ih => exact ih (h.stable hQ henv) (hrely _ _ hinv henv)
  | ask hexec _ ih =>
    obtain ⟨⟨hg, hinv'⟩, hrest⟩ := h _ .refl hinv _ _ hexec
    obtain ⟨hgs, hdone⟩ := ih hrest hinv'
    refine ⟨fun e he => ?_, hdone⟩
    rcases mem_cons.mp he with rfl | he
    · exact hg
    · exact hgs e he

/-- A program that nobody disturbs is beside others. -/
theorem Prog.beside_interleave_nil {Env : σ → σ → Prop}
    (h : ∀ c s, Exec c s (exec c s).1 (exec c s).2) (p : Prog S α) (s : σ) :
    ∃ s', p.Beside Exec Env s (interleave exec [] p s).1
      (.ret (interleave exec [] p s).2) s' := by
  induction p generalizing s with
  | ret a => exact ⟨s, .stop _ s⟩
  | ask c k ih =>
    obtain ⟨s', hrest⟩ := ih (exec c s).1 (exec c s).2
    exact ⟨s', .ask (h c s) hrest⟩

/-! ## Teams -/

/-- A program under way: what is left of it and the exchanges it has had. -/
structure Member (S : Sig) (κ α σ : Type) where
  ctx : κ
  rest : Prog S α
  log : List (Exchange S σ) := []

/-- A store and the programs started on it. -/
structure Team (S : Sig) (κ α σ : Type) where
  store : σ
  size : ℕ := 0
  members : ℕ → Option (Member S κ α σ) := fun _ => none

/-- The exchanges `tr` lead from one program to the other. -/
inductive Prog.Went (Exec : (c : S.Cmd) → σ → S.Rep c → σ → Prop) :
    Prog S α → List (Exchange S σ) → Prog S α → Prop
  | stop (p : Prog S α) : Went Exec p [] p
  | ask {c : S.Cmd} {k : S.Rep c → Prog S α} {s s' : σ} {r : S.Rep c}
      {tr : List (Exchange S σ)} {p : Prog S α} :
      Exec c s r s' → Went Exec (k r) tr p → Went Exec (.ask c k) (⟨s, c, r, s'⟩ :: tr) p

theorem Prog.Went.snoc
    {c : S.Cmd} {k : S.Rep c → Prog S α} {s s' : σ} {r : S.Rep c} (h : p.Went Exec tr (.ask c k))
    (hexec : Exec c s r s') : p.Went Exec (tr ++ [⟨s, c, r, s'⟩]) (k r) := by
  generalize hp' : Prog.ask c k = p' at h
  induction h with
  | stop p =>
    subst hp'
    exact .ask hexec (.stop _)
  | ask hfirst _ ih => exact .ask hfirst (ih hp')

namespace Team

variable {starts : κ → Prog S α → Prop} {Exec : ℕ → κ → (c : S.Cmd) → σ → S.Rep c → σ → Prop}

/-- One step of a team, where `starts` are the programs that may be started. -/
inductive Step (starts : κ → Prog S α → Prop)
    (Exec : ℕ → κ → (c : S.Cmd) → σ → S.Rep c → σ → Prop) : Team S κ α σ → Team S κ α σ → Prop
  | start {T : Team S κ α σ} (ctx : κ) (p : Prog S α) (hp : starts ctx p) :
      Step starts Exec T
        ⟨T.store, T.size + 1, update T.members T.size (some ⟨ctx, p, []⟩)⟩
  | exchange {T : Team S κ α σ} (i : ℕ) (ctx : κ) (c : S.Cmd) (k : S.Rep c → Prog S α)
      (log : List (Exchange S σ)) (r : S.Rep c) (s' : σ)
      (hi : T.members i = some ⟨ctx, .ask c k, log⟩) (hexec : Exec i ctx c T.store r s') :
      Step starts Exec T ⟨s', T.size,
        update T.members i (some ⟨ctx, k r, log ++ [⟨T.store, c, r, s'⟩]⟩)⟩

/-- The states a team reaches. -/
def Run (starts : κ → Prog S α → Prop)
    (Exec : ℕ → κ → (c : S.Cmd) → σ → S.Rep c → σ → Prop) : Team S κ α σ → Team S κ α σ → Prop :=
  ReflTransGen (Step starts Exec)

/-- What is known of a member: where it comes from, and that it keeps its contract. -/
structure Kept (starts : κ → Prog S α → Prop)
    (Exec : ℕ → κ → (c : S.Cmd) → σ → S.Rep c → σ → Prop) (C : ℕ → κ → Contract S σ) (s : σ) (i : ℕ)
    (m : Member S κ α σ) : Prop where
  went : ∃ p, starts m.ctx p ∧ p.Went (Exec i m.ctx) m.log m.rest
  safe : Safe (C i m.ctx) (fun _ _ => True) m.rest s
  guar : ∀ e ∈ m.log, (C i m.ctx).guar e.cmd e.before e.reply e.after

/-- **Members that keep their contracts.** `F i` says that the store knows nothing of the
program with number `i` yet. -/
theorem safe {J : σ → Prop} {F : ℕ → σ → Prop} {C : ℕ → κ → Contract S σ}
    (hinv : ∀ i ctx, (C i ctx).inv = J)
    (hexec : ∀ i ctx c s r s', Exec i ctx c s r s' → (C i ctx).exec c s r s')
    (hstart : ∀ i ctx p s, starts ctx p → F i s → Safe (C i ctx) (fun _ _ => True) p s)
    (hrely : ∀ i j ctx ctx' c s r s', i ≠ j → J s → (C i ctx).guar c s r s' →
      (C j ctx').rely s s')
    (hfresh : ∀ i j ctx c s r s', i ≠ j → J s → (C i ctx).guar c s r s' → F j s → F j s')
    {s₀ : σ} {n : ℕ} (h₀ : J s₀) (hfresh₀ : ∀ i, n ≤ i → F i s₀) {T : Team S κ α σ}
    (h : Run starts Exec ⟨s₀, n, fun _ => none⟩ T) :
    J T.store ∧ (∀ i, T.size ≤ i → F i T.store ∧ T.members i = none) ∧
      ∀ i m, T.members i = some m → Kept starts Exec C T.store i m := by
  induction h with
  | refl => exact ⟨h₀, fun i hi => ⟨hfresh₀ i hi, rfl⟩, nofun⟩
  | @tail T T' _ hlast ih =>
    obtain ⟨hJ, hnew, hold⟩ := ih
    cases hlast with
    | start ctx p hp =>
      refine ⟨hJ, fun i hi => ?_, fun i m hm => ?_⟩
      · have hi' : T.size ≤ i := Nat.le_of_succ_le hi
        refine ⟨(hnew i hi').1, ?_⟩
        dsimp only at hi ⊢
        rw [update_of_ne (by omega)]
        exact (hnew i hi').2
      · by_cases hij : i = T.size
        · subst hij
          simp only [update_self, Option.some.injEq] at hm
          subst hm
          exact ⟨⟨p, hp, .stop p⟩, hstart _ _ _ _ hp (hnew _ (Nat.le_refl _)).1, nofun⟩
        · simp only [update_of_ne hij] at hm
          exact hold i m hm
    | exchange i ctx c k log r s' hi hexec' =>
      obtain ⟨⟨p, hp, hwent⟩, hsafe, hguar⟩ := hold i _ hi
      obtain ⟨⟨hg, hJ'⟩, hrest⟩ := hsafe T.store .refl (by rw [hinv]; exact hJ) r s'
        (hexec _ _ _ _ _ _ hexec')
      rw [hinv] at hJ'
      refine ⟨hJ', fun j hj => ?_, fun j m hm => ?_⟩
      · have hij : i ≠ j := by
          rintro rfl
          rw [(hnew i hj).2] at hi
          cases hi
        refine ⟨hfresh i j ctx c T.store r s' hij hJ hg (hnew j hj).1, ?_⟩
        dsimp only
        rw [update_of_ne (Ne.symm hij)]
        exact (hnew j hj).2
      · by_cases hij : j = i
        · subst hij
          simp only [update_self, Option.some.injEq] at hm
          subst hm
          refine ⟨⟨p, hp, hwent.snoc hexec'⟩, hrest, fun e he => ?_⟩
          rcases mem_append.mp he with he | he
          · exact hguar e he
          · rw [mem_singleton.mp he]
            exact hg
        · simp only [update_of_ne hij] at hm
          obtain ⟨hw, hs, hgu⟩ := hold j m hm
          have hr := hrely i j ctx m.ctx c T.store r s' (Ne.symm hij) hJ hg
          exact ⟨hw, hs.stable (fun _ _ _ _ _ => trivial) hr, hgu⟩

/-! ## Schedules -/

/-- One entry of a schedule: a new program, or the next exchange of one under way. -/
inductive Move (κ χ : Type)
  | start (ctx : κ)
  | step (i : ℕ) (o : χ)

section Play

variable {χ : Type} (prog : κ → Option (Prog S α))
  (exec : ℕ → κ → χ → (c : S.Cmd) → σ → Option (S.Rep c × σ))

/-- The next exchange of a member, if it has one and it is possible. -/
def advance (i : ℕ) (o : χ) (T : Team S κ α σ) : Team S κ α σ :=
  match T.members i with
  | some ⟨ctx, .ask c k, log⟩ =>
    match exec i ctx o c T.store with
    | some (r, s') =>
      ⟨s', T.size, update T.members i (some ⟨ctx, k r, log ++ [⟨T.store, c, r, s'⟩]⟩)⟩
    | none => T
  | _ => T

/-- What a schedule leads to; entries that are not possible are skipped. -/
def play : List (Move κ χ) → Team S κ α σ → Team S κ α σ
  | [], T => T
  | .start ctx :: l, T =>
    match prog ctx with
    | some p =>
      play l ⟨T.store, T.size + 1, update T.members T.size (some ⟨ctx, p, []⟩)⟩
    | none => play l T
  | .step i o :: l, T => play l (advance exec i o T)

variable {prog exec}

theorem run_play (hprog : ∀ ctx p, prog ctx = some p → starts ctx p)
    (hexec : ∀ i ctx o c s r s', exec i ctx o c s = some (r, s') → Exec i ctx c s r s')
    (l : List (Move κ χ)) (T : Team S κ α σ) : Run starts Exec T (play prog exec l T) := by
  induction l generalizing T with
  | nil => exact .refl
  | cons m l ih =>
    cases m with
    | start ctx =>
      unfold play
      split
      · next p hp => exact .head (.start ctx p (hprog ctx p hp)) (ih _)
      · exact ih T
    | step i o =>
      refine .trans ?_ (ih (advance exec i o T))
      unfold advance
      split
      · next ctx c k log hi =>
        split
        · next r s' hr => exact .single (.exchange i ctx c k log r s' hi (hexec _ _ _ _ _ _ _ hr))
        · exact .refl
      · exact .refl

end Play

end Team

end Afs
