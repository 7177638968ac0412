import Mathlib.Data.List.Basic
import Mathlib.Tactic.Common

/-!
# Interaction programs

A program that talks to a shared store is a tree: it returns, or it issues one command and goes
on with the reply. The commands are opaque here; what a command does is given by an *executor*.
The same tree is read in three ways:

* `Prog.run`: alone, every command on the state the one before it left;
* `Prog.Trace`: among other programs, where before each command the store may have become
  anything at all. What is proved of every trace holds of every interleaving;
* `Prog.Track`: under an observer (`Prog.Monitor`) that remembers the exchanges as far as it needs
  and knows which replies are possible. It is a check on the tree alone, and `Prog.Track.sound`
  turns it into a fact on traces.
-/

namespace Afs

open List

/-- A signature: the commands, and the type of the reply to each. -/
structure Sig where
  Cmd : Type
  Rep : Cmd → Type

/-- Programs over a signature. -/
inductive Prog (S : Sig) (α : Type) : Type
  /-- The program has returned. -/
  | ret (a : α)
  /-- The program issues `c` and goes on with the reply. -/
  | ask (c : S.Cmd) (k : S.Rep c → Prog S α)

namespace Prog

variable {S : Sig} {α β γ σ τ : Type}

/-- Sequential composition. -/
protected def bind : Prog S α → (α → Prog S β) → Prog S β
  | .ret a, f => f a
  | .ask c k, f => .ask c fun r => (k r).bind f

instance : Monad (Prog S) where
  pure := .ret
  bind := Prog.bind

/-- The program that issues one command and returns the reply. -/
def call (c : S.Cmd) : Prog S (S.Rep c) := .ask c .ret

@[simp] theorem ask_bind (c : S.Cmd) (k : S.Rep c → Prog S α) (f : α → Prog S β) :
    (Prog.ask c k >>= f) = .ask c fun r => k r >>= f := rfl

theorem bind_assoc (p : Prog S α) (f : α → Prog S β) (g : β → Prog S γ) :
    (p >>= f) >>= g = p >>= fun a => f a >>= g := by
  induction p with
  | ret a => rfl
  | ask c k ih => simp only [ask_bind, ih]

/-! ## Running alone -/

/-- Run a program by itself under the executor `exec`. -/
def run (exec : (c : S.Cmd) → σ → S.Rep c × σ) : Prog S α → σ → α × σ
  | .ret a, s => (a, s)
  | .ask c k, s => (k (exec c s).1).run exec (exec c s).2

variable (exec : (c : S.Cmd) → σ → S.Rep c × σ)

@[simp] theorem run_ask (c : S.Cmd) (k : S.Rep c → Prog S α) (s : σ) :
    (Prog.ask c k).run exec s = (k (exec c s).1).run exec (exec c s).2 := rfl

theorem run_bind (p : Prog S α) (f : α → Prog S β) (s : σ) :
    (p >>= f).run exec s = (f (p.run exec s).1).run exec (p.run exec s).2 := by
  induction p generalizing s with
  | ret a => rfl
  | ask c k ih => simp only [ask_bind, run_ask, ih]

/-! ## Running among others -/

/-- One exchange of a trace: the store the command met, the command, its reply, and the store it
left. -/
structure Exchange (S : Sig) (σ : Type) where
  before : σ
  cmd : S.Cmd
  reply : S.Rep cmd
  after : σ

/-- `p.Trace Exec tr a`: `p` returned `a` after the exchanges `tr`. Nothing links the store an
exchange leaves to the store the next one meets. -/
inductive Trace (Exec : (c : S.Cmd) → σ → S.Rep c → σ → Prop) :
    Prog S α → List (Exchange S σ) → α → Prop
  | ret (a : α) : Trace Exec (.ret a) [] a
  | ask {c : S.Cmd} {k : S.Rep c → Prog S α} {s s' : σ} {r : S.Rep c}
      {tr : List (Exchange S σ)} {a : α} :
      Exec c s r s' → Trace Exec (k r) tr a → Trace Exec (.ask c k) (⟨s, c, r, s'⟩ :: tr) a

variable {Exec : (c : S.Cmd) → σ → S.Rep c → σ → Prop} {tr : List (Exchange S σ)} {p : Prog S α}

theorem Trace.mem {a : α} (h : p.Trace Exec tr a) {e : Exchange S σ} (he : e ∈ tr) :
    Exec e.cmd e.before e.reply e.after := by
  induction h with
  | ret a => cases he
  | ask hexec htr ih =>
    obtain rfl | he := mem_cons.mp he
    · exact hexec
    · exact ih he

/-- The exchanges of a composition are those of its parts. -/
theorem Trace.of_bind {f : α → Prog S β} {b : β} (h : (p >>= f).Trace Exec tr b) :
    ∃ t₁ t₂ a, tr = t₁ ++ t₂ ∧ p.Trace Exec t₁ a ∧ (f a).Trace Exec t₂ b := by
  induction p generalizing tr with
  | ret a => exact ⟨[], tr, a, rfl, .ret a, h⟩
  | ask c k ih =>
    cases h with
    | ask hexec htr =>
      obtain ⟨t₁, t₂, a, rfl, h₁, h₂⟩ := ih _ htr
      exact ⟨_ :: t₁, t₂, a, rfl, .ask hexec h₁, h₂⟩

theorem trace_ret {a b : α} (h : (Prog.ret a : Prog S α).Trace Exec tr b) : tr = [] ∧ b = a := by
  cases h
  exact ⟨rfl, rfl⟩

theorem trace_call {c : S.Cmd} {r : S.Rep c} (h : (call c).Trace Exec tr r) :
    ∃ s s', tr = [⟨s, c, r, s'⟩] ∧ Exec c s r s' := by
  cases h with
  | ask hexec hrest =>
    cases hrest
    exact ⟨_, _, rfl, hexec⟩

/-- The exchanges of a composition that may fail. -/
theorem Trace.exceptBind_cases {ε : Type} {x : ExceptT ε (Prog S) α} {f : α → ExceptT ε (Prog S) β}
    {r : Except ε β} (h : (x >>= f).run.Trace Exec tr r) :
    (∃ e, r = .error e ∧ x.run.Trace Exec tr (.error e)) ∨
      ∃ t₁ t₂ a, tr = t₁ ++ t₂ ∧ x.run.Trace Exec t₁ (.ok a) ∧ (f a).run.Trace Exec t₂ r := by
  obtain ⟨t₁, t₂, r', rfl, h₁, h₂⟩ := Trace.of_bind (p := x.run) h
  cases r' with
  | ok a => exact .inr ⟨t₁, t₂, a, rfl, h₁, h₂⟩
  | error e =>
    obtain ⟨rfl, rfl⟩ := trace_ret h₂
    exact .inl ⟨e, rfl, by rwa [append_nil]⟩

theorem Trace.of_exceptBind {ε : Type}
    {x : ExceptT ε (Prog S) α} {f : α → ExceptT ε (Prog S) β} {b : β}
    (h : (x >>= f).run.Trace Exec tr (.ok b)) :
    ∃ t₁ t₂ a, tr = t₁ ++ t₂ ∧ x.run.Trace Exec t₁ (.ok a) ∧ (f a).run.Trace Exec t₂ (.ok b) := by
  obtain ⟨e, he, -⟩ | h := h.exceptBind_cases
  · cases he
  · exact h

/-- What an observer of one program's exchanges keeps and expects: how an exchange moves its
state, which replies it takes for possible, and which commands it allows. -/
structure Monitor (S : Sig) (τ : Type) where
  next : τ → (c : S.Cmd) → S.Rep c → τ
  admits : τ → (c : S.Cmd) → S.Rep c → Prop
  allows : τ → S.Cmd → Prop

/-- `Track M Q t p`: started with the observer in state `t`, every command `p` issues is allowed
and every result satisfies `Q`, for all replies the observer takes for possible. -/
def Track (M : Monitor S τ) (Q : τ → α → Prop) : τ → Prog S α → Prop
  | t, .ret a => Q t a
  | t, .ask c k => M.allows t c ∧ ∀ r, M.admits t c r → Track M Q (M.next t c r) (k r)

/-- The observer's state after the exchanges `tr`. -/
def Monitor.after (M : Monitor S τ) (t : τ) (tr : List (Exchange S σ)) : τ :=
  tr.foldl (fun t e => M.next t e.cmd e.reply) t

theorem Monitor.after_append (M : Monitor S τ) (t : τ) (tr tr' : List (Exchange S σ)) :
    M.after t (tr ++ tr') = M.after (M.after t tr) tr' := foldl_append

namespace Track

variable {M : Monitor S τ} {Q Q' : τ → α → Prop} {R : τ → β → Prop} {t : τ}

theorem bind {f : α → Prog S β} (hp : Track M Q t p)
    (hf : ∀ t a, Q t a → Track M R t (f a)) : Track M R t (p >>= f) := by
  induction p generalizing t with
  | ret a => exact hf t a hp
  | ask c k ih => exact ⟨hp.1, fun r hr => ih r (hp.2 r hr)⟩

theorem mono (hp : Track M Q t p) (hQ : ∀ t a, Q t a → Q' t a) : Track M Q' t p := by
  induction p generalizing t with
  | ret a => exact hQ t a hp
  | ask c k ih => exact ⟨hp.1, fun r hr => ih r (hp.2 r hr)⟩

/-- A relation every exchange respects holds between the states before and after a program. -/
theorem chain {rel : τ → τ → Prop} (hrefl : ∀ t, rel t t)
    (htrans : ∀ {a b c}, rel a b → rel b c → rel a c) (hnext : ∀ t c r, rel t (M.next t c r))
    (hp : Track M Q t p) : Track M (fun t' a => Q t' a ∧ rel t t') t p := by
  induction p generalizing t with
  | ret a => exact ⟨hp, hrefl t⟩
  | ask c k ih =>
    refine ⟨hp.1, fun r hr => ?_⟩
    exact (ih r (hp.2 r hr)).mono fun t' a h => ⟨h.1, htrans (hnext t c r) h.2⟩

/-- **A tracked program in any interleaving.** If every exchange of a trace is one the observer
takes for possible, the result satisfies `Q` in the state the trace leads to, and every command
was allowed when it was issued. -/
theorem sound {a : α} (hp : Track M Q t p) (h : p.Trace Exec tr a)
    (hA : ∀ l e l', tr = l ++ e :: l' → M.admits (M.after t l) e.cmd e.reply) :
    Q (M.after t tr) a ∧ ∀ l e l', tr = l ++ e :: l' → M.allows (M.after t l) e.cmd := by
  induction h generalizing t with
  | ret a => exact ⟨hp, fun l e l' h => by simp at h⟩
  | @ask c k s s' r tr a hexec htr ih =>
    have hr : M.admits t c r := hA [] ⟨s, c, r, s'⟩ tr rfl
    obtain ⟨hQ, hP⟩ := ih (hp.2 r hr) fun l e l' h => hA (⟨s, c, r, s'⟩ :: l) e l' (by rw [h]; rfl)
    refine ⟨hQ, fun l e l' h => ?_⟩
    cases l with
    | nil =>
      simp only [nil_append, List.cons.injEq] at h
      obtain ⟨rfl, -⟩ := h
      exact hp.1
    | cons x l =>
      simp only [cons_append, List.cons.injEq] at h
      obtain ⟨rfl, h⟩ := h
      exact hP l e l' h

/-! ### Programs that may fail -/

variable {ε : Type} {E : τ → Except ε α → Prop} {F : τ → Except ε β → Prop}

theorem exceptBind {x : ExceptT ε (Prog S) α} {f : α → ExceptT ε (Prog S) β}
    (hx : Track M E t x.run) (hf : ∀ t a, E t (.ok a) → Track M F t (f a).run)
    (he : ∀ t e, E t (.error e) → F t (.error e)) : Track M F t (x >>= f).run := by
  refine hx.bind fun t r hr => ?_
  cases r with
  | ok a => exact hf t a hr
  | error e => exact he t e hr

end Track

/-! ## A schedule -/

/-- Run a program while the others change the store before each of its commands: the `n`th
function of `env` acts before the `n`th command. -/
def interleave (exec : (c : S.Cmd) → σ → S.Rep c × σ) :
    List (σ → σ) → Prog S α → σ → List (Exchange S σ) × α
  | _, .ret a, _ => ([], a)
  | env, .ask c k, s =>
    let s := env.headD id s
    let rest := interleave exec env.tail (k (exec c s).1) (exec c s).2
    (⟨s, c, (exec c s).1, (exec c s).2⟩ :: rest.1, rest.2)

theorem trace_interleave
    {exec : (c : S.Cmd) → σ → S.Rep c × σ} (h : ∀ c s, Exec c s (exec c s).1 (exec c s).2)
    (env : List (σ → σ)) (p : Prog S α) (s : σ) :
    p.Trace Exec (interleave exec env p s).1 (interleave exec env p s).2 := by
  induction p generalizing env s with
  | ret a => exact .ret a
  | ask c k ih => exact .ask (h c _) (ih _ _ _)

end Prog

end Afs
