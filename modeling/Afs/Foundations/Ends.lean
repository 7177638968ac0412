import Afs.Foundations.Prog

/-!
# Programs run to their end

`Ends exec p s a s'`: run alone from `s`, the program `p` returns `a` and leaves `s'`. The end of a
program is put together from the ends of its pieces; of a program that may fail, from the piece
that fails on.
-/

namespace Afs

variable {S : Sig} {σ α β ε : Type} {exec : (c : S.Cmd) → σ → S.Rep c × σ} {s s₁ s' : σ}

/-- Run alone from `s`, the program returns `a` and leaves `s'`. -/
def Ends (exec : (c : S.Cmd) → σ → S.Rep c × σ) (p : Prog S α) (s : σ) (a : α) (s' : σ) : Prop :=
  p.run exec s = (a, s')

namespace Ends

theorem pure (a : α) (s : σ) : Ends exec (Pure.pure a : Prog S α) s a s := rfl

theorem call {c : S.Cmd} {r : S.Rep c} (h : exec c s = (r, s')) : Ends exec (Prog.call c) s r s' :=
  h

variable {a : α}

theorem bind {p : Prog S α} {f : α → Prog S β} {b : β} (hp : Ends exec p s a s₁)
    (hf : Ends exec (f a) s₁ b s') : Ends exec (p >>= f) s b s' := by
  unfold Ends at *
  rw [Prog.run_bind, hp]
  exact hf

section Failing

theorem ok : Ends exec (Pure.pure a : ExceptT ε (Prog S) α).run s (.ok a) s := rfl

theorem lift {p : Prog S α} (h : Ends exec p s a s') :
    Ends exec (liftM p : ExceptT ε (Prog S) α).run s (.ok a) s' :=
  h.bind (f := fun a => Pure.pure (Except.ok a)) rfl

variable {f : α → ExceptT ε (Prog S) β} {x : ExceptT ε (Prog S) α}

theorem andThen
    {r : Except ε β} (hx : Ends exec x.run s (.ok a) s₁) (hf : Ends exec (f a).run s₁ r s') :
    Ends exec (x >>= f).run s r s' :=
  bind (p := x.run) hx hf

theorem fails {e : ε}
    (hx : Ends exec x.run s (.error e) s') : Ends exec (x >>= f).run s (.error e) s' :=
  bind (p := x.run) hx rfl

/-- A loop whose steps all leave the same value and state. -/
theorem foldlM {l : List β} {f : α → β → ExceptT ε (Prog S) α}
    (h : ∀ b ∈ l, Ends exec (f a b).run s (.ok a) s) :
    Ends exec (l.foldlM f a).run s (.ok a) s := by
  induction l with
  | nil => exact ok
  | cons b l ih =>
    rw [List.foldlM_cons]
    exact (h b List.mem_cons_self).andThen (ih fun b hb => h b (List.mem_cons_of_mem _ hb))

end Failing

end Ends

end Afs
