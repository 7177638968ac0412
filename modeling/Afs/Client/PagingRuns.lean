import Afs.Client.HistoryRuns
import Afs.History.Timelines

/-!
# Listings of a workspace at work

The listings of a history are complete in every state of a clean run. A listing of one lineage is
read while the run goes on: `pages` are the states its pages are read in.
-/

namespace Afs.Client

open History Option

section Runs

variable {w : World} {acts : List Act}

theorem HistoryStep.catalogue {clean : Prop} {h : HistoryKeys} (hs : HistoryStep clean w h)
    (hclean : clean) (hc : ∃ rs, Catalogue w.history rs) : ∃ rs, Catalogue h rs := by
  obtain ⟨rs, hc⟩ := hc
  cases hs with
  | same policy cursor prepared =>
    have hturn := (Turn.refl hc.represents).relabel policy cursor prepared
    exact ⟨_, hc.turn hturn rfl⟩
  | captured operation origin now changes cap hids hcap => exact hc.capture (hids hclean) hcap
  | pruned now limit h hp => exact hc.prune hp

/-- **A clean run keeps the catalogue.** -/
theorem CleanRun.catalogue (hc : ∃ rs, Catalogue w.history rs) (hclean : CleanRun w acts) :
    ∃ rs, Catalogue (runActs w acts).history rs := by
  induction acts generalizing w with
  | nil => exact hc
  | cons act acts ih => exact ih ((act.historyStep w).catalogue hclean.1 hc) hclean.2

theorem EmptyHistory.catalogue (h : EmptyHistory w) : ∃ rs, Catalogue w.history rs := by
  rw [h]
  exact ⟨[], .empty _⟩

/-- The worlds in which the pages of a listing are read, when `later k` happens after page `k`. -/
def pages (w : World) (later : ℕ → List Act) : ℕ → World
  | 0 => w
  | k + 1 => runActs (pages w later k) (later k)

theorem pages_catalogue {later : ℕ → List Act} (hc : ∃ rs, Catalogue w.history rs)
    (hlater : ∀ k, CleanRun (pages w later k) (later k)) (k : ℕ) :
    ∃ rs, Catalogue (pages w later k).history rs := by
  induction k with
  | zero => exact hc
  | succ k ih => exact (hlater k).catalogue ih

/-- The history is swept after the first page. -/
def sweptOnce : ℕ → List Act
  | 0 => [.prunePage 10]
  | _ + 1 => []

theorem pages_sweptOnce (w : World) (k : ℕ) :
    pages w sweptOnce k = w ∨ pages w sweptOnce k = runActs w [.prunePage 10] := by
  induction k with
  | zero => exact .inl rfl
  | succ k ih =>
    cases k with
    | zero => exact .inr rfl
    | succ k => exact ih

/-- History follows what is below `/a` and `/c`. -/
def twoPolicy : Policy :=
  { mode := .paths, include_ := [[47, 97, 47, 42, 42], [47, 99, 47, 42, 42]] }

/-- A workspace with nothing but its root. -/
def twoTracked : World := { bareWorld with history := { policy := some twoPolicy } }

/-- A client writes `/a/f` twice and `/c/g` once. Then it renames `/a` to `/b`. -/
def movedAway : List Request :=
  [.mkdir [47, 97] 0o755, .echo [47, 97, 47, 102] [1], .echo [47, 97, 47, 102] [2],
    .mkdir [47, 99] 0o755, .echo [47, 99, 47, 103] [3], .rename [47, 97] [47, 98] {} 8]

/-- It renames `/c/g` to `/b/f`. -/
def replacing : List Request := [.rename [47, 99, 47, 103] [47, 98, 47, 102] {} 8]

end Runs

end Afs.Client
