import Afs.Client.Solo
import Afs.Client.Replies

/-!
# How operations end

Two habits of every client operation, whatever the replies of its commands:

* it *heeds* the generation: after a command that declined because the workspace has another
  generation, the operation fails (unless it reads its own publication back);
* it is *clean*: it returns `writeConflict` only if no publication of it went through.

Both are facts about the program text. They are proved with one observer, `standing`, whose state
says whether the last guarded command declined and whether a publication may have gone through;
`Reads`, `Tries` and `Ends` are the three kinds of program the operations are composed of, and
`Request.ends` is the result.
-/

namespace Afs.Client

open History Prog

/-! ## The observer -/

/-- The commands that look at the generation an operation is bound to and stop at another one. -/
def Cmd.guarded : Cmd → Bool
  | .getGeneration | .getGenerationAndLease _ | .inodePath _ | .markRootDirty | .publishFile _
  | .deleteInode _ | .updateInode _ | .createMetadata _ _ | .renameMetadata _ _ _ _
  | .refreshPaths _ | .restoreVersion _ | .setLock _ _ _ | .unlockAll _ _ => true
  | _ => false

/-- The errors a guarded command may return in place of its effect, whatever its arguments. -/
def Err.declines : Err → Bool
  | .network | .txFailed | .nativeSessionLost | .workspaceChanged => true
  | _ => false

/-- A reply that does not show the generation `g`. -/
def declined (g : Generation) (c : Cmd) : Except Err (Val c) → Bool
  | .error e => e.declines
  | .ok v =>
    match c, v with
    | .getGeneration, v => v != some g
    | .getGenerationAndLease _, v => v.1 != some g
    | .publishFile _, v | .deleteInode _, v | .updateInode _, v => v == .code (-2)
    | .restoreVersion _, v => v == .refused "HISTORY_RESTORE_GENERATION"
    | _, _ => false

/-- The operation reads its own publication back. -/
def confirms (c : Cmd) : Except Err (Val c) → Bool
  | .error _ => false
  | .ok v =>
    match c, v with
    | .getRevision _, v => v.isSome
    | .getRecord _, v => v.isSome
    | _, _ => false

/-- An exchange after which a publication may have gone through. A created directory does not
count: an operation may create the directories above its path before it publishes. -/
def soils (c : Cmd) : Except Err (Val c) → Bool
  | .error e =>
    match c with
    | .publishFile _ | .deleteInode _ | .updateInode _ | .renameMetadata _ _ _ _
    | .restoreVersion _ => e == .network
    | .createMetadata _ a => e == .network && a.fields.type != some .dir
    | _ => false
  | .ok v =>
    match c, v with
    | .publishFile _, v | .deleteInode _, v | .updateInode _, v | .renameMetadata _ _ _ _, v
    | .restoreVersion _, v => v.applied
    | .createMetadata _ a, v => v.applied && a.fields.type != some .dir
    | .getRecord _, v => v.isSome
    | _, _ => false

/-- The conflict is one of the refresh that follows a rename bound to directories. -/
def excuses (c : Cmd) : Except Err (Val c) → Bool
  | .ok _ => false
  | .error e =>
    match c with
    | .refreshPaths _ => e == .writeConflict
    | _ => false

/-- What the observer keeps. -/
structure Standing where
  /-- The last guarded command declined. -/
  refused : Bool
  /-- A publication may have gone through, and a conflict would be reported in spite of it. -/
  dirty : Bool

/-- Creating a directory writes no history. -/
def Untracked (c : Cmd) (r : Except Err (Val c)) : Prop :=
  match c, r with
  | .createMetadata _ a, .ok v => a.fields.type = some .dir → v ≠ .code 3
  | _, _ => True

/-- The observer of an operation bound to generation `g`. Retention and the refreshing of paths
belong after a publication, and a publication agrees with the observation the operation is bound
to. -/
def standing (ctx : Ctx) (g : Generation) : Monitor sig Standing where
  next s c r :=
    { refused := if c.guarded then declined g c r else s.refused && !confirms c r
      dirty := (s.dirty || soils c r) && !excuses c r }
  admits _ c r :=
    (∀ e, r = .error e → c.isLocal = false ∧ (e = .network ∨ c.MayFail ctx e)) ∧ Untracked c r
  allows s c := match c with
    | .prune | .refreshPaths _ => s.dirty = true
    | .publishFile a => ctx.Expects a.create a.id a.expected
    | .deleteInode a => ctx.Expects false a.id a.expected
    | .updateInode a => ctx.Expects false a.id a.expected
    | .renameMetadata a _ _ _ => ctx.Expects false a.id a.expected
    | _ => True

/-- The errors no caller goes on after. -/
def Err.final : Err → Bool
  | .redisNil | .writeConflict | .lua .preparationRequired => false
  | _ => true

/-- After a declined command the result is an error that ends the operation. -/
def Heeds {α : Type} (s : Standing) (r : Except Err α) : Prop :=
  s.refused = true → ∃ e, r = .error e ∧ e.final = true

/-- A conflict means that no publication went through. -/
def Clean {α : Type} (s : Standing) (r : Except Err α) : Prop :=
  r = .error .writeConflict → s.dirty = false

section Kinds

variable (ctx : Ctx) (g : Generation) {α β : Type}

/-- The program publishes nothing and returns no conflict. -/
def Reads (x : Op α) : Prop :=
  ∀ d, Track (standing ctx g)
    (fun s r => Heeds s r ∧ s.dirty = d ∧ r ≠ .error .writeConflict) ⟨false, d⟩ x.run

/-- The program publishes nothing. -/
def Tries (x : Op α) : Prop :=
  ∀ d, Track (standing ctx g) (fun s r => Heeds s r ∧ s.dirty = d) ⟨false, d⟩ x.run

/-- The program heeds and is clean, started with `d` telling whether a publication has gone
through. -/
def Ends (d : Bool) (x : Op α) : Prop :=
  Track (standing ctx g) (fun s r => Heeds s r ∧ Clean s r) ⟨false, d⟩ x.run

end Kinds

variable {ctx : Ctx} {g : Generation} {α β : Type} {x : Op α} {f : α → Op β} {d : Bool}
  {s : Standing}

theorem Heeds.of_ok {a : α} (h : Heeds s (.ok a : Except Err α)) : s = ⟨false, s.dirty⟩ := by
  obtain ⟨refused, dirty⟩ := s
  cases refused with
  | false => rfl
  | true =>
    obtain ⟨e, he, -⟩ := h rfl
    cases he

variable {e : Err}

theorem Heeds.error (h : Heeds s (.error e : Except Err α)) :
    Heeds s (.error e : Except Err β) := fun hs => by
  obtain ⟨e', he, hf⟩ := h hs
  cases he
  exact ⟨e, rfl, hf⟩

theorem Heeds.not_refused (h : Heeds s (.error e : Except Err α)) (he : e.final = false) :
    s.refused = false := by
  cases hs : s.refused with
  | false => rfl
  | true =>
    obtain ⟨e', he', hf⟩ := h hs
    cases he'
    rw [he] at hf
    cases hf

theorem Reads.tries (h : Reads ctx g x) : Tries ctx g x := fun d =>
  (h d).mono fun _ _ h => ⟨h.1, h.2.1⟩

theorem Reads.ends (h : Reads ctx g x) : Ends ctx g d x :=
  (h d).mono fun _ _ h => ⟨h.1, fun hr => absurd hr h.2.2⟩

theorem Tries.ends (h : Tries ctx g x) : Ends ctx g false x :=
  (h false).mono fun _ _ h => ⟨h.1, fun _ => h.2⟩

theorem Reads.bind (hx : Reads ctx g x) (hf : ∀ a, Reads ctx g (f a)) : Reads ctx g (x >>= f) := by
  intro d
  refine Track.exceptBind (hx d) (fun s a h => ?_) fun s e h => ?_
  · rw [h.1.of_ok, h.2.1]
    exact hf a d
  · exact ⟨h.1.error, h.2.1, fun he => h.2.2 (by cases he; rfl)⟩

theorem Tries.bind (hx : Tries ctx g x) (hf : ∀ a, Tries ctx g (f a)) : Tries ctx g (x >>= f) := by
  intro d
  refine Track.exceptBind (hx d) (fun s a h => ?_) fun s e h => ?_
  · rw [h.1.of_ok, h.2]
    exact hf a d
  · exact ⟨h.1.error, h.2⟩

theorem Ends.bind_reads (hx : Reads ctx g x) (hf : ∀ a, Ends ctx g d (f a)) :
    Ends ctx g d (x >>= f) := by
  refine Track.exceptBind (hx d) (fun s a h => ?_) fun s e h => ?_
  · rw [h.1.of_ok, h.2.1]
    exact hf a
  · exact ⟨h.1.error, fun he => absurd (by cases he; rfl) h.2.2⟩

theorem Ends.bind_tries (hx : Tries ctx g x) (hf : ∀ a, Ends ctx g false (f a)) :
    Ends ctx g false (x >>= f) := by
  refine Track.exceptBind (hx false) (fun s a h => ?_) fun s e h => ?_
  · rw [h.1.of_ok, h.2]
    exact hf a
  · exact ⟨h.1.error, fun _ => h.2⟩

theorem Ends.bind (hx : Ends ctx g d x) (hf : ∀ a d, Ends ctx g d (f a)) :
    Ends ctx g d (x >>= f) := by
  refine Track.exceptBind hx (fun s a h => ?_) fun s e h => ?_
  · rw [h.1.of_ok]
    exact hf a _
  · exact ⟨h.1.error, fun he => h.2 (by cases he; rfl)⟩

/-- A check that issues no command. -/
theorem Ends.bind_check {r : Except Err α} (hf : ∀ a, r = .ok a → Ends ctx g false (f a)) :
    Ends ctx g false (lift r >>= f) := by
  cases r with
  | ok a => exact hf a rfl
  | error e => exact ⟨nofun, fun _ => rfl⟩

theorem Reads.ret (a : α) : Reads ctx g (pure a : Op α) := fun _ =>
  ⟨nofun, rfl, nofun⟩

theorem Reads.fail (he : e ≠ .writeConflict) : Reads ctx g (throw e : Op α) := fun _ =>
  ⟨nofun, rfl, fun h => he (by cases h; rfl)⟩

variable {b : Prop}

theorem Reads.onlyIf [Decidable b] {x : Op Unit} (h : Reads ctx g x) :
    Reads ctx g (onlyIf b x) := fun d => track_onlyIf (h d) ⟨nofun, rfl, nofun⟩

theorem Tries.onlyIf [Decidable b] {x : Op Unit} (h : Tries ctx g x) :
    Tries ctx g (onlyIf b x) := fun d => track_onlyIf (h d) ⟨nofun, rfl⟩

theorem Tries.fail (e : Err) : Tries ctx g (throw e : Op α) := fun _ => ⟨nofun, rfl⟩

theorem Tries.ret (a : α) : Tries ctx g (pure a : Op α) := (Reads.ret a).tries

theorem Ends.fail (e : Err) : Ends ctx g false (throw e : Op α) := (Tries.fail e).ends

/-! ## Single commands -/

/-- The commands that neither look at the generation nor publish, and return no conflict. -/
def Cmd.plain : Cmd → Bool
  | .newOriginID | .nowMs | .markThrottled | .cacheGet _ | .cachePath _ _ | .preferredRef
  | .loadInode _ | .getRevision _ | .lookupChild _ _ | .loadDirEntries _
  | .loadInodeSize _ | .getInline _ | .contentExists _ | .getContent _ | .getRange _ _ _
  | .getChunks _ _ _ | .createRoot _ | .incrNextInode | .stage _ _ | .publishInvalidation _ _
  | .discardPreparation _ => true
  | _ => false

variable {c : Cmd}

theorem soils_plain (hc : c.plain = true) (r : Except Err (Val c)) :
    soils c r = false ∧ excuses c r = false := by
  cases c <;> cases hc <;> cases r <;> exact ⟨rfl, rfl⟩

theorem standing_plain (hc : c.plain = true) (s : Standing) (r : Except Err (Val c)) :
    (standing ctx g).next s c r = ⟨s.refused && !confirms c r, s.dirty⟩ := by
  have hg : c.guarded = false := by cases c <;> first | rfl | cases hc
  simp [standing, hg, soils_plain hc]

theorem not_conflict_plain (hc : c.plain = true) {r : Except Err (Val c)}
    (hr : (standing ctx g).admits s c r) : r ≠ .error .writeConflict := by
  rintro rfl
  obtain ⟨-, h | h⟩ := hr.1 _ rfl
  · cases h
  · cases c <;> simp_all [Cmd.plain, Cmd.MayFail]

theorem Reads.command (hc : c.plain = true) : Reads ctx g (call c) := by
  intro d
  refine ⟨?_, fun r hr => ?_⟩
  · cases c <;> trivial
  · rw [standing_plain hc]
    exact ⟨nofun, rfl, not_conflict_plain hc hr⟩

/-- A guarded command that publishes nothing and fails when it declines. -/
theorem Reads.guarded (ha : ∀ s, (standing ctx g).allows s c)
    (hs : ∀ r, soils c r = false ∧ excuses c r = false) (hok : ∀ v, declined g c (.ok v) = false)
    (hc : c.guarded = true) (he : ∀ e, c.MayFail ctx e → e.final = true) : Reads ctx g (call c) := by
  intro d
  refine ⟨ha _, fun r hr => ?_⟩
  have hdirty : ((standing ctx g).next ⟨false, d⟩ c r).dirty = d := by simp [standing, hs]
  cases r with
  | ok v => exact ⟨fun h => by simp [standing, hc, hok] at h, hdirty, nofun⟩
  | error e =>
    have hfinal : e.final = true := by
      obtain ⟨-, rfl | h⟩ := hr.1 e rfl
      · rfl
      · exact he e h
    refine ⟨fun _ => ⟨e, rfl, hfinal⟩, hdirty, fun h => ?_⟩
    cases h
    cases hfinal

theorem Reads.inodePath (id : Id) : Reads ctx g (call (.inodePath id)) := by
  refine .guarded (fun _ => trivial) (fun r => by cases r <;> exact ⟨rfl, rfl⟩) (fun _ => rfl) rfl ?_
  rintro e (rfl | rfl | rfl) <;> rfl

theorem Reads.markRootDirtyCommand : Reads ctx g (call .markRootDirty) := by
  refine .guarded (fun _ => trivial) (fun r => by cases r <;> exact ⟨rfl, rfl⟩) (fun _ => rfl) rfl ?_
  rintro e (rfl | rfl) <;> rfl

theorem Tries.prepare (operation : Token) (requests : List PrepareRequest) :
    Tries ctx g (call (.prepare operation requests)) := by
  intro d
  refine ⟨trivial, fun r hr => ⟨nofun, ?_⟩⟩
  cases r <;> simp [standing, soils, excuses]

/-! ## Caught errors -/

variable {k : Except Err α → Op β}

/-- An operation that catches the error of a read goes on only if nothing was found. -/
theorem Reads.track_caught {R : Standing → Except Err β → Prop} (hx : Reads ctx g x)
    (hok : ∀ a, Track (standing ctx g) R ⟨false, d⟩ (k (.ok a)).run)
    (hnil : Track (standing ctx g) R ⟨false, d⟩ (k (.error .redisNil)).run)
    (hthrow : ∀ e, e ≠ .redisNil → k (.error e) = throw e)
    (hR : ∀ s e, Heeds s (.error e : Except Err β) → e ≠ .writeConflict → s.dirty = d →
      R s (.error e)) : Track (standing ctx g) R ⟨false, d⟩ (attempt x >>= k).run := by
  refine Client.track_caught (hx d) ?_
  rintro ⟨refused, dirty⟩ r ⟨hh, rfl, hc⟩
  cases r with
  | ok a =>
    rw [hh.of_ok]
    exact hok a
  | error e =>
    by_cases he : e = .redisNil
    · subst he
      obtain rfl : refused = false := hh.not_refused rfl
      exact hnil
    · rw [hthrow e he]
      exact hR _ e hh.error (fun h => hc (by rw [h])) rfl

theorem Reads.caught (hx : Reads ctx g x) (hok : ∀ a, Reads ctx g (k (.ok a)))
    (hnil : Reads ctx g (k (.error .redisNil)))
    (hthrow : ∀ e, e ≠ .redisNil → k (.error e) = throw e) : Reads ctx g (attempt x >>= k) :=
  fun d => hx.track_caught (fun a => hok a d) (hnil d) hthrow fun _ _ hh hc hs =>
    ⟨hh, hs, fun h => hc (by cases h; rfl)⟩

theorem Tries.caught (hx : Reads ctx g x) (hok : ∀ a, Tries ctx g (k (.ok a)))
    (hnil : Tries ctx g (k (.error .redisNil)))
    (hthrow : ∀ e, e ≠ .redisNil → k (.error e) = throw e) : Tries ctx g (attempt x >>= k) :=
  fun d => hx.track_caught (fun a => hok a d) (hnil d) hthrow fun _ _ hh _ hs => ⟨hh, hs⟩

theorem Ends.caught (hx : Reads ctx g x) (hok : ∀ a, Ends ctx g d (k (.ok a)))
    (hnil : Ends ctx g d (k (.error .redisNil)))
    (hthrow : ∀ e, e ≠ .redisNil → k (.error e) = throw e) : Ends ctx g d (attempt x >>= k) :=
  hx.track_caught hok hnil hthrow fun _ _ hh hc _ => ⟨hh, fun h => absurd (by cases h; rfl) hc⟩

variable {R : Standing → Except Err Unit → Prop}

/-- A command whose failure is only logged leaves the standing as it is. -/
theorem track_ignore (hc : c.plain = true) (hn : ∀ r, confirms c r = false) (h : R s (.ok ())) :
    Track (standing ctx g) R s (ignore (call c)).run := by
  refine ⟨?_, fun r _ => ?_⟩
  · cases c <;> trivial
  · rw [standing_plain hc, hn, Bool.not_false, Bool.and_true]
    exact h

/-! ## Looking paths up -/

variable {code : ℤ}
  {cur i : InodeData} {creating : Bool} {childPath p : Path} {name : Name} {id : Id}
  {t : Token} {content path payload : Bytes} {chunkSize fuel mode n newSize : ℕ}
  {ref : ContentRef} {off size : ℤ} {chunks : Chunks} {before : Option InodeData}

section Operations

/-- The operation is one of generation `g`, if of any. -/
class Serves (ctx : Ctx) (g : Generation) : Prop where
  generation : ∀ g' ∈ ctx.generation, g' = g

/-- The two are given the same expectation. -/
class Agree (m ctx : Ctx) : Prop where
  stat : ctx.expectedStat = m.expectedStat

instance : Agree ctx ctx := ⟨rfl⟩

variable {m ctx : Ctx} [hg : Serves ctx g]

/-- A check that has read the generation `v` fails if it is not the operation's. -/
theorem track_mismatch {v : Option Generation} {bad : Prop} [Decidable bad] {k : Op Unit}
    (hbad : v ≠ some g → bad) (hk : Reads m g k) :
    Track (standing m g) (fun s r => Heeds s r ∧ s.dirty = d ∧ r ≠ .error .writeConflict)
      ⟨v != some g, (d || false) && true⟩ (if bad then throw Err.workspaceChanged else k).run := by
  rw [Bool.or_false, Bool.and_true]
  by_cases hv : v = some g
  · rw [hv, bne_self_eq_false]
    split
    · exact Reads.fail (by simp) d
    · exact hk d
  · rw [if_pos (hbad hv)]
    exact ⟨fun _ => ⟨_, rfl, rfl⟩, rfl, nofun⟩

theorem track_network (hc : ∀ e, ¬ c.MayFail m e)
    (hs : soils c (.error e) = false ∧ excuses c (.error e) = false)
    (hr : (standing m g).admits s c (.error e)) : let s' := (standing m g).next s c (.error e)
    Heeds s' (.error e : Except Err α) ∧ s'.dirty = s.dirty ∧
      (.error e : Except Err α) ≠ .error .writeConflict := by
  obtain ⟨-, rfl | h⟩ := hr.1 e rfl
  · exact ⟨fun _ => ⟨_, rfl, rfl⟩, by simp [standing, hs], nofun⟩
  · exact absurd h (hc e)

theorem reads_checkGeneration : Reads m g (checkGeneration ctx) := by
  unfold checkGeneration
  split
  · exact .ret _
  split
  · exact .ret _
  · next g' lease hgen hlease =>
    obtain rfl := hg.generation g' hgen
    refine fun d => ⟨trivial, fun r hr => ?_⟩
    cases r with
    | error e => exact track_network (fun _ h => h) ⟨rfl, rfl⟩ hr
    | ok v =>
      refine track_mismatch Or.inl ?_
      split
      · exact .ret _
      · exact .fail nofun
  · next g' hgen hlease =>
    obtain rfl := hg.generation g' hgen
    refine fun d => ⟨trivial, fun r hr => ?_⟩
    cases r with
    | error e => exact track_network (fun _ h => h) ⟨rfl, rfl⟩ hr
    | ok v => exact track_mismatch Or.inl (.ret _)

theorem reads_loadRootInode : Reads m g loadRootInode := by
  refine .bind (.command rfl) fun hit => ?_
  cases hit with
  | some root => exact .ret _
  | none =>
    refine .bind (.command rfl) fun found => ?_
    cases found with
    | some root => exact .bind (.command rfl) fun _ => .ret _
    | none => exact .ret _

theorem reads_ensureRoot : Reads m g (ensureRoot ctx) := by
  refine .bind reads_checkGeneration fun _ => .bind reads_loadRootInode fun root => ?_
  cases root with
  | some root => exact .ret _
  | none =>
    exact .bind (.command rfl) fun _ => .bind (.command rfl) fun _ => .command rfl

theorem reads_loadComponent {n : Name} : Reads m g (loadComponent cur p n) := by
  refine .bind (.command rfl) fun hit => ?_
  cases hit with
  | some i => exact .ret _
  | none =>
    refine .bind (.command rfl) fun id => ?_
    cases id with
    | none => exact .fail nofun
    | some id =>
      refine .bind (.command rfl) fun i => ?_
      cases i with
      | none => exact .fail nofun
      | some i => exact .bind (.command rfl) fun _ => .ret _

theorem reads_resolveLoop {followFinal : Bool}
    {restart : Path → Bytes → List Name → Op (Path × InodeData)}
    (hr : ∀ p t l, Reads m g (restart p t l)) {curPath : Path} {l : List Name} :
    Reads m g (resolveLoop followFinal restart curPath cur l) := by
  induction l generalizing curPath cur with
  | nil => exact .ret _
  | cons n rest ih =>
    refine .bind reads_loadComponent fun i => ?_
    split_ifs
    · exact hr _ _ _
    · exact .ret _
    · exact .fail nofun
    · exact ih

theorem reads_resolveDepth {followFinal : Bool} {depth : ℕ} :
    Reads m g (resolveDepth followFinal depth p) := by
  induction depth generalizing p with
  | zero =>
    refine .bind reads_loadRootInode fun root => ?_
    cases root with
    | none => exact .fail nofun
    | some root => exact reads_resolveLoop (fun _ _ _ => .fail (by simp))
  | succ depth ih =>
    refine .bind reads_loadRootInode fun root => ?_
    cases root with
    | none => exact .fail nofun
    | some root =>
      refine reads_resolveLoop (fun _ _ _ => ?_)
      split
      · exact .fail nofun
      · exact ih

theorem reads_resolvePath (p : Path) (followFinal : Bool) :
    Reads m g (resolvePath ctx p followFinal) :=
  .bind reads_ensureRoot fun _ => reads_resolveDepth

theorem reads_loadInode : Reads m g (loadInode ctx p) := by
  refine .bind (.command rfl) fun hit => ?_
  cases hit with
  | some i => exact .ret _
  | none =>
    refine .caught (reads_resolvePath p false) (fun a => ?_) (.ret _) fun e he => ?_
    · exact .bind (.command rfl) fun _ => .bind (.onlyIf (.command rfl)) fun _ => .ret _
    · cases e <;> first | rfl | exact absurd rfl he

theorem Reads.ignored (hc : c.plain = true) (hn : ∀ r, confirms c r = false) :
    Reads m g (ignore (call c)) := fun _ =>
  track_ignore hc hn ⟨nofun, rfl, nofun⟩

omit hg in
theorem reads_publishInvalidate {op : InvalidateOp} {paths : List Path} :
    Reads m g (publishInvalidate ctx op paths) := by
  unfold publishInvalidate
  split
  · exact .ret _
  · exact .ignored rfl fun r => by cases r <;> rfl

/-- Retention runs where history was written. -/
theorem track_pruneHistory (hd : code = 3 → s.dirty = true) (h : R s (.ok ())) :
    Track (standing m g) R s (pruneHistory code).run := by
  unfold pruneHistory
  split
  · next hc =>
    refine ⟨hd hc, fun r _ => ?_⟩
    have hs : (standing m g).next s .prune r = s := by
      cases r <;> simp [standing, soils, excuses, confirms, Cmd.guarded]
    rw [hs]
    exact h
  · exact h

theorem reads_markRootDirty : Reads m g markRootDirty := by
  refine .bind (.command rfl) fun throttled => ?_
  split
  · exact .ret _
  · exact .markRootDirtyCommand

theorem reads_allocInodeID : Reads m g (allocInodeID ctx) :=
  .bind reads_ensureRoot fun _ => .command rfl

theorem track_lift {R : Standing → Except Err α → Prop} {r : Except Err α} (h : R s r) :
    Track (standing m g) R s (lift r).run := h

theorem Tries.lift (r : Except Err α) : Tries m g (lift r) := fun _ =>
  track_lift ⟨nofun, rfl⟩

variable {Q : Standing → Except Err α → Prop}

/-- The rule of `retryWatch`: `I` holds at the start of every attempt. -/
theorem track_retryWatch {block : Op α} {I : Standing → Prop}
    (hb : ∀ s, I s → Track (standing m g) Q s block.run) (hI : ∀ s, Q s (.error .txFailed) → I s)
    (h0 : ∀ s, I s → Q s (.error .txFailed)) (n : ℕ) (hs : I s) :
    Track (standing m g) Q s (retryWatch block n).run := by
  induction n generalizing s with
  | zero => exact h0 s hs
  | succ n ih =>
    refine track_caught (hb s hs) fun s r hq => ?_
    split
    · exact ih (hI s hq)
    · exact track_lift hq

/-! ## Publications -/

variable [hm : Agree m ctx]

omit hg in
theorem expects_of_passed (h : checkWriteCondition ctx i creating = .ok ()) :
    m.Expects creating i.id i.revision := by
  have := expects_of_check h
  unfold Ctx.Expects at this ⊢
  rwa [hm.stat] at this

/-- How a publication ends, started with `d`: the code `-2` is a declined command, and what makes
a caller try again or report a conflict is a publication that did not go through. -/
structure Coded (d : Bool) (s : Standing) (r : Except Err ℤ) : Prop where
  heeds : s.refused = true → (∃ e, r = .error e ∧ e.final = true) ∨ r = .ok (-2)
  clean : r = .error .writeConflict ∨ r = .error .txFailed ∨ r = .error .needDirWatch ∨
    r = .error (.lua .preparationRequired) ∨ r = .ok (-1) → s.dirty = d
  tracked : r = .ok 3 → s.dirty = true

theorem final_of_declines (h : e.declines = true) : e.final = true := by
  cases e <;> first | rfl | cases h

theorem coded_error {b n : Bool} (hb : b = true → e.declines = true)
    (hn : n = true → e = .network) : Coded d ⟨b, (d || n) && true⟩ (.error e) where
  heeds h := .inl ⟨e, rfl, final_of_declines (hb h)⟩
  clean h := by
    cases n with
    | false => simp
    | true =>
      rw [hn rfl] at h
      rcases h with h | h | h | h | h <;> cases h
  tracked := nofun

theorem coded_ok {b n : Bool} {v : Reply} (hb : b = true → v = .code (-2))
    (hn : n = true → v.applied = true) (h3 : v = .code 3 → n = true) :
    Coded d ⟨b, (d || n) && true⟩ v.toCode where
  heeds h := .inr (by rw [hb h]; rfl)
  clean h := by
    cases n with
    | false => simp
    | true =>
      have happlied := hn rfl
      cases v <;> rcases h with h | h | h | h | h <;> cases h <;> cases happlied
  tracked h := by
    have hcode : v = .code 3 := by
      cases v <;> cases h
      rfl
    simp [h3 hcode]

theorem coded_publishFile {a : PublishArgs} (ha : m.Expects a.create a.id a.expected) (b : Bool) :
    Track (standing m g) (Coded d) ⟨b, d⟩ (scriptCode (call (.publishFile a))).run := by
  refine ⟨ha, fun r _ => ?_⟩
  cases r with
  | error e => exact coded_error id eq_of_beq
  | ok v => exact coded_ok eq_of_beq id fun h => by rw [h]; rfl

theorem coded_deleteInode {a : DeleteArgs} (ha : m.Expects false a.id a.expected) (b : Bool) :
    Track (standing m g) (Coded d) ⟨b, d⟩ (scriptCode (call (.deleteInode a))).run := by
  refine ⟨ha, fun r _ => ?_⟩
  cases r with
  | error e => exact coded_error id eq_of_beq
  | ok v => exact coded_ok eq_of_beq id fun h => by rw [h]; rfl

theorem coded_updateInode {a : UpdateArgs} (ha : m.Expects false a.id a.expected) (b : Bool) :
    Track (standing m g) (Coded d) ⟨b, d⟩ (scriptCode (call (.updateInode a))).run := by
  refine ⟨ha, fun r _ => ?_⟩
  cases r with
  | error e => exact coded_error id eq_of_beq
  | ok v => exact coded_ok eq_of_beq id fun h => by rw [h]; rfl

theorem coded_renameMetadata {a : RenameArgs} (ha : m.Expects false a.id a.expected)
    {replaced : Option (Id × Option InodeData)} {noReplace : Bool} {watched : Option Id} {b : Bool} :
    Track (standing m g)
      (fun s r => Coded d s r ∧ (∀ e, r = .error e → e.declines = false → s.refused = false) ∧
        ∀ code, r = .ok code → s.refused = false ∧ (code ≠ -1 → s.dirty = true)) ⟨b, d⟩
      (scriptCode (call (.renameMetadata a replaced noReplace watched))).run := by
  refine ⟨ha, fun r _ => ?_⟩
  cases r with
  | error e =>
    refine ⟨coded_error id eq_of_beq, fun e' he h => ?_, fun _ h => ?_⟩
    · cases he
      exact h
    · cases h
  | ok v =>
    refine ⟨coded_ok nofun id fun h => by rw [h]; rfl, fun _ _ _ => rfl, fun code hv => ⟨rfl, ?_⟩⟩
    intro h1
    cases v <;> cases hv
    simp [standing, soils, excuses, Reply.applied, h1]

theorem coded_createMetadata {a : CreateArgs} {b : Bool} : Track (standing m g)
      (fun s r => Coded d s r ∧ (a.fields.type = some .dir → s.dirty = d) ∧
        ∀ code, r = .ok code → s.refused = false) ⟨b, d⟩
      (scriptCode (call (.createMetadata name a))).run := by
  refine ⟨trivial, fun r hr => ?_⟩
  cases r with
  | error e =>
    exact ⟨coded_error id fun h => eq_of_beq (Bool.and_eq_true_iff.mp h).1,
      fun h => by simp [standing, soils, excuses, h], nofun⟩
  | ok v =>
    refine ⟨coded_ok nofun (fun h => (Bool.and_eq_true_iff.mp h).1) fun h => ?_,
      fun h => by simp [standing, soils, excuses, h], fun _ _ => rfl⟩
    have hdir : a.fields.type ≠ some .dir := fun ht => hr.2 ht h
    simp [soils, h, Reply.applied, hdir]

section Prepared

variable {script : Op Reply}
  (hs : ∀ b, Track (standing m g) (Coded d) ⟨b, d⟩ (scriptCode script).run)

omit hg hm in
include hs in
theorem coded_runMutationScript (b : Bool) :
    Track (standing m g) (Coded d) ⟨b, d⟩ (runMutationScript ctx script).run := by
  unfold runMutationScript
  split
  · exact hs b
  · refine track_retryWatch (I := fun s => s.dirty = d) ?_ ?_ ?_ _ rfl
    · rintro ⟨b, _⟩ rfl
      exact hs b
    · exact fun s h => h.clean (.inr (.inl rfl))
    · exact fun s h => ⟨fun _ => .inl ⟨_, rfl, rfl⟩, fun _ => h, nofun⟩

omit hg hm in
include hs in
/-- A publication is repeated only after a preparation, and nothing was published then. -/
theorem coded_preparedAttempts (operation : Token) (requests : List PrepareRequest) (n : ℕ)
    (prepared : Bool) : Track (standing m g) (fun s r => ∃ v, r = .ok v ∧ Coded d s v.1) ⟨false, d⟩
      (preparedAttempts (runMutationScript ctx script) operation requests n prepared).run := by
  induction n generalizing prepared with
  | zero =>
    refine ⟨_, rfl, nofun, fun h => ?_, nofun⟩
    rcases h with h | h | h | h | h <;> cases h
  | succ n ih =>
    refine track_caught (coded_runMutationScript hs false) fun ⟨refused, dirty⟩ r hc => ?_
    split
    · -- the script asked for hashes, so it has published nothing
      have hd : dirty = d := hc.clean (.inr (.inr (.inr (.inl rfl))))
      have href : refused = false := by
        cases refused with
        | false => rfl
        | true => obtain ⟨e, he, hf⟩ | he := hc.heeds rfl <;> cases he; cases hf
      subst hd href
      refine track_caught (Tries.prepare operation requests _) fun s r ⟨hh, hd⟩ => ?_
      cases r with
      | error e =>
        refine ⟨_, rfl, fun h => .inl ?_, fun _ => hd, nofun⟩
        obtain ⟨e', he, hf⟩ := hh h
        cases he
        exact ⟨e, rfl, hf⟩
      | ok u =>
        rw [hh.of_ok, hd]
        exact ih true
    · exact ⟨_, rfl, hc⟩

omit hg hm in
include hs in
theorem coded_runPreparedMutation {operation : Token} {requests : List PrepareRequest} :
    Track (standing m g) (Coded d) ⟨false, d⟩
      (runPreparedMutation ctx script operation requests).run := by
  refine Track.exceptBind (coded_preparedAttempts hs operation requests 3 false) ?_ ?_
  · rintro s ⟨r, prepared⟩ ⟨v, hv, hc⟩
    cases hv
    refine track_then (I := (· = s)) (track_onlyIf ?_ ⟨rfl, rfl⟩) ?_
    · exact track_ignore rfl (fun r => by cases r <;> rfl) ⟨rfl, rfl⟩
    · rintro s' rfl
      exact track_lift hc
  · rintro s e ⟨v, hv, -⟩
    cases hv

end Prepared

/-- What is left of a publication once it has returned its code. -/
structure Settled (s : Standing) (code : ℤ) : Prop where
  heeds : s.refused = true → code = -2
  clean : code = -1 → s.dirty = false
  tracked : code = 3 → s.dirty = true

theorem Coded.settled (h : Coded false s (.ok code)) : Settled s code where
  heeds hr := by
    obtain ⟨e, he, -⟩ | he := h.heeds hr
    · cases he
    · cases he
      rfl
  clean hc := h.clean (.inr (.inr (.inr (.inr (by rw [hc])))))
  tracked hc := h.tracked (by rw [hc])

theorem Coded.fine (h : Coded false s (.error e)) :
    Heeds s (.error e : Except Err α) ∧ Clean s (.error e : Except Err α) := by
  refine ⟨fun hr => ?_, fun hc => h.clean (.inl (by cases hc; rfl))⟩
  obtain ⟨e', he, hf⟩ | he := h.heeds hr
  · cases he
    exact ⟨e, rfl, hf⟩
  · cases he

/-- A publication fails with the error its code stands for, or goes on. -/
theorem Settled.track {k : Op α} (h : Settled s code)
    (hk : ∀ d, (code = 3 → d = true) → Ends m g d k) :
    Track (standing m g) (fun s r => Heeds s r ∧ Clean s r) s
      (match codeError code with
        | some e => throw e
        | none => k : Op α).run := by
  obtain ⟨refused, dirty⟩ := s
  by_cases h1 : code = -1
  · subst h1
    refine ⟨fun hr => ?_, fun _ => h.clean rfl⟩
    cases h.heeds hr
  by_cases h2 : code = -2
  · subst h2
    exact ⟨fun _ => ⟨_, rfl, rfl⟩, nofun⟩
  have href : refused = false := by
    cases refused with
    | false => rfl
    | true => exact absurd (h.heeds rfl) h2
  subst href
  split
  · next e he =>
    refine ⟨nofun, fun hc => ?_⟩
    cases hc
    simp only [codeError, h1, h2, if_false] at he
    split_ifs at he <;> cases he
  · exact hk _ h.tracked

theorem Settled.throw (h : Settled s code) (hc : code ≠ -2) (he : e ≠ .writeConflict) :
    Heeds s (.error e : Except Err α) ∧ Clean s (.error e : Except Err α) :=
  ⟨fun hr => absurd (h.heeds hr) hc, fun h => absurd (by cases h; rfl) he⟩

theorem track_committed {revision : Rev} (s : Standing) : Track (standing m g)
      (fun s' r => ∃ v, r = .ok v ∧ s'.dirty = s.dirty ∧ (s'.refused = true → s.refused = true ∧ v = false))
      s (committed id revision).run := by
  refine ⟨trivial, fun r _ => ?_⟩
  rw [standing_plain rfl]
  cases r with
  | error e => exact ⟨false, rfl, rfl, fun h => by simpa [confirms] using h⟩
  | ok v =>
    cases v with
    | none => exact ⟨false, rfl, rfl, fun h => by simpa [confirms] using h⟩
    | some t => exact ⟨_, rfl, rfl, fun h => by simp [confirms] at h⟩

/-- The postcondition of `publishCode`. -/
def CodeEnds (s : Standing) : Except Err ℤ → Prop
  | .ok code => Settled s code
  | .error e => Heeds s (.error e : Except Err ℤ) ∧ Clean s (.error e : Except Err ℤ)

omit hg hm in
theorem track_publishCode {args : PublishArgs} (ha : m.Expects args.create args.id args.expected)
    {request : PrepareRequest} :
    Track (standing m g) CodeEnds ⟨false, false⟩ (publishCode ctx args request).run := by
  refine track_caught (coded_runPreparedMutation (coded_publishFile ha)) fun s r hc => ?_
  cases r with
  | ok code => exact hc.settled
  | error e =>
    refine Track.exceptBind (track_committed s) ?_ ?_
    · rintro s' v ⟨v', hv, hd, hr⟩
      cases hv
      cases v with
      | true =>
        exact ⟨fun h => absurd (hr h).2 (by simp), fun h => by simp at h, fun h => by simp at h⟩
      | false =>
        refine ⟨fun h => hc.fine.1 (hr h).1, fun h => ?_⟩
        rw [hd]
        exact hc.fine.2 h
    · rintro s' e ⟨v, hv, -⟩
      cases hv

theorem Ends.pruneHistory {k : Op α} (hd : code = 3 → d = true) (hk : Ends m g d k) :
    Ends m g d (do pruneHistory code; k) := by
  refine track_then (I := (· = ⟨false, d⟩)) (track_pruneHistory hd ⟨rfl, rfl⟩) ?_
  rintro s rfl
  exact hk

omit hg in
theorem ends_publishStagedFile {stage : Token} {extra : InodeHash} :
    Ends m g false (publishStagedFile ctx p i stage creating extra) := by
  refine .bind_tries (.lift _) fun _ => .bind_check fun _ hc => ?_
  refine .bind_reads (.command rfl) fun revision => ?_
  refine Track.exceptBind (track_publishCode (expects_of_passed hc)) ?_
    fun s e h => ⟨h.1.error, fun hc => h.2 (by cases hc; rfl)⟩
  intro s code hc
  split
  · exact hc.throw (by omega) (by simp)
  · exact hc.track fun d hd =>
      .pruneHistory hd (.bind_reads (.onlyIf (.command rfl)) fun _ => (Reads.ret _).ends)

omit hg in
theorem ends_deletePublishedInode : Ends m g false (deletePublishedInode ctx p i) := by
  refine .bind_tries (.lift _) fun _ => .bind_check fun _ hc => ?_
  refine .bind_reads (.command rfl) fun operation => .bind_reads (.command rfl) fun now => ?_
  refine Track.exceptBind
    (coded_runPreparedMutation (coded_deleteInode (expects_of_passed hc))) ?_ fun s e h => h.fine
  intro s code hc
  split
  · exact hc.settled.throw (by omega) (by simp)
  · refine hc.settled.track fun d hd => track_pruneHistory hd ?_
    exact ⟨nofun, nofun⟩

omit hg in
theorem ends_updatePublishedInode {fields : InodeHash} :
    Ends m g false (updatePublishedInode ctx p i fields) := by
  refine .bind_tries (.lift _) fun _ => .bind_check fun _ hc => ?_
  refine .bind_reads (.command rfl) fun revision => ?_
  refine Track.exceptBind
    (coded_runPreparedMutation (coded_updateInode (expects_of_passed hc))) ?_ fun s e h => h.fine
  intro s code hc
  exact hc.settled.track fun d hd => .pruneHistory hd (Reads.ret _).ends

omit hg in
theorem ends_saveInodeMeta : Ends m g false (saveInodeMeta ctx p i) :=
  .bind ends_updatePublishedInode fun _ _ => (Reads.command rfl).ends

/-! ## Staging -/

/-- Discarding a stage changes nothing for the observer. -/
theorem track_withStage {body : Op α}
    (h : Track (standing m g) Q s body.run) : Track (standing m g) Q s (withStage t body).run := by
  refine track_caught h fun s r hq => track_then (I := (· = s)) ?_ ?_
  · exact track_ignore rfl (fun r => by cases r <;> rfl) ⟨rfl, rfl⟩
  · rintro s' rfl
    exact track_lift hq

theorem Ends.withStage {body : Op α} (h : Ends m g d body) :
    Ends m g d (withStage t body) := track_withStage h

theorem reads_selectContentRef (i : InodeData) : Reads m g (selectContentRef i) := by
  unfold selectContentRef
  split
  · exact .ret _
  · exact .bind (.command rfl) fun _ => .ret _

theorem reads_stageFullFile (i : InodeData) : Reads m g (stageFullFile i) :=
  .bind (.command rfl) fun _ => .bind (.command rfl) fun _ => .ret _

omit hg in
theorem ends_saveInode : Ends m g false (saveInode ctx p i) := by
  refine .bind_reads (reads_selectContentRef i) fun i => ?_
  split
  · exact .bind ends_updatePublishedInode fun _ _ => (Reads.ret _).ends
  · refine .bind_tries (.lift _) fun _ => .bind_reads (reads_stageFullFile i) fun t => .withStage ?_
    exact .bind ends_publishStagedFile fun _ _ => (Reads.ret _).ends

/-- The program leaves the observer as it is. -/
def Mute (m : Ctx) (g : Generation) (x : Op α) : Prop :=
  ∀ s, Track (standing m g) (fun s' r => s' = s ∧ ∀ e, r = .error e → e.final = true) s x.run

theorem Mute.bind (hx : Mute m g x) (hf : ∀ a, Mute m g (f a)) : Mute m g (x >>= f) := by
  refine fun s => Track.exceptBind (hx s) ?_ ?_
  · rintro s a ⟨rfl, -⟩
    exact hf a s
  · rintro s e ⟨rfl, he⟩
    exact ⟨rfl, fun e' h => by cases h; exact he e rfl⟩

theorem Mute.ret (a : α) : Mute m g (pure a : Op α) := fun _ => ⟨rfl, nofun⟩

theorem Mute.fail (he : e.final = true) : Mute m g (throw e : Op α) := fun _ =>
  ⟨rfl, fun _ h => by cases h; exact he⟩

/-- A plain command that confirms no publication. -/
def Cmd.silent : Cmd → Bool
  | .getRevision _ => false
  | c => c.plain

theorem Cmd.plain_of_silent (h : c.silent = true) : c.plain = true := by
  cases c <;> first | exact h | cases h

theorem confirms_of_silent (h : c.silent = true) (r : Except Err (Val c)) :
    confirms c r = false := by
  cases r with
  | error e => rfl
  | ok v => cases c <;> first | rfl | cases h

theorem Mute.command (hs : c.silent = true) : Mute m g (call c) := by
  have hc := Cmd.plain_of_silent hs
  have hn := confirms_of_silent hs
  refine fun s => ⟨?_, fun r hr => ?_⟩
  · cases c <;> trivial
  · rw [standing_plain hc, hn, Bool.not_false, Bool.and_true]
    refine ⟨rfl, fun e he => ?_⟩
    obtain ⟨-, rfl | h⟩ := hr.1 e he
    · rfl
    · cases c <;> simp_all [Cmd.plain, Cmd.MayFail, Err.final]

theorem Solo.tries {o : Option Token} (hx : Solo o x) : Tries m g x := fun d => by
  refine (Only.track hx (I := (· = ⟨false, d⟩)) (fun s c hs hc => ⟨?_, fun r _ => ?_⟩) rfl).mono ?_
  · cases c <;> trivial
  · have hplain : c.plain = true := by cases c <;> first | rfl | exact hc.elim
    rw [standing_plain hplain, hs]
    rfl
  · rintro s r rfl
    exact ⟨nofun, rfl⟩

theorem tries_stageInodeRange {off : ℕ} : Tries m g (stageInodeRange t i payload off newSize) :=
  .bind (reads_selectContentRef i).tries fun _ => .bind solo_stageOldBytes.tries fun _ =>
    .bind solo_stageNewBytes.tries fun _ =>
      .bind (Solo.tries (.onlyIf (solo_stageDo t trivial))) fun _ => .ret _

/-- A range is tried again only while nothing was published. -/
theorem ends_changeInodeRange {truncate : ℤ} :
    Ends m g false (changeInodeRange ctx id payload off truncate n) := by
  induction n with
  | zero => exact .fail _
  | succ n ih =>
    refine .bind_reads reads_checkGeneration fun _ => .bind_reads (.command rfl) fun found => ?_
    cases found with
    | none => exact .fail _
    | some i =>
      dsimp only
      split
      · exact .fail _
      refine .bind_tries (.lift _) fun _ => .bind_reads (.inodePath id) fun p => ?_
      split
      · exact .fail _
      split
      · exact (Reads.ret _).ends
      · refine .bind_reads (.command rfl) fun t => ?_
        refine track_caught (Ends.withStage ?_ : Ends m g false _) ?_
        · have : Agree m { ctx with ranged := true } := ⟨hm.stat⟩
          exact .bind_tries tries_stageInodeRange fun next =>
            .bind_reads (.command rfl) fun now =>
              .bind ends_publishStagedFile fun _ _ => (Reads.ret _).ends
        · rintro ⟨refused, dirty⟩ r ⟨hh, hc⟩
          split
          · obtain rfl : dirty = false := hc rfl
            obtain rfl : refused = false := hh.not_refused rfl
            split
            · exact Ends.fail _
            · exact ih
          · exact track_lift ⟨hh, hc⟩

theorem ends_writeInodeAt : Ends m g false (writeInodeAt ctx id payload off) := by
  unfold writeInodeAt
  split
  · exact .fail _
  · exact ends_changeInodeRange

theorem ends_truncateInode : Ends m g false (truncateInode ctx id size) := by
  unfold truncateInode
  split
  · exact .fail _
  · exact ends_changeInodeRange

/-! ## The tree -/

omit hg hm in
theorem track_createAttempts {b : Bool} : Track (standing m g)
      (fun s r => Heeds s r ∧ (r = .error .writeConflict → s.dirty = d) ∧
        (i.type = .dir → s.dirty = d)) ⟨b, d⟩ (createAttempts ctx childPath name i n).run := by
  induction n generalizing i b with
  | zero => exact ⟨fun _ => ⟨_, rfl, rfl⟩, nofun, fun _ => rfl⟩
  | succ n ih =>
    refine Track.exceptBind ((Mute.command rfl) _) ?_ ?_
    · rintro s revision ⟨rfl, -⟩
      refine track_caught coded_createMetadata ?_
      rintro ⟨refused, dirty⟩ r ⟨hc, hdir, href⟩
      replace hdir : i.type = .dir → dirty = d := fun h => hdir (congrArg some h)
      split
      · obtain rfl : dirty = d := hc.clean (.inr (.inl rfl))
        exact ih (i := { i with revision := revision })
      · next e he =>
        refine ⟨fun h => ?_, fun h => ?_, hdir⟩
        · obtain ⟨e', he', hf⟩ | he' := hc.heeds h
          · cases he'
            exact ⟨e, rfl, hf⟩
          · cases he'
        · cases h
          exact hc.clean (.inl rfl)
      · next code =>
        obtain rfl : refused = false := href code rfl
        split
        · next h1 =>
          have hd : dirty = d := hc.clean (.inr (.inr (.inr (.inr (by rw [h1])))))
          exact ⟨nofun, fun _ => hd, fun _ => hd⟩
        · refine track_then (I := (· = ⟨false, dirty⟩))
            (track_pruneHistory (fun h => hc.tracked (by rw [h])) ⟨rfl, rfl⟩) ?_
          rintro s rfl
          exact ⟨nofun, nofun, hdir⟩
    · rintro s e ⟨rfl, he⟩
      exact ⟨fun _ => ⟨e, rfl, he e rfl⟩, fun _ => rfl, fun _ => rfl⟩

omit hm in
theorem tries_createDir {parent : InodeData} (hi : i.type = .dir) :
    Tries m g (createInodeUnderParent ctx childPath parent name i) := by
  unfold createInodeUnderParent
  split
  · exact .fail _
  refine .bind (.lift _) fun _ => .bind (Reads.command rfl).tries fun linked => ?_
  cases linked with
  | some _ => exact .fail _
  | none =>
    refine .bind reads_allocInodeID.tries fun id => .bind (Reads.command rfl).tries fun now => ?_
    refine .bind (fun d => track_createAttempts.mono fun s r h => ⟨h.1, h.2.2 hi⟩) ?_
    intro i
    exact (Reads.bind (.command rfl) fun _ => .bind reads_publishInvalidate fun _ =>
      .bind (.command rfl) fun _ => .bind reads_publishInvalidate fun _ => .ret _).tries

omit hm in
theorem ends_createInodeUnderParent {parent : InodeData} :
    Ends m g false (createInodeUnderParent ctx childPath parent name i) := by
  unfold createInodeUnderParent
  split
  · exact .fail _
  refine .bind_tries (.lift _) fun _ => .bind_reads (.command rfl) fun linked => ?_
  cases linked with
  | some _ => exact .fail _
  | none =>
    refine .bind_reads reads_allocInodeID fun id => .bind_reads (.command rfl) fun now => ?_
    refine .bind (track_createAttempts.mono fun s r h => ⟨h.1, h.2.1⟩) fun i d => ?_
    exact (Reads.bind (.command rfl) fun _ => .bind reads_publishInvalidate fun _ =>
      .bind (.command rfl) fun _ => .bind reads_publishInvalidate fun _ => .ret _).ends

omit hm in
theorem tries_ensureComponent {n : Name} : Tries m g (ensureComponent ctx cur p n) := by
  refine .bind (Reads.command rfl).tries fun hit => ?_
  split
  · exact .ret _
  · refine .bind (Reads.command rfl).tries fun id => ?_
    cases id with
    | none => exact .bind (Reads.command rfl).tries fun now => tries_createDir rfl
    | some id =>
      refine .bind (Reads.command rfl).tries fun child => ?_
      cases child with
      | none => exact .fail _
      | some child =>
        dsimp only
        split
        · exact .fail _
        · exact .bind (Reads.command rfl).tries fun _ => .ret _

omit hm in
theorem tries_ensureLoop {l : List Name} : Tries m g (ensureLoop ctx p cur l) := by
  induction l generalizing p cur with
  | nil => exact .ret _
  | cons n rest ih => exact .bind tries_ensureComponent fun _ => ih

omit hm in
theorem tries_ensureParents : Tries m g (ensureParents ctx p) := by
  unfold ensureParents
  split
  · refine .caught (reads_resolvePath _ _) (fun _ => .lift _) (.fail _) fun e he => ?_
    cases e <;> first | rfl | exact absurd rfl he
  · refine .bind reads_ensureRoot.tries fun _ => ?_
    split
    · exact .ret _
    · refine .bind reads_loadRootInode.tries fun root => ?_
      cases root with
      | none => exact .fail _
      | some root => exact tries_ensureLoop

omit hm in
theorem ends_createInodeAtPath : Ends m g false (createInodeAtPath ctx p i) := by
  unfold createInodeAtPath
  split
  · exact .fail _
  · exact .bind_reads (reads_resolvePath _ _) fun _ => ends_createInodeUnderParent

omit hm in
theorem ends_mkdirMode : Ends m g false (mkdirMode ctx path mode) := by
  simp only [mkdirMode]
  split
  · exact reads_ensureRoot.ends
  refine .bind_tries tries_ensureParents fun _ => .bind_reads reads_loadInode fun i => ?_
  cases i with
  | some i =>
    dsimp only
    split
    · exact (Reads.ret _).ends
    · exact .fail _
  | none =>
    exact .bind_tries tries_ensureParents fun _ => .bind_reads (.command rfl) fun _ =>
      .bind ends_createInodeAtPath fun _ _ => reads_markRootDirty.ends

omit hm in
theorem ends_ln {target linkpath : Bytes} : Ends m g false (ln ctx target linkpath) := by
  simp only [ln]
  split
  · exact .fail _
  refine .bind_tries tries_ensureParents fun _ => .bind_reads reads_loadInode fun i => ?_
  cases i with
  | some i => exact .fail _
  | none =>
    exact .bind_reads (.command rfl) fun _ =>
      .bind ends_createInodeAtPath fun _ _ => reads_markRootDirty.ends

theorem ends_rm : Ends m g false (rm ctx path) := by
  simp only [rm]
  split
  · exact .fail _
  refine .bind_reads (reads_resolvePath _ _) fun r => ?_
  refine .bind ends_deletePublishedInode fun _ _ => ?_
  exact (Reads.bind reads_publishInvalidate fun _ => reads_publishInvalidate).ends

/-! ## Renaming -/

theorem mute_collectChildren {collect : Path → InodeData → Op (List (Id × Path))}
    (hc : ∀ p i, Mute m g (collect p i)) {path : Path} {l : List (Name × Id)} :
    Mute m g (collectChildren collect path l) := by
  induction l with
  | nil => exact .ret _
  | cons e rest ih =>
    obtain ⟨n, id⟩ := e
    refine .bind (.command rfl) fun child => ?_
    cases child with
    | none => exact ih
    | some child => exact .bind (hc _ _) fun _ => .bind ih fun _ => .ret _

theorem mute_collectPaths (fuel : ℕ) (path : Path) (i : InodeData) :
    Mute m g (collectPaths fuel path i) := by
  induction fuel generalizing path i with
  | zero => exact .fail rfl
  | succ fuel ih =>
    unfold collectPaths
    split
    · exact .ret _
    · exact .bind (.command rfl) fun _ => .bind (mute_collectChildren ih) fun _ => .ret _

/-- The refresh after a rename that went through. -/
theorem ends_refreshIndexedSubtree {path : Path} :
    Ends m g true (refreshIndexedSubtree fuel path i) := by
  refine track_retryWatch (I := fun s => s.dirty = true)
    (Q := fun s r => (Heeds s r ∧ Clean s r) ∧ (r = .error .txFailed → s.dirty = true))
    ?_ (fun s h => h.2 rfl) ?_ _ rfl |>.mono fun s r h => h.1
  · intro s hs
    refine Track.exceptBind ((mute_collectPaths fuel path i) s) ?_ ?_
    · rintro s' paths ⟨rfl, -⟩
      refine ⟨hs, fun r hr => ?_⟩
      cases r with
      | ok u => exact ⟨⟨nofun, nofun⟩, nofun⟩
      | error e =>
        obtain ⟨-, rfl | rfl | rfl | rfl | ⟨rfl, -⟩⟩ := hr.1 e rfl
        · exact ⟨⟨fun _ => ⟨_, rfl, rfl⟩, nofun⟩, nofun⟩
        · exact ⟨⟨fun _ => ⟨_, rfl, rfl⟩, nofun⟩, fun _ => by
            simp [standing, hs, soils, excuses]⟩
        · exact ⟨⟨fun _ => ⟨_, rfl, rfl⟩, nofun⟩, nofun⟩
        · exact ⟨⟨fun _ => ⟨_, rfl, rfl⟩, nofun⟩, nofun⟩
        · exact ⟨⟨nofun, fun _ => by simp [standing, excuses]⟩, nofun⟩
    · rintro s' e ⟨rfl, he⟩
      refine ⟨⟨fun _ => ⟨e, rfl, he e rfl⟩, fun h => ?_⟩, fun _ => hs⟩
      cases h
      cases he _ rfl
  · exact fun s h => ⟨⟨fun _ => ⟨_, rfl, rfl⟩, nofun⟩, fun _ => h⟩

/-- How the attempts of a rename end. -/
def OutcomeEnds (s : Standing) : RenameOutcome → Prop
  | .failed e => Heeds s (.error e : Except Err Unit) ∧ Clean s (.error e : Except Err Unit)
  | .watchDir _ => s = ⟨false, false⟩
  | .done _ => s = ⟨false, true⟩

theorem mute_destination (r : RenamePlan) : Mute m g r.destination := by
  refine .bind (.command rfl) fun id => ?_
  cases id with
  | none => exact .ret _
  | some id => exact .bind (.command rfl) fun _ => .ret _

variable {r : RenamePlan}

omit hg hm in
/-- A rename is tried again only while nothing was published. -/
theorem track_renameAttempts (ha : m.Expects false r.inode.id r.inode.revision)
    {watched : Option Id} {operation : Token} {prepared b : Bool} : Track (standing m g)
      (fun s v => match v with
        | .ok v => OutcomeEnds s v.1
        | .error e => e.final = true) ⟨b, false⟩
      (renameAttempts ctx r watched operation n prepared).run := by
  induction n generalizing prepared b with
  | zero => exact ⟨fun _ => ⟨_, rfl, rfl⟩, nofun⟩
  | succ n ih =>
    refine Track.exceptBind ((mute_destination r) _) ?_ fun s e h => h.2 e rfl
    rintro s replaced ⟨rfl, -⟩
    refine Track.exceptBind ((Mute.command rfl) _) ?_ fun s e h => h.2 e rfl
    rintro s now ⟨rfl, -⟩
    refine track_caught (coded_renameMetadata ha) ?_
    rintro ⟨refused, dirty⟩ v ⟨hc, herr, hok⟩
    split
    · obtain rfl : dirty = false := hc.clean (.inr (.inl rfl))
      exact ih
    · obtain rfl : dirty = false := hc.clean (.inr (.inr (.inl rfl)))
      obtain rfl : refused = false := herr _ rfl rfl
      exact rfl
    · obtain rfl : dirty = false := hc.clean (.inr (.inr (.inr (.inl rfl))))
      obtain rfl : refused = false := herr _ rfl rfl
      refine track_caught (Tries.prepare _ _ _) fun s v ⟨hh, hd⟩ => ?_
      cases v with
      | error e => exact ⟨hh.error, fun _ => hd⟩
      | ok u =>
        rw [hh.of_ok, hd]
        exact ih
    · exact hc.fine
    · next code =>
      obtain rfl : refused = false := (hok code rfl).1
      split
      · next h1 =>
        have hd : dirty = false := hc.clean (.inr (.inr (.inr (.inr (by rw [h1])))))
        exact ⟨nofun, fun _ => hd⟩
      · next h1 =>
        obtain rfl : dirty = true := (hok code rfl).2 h1
        refine track_then (I := (· = ⟨false, true⟩)) (track_pruneHistory (fun _ => rfl) ⟨rfl, rfl⟩) ?_
        rintro s rfl
        exact rfl

/-- The result of `renameLoop`. -/
def LoopEnds (s : Standing) : Except Err InodeData → Prop
  | .error e => Heeds s (.error e : Except Err Unit) ∧ Clean s (.error e : Except Err Unit)
  | .ok _ => s = ⟨false, true⟩

omit hg hm in
theorem track_renameLoop (ha : m.Expects false r.inode.id r.inode.revision) (n : ℕ)
    (watched : Option Id) (prepared : List Token) : Track (standing m g)
      (fun s v => match v with
        | .ok v => LoopEnds s v.1
        | .error e => e.final = true) ⟨false, false⟩
      (renameLoop ctx r n watched prepared).run := by
  induction n generalizing watched prepared with
  | zero => exact ⟨nofun, nofun⟩
  | succ n ih =>
    refine Track.exceptBind ((Mute.command rfl) _) ?_ fun s e h => h.2 e rfl
    rintro s operation ⟨rfl, -⟩
    refine Track.exceptBind (track_renameAttempts ha) ?_ fun s e h => h
    rintro s ⟨outcome, did⟩ h
    cases outcome with
    | failed e => exact h
    | watchDir id =>
      obtain rfl : s = ⟨false, false⟩ := h
      exact ih _ _
    | done i => exact h

theorem track_discardAll (l : List Token) (s : Standing) :
    Track (standing m g) (fun s' r => s' = s ∧ r = .ok ()) s (discardAll l).run := by
  induction l with
  | nil => exact ⟨rfl, rfl⟩
  | cons t l ih =>
    refine track_then (I := (· = s)) ?_ ?_
    · exact track_ignore rfl (fun r => by cases r <;> rfl) ⟨rfl, rfl⟩
    · rintro s' rfl
      exact ih

omit hg in
theorem ends_renamePath : Ends m g false (renamePath ctx fuel r) := by
  refine .bind_tries (.lift _) fun _ => .bind_tries (.lift _) fun _ => .bind_check fun _ hc => ?_
  split
  · exact .fail _
  refine Track.exceptBind (track_renameLoop (expects_of_passed hc) 8 none []) ?_
    fun s e h => ⟨fun _ => ⟨e, rfl, h⟩, fun hc => by cases hc; cases h⟩
  rintro s ⟨result, prepared⟩ h
  refine track_caught (E := fun s r => Heeds s r ∧ Clean s r) ?_ fun s r hf => ?_
  · cases result with
    | error e => exact h
    | ok i =>
      obtain rfl : s = ⟨false, true⟩ := h
      refine Ends.bind_reads (x := lift (.ok i)) (Reads.ret i) fun i => ?_
      exact Ends.bind_reads reads_publishInvalidate fun _ =>
        .bind_reads reads_publishInvalidate fun _ =>
          .bind_reads reads_publishInvalidate fun _ =>
            .bind_reads reads_publishInvalidate fun _ => ends_refreshIndexedSubtree
  · refine track_then (track_discardAll prepared s) ?_
    rintro s' rfl
    exact track_lift hf

theorem ends_rename {source destination : Bytes} {flags : RenameFlags} :
    Ends m g false (rename ctx fuel source destination flags) := by
  simp only [rename]
  split
  · exact .fail _
  split
  · exact (Reads.ret _).ends
  split
  · exact .fail _
  refine .bind_reads (reads_resolvePath _ _) fun src => ?_
  split
  · exact .fail _
  refine .bind_reads (reads_resolvePath _ _) fun dst => ?_
  split
  · exact .fail _
  · exact .bind ends_renamePath fun _ _ => reads_markRootDirty.ends

/-! ## Files -/

/-- The postcondition of `createFileIfMissing`: an existing file was left alone. -/
def FoundEnds (s : Standing) : Except Err (InodeData × Bool) → Prop
  | .ok v => s.refused = false ∧ (v.2 = false → s.dirty = false)
  | .error e => Heeds s (.error e : Except Err Unit) ∧ Clean s (.error e : Except Err Unit)

/-- The program ends as `createFileIfMissing` does. -/
def Finds (m : Ctx) (g : Generation) (d : Bool) (k : Op (InodeData × Bool)) : Prop :=
  Track (standing m g) FoundEnds ⟨false, d⟩ k.run

theorem Tries.finds {k : Op (InodeData × Bool)} (hk : Tries m g k) : Finds m g false k := by
  refine (hk false).mono fun s r h => ?_
  cases r with
  | ok v => exact ⟨congrArg Standing.refused h.1.of_ok, fun _ => h.2⟩
  | error e => exact ⟨h.1.error, fun _ => h.2⟩

variable {k : α → Op (InodeData × Bool)}

theorem Finds.bind_tries (hx : Tries m g x)
    (hk : ∀ a, Finds m g false (k a)) : Finds m g false (x >>= k) := by
  refine Track.exceptBind (hx false) (fun s a h => ?_) fun s e h => ⟨h.1.error, fun _ => h.2⟩
  rw [h.1.of_ok, h.2]
  exact hk a

theorem Finds.bind_reads (hx : Reads m g x)
    (hk : ∀ a, Finds m g d (k a)) : Finds m g d (x >>= k) := by
  refine Track.exceptBind (hx d) (fun s a h => ?_) fun s e h =>
    ⟨h.1.error, fun he => absurd (by cases he; rfl) h.2.2⟩
  rw [h.1.of_ok, h.2.1]
  exact hk a

theorem reads_existingFile {parent : Id} : Reads m g (existingFile parent p) := by
  refine .bind (.command rfl) fun existing => ?_
  cases existing with
  | none => exact .fail nofun
  | some existing =>
    refine .bind (.command rfl) fun i => ?_
    cases i with
    | none => exact .fail nofun
    | some i =>
      dsimp only
      split
      · exact .fail nofun
      · exact .bind (.command rfl) fun _ => .ret _

theorem finds_createFileIfMissing {exclusive : Bool} :
    Finds m g false (createFileIfMissing ctx p content mode exclusive) := by
  unfold createFileIfMissing
  split
  · exact (Tries.fail _).finds
  refine .bind_tries (reads_resolvePath _ _).tries fun ⟨_, parent⟩ => ?_
  dsimp only
  split
  · exact (Tries.fail _).finds
  refine .bind_tries (.lift _) fun _ => .bind_tries reads_allocInodeID.tries fun id => ?_
  refine .bind_tries (Reads.command rfl).tries fun now => ?_
  refine .bind_tries (reads_selectContentRef _).tries fun i => ?_
  refine .bind_tries (.lift _) fun _ => .bind_tries (reads_stageFullFile i).tries fun t => ?_
  refine track_withStage (track_caught ends_publishStagedFile ?_)
  rintro ⟨refused, dirty⟩ r ⟨hh, hc⟩
  split
  · -- published
    rw [hh.of_ok]
    exact Finds.bind_reads (.command rfl) fun _ => .bind_reads reads_publishInvalidate fun _ =>
      .bind_reads reads_publishInvalidate fun _ => ⟨rfl, nofun⟩
  · -- somebody else was first
    obtain rfl : dirty = false := hc rfl
    obtain rfl : refused = false := hh.not_refused rfl
    refine Tries.finds ?_
    split
    · exact .fail _
    split
    · exact .fail _
    · exact .bind reads_existingFile.tries fun _ => .ret _
  · exact ⟨hh.error, fun h => by cases h; exact hc rfl⟩

/-- What goes on after `createFileIfMissing`. -/
theorem Ends.bind_finds {k : InodeData × Bool → Op α} {y : Op (InodeData × Bool)} (hy : Finds m g false y)
    (hk : ∀ v d, (v.2 = false → d = false) → Ends m g d (k v)) : Ends m g false (y >>= k) := by
  refine Track.exceptBind hy (fun s v h => ?_) fun s e h => ⟨h.1.error, fun hc => h.2 (by cases hc; rfl)⟩
  obtain ⟨refused, dirty⟩ := s
  obtain rfl : refused = false := h.1
  exact hk v dirty h.2

theorem ends_createFile : Ends m g false (createFile ctx p content mode) := by
  refine .bind_finds finds_createFileIfMissing fun ⟨i, created⟩ d hd => ?_
  dsimp only
  split
  · next h =>
    obtain rfl : d = false := hd (by simpa using h.1)
    refine .bind_tries (solo_loadContentExternal (o := none) _ _).tries fun published => ?_
    split
    · exact .fail _
    · exact reads_markRootDirty.ends
  · exact reads_markRootDirty.ends

theorem ends_createFileOp {exclusive : Bool} :
    Ends m g false (createFileOp ctx path mode exclusive) := by
  simp only [createFileOp]
  split
  · exact .fail _
  refine .bind_tries tries_ensureParents fun _ => ?_
  refine .bind_finds finds_createFileIfMissing fun _ d _ => ?_
  exact (Reads.bind (.command rfl) fun _ => .onlyIf reads_markRootDirty).ends

omit hg in
theorem ends_rewriteFile {resolved : Path} : Ends m g false (rewriteFile ctx resolved i content) :=
  .bind_reads (.command rfl) fun _ => .bind ends_saveInode fun _ _ =>
    (Reads.bind reads_publishInvalidate fun _ => reads_markRootDirty).ends

theorem ends_writeFileWithMode {data : Bytes} :
    Ends m g false (writeFileWithMode ctx path data mode) := by
  simp only [writeFileWithMode]
  split
  · exact .fail _
  refine .bind_tries tries_ensureParents fun _ => ?_
  refine .caught (reads_resolvePath _ _) (fun ⟨resolved, i⟩ => ?_) ?_ fun e he => ?_
  · dsimp only
    split
    · exact .fail _
    · exact ends_rewriteFile
  · exact ends_createFile
  · cases e <;> first | rfl | exact absurd rfl he

theorem ends_writeFile {data : Bytes} {append : Bool} :
    Ends m g false (writeFile ctx path data append) := by
  simp only [writeFile]
  split
  · exact .fail _
  refine .caught (reads_resolvePath _ _) (fun ⟨resolved, i⟩ => ?_) ?_ fun e he => ?_
  · dsimp only
    split
    · exact .fail _
    · exact .bind_tries (solo_loadContentIf (o := none) i).tries fun _ => ends_rewriteFile
  · exact .bind_tries tries_ensureParents fun _ => ends_createFile
  · cases e <;> first | rfl | exact absurd rfl he

theorem ends_truncate : Ends m g false (truncate ctx path size) := by
  unfold truncate
  split
  · exact .fail _
  refine .bind_reads (reads_resolvePath _ _) fun ⟨resolved, i⟩ => ?_
  dsimp only
  split
  · exact .fail _
  · exact .bind_tries (solo_loadContentIf (o := none) i).tries fun _ => ends_rewriteFile

omit hg in
theorem ends_saveAttributes {resolved : Path} : Ends m g false (saveAttributes ctx resolved i) :=
  .bind ends_saveInodeMeta fun _ _ =>
    (Reads.bind reads_publishInvalidate fun _ => reads_markRootDirty).ends

theorem ends_touch : Ends m g false (touch ctx path) := by
  simp only [touch]
  split
  · exact .fail _
  refine .bind_tries tries_ensureParents fun _ => ?_
  refine .caught (reads_resolvePath _ _) (fun ⟨resolved, i⟩ => ?_) ?_ fun e he => ?_
  · dsimp only
    split
    · exact .fail _
    · exact .bind_reads (.command rfl) fun _ => ends_saveAttributes
  · exact ends_createFileOp
  · cases e <;> first | rfl | exact absurd rfl he

theorem ends_chmod : Ends m g false (chmod ctx path mode) :=
  .bind_reads (reads_resolvePath _ _) fun _ => ends_saveAttributes

theorem ends_chown {uid gid : ℕ} : Ends m g false (chown ctx path uid gid) :=
  .bind_reads (reads_resolvePath _ _) fun _ => ends_saveAttributes

theorem ends_utimens {atimeMs mtimeMs : ℤ} : Ends m g false (utimens ctx path atimeMs mtimeMs) :=
  .bind_reads (reads_resolvePath _ _) fun _ => ends_saveAttributes

theorem ends_setAttrs {u : AttrUpdate} : Ends m g false (setAttrs ctx path u) := by
  unfold setAttrs
  split
  · exact (Reads.ret _).ends
  · exact .bind_reads (reads_resolvePath _ _) fun _ =>
      .bind ends_updatePublishedInode fun _ _ =>
        (Reads.bind (.command rfl) fun _ => .bind reads_publishInvalidate fun _ =>
          reads_markRootDirty).ends

omit hm in
theorem tries_newChunkFile : Tries m g (newChunkFile ctx p chunks chunkSize newSize) := by
  unfold newChunkFile
  split
  · exact .fail _
  refine .bind tries_ensureParents fun _ => .bind (reads_resolvePath _ _).tries fun _ => ?_
  refine .bind reads_allocInodeID.tries fun _ => .bind (Reads.command rfl).tries fun _ => ?_
  split
  · exact .ret _
  · exact .fail _

omit hm in
theorem tries_chunkFile : Tries m g (chunkFile ctx p chunks chunkSize newSize) := by
  refine .caught (reads_resolvePath _ _) (fun _ => .ret _) ?_ fun e he => ?_
  · exact .bind tries_newChunkFile fun _ => .ret _
  · cases e <;> first | rfl | exact absurd rfl he

theorem ends_publishChunks {chunkSize newSize : ℤ} (hashes : List Bytes) :
    Ends m g false (publishChunks ctx path chunks chunkSize newSize hashes) := by
  unfold publishChunks
  split
  · exact .fail _
  refine .bind_tries tries_chunkFile ?_
  rintro ⟨resolved, i, creating⟩
  dsimp only
  split
  · exact .fail _
  refine .bind_tries (.lift _) fun _ => .bind_reads (reads_selectContentRef _) fun next => ?_
  refine .bind_reads (.command rfl) fun t => .withStage ?_
  refine .bind_tries solo_stageChunks.tries fun _ => .bind_reads (.command rfl) fun now => ?_
  exact .bind ends_publishStagedFile fun _ _ =>
    (Reads.bind reads_publishInvalidate fun _ => .onlyIf reads_publishInvalidate).ends

/-! ## Restores and locks -/

/-- What `restoreVersion` answered, as the caller reports it when no record can be read back. -/
theorem fine_restoreError {r : Except Err Reply}
    (href : s.refused = true → r = .ok (.refused "HISTORY_RESTORE_GENERATION") ∨ r = .error .network)
    (hd : r = .ok (.refused "HISTORY_RESTORE_CONFLICT") → s.dirty = false)
    (he : ∀ e, r = .error e → e = .network) : Heeds s (.error (restoreError r) : Except Err Unit) ∧
      Clean s (.error (restoreError r) : Except Err Unit) := by
  constructor
  · intro h
    obtain rfl | rfl := href h <;> exact ⟨_, rfl, rfl⟩
  · intro h
    refine hd ?_
    simp only [Except.error.injEq] at h
    unfold restoreError at h
    split at h <;> cases h
    · rfl
    · cases he _ rfl

theorem standing_getRecord (id : RecordId) (r : Except Err (Option Record)) :
    (standing m g).next s (.getRecord id) r = match r with
      | .ok (some _) => ⟨false, true⟩
      | _ => s := by
  rcases r with e | _ | v <;> simp [standing, soils, excuses, confirms, Cmd.guarded]

theorem ends_runRestore {a : RestoreArgs} : Ends m g false (runRestore a) := by
  refine track_caught (x := call (.restoreVersion a))
    (E := fun s r => (s.refused = true → r = .ok (.refused "HISTORY_RESTORE_GENERATION") ∨
        r = .error .network) ∧
      (r = .ok (.refused "HISTORY_RESTORE_CONFLICT") → s.dirty = false) ∧
      (∀ v, r = .ok (.record v) → s.dirty = true) ∧ ∀ e, r = .error e → e = .network) ?_ ?_
  · refine ⟨trivial, fun r hr => ?_⟩
    cases r with
    | error e =>
      obtain ⟨-, rfl | h⟩ := hr.1 e rfl
      · exact ⟨fun _ => .inr rfl, fun h => (by cases h), fun _ h => (by cases h), fun e h => by
          cases h; rfl⟩
      · cases h
    | ok v =>
      refine ⟨fun h => .inl (by rw [eq_of_beq h]), fun h => ?_, fun w h => ?_, fun _ h => (by cases h)⟩
      · cases h
        rfl
      · cases h
        rfl
  · rintro ⟨refused, dirty⟩ r ⟨href, hconflict, hrecord, herr⟩
    have found : Track (standing m g) (fun s r => Heeds s r ∧ Clean s r) ⟨false, true⟩
        (pruneHistory 3).run :=
      track_pruneHistory (fun _ => rfl) ⟨nofun, nofun⟩
    split
    · next v =>
      obtain rfl : dirty = true := hrecord v rfl
      obtain rfl : refused = false := by
        cases refused with
        | false => rfl
        | true => obtain h | h := href rfl <;> cases h
      exact found
    · refine ⟨trivial, fun v _ => ?_⟩
      rw [standing_getRecord]
      rcases v with e | _ | v
      · exact fine_restoreError href hconflict herr
      · exact fine_restoreError href hconflict herr
      · exact found

omit hg hm in
theorem ends_publishRestore {parentPath : Path} {selected : Record} {after : InodeData}
    {beforeHash : Hash} {undelete : Bool} : Ends m g false
      (publishRestore ctx parentPath p selected content before after beforeHash undelete) := by
  unfold publishRestore
  split
  · exact ends_runRestore
  refine .bind_reads (reads_selectContentRef _) fun after => ?_
  split
  · exact .fail _
  · exact .bind_reads (reads_stageFullFile _) fun t => .withStage ends_runRestore

variable {expected : Option Stat}

omit hm in
theorem tries_restoreParent : Tries m g (restoreParent ctx p expected) := by
  refine .caught (reads_resolvePath _ _) (fun _ => .ret _) (.fail _) fun e he => ?_
  cases e <;> first | rfl | exact absurd rfl he

omit hm in
theorem tries_restoreBefore : Tries m g (restoreBefore ctx p) := by
  refine .caught (reads_resolvePath _ _) (fun _ => .ret _) (Reads.ret _).tries
    fun e he => ?_
  cases e <;> first | rfl | exact absurd rfl he

omit hm in
theorem reads_restoreId {kind : Kind} : Reads m g (restoreId ctx before kind) := by
  unfold restoreId
  split
  · split
    · exact .ret _
    · exact reads_allocInodeID
  · exact reads_allocInodeID

omit hm in
theorem ends_restoreFileVersion {selected : Record} {undelete : Bool} :
    Ends m g false (restoreFileVersion ctx path selected content expected undelete) := by
  have : Serves (ctx.withExpectedStat expected) g := ⟨hg.generation⟩
  refine .bind_tries (.lift _) fun p => .bind_tries (.lift _) fun _ => ?_
  refine .bind_reads reads_checkGeneration fun _ => ?_
  refine .bind_tries (.onlyIf tries_ensureParents) fun _ => ?_
  refine .bind_tries tries_restoreParent fun ⟨parentPath, parent⟩ => ?_
  refine .bind_tries tries_restoreBefore fun before => .bind_tries (.lift _) fun _ => ?_
  split
  · exact .fail _
  · exact .bind_tries (solo_restoreBeforeHash (o := none)).tries fun _ => .bind_reads reads_restoreId fun _ =>
      .bind_reads (.command rfl) fun _ => .bind_reads (.command rfl) fun _ =>
        ends_publishRestore

/-- A lock is taken under `retryWatch` alone. -/
theorem ends_retryLock (ha : ∀ s, (standing m g).allows s c)
    (hs : ∀ r, soils c r = false ∧ excuses c r = false) (hok : ∀ v, declined g c (.ok v) = false)
    (hc : c.guarded = true) (n : ℕ) : Ends m g false (retryWatch (call c) n) := by
  refine track_retryWatch (I := fun s => s.dirty = false)
    (Q := fun s r => (Heeds s r ∧ Clean s r) ∧ s.dirty = false) ?_ (fun s h => h.2) ?_ _ rfl
    |>.mono fun s r h => h.1
  · intro s hd
    refine ⟨ha s, fun r hr => ?_⟩
    have hdirty : ((standing m g).next s c r).dirty = false := by simp [standing, hs, hd]
    refine ⟨⟨fun h => ?_, fun _ => hdirty⟩, hdirty⟩
    simp only [standing, hc, if_true] at h
    cases r with
    | ok v => simp [hok] at h
    | error e => exact ⟨e, rfl, final_of_declines h⟩
  · exact fun s h => ⟨⟨fun _ => ⟨_, rfl, rfl⟩, nofun⟩, h⟩

theorem ends_setlk {inode : Id} {owner : LockOwner} {lk : FileLock} :
    Ends m g false (setlk inode owner lk) := by
  unfold setlk
  split
  · exact .fail _
  split
  · exact .fail _
  · refine ends_retryLock (fun _ => ?_) (fun r => by cases r <;> exact ⟨rfl, rfl⟩) (fun _ => rfl) rfl _
    trivial

theorem ends_unlockAll {inode : Id} {owner : LockOwner} : Ends m g false (unlockAll inode owner) := by
  refine ends_retryLock (fun _ => ?_) (fun r => by cases r <;> exact ⟨rfl, rfl⟩) (fun _ => rfl) rfl _
  trivial

/-! ## Every request -/

/-- **Every operation heeds the generation and is clean.** -/
theorem Request.ends_op (r : Request) : Ends m g false (r.op ctx) := by
  cases r with
  | echo p data => exact ends_writeFile
  | echoCreate p data mode => exact ends_writeFileWithMode
  | echoAppend p data => exact ends_writeFile
  | touch p => exact ends_touch
  | createFile p mode exclusive => exact ends_createFileOp
  | mkdir p mode => exact ends_mkdirMode
  | rm p => exact ends_rm
  | rename src dst flags fuel => exact ends_rename
  | ln target linkpath => exact ends_ln
  | chmod p mode => exact ends_chmod
  | chown p uid gid => exact ends_chown
  | truncate p size => exact ends_truncate
  | utimens p atimeMs mtimeMs => exact ends_utimens
  | setAttrs p u => exact ends_setAttrs
  | writeChunks p chunks chunkSize newSize hashes => exact ends_publishChunks _
  | writeInodeAt inode payload off => exact ends_writeInodeAt
  | truncateInode inode size => exact ends_truncateInode
  | restore p selected content expected undelete => exact ends_restoreFileVersion
  | setlk inode owner lk => exact ends_setlk
  | unlockAll inode owner => exact ends_unlockAll

/-- A session's frame around an operation keeps this. -/
theorem Request.ends_inSession (r : Request) : Ends m g false (r.inSession ctx) := by
  have (b : Bool) : Serves { ctx with requestChecked := b } g := ⟨hg.generation⟩
  have check : Reads m g (checkGeneration { ctx with requestChecked := false }) :=
    reads_checkGeneration
  have : Agree m { ctx with requestChecked := true } := ⟨hm.stat⟩
  have body : Ends m g false (r.op { ctx with requestChecked := true }) := Request.ends_op r
  exact .bind_reads check fun _ => .bind body fun _ _ => check.ends

theorem Request.ends {r : Request} {x : Op Unit} (hx : x = r.op ctx ∨ x = r.inSession ctx) :
    Ends m g false x := by
  obtain rfl | rfl := hx
  · exact r.ends_op
  · exact r.ends_inSession

end Operations

/-! ## The observer among real exchanges -/

section Exchanges

variable {w w' : World} {c : Cmd} {r : Except Err (Val c)}

theorem untracked_of_exec (h : Exec ctx c w r w') : Untracked c r := by
  obtain ⟨o, ho⟩ := h
  unfold Untracked
  split
  · next name a v =>
    intro ht hv
    have hb := watch_ok (exec_ok ho)
    simp only [createBlock] at hb
    split at hb
    · cases hb
    split at hb
    · cases hb
    · simp only [Prod.mk.injEq, Except.ok.injEq] at hb
      exact createMetadataScript_dir ht w (hb.1.trans hv)
  · trivial

/-- The observer takes every exchange of an operation for possible. -/
theorem admits_of_exec (h : Exec ctx c w r w') (s : Standing) : (standing ctx g).admits s c r := by
  refine ⟨fun e he => ?_, untracked_of_exec h⟩
  obtain ⟨o, ho⟩ := h
  subst he
  exact exec_error ho

end Exchanges

end Afs.Client
