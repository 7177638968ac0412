import Afs.Client.Chronicle

/-!
# Reading a file

A range read takes the metadata, the bytes and once more the metadata, in that order, while others
publish. It answers only if the two looks at the metadata find one revision, and then the bytes in
between belong to it as well.
-/

namespace Afs.Client

open History LinkTree List Prog Option

/-! ## The exchanges of an operation -/

variable {id : Id}

section Traces

variable {α β : Type} {ctx : Ctx} {tr : List (Exchange sig World)}

theorem trace_attempt {x : Op α} {r : Except Err (Except Err α)}
    (h : (attempt x).run.Trace (Exec ctx) tr r) :
    ∃ r', r = .ok r' ∧ x.run.Trace (Exec ctx) tr r' := by
  obtain ⟨t₁, t₂, r', rfl, h₁, h₂⟩ := Trace.of_bind (p := x.run) h
  obtain ⟨rfl, rfl⟩ := trace_ret h₂
  exact ⟨r', rfl, by rwa [append_nil]⟩

theorem trace_lift {x r : Except Err α} (h : (lift x).run.Trace (Exec ctx) tr r) :
    tr = [] ∧ r = x := trace_ret h

/-- A command that answers has had its effect. -/
theorem trace_effect {c : Cmd} {v : Val c} (h : (call c).run.Trace (Exec ctx) tr (.ok v)) :
    ∃ o w w', tr = [⟨w, c, .ok v, w'⟩] ∧ effect ctx o w c = (.ok v, w') := by
  obtain ⟨w, w', rfl, o, hexec⟩ := trace_call h
  exact ⟨o, w, w', rfl, exec_ok hexec⟩

/-- The operation goes on with the reply of a command. -/
theorem trace_callBind {c : Cmd} {k : Val c → Op β} {b : β}
    (h : (call c >>= k).run.Trace (Exec ctx) tr (.ok b)) :
    ∃ o w v w' t, tr = ⟨w, c, .ok v, w'⟩ :: t ∧ effect ctx o w c = (.ok v, w') ∧
      (k v).run.Trace (Exec ctx) t (.ok b) := by
  obtain ⟨t₁, t₂, v, rfl, h₁, h₂⟩ := Trace.of_exceptBind h
  obtain ⟨o, w, w', rfl, heff⟩ := trace_effect h₁
  exact ⟨o, w, v, w', t₂, rfl, heff, h₂⟩

/-- The operation goes on with an inode it has loaded. -/
theorem trace_loadInode {k : Option InodeData → Op β} {b : β}
    (h : (call (.loadInode id) >>= k).run.Trace (Exec ctx) tr (.ok b)) :
    ∃ w t, tr = ⟨w, .loadInode id, .ok (loadInodeByID w.toStore id), w⟩ :: t ∧
      (k (loadInodeByID w.toStore id)).run.Trace (Exec ctx) t (.ok b) := by
  obtain ⟨o, w, v, w', t, rfl, heff, hrest⟩ := trace_callBind (c := .loadInode id) h
  cases heff
  exact ⟨w, t, rfl, hrest⟩

end Traces

/-! ## What a reader finds -/

section Found

variable {s : Store} {id : Id} {v : Version}

/-- A file as its version describes it. -/
theorem content_of_version (hv : fileVersion s id = some v) :
    s.content id = v.body ∧ (s.fields id).content = v.inline ∧ s.size id = v.size := by
  obtain ⟨f, hf, -, rfl⟩ := fileVersion_eq_some.mp hv
  simp [Store.fields, Store.size, hf]

/-- The metadata of a file are those of its version. -/
theorem version_of_load {i : InodeData} (hi : loadInodeByID s id = some i) (hfile : i.type = .file) :
    ∃ v, fileVersion s id = some v ∧ v.revision = i.revision ∧ v.size = i.size ∧
      v.ref = i.contentRef ∧ i.id = id := by
  obtain ⟨f, hf, hload⟩ := bind_eq_some_iff.mp hi
  obtain ⟨k, hk, rfl⟩ := map_eq_some_iff.mp hload
  dsimp only at hfile
  subst hfile
  exact ⟨_, fileVersion_eq_some.mpr ⟨f, hf, hk, rfl⟩, rfl, rfl, rfl, rfl⟩

theorem kind_of_load {i : InodeData} (hi : loadInodeByID s id = some i) : s.kind id = some i.type := by
  obtain ⟨f, hf, hload⟩ := bind_eq_some_iff.mp hi
  obtain ⟨k, hk, rfl⟩ := map_eq_some_iff.mp hload
  simp [Store.kind, hf, hk]

end Found

variable {w : World} {v : Version}

/-- Inline content is no longer than its file. -/
theorem Contents.inline_length (hc : Contents w) (hv : fileVersion w.toStore id = some v) :
    ((w.fields id).content.getD []).length ≤ v.size.toNat := by
  obtain ⟨f, hf, -, rfl⟩ := fileVersion_eq_some.mp hv
  have hfields : w.fields id = f := by simp [Store.fields, hf]
  rw [hfields]
  cases hb : f.content with
  | none => exact Nat.zero_le _
  | some b =>
    obtain ⟨-, hlen⟩ := hc.inline id f b hf hb
    dsimp only [getD_some]
    omega

/-- The chunks of a version are as short as chunks are. -/
theorem Contents.fitting (hc : Contents w) (hv : fileVersion w.toStore id = some v) :
    Fitting (chunksOf v.body) := by
  have hbody := (content_of_version hv).1
  cases hb : v.body with
  | none => exact fitting_nil
  | some body =>
    cases body with
    | array l => exact hc.stored id l (hbody.trans hb)
    | str b => exact fitting_nil

/-- A read of an Array that does not fail finds its chunks. -/
theorem readArray_ok {first last : ℕ} {body : Option Body} {values : List (Option Bytes)}
    (hread : readArray first last body = .ok values) :
    values = argetrange (chunksOf body) first last := by
  cases body with
  | none =>
    cases hread
    rfl
  | some body =>
    cases body with
    | array l =>
      cases hread
      rfl
    | str b => cases hread

/-- A read of a string that does not fail finds its bytes. -/
theorem readString_ok {f : Bytes → Bytes} {bytes : Bytes} (href : v.ref = some .ext)
    (hread : readString f v.body = .ok bytes) : bytes = f v.bytes := by
  rw [Version.bytes, href]
  cases hb : v.body with
  | none =>
    rw [hb] at hread
    cases hread
    rfl
  | some body =>
    rw [hb] at hread
    cases body with
    | str b =>
      cases hread
      rfl
    | array l => cases hread

/-- The bytes of a version from `off` on, at most `len` of them and none past the end of the
file. -/
def Version.range (v : Version) (off len : ℤ) : Bytes :=
  ((v.bytes.take v.size.toNat).drop off.toNat).take len.toNat


section Ranges

variable {ctx : Ctx} {tr : List (Exchange sig World)} {v : Version} {i : InodeData} {off len : ℤ}
  {bytes : Bytes}

theorem Version.range_string (hlen : 0 ≤ len) (hoff : 0 ≤ off) (hlt : off < v.size) (b : Bytes) :
    (b.drop off.toNat).take ((min (off + len) v.size).toNat - off.toNat) =
      ((b.take v.size.toNat).drop off.toNat).take len.toNat := by
  rw [drop_take, take_take]
  congr 1
  omega

theorem Version.range_of_end (h : ¬ (off < v.size ∧ len ≠ 0)) (hlen : 0 ≤ len) (hoff : 0 ≤ off) :
    v.range off len = [] := by
  unfold Version.range
  by_cases hz : len = 0
  · simp [hz]
  · have hend : (v.bytes.take v.size.toNat).length ≤ off.toNat := by
      rw [length_take]
      omega
    rw [drop_eq_nil_of_le hend, take_nil]

/-- **A range is read from one version** if the file has it in every exchange of the read. -/
theorem readInodeRange_range (htr : (readInodeRange i off len).run.Trace (Exec ctx) tr (.ok bytes))
    (hv : ∀ e ∈ tr, fileVersion e.before.toStore i.id = some v ∧ Contents e.before)
    (hsize : v.size = i.size) (href : v.ref = i.contentRef) (hoff : 0 ≤ off) (hlen : 0 ≤ len) :
    bytes = v.range off len := by
  unfold readInodeRange at htr
  rw [← hsize, ← href] at htr
  by_cases hin : off < v.size ∧ len ≠ 0
  · rw [if_pos hin] at htr
    obtain ⟨hlt, hne⟩ := hin
    cases hr : v.ref with
    | none =>
      rw [hr] at htr
      obtain ⟨o, w, raw, w', t, rfl, heff, hrest⟩ := trace_callBind (c := .getInline i.id) htr
      obtain ⟨rfl, hbytes⟩ := trace_ret hrest
      cases heff
      obtain ⟨hver, hc⟩ := hv _ mem_cons_self
      cases hbytes
      have hfit : ((w.fields i.id).content.getD []).length ≤ v.size.toNat := hc.inline_length hver
      rw [Version.range, Version.bytes, hr, ← (content_of_version hver).2.1, take_of_length_le hfit]
      split_ifs with hlt
      · rfl
      · rw [drop_eq_nil_of_le (by omega), take_nil]
    | some ref =>
      rw [hr] at htr
      dsimp only [readRange] at htr
      rw [if_neg (by omega), if_neg (by omega)] at htr
      cases ref with
      | ext =>
        obtain ⟨o, w, w', rfl, heff⟩ := trace_effect htr
        obtain ⟨hver, -⟩ := hv _ mem_cons_self
        have hread : readString (fun b => (b.drop off.toNat).take
            ((min (off + len) v.size).toNat - 1 + 1 - off.toNat)) v.body = .ok bytes := by
          rw [← (content_of_version hver).1]
          exact congrArg Prod.fst heff
        rw [show (min (off + len) v.size).toNat - 1 + 1 = (min (off + len) v.size).toNat by omega] at hread
        rw [readString_ok hr hread]
        exact Version.range_string hlen hoff hlt v.bytes
      | array =>
        obtain ⟨o, w, values, w', t, rfl, heff, hrest⟩ := trace_callBind htr
        obtain ⟨rfl, hbytes⟩ := trace_ret hrest
        obtain ⟨hver, hc⟩ := hv _ mem_cons_self
        have hread : readArray (off.toNat / arrayChunkBytes)
            (((min (off + len) v.size).toNat - 1) / arrayChunkBytes) v.body = .ok values := by
          rw [← (content_of_version hver).1]
          exact congrArg Prod.fst heff
        have hfit := hc.fitting hver
        cases hbytes
        have hrange : eachValue (readChunk off.toNat (min (off + len) v.size).toNat)
            (off.toNat / arrayChunkBytes) (List.replicate ((min (off + len) v.size).toNat - off.toNat) 0)
              values = readArrayRange (chunksOf v.body) off.toNat (min (off + len) v.size).toNat := by
          rw [readArrayRange, if_neg (by omega), readArray_ok hread]
        rw [hrange, readArrayRange_eq hfit, Version.range, Version.bytes, hr]
        dsimp only
        rw [take_window, drop_window, take_window, Nat.zero_add, Nat.min_self]
        congr 1
        omega
  · rw [if_neg hin] at htr
    obtain ⟨-, hbytes⟩ := trace_ret htr
    cases hbytes
    exact (Version.range_of_end hin hlen hoff).symm

theorem loadArrayBatches_eq {size : ℕ} {l : List (ℕ × ℕ)} {buf : Bytes}
    (htr : (loadArrayBatches id size l buf).run.Trace (Exec ctx) tr (.ok bytes))
    (hv : ∀ e ∈ tr, fileVersion e.before.toStore id = some v) : bytes = l.foldl (fun buf batch =>
      loadBatch size buf batch (argetrange (chunksOf v.body) batch.1 batch.2)) buf := by
  induction l generalizing buf tr with
  | nil =>
    obtain ⟨-, hbytes⟩ := trace_ret htr
    cases hbytes
    rfl
  | cons batch l ih =>
    obtain ⟨o, w, values, w', t, rfl, heff, hrest⟩ := trace_callBind htr
    have hread : readArray batch.1 batch.2 v.body = .ok values := by
      rw [← (content_of_version (hv _ mem_cons_self)).1]
      exact congrArg Prod.fst heff
    rw [foldl_cons, ← readArray_ok hread]
    exact ih hrest fun e he => hv e (mem_cons_of_mem _ he)

/-- **The whole content is read from one version** if the file has it in every exchange of the
read. -/
theorem loadContentExternal_bytes {ref : Option ContentRef}
    (htr : (loadContentExternal id ref).run.Trace (Exec ctx) tr (.ok bytes))
    (hv : ∀ e ∈ tr, fileVersion e.before.toStore id = some v ∧ Contents e.before)
    (href : v.ref = ref) : bytes = v.bytes := by
  match ref, href with
  | none, href =>
    obtain ⟨o, w, w', rfl, heff⟩ := trace_effect (c := .getInline id) htr
    obtain ⟨hver, -⟩ := hv _ mem_cons_self
    cases heff
    rw [Version.bytes, href, (content_of_version hver).2.1]
  | some .ext, href =>
    obtain ⟨o, w, w', rfl, heff⟩ := trace_effect (c := .getContent id) htr
    obtain ⟨hver, -⟩ := hv _ mem_cons_self
    refine readString_ok href (f := fun b => b) ?_
    rw [← (content_of_version hver).1]
    exact congrArg Prod.fst heff
  | some .array, href =>
    obtain ⟨o, w, size, w', t, rfl, heff, hrest⟩ := trace_callBind (c := .loadInodeSize id) htr
    obtain ⟨hver, hc⟩ := hv _ mem_cons_self
    cases heff
    have hbytes := loadArrayBatches_eq hrest fun e he => (hv e (mem_cons_of_mem _ he)).1
    rw [hbytes, (content_of_version hver).2.2]
    exact (loadArray_eq (hc.fitting hver) _).trans (by rw [Version.bytes, href])

/-- **Two looks at one revision**: whatever the operation has read of the file in between belongs
to one version. -/
theorem recheck {h : Memory} {w₁ w₂ : World} {t₀ t t' : List (Exchange sig World)}
    {current : InodeData} (hs : Pool.Spaced provenance Between Own h w
      (t₀ ++ ⟨w₁, .loadInode id, .ok (some i), w₁⟩ ::
        (t ++ ⟨w₂, .loadInode id, .ok (some current), w₂⟩ :: t')))
    (hi : loadInodeByID w₁.toStore id = some i) (hfile : i.type = .file)
    (hcur : loadInodeByID w₂.toStore id = some current) (hrev : current.revision = i.revision) :
    ∃ v, fileVersion w₁.toStore id = some v ∧ v.size = i.size ∧ v.ref = i.contentRef ∧ i.id = id ∧
      ∀ e ∈ t, fileVersion e.before.toStore i.id = some v ∧ Contents e.before := by
  obtain ⟨v₁, hv₁, -, hsize, href, hid⟩ := version_of_load hi hfile
  obtain ⟨-, hrest⟩ := hs.drop
  have hseen : Seen (provenance.after h (t₀ ++ [⟨w₁, .loadInode id, .ok (some i), w₁⟩])) i :=
    .inl ⟨id, mem_after (e := ⟨w₁, .loadInode id, .ok (some i), w₁⟩) h (by simp)⟩
  -- the inode has kept its kind, so the second look has found a version
  have hkind : current.type = i.type :=
    hrest.drop.1.kind i (hseen.mono (subset_after _ _)) current.type
      (by rw [hid]; exact kind_of_load hcur)
  obtain ⟨v, hv, hvrev, -⟩ := version_of_load hcur (hkind.trans hfile)
  rw [hrev] at hvrev
  rw [← hid] at hv hv₁
  have hsteady := steady hrest hseen (mem_append_right t mem_cons_self) hv hvrev
  obtain rfl : v₁ = v := Option.some.inj (hv₁.symm.trans hsteady)
  exact ⟨v₁, hid ▸ hv₁, hsize, href, hid, steady_all (l := []) hrest hseen hv hvrev⟩

/-- **A range read that answers** has read one version. -/
theorem readInodeAttempts_range (hoff : 0 ≤ off) (hlen : 0 ≤ len) (n : ℕ) {h : Memory}
    (hs : Pool.Spaced provenance Between Own h w tr)
    (htr : (readInodeAttempts ctx id off len n).run.Trace (Exec ctx) tr (.ok bytes)) :
    ∃ e ∈ tr, ∃ v, fileVersion e.before.toStore id = some v ∧ bytes = v.range off len := by
  induction n generalizing h w tr with
  | zero =>
    obtain ⟨-, hr⟩ := trace_ret htr
    cases hr
  | succ n ih =>
    obtain ⟨t₀, t, -, rfl, -, hload⟩ := Trace.of_exceptBind htr
    obtain ⟨w₁, t₁, rfl, hbody⟩ := trace_loadInode hload
    cases hi : loadInodeByID w₁.toStore id with
    | none =>
      rw [hi] at hbody
      obtain ⟨-, hr⟩ := trace_ret hbody
      cases hr
    | some i =>
      rw [hi] at hbody hs
      dsimp only at hbody
      by_cases hfile : i.type = .file
      · rw [if_neg (not_not.mpr hfile)] at hbody
        obtain ⟨t₂, t₃, result, rfl, hattempt, hagain⟩ := Trace.of_exceptBind hbody
        obtain ⟨result, hresult, hread⟩ := trace_attempt hattempt
        cases hresult
        obtain ⟨w₂, t₄, rfl, hcheck⟩ := trace_loadInode hagain
        cases hcur : loadInodeByID w₂.toStore id with
        | none =>
          rw [hcur] at hcheck
          obtain ⟨-, hr⟩ := trace_ret hcheck
          cases hr
        | some current =>
          rw [hcur] at hcheck hs
          dsimp only at hcheck
          by_cases hrev : current.revision = i.revision
          · rw [if_neg (not_not.mpr hrev)] at hcheck
            obtain ⟨t₅, t₆, r, rfl, hlift, htail⟩ := Trace.of_exceptBind hcheck
            obtain ⟨rfl, rfl⟩ := trace_lift hlift
            obtain ⟨t₇, t₈, -, rfl, -, hend⟩ := Trace.of_exceptBind htail
            obtain ⟨rfl, hbytes⟩ := trace_ret hend
            cases hbytes
            obtain ⟨v, hv, hsize, href, hid, hsame⟩ := recheck hs hi hfile hcur hrev
            exact ⟨_, mem_append_right t₀ mem_cons_self, v, hv,
              readInodeRange_range hread hsame hsize href hoff hlen⟩
          · rw [if_pos hrev] at hcheck
            obtain ⟨e, he, hv⟩ := ih hs.drop.2.drop.2 hcheck
            exact ⟨e, by simp [he], hv⟩
      · rw [if_pos hfile] at hbody
        obtain ⟨-, hr⟩ := trace_ret hbody
        cases hr

theorem calm_readInodeAt (id : Id) (off len : ℤ) : Calm (readInodeAt ctx id off len) := by
  have hrange : ∀ i, Calm (readInodeRange i off len) := by
    intro i
    unfold readInodeRange
    split
    · split
      · exact solo_readRange.calm
      · exact .bind (solo_loadContentExternal _ _).calm fun _ => .ret _
    · exact .ret _
  have hattempts : ∀ n, Calm (readInodeAttempts ctx id off len n) := by
    intro n
    induction n with
    | zero => exact .fail _
    | succ n ih =>
      refine .bind calm_checkGeneration fun _ => .bind (.command rfl) fun d => ?_
      cases d with
      | none => exact .fail _
      | some i =>
        dsimp only
        split
        · exact .fail _
        refine .caught (hrange i) fun result => .bind (.command rfl) fun d => ?_
        cases d with
        | none => exact .fail _
        | some current =>
          dsimp only
          split
          · exact ih
          · exact .bind (.lift _) fun _ => .bind calm_checkGeneration fun _ => .ret _
  unfold readInodeAt
  split
  · exact .fail _
  · exact hattempts 16

end Ranges

/-- **Range reads never tear.** Whatever other clients do, a range read that answers returns the
range of one version that the inode had at some instant of the call. -/
theorem readInodeAt_untorn {w : World} (hw : WellFormed w) (hc : Contents w) {P Q : Clients}
    (hrun : Pool.Run Starts Exec (idle w) P) {i : ℕ} {ctx : Ctx} {id : Id} {off len : ℤ}
    {tr : List (Exchange sig World)} {bytes : Bytes}
    (hcall : Pool.Call Starts Exec i ctx P (readInodeAt ctx id off len).run tr (.ret (.ok bytes)) Q) :
    ∃ e ∈ tr, ∃ v, fileVersion e.before.toStore id = some v ∧ bytes = v.range off len := by
  have hproper : Track provenance (fun _ _ => True) [] (readInodeAt ctx id off len).run :=
    Track.mono (calm_readInodeAt id off len []) fun _ _ _ => trivial
  have hspaced := chronicle hw hc hrun hproper hcall
  have htr := hcall.trace
  unfold readInodeAt at htr
  split at htr
  · obtain ⟨-, hr⟩ := trace_ret htr
    cases hr
  · next hin => exact readInodeAttempts_range (by omega) (by omega) 16 hspaced htr

theorem contents_bareWorld : Contents bareWorld where
  stored id l hl := by cases hl
  staged t l hl := by cases hl
  drawn t ht := by cases ht
  inline id f b hf hb := by
    simp only [bareWorld] at hf
    split_ifs at hf
    cases hf
    cases hb

/-- While one client reads two bytes of `/f`, another one writes the file anew. -/
theorem readInodeAt_untorn_rewritten :
    ∃ P Q tr, Pool.Run Starts Exec (idle bareWorld) P ∧
      Pool.Call Starts Exec 1 {} P (readInodeAt {} 2 1 2).run tr (.ret (.ok [121, 122])) Q ∧
      ∃ e ∈ tr, ∃ v, fileVersion e.before.toStore 2 = some v ∧ [121, 122] = v.range 1 2 := by
  obtain ⟨threads, hslot⟩ := slot_requests [.echo [47, 102] [97, 98, 99]] 0 (idle bareWorld)
  have hfree : threads 1 = none := hslot.threads (by decide)
  obtain ⟨Q, hcall⟩ := call_between {} [[], [.echo [47, 102] [120, 121, 122]]]
    (readInodeAt {} 2 1 2).run (P := ⟨_, threads⟩) hfree
  have hbytes : (interleave (seqExec {}) (between [[], [.echo [47, 102] [120, 121, 122]]])
      (readInodeAt {} 2 1 2).run (runRequests bareWorld [.echo [47, 102] [97, 98, 99]])).2 =
        .ok [121, 122] := by decide +kernel
  rw [hbytes] at hcall
  exact ⟨_, Q, _, hslot.run, hcall, readInodeAt_untorn wellFormed_bareWorld contents_bareWorld
    hslot.run hcall⟩

/-! ## Whole files -/

/-- What a whole read must find to be right: when it reads a string or an inline field, the file is
there and has that form; when it looks at the revision of an Array, the file is there, or it is gone
and had a revision when the operation saw it. -/
def StillThere (h : Memory) (e : Exchange sig World) : Prop :=
  match e.cmd with
  | .getContent id => (fileVersion e.before.toStore id).map Version.ref = some (some .ext)
  | .getInline id => (fileVersion e.before.toStore id).map Version.ref = some none
  | .getRevision id => (fileVersion e.before.toStore id).isSome ∨
      e.before.inode id = none ∧ ∀ d, Seen h d → d.id = id → d.revision ≠ 0
  | _ => True

section Whole

variable {ctx : Ctx} {tr : List (Exchange sig World)} {bytes : Bytes} {h : Memory} {w : World}

/-- The inode a path leads to is one the operation has read. -/
theorem seen_of_resolved {p : Path} {follow : Bool} {q : Path} {d : InodeData}
    (hs : Pool.Spaced provenance Between Own h w tr)
    (htr : (resolvePath ctx p follow).run.Trace (Exec ctx) tr (.ok (q, d))) :
    Seen (provenance.after h tr) d :=
  (hs.sound (fun _ _ hown => hown.admissible) (proper_resolvePath p follow) htr (q, d) rfl).2

theorem catAttempts_published {p : Path} (n : ℕ) (hs : Pool.Spaced provenance Between Own h w tr)
    (htr : (catAttempts ctx p n).run.Trace (Exec ctx) tr (.ok bytes))
    (hthere : ∀ l e l', tr = l ++ e :: l' → StillThere (provenance.after h l) e) :
    ∃ t₀ t₁ t₂ q d, tr = t₀ ++ (t₁ ++ t₂) ∧
      (resolvePath ctx p true).run.Trace (Exec ctx) t₁ (.ok (q, d)) ∧
      ∃ e ∈ t₂, ∃ v, fileVersion e.before.toStore d.id = some v ∧ bytes = v.bytes := by
  induction n generalizing h w tr with
  | zero =>
    obtain ⟨-, hr⟩ := trace_ret htr
    cases hr
  | succ n ih =>
    obtain ⟨t₁, t, ⟨q, d⟩, rfl, hresolve, hrest⟩ := Trace.of_exceptBind htr
    have hseen := seen_of_resolved hs.take hresolve
    dsimp only at hrest
    by_cases hfile : d.type = .file
    · rw [if_neg (not_not.mpr hfile)] at hrest
      obtain ⟨t₂, t₃, result, rfl, hattempt, hcheck⟩ := Trace.of_exceptBind hrest
      obtain ⟨result, hresult, hload⟩ := trace_attempt hattempt
      cases hresult
      by_cases harray : d.contentRef = some .array
      · rw [if_pos harray] at hcheck
        obtain ⟨o, w₄, revision, w₅, t₄, rfl, heff, hlast⟩ := trace_callBind hcheck
        cases heff
        by_cases hrev : ((w₄.inode d.id).bind (·.revision)).getD 0 = d.revision
        · rw [if_neg (not_not.mpr hrev)] at hlast
          obtain ⟨rfl, rfl⟩ := trace_lift hlast
          obtain hsome | ⟨hnone, hseenrev⟩ := hthere (t₁ ++ t₂)
            ⟨w₄, .getRevision d.id, .ok ((w₄.inode d.id).bind (·.revision)), w₄⟩ [] (by simp)
          · obtain ⟨v, hv⟩ := isSome_iff_exists.mp hsome
            have hvrev : v.revision = d.revision := by
              obtain ⟨-, -, -, -, hr⟩ := node_of_version hv
              rw [← hr, Store.revision]
              exact hrev
            have hsame := steady_all hs hseen hv hvrev
            rw [← append_assoc] at hs
            have hseen₄ : Seen (provenance.after h (t₁ ++ t₂)) d := by
              rw [Monitor.after_append]
              exact hseen.mono (subset_after _ _)
            obtain ⟨-, href⟩ := hs.drop.1.same d hseen₄ v hv hvrev
            refine ⟨[], t₁, _, q, d, rfl, hresolve, _, mem_append_right t₂ mem_cons_self,
              v, hv, loadContentExternal_bytes hload hsame href⟩
          · refine absurd ?_ (hseenrev d ?_ rfl)
            · rw [← hrev]
              have hnone : w₄.inode d.id = none := hnone
              simp [hnone]
            · rw [Monitor.after_append]
              exact hseen.mono (subset_after _ _)
        · rw [if_pos hrev] at hlast
          generalize (⟨w₄, .getRevision d.id, .ok ((w₄.inode d.id).bind (·.revision)), w₄⟩ :
            Exchange sig World) = e₄ at hs hthere ⊢
          rw [← append_assoc] at hs hthere ⊢
          obtain ⟨t₀, t₅, t₆, q', d', rfl, hfound⟩ := ih hs.drop.2 hlast fun l e l' hl => by
            subst hl
            have hstill := hthere ((t₁ ++ t₂) ++ [e₄] ++ l) e l' (by simp)
            rwa [Monitor.after_append] at hstill
          exact ⟨(t₁ ++ t₂) ++ e₄ :: t₀, t₅, t₆, q', d', by simp, hfound⟩
      · rw [if_neg harray] at hcheck
        obtain ⟨rfl, rfl⟩ := trace_lift hcheck
        -- a single read, of a string or of the inline field
        obtain ⟨e, rfl, v, hv, href⟩ : ∃ e, t₂ = [e] ∧ ∃ v,
            fileVersion e.before.toStore d.id = some v ∧ v.ref = d.contentRef := by
          cases hr : d.contentRef with
          | none =>
            rw [hr] at hload
            obtain ⟨o, w₂, w₂', rfl, -⟩ := trace_effect (c := .getInline d.id) hload
            exact ⟨_, rfl, map_eq_some_iff.mp (hthere t₁ _ [] rfl)⟩
          | some ref =>
            cases ref with
            | ext =>
              rw [hr] at hload
              obtain ⟨o, w₂, w₂', rfl, -⟩ := trace_effect (c := .getContent d.id) hload
              exact ⟨_, rfl, map_eq_some_iff.mp (hthere t₁ _ [] rfl)⟩
            | array => exact absurd hr harray
        refine ⟨[], t₁, _, q, d, rfl, hresolve, e, by simp, v, hv, ?_⟩
        refine loadContentExternal_bytes hload (fun e' he' => ?_) href
        obtain rfl := mem_singleton.mp he'
        exact ⟨hv, hs.drop.1.contents⟩
    · rw [if_pos hfile] at hrest
      obtain ⟨-, hr⟩ := trace_ret hrest
      cases hr

theorem proper_cat (p : Bytes) : Fair h (cat ctx p) := by
  have hattempts : ∀ n h, Fair h (catAttempts ctx (normalizePath p) n) := by
    intro n
    induction n with
    | zero => exact fun _ => .fail
    | succ n ih =>
      refine fun h => .bind (proper_resolvePath _ _) fun h₁ ⟨_, d⟩ _ _ => ?_
      dsimp only
      split
      · exact .fail
      refine .caught ((solo_loadContentExternal d.id d.contentRef).calm.proper) (fun h₂ bytes _ _ => ?_)
        fun h₂ e _ => ?_
      · split
        · refine .after_calm (.command rfl) fun h₃ revision _ => ?_
          split
          · exact ih h₃
          · exact .ret trivial
        · exact .ret trivial
      · split
        · refine .after_calm (.command rfl) fun h₃ revision _ => ?_
          split
          · exact ih h₃
          · exact .fail
        · exact .fail
  exact hattempts 4 h

end Whole

/-- **Whole reads return published bytes** as long as the file stays there in the form in which it
was found: whatever other clients do, the bytes are the whole content of a version that the inode
the path led to had at some instant of the call. -/
theorem cat_published {w : World} (hw : WellFormed w) (hc : Contents w) {P Q : Clients}
    (hrun : Pool.Run Starts Exec (idle w) P) {i : ℕ} {ctx : Ctx} {p : Bytes}
    {tr : List (Exchange sig World)} {bytes : Bytes}
    (hcall : Pool.Call Starts Exec i ctx P (cat ctx p).run tr (.ret (.ok bytes)) Q)
    (hthere : ∀ l e l', tr = l ++ e :: l' → StillThere (provenance.after [] l) e) :
    ∃ t₀ t₁ t₂ q d, tr = t₀ ++ (t₁ ++ t₂) ∧
      (resolvePath ctx (normalizePath p) true).run.Trace (Exec ctx) t₁ (.ok (q, d)) ∧
      ∃ e ∈ t₂, ∃ v, fileVersion e.before.toStore d.id = some v ∧ bytes = v.bytes := by
  have hproper : Track provenance (fun _ _ => True) [] (cat ctx p).run :=
    Track.mono (proper_cat p) fun _ _ _ => trivial
  exact catAttempts_published 4 (chronicle hw hc hrun hproper hcall) hcall.trace hthere

/-- One client reads `/f` with another client acting just before the bytes are read. -/
def catWith (rs : List Request) : List (Exchange sig World) × Except Err Bytes :=
  interleave (seqExec {}) (between (List.replicate 10 [] ++ [rs])) (cat {} [47, 102]).run
    (runRequests bareWorld [.echo [47, 102] [97, 98, 99]])

theorem call_catWith (rs : List Request) : ∃ P Q, Pool.Run Starts Exec (idle bareWorld) P ∧
    Pool.Call Starts Exec 1 {} P (cat {} [47, 102]).run (catWith rs).1 (.ret (catWith rs).2) Q := by
  obtain ⟨threads, hslot⟩ := slot_requests [.echo [47, 102] [97, 98, 99]] 0 (idle bareWorld)
  have hfree : threads 1 = none := hslot.threads (by decide)
  obtain ⟨Q, hcall⟩ := call_between {} (List.replicate 10 [] ++ [rs]) (cat {} [47, 102]).run
    (P := ⟨_, threads⟩) hfree
  exact ⟨_, Q, hslot.run, hcall⟩

/-- The file is written anew before its bytes are read. -/
theorem cat_published_rewritten :
    ∃ t₀ t₁ t₂ q d, (catWith [.echo [47, 102] [120, 121]]).1 = t₀ ++ (t₁ ++ t₂) ∧
      (resolvePath {} (normalizePath [47, 102]) true).run.Trace (Exec {}) t₁ (.ok (q, d)) ∧
      ∃ e ∈ t₂, ∃ v, fileVersion e.before.toStore d.id = some v ∧ [120, 121] = v.bytes := by
  obtain ⟨P, Q, hrun, hcall⟩ := call_catWith [.echo [47, 102] [120, 121]]
  have hbytes : (catWith [.echo [47, 102] [120, 121]]).2 = .ok [120, 121] := by decide +kernel
  rw [hbytes] at hcall
  have hread : ∀ e ∈ (catWith [.echo [47, 102] [120, 121]]).1, (match e.cmd with
      | .getContent id => decide ((fileVersion e.before.toStore id).map Version.ref = some (some .ext))
      | .getInline _ | .getRevision _ => false
      | _ => true) = true := by decide +kernel
  refine cat_published wellFormed_bareWorld contents_bareWorld hrun hcall fun l e l' hl => ?_
  have he := hread e (by rw [hl]; simp)
  obtain ⟨before, c, r, after⟩ := e
  cases c with
  | getContent id =>
    have hext : (fileVersion before.toStore id).map Version.ref = some (some .ext) :=
      of_decide_eq_true he
    exact hext
  | getInline id => cases he
  | getRevision id => cases he
  | _ => trivial

/-- The command reads the string of inode `i`. -/
def Cmd.readsString (i : Id) : Cmd → Bool
  | .getContent id => id == i
  | _ => false

/-- **A file that is removed while it is read may appear empty.** `/f` holds three bytes until it is
removed, just before `Cat` reads the bytes of the inode it has found; `Cat` returns no bytes and no
error. -/
theorem cat_removed_empty : ∃ P Q, Pool.Run Starts Exec (idle bareWorld) P ∧
    Pool.Call Starts Exec 1 {} P (cat {} [47, 102]).run (catWith [.rm [47, 102]]).1 (.ret (.ok [])) Q ∧
    (∃ e ∈ (catWith [.rm [47, 102]]).1, e.cmd.readsString 2) ∧
    ∀ e ∈ (catWith [.rm [47, 102]]).1, (fileVersion e.before.toStore 2).map Version.bytes = none ∨
      (fileVersion e.before.toStore 2).map Version.bytes = some [97, 98, 99] := by
  obtain ⟨P, Q, hrun, hcall⟩ := call_catWith [.rm [47, 102]]
  have hbytes : (catWith [.rm [47, 102]]).2 = .ok [] := by decide +kernel
  rw [hbytes] at hcall
  exact ⟨P, Q, hrun, hcall, by decide +kernel, by decide +kernel⟩

/-! ## Paths, cached inodes and contents -/

variable {s : Store} {w : World} {P : Clients} {i : Id} {p q : Path}

theorem run_mkdir : ∃ threads, Pool.Run Starts Exec (idle bareWorld) ⟨oneDir, threads⟩ :=
  run_requests [.mkdir [47, 97] 0o755] _

/-- A way ends where it starts or through an entry. -/
theorem walk_iff : walk s p rootInodeID = some i ↔ p = [] ∧ i = rootInodeID ∨
    ∃ d n p', s.lookup d n = some i ∧ walk s p' rootInodeID = some d ∧ p = p' ++ [n] := by
  cases p using reverseRecOn with
  | nil => simp [walk, eq_comm (a := i)]
  | append_singleton p n => simp [walk_append, and_comm]

/-- The climb from an inode takes the one way to it back. -/
theorem inodePathAux_iff (h : (treeOf s).Linked rootInodeID) (hi : ∃ x, (treeOf s).node i = some x)
    (fuel : ℕ) (parts : Path) : inodePathAux s fuel i parts = some q ↔
      ∃ p, walk s p rootInodeID = some i ∧ p.length < fuel ∧ p ++ parts = q := by
  induction fuel generalizing i parts with
  | zero => simp [inodePathAux]
  | succ fuel ih =>
    by_cases hroot : i = rootInodeID
    · have hfree : ∀ d n, s.lookup d n ≠ some rootInodeID := fun d n => h.root_free (d, n)
      simp [inodePathAux, hroot, walk_iff (i := rootInodeID), hfree]
    · obtain ⟨x, hx⟩ := hi
      obtain ⟨⟨d, n⟩, hslot, hn⟩ := h.home i x hx hroot
      obtain ⟨hparent, hname⟩ := fields_of_slot hx hslot
      obtain ⟨y, hy, -⟩ := h.dirs _ _ hn
      have honly : ∀ d' n', s.lookup d' n' = some i ↔ d' = d ∧ n' = n := fun d' n' =>
        ⟨fun hn' => Prod.mk.inj (h.once (d', n') _ i hn' hn), by rintro ⟨rfl, rfl⟩; exact hn⟩
      simp [inodePathAux, hroot, hparent, hname, ih ⟨y, hy⟩, walk_iff (i := i), honly]

/-- **The path of an inode is the way to it.** The guarded `inodePathScript` returns the path along
which the root leads to the inode, if that has at most 4096 components, and no other. -/
theorem inodePath_iff (hw : WellFormed w) (hc : Contents w) (h : Pool.Run Starts Exec (idle w) P)
    {k : Kind} (hi : P.store.kind i = some k) (ctx : Ctx) (o : Choice) :
    (effect ctx o P.store (.inodePath i)).1 = .ok p ↔
      ¬ ctx.guard.fenced P.store.toStore ∧ ¬ ctx.guard.leaseLost P.store.toStore ∧
      (P.store.inode rootInodeID).isSome ∧
      walk P.store.toStore p rootInodeID = some i ∧ p.length ≤ 4096 := by
  obtain ⟨mem, ⟨-, hl, -⟩, -⟩ := sound_of_run hw hc h
  obtain ⟨x, hx, -⟩ := node_of_kind hi
  have haux := inodePathAux_iff (q := p) hl ⟨x, hx⟩ 4097 []
  simp only [effect]
  grind

theorem oneDir_inodePath : walk oneDir.toStore [[97]] rootInodeID = some 2 := by
  obtain ⟨threads, h⟩ := run_mkdir
  have hp : (effect {} {} oneDir (.inodePath 2)).1 = .ok [[97]] := by decide +kernel
  exact ((inodePath_iff wellFormed_bareWorld contents_bareWorld h rfl {} {}).mp hp).2.2.2.1

/-- **A revision names one version.** What a client has cached of an inode has its type, and at its
revision the size and form of its content. -/
theorem cached_coherent (hw : WellFormed w) (hc : Contents w) (h : Pool.Run Starts Exec (idle w) P)
    {e : Path × InodeData} (he : e ∈ P.store.cached) {d : InodeData}
    (hd : loadInodeByID P.store.toStore e.2.id = some d) :
    d.type = e.2.type ∧ (d.revision = e.2.revision → d.type = .file →
      d.size = e.2.size ∧ d.contentRef = e.2.contentRef) := by
  obtain ⟨mem, ⟨⟨L, hL⟩, -⟩, -⟩ := sound_of_run hw hc h
  obtain ⟨hid, hk⟩ := hL.shows.loaded hd
  have hk' := hL.shows.cached e he
  have htype : d.type = e.2.type := hL.coherent.kind _ hk _ hk' hid
  refine ⟨htype, fun hrev hfile => ?_⟩
  have hsize := hL.coherent.size _ hk _ hk' hid hrev
  have href := hL.coherent.ref _ hk _ hk' hid hrev
  simpa [claimOf, Claim.of, ← htype, hfile] using And.intro hsize href

theorem oneDir_cached_coherent : ∃ e ∈ oneDir.cached, e.2.id = 2 ∧ e.2.type = .dir := by
  obtain ⟨threads, h⟩ := run_mkdir
  have hmem : oneDir.cached[0] ∈ oneDir.cached := getElem_mem _
  exact ⟨_, hmem, rfl, (cached_coherent wellFormed_bareWorld contents_bareWorld h hmem rfl).1.symm⟩

/-- **Stored values stay in form**: chunks fit, what is staged has a token drawn before, and inline
content fits its file; and no revision or identity is ahead of its counter. -/
theorem contents_kept (hw : WellFormed w) (hc : Contents w) (h : Pool.Run Starts Exec (idle w) P) :
    Contents P.store ∧
    (∀ i t, (P.store.inode i).bind (·.revision) = some t → t ≤ P.store.tokens) ∧
    ∀ i k, P.store.kind i = some k → i ≤ P.store.nextInode.getD 0 := by
  obtain ⟨mem, ⟨⟨L, hL⟩, -, hc⟩, -⟩ := sound_of_run hw hc h
  refine ⟨hc, hL.shows.stored, fun i k hi => ?_⟩
  obtain ⟨x, hx, -⟩ := node_of_kind hi
  exact (hL.shows.number _ (hL.shows.node i x hx)).1

theorem oneDir_contents : Contents oneDir := by
  obtain ⟨threads, h⟩ := run_mkdir
  exact (contents_kept wellFormed_bareWorld contents_bareWorld h).1

end Afs.Client
