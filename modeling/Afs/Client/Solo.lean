import Afs.Client.Request
import Afs.Foundations.Rely
import Afs.Workspace.ArrayContent

/-!
# Work of its own

The stretches of an operation that only read, or work on a private stage: the bytes of a file are
staged, read back and hashed. Each is gone through once, for the commands it issues. An observer
whom these commands leave alone is left alone by the whole stretch.
-/

namespace Afs.Client

open List

/-- No chunk the command stores is longer than a chunk may be. -/
def StageOp.Fits : StageOp → Prop
  | .arset _ values => ∀ v ∈ values, v.length ≤ arrayChunkBytes
  | _ => True

/-- The commands of such a stretch, with the stage they write to. -/
def Cmd.solo (o : Option Token) : Cmd → Prop
  | .stage t op => o = some t ∧ op.Fits
  | .loadInode _ | .loadInodeSize _ | .getInline _ | .contentExists _ | .getContent _
  | .getRange _ _ _ | .getChunks _ _ _ => True
  | _ => False

variable {α β : Type} {o : Option Token} {x : Op α} {f : α → Op β}

/-- The program issues no others. -/
def Solo (o : Option Token) (x : Op α) : Prop := Issues (S := sig) (Cmd.solo o) x

namespace Solo

theorem bind (hx : Solo o x) (hf : ∀ a, Solo o (f a)) : Solo o (x >>= f) :=
  OnlyE.bind hx fun a _ => hf a

theorem ret (a : α) : Solo o (pure a : Op α) := OnlyE.pure trivial

theorem fail (e : Err) : Solo o (throw e : Op α) := OnlyE.throw e

theorem lift (r : Except Err α) : Solo o (lift r) := fun _ _ => trivial

theorem command {c : Cmd} (hc : c.solo o) : Solo o (call c) := ⟨hc, fun _ _ _ => trivial⟩

theorem ite {b : Prop} [Decidable b] {y : Op α} (hx : Solo o x) (hy : Solo o y) :
    Solo o (if b then x else y) := by
  split
  · exact hx
  · exact hy

theorem onlyIf {b : Prop} [Decidable b] {x : Op Unit} (hx : Solo o x) : Solo o (onlyIf b x) :=
  ite hx (ret ())

theorem caught {k : Except Err α → Op β} (hx : Solo o x) (hk : ∀ r, Solo o (k r)) :
    Solo o (attempt x >>= k) :=
  bind (Prog.Only.bind hx fun _ _ _ _ => trivial) hk

end Solo

/-! ## Staging -/

/-- The value of a file that is empty but stored as an Array. -/
theorem fits_emptyArray : StageOp.Fits (.arset 0 [[]]) := by
  intro v hv
  rw [mem_singleton.mp hv]
  exact Nat.zero_le _

theorem solo_stageDo (t : Token) {op : StageOp} (hop : op.Fits) : Solo (some t) (stageDo t op) :=
  .bind (.command ⟨rfl, hop⟩) fun _ => .ret _

variable {payload : Bytes} {t : Token}

theorem solo_writeArrayRange {off : ℕ} : Solo (some t) (writeArrayRange t off payload) := by
  unfold writeArrayRange
  split
  · exact .ret _
  · refine .bind (.command ⟨rfl, trivial⟩) fun existing => solo_stageDo t fun v hv => ?_
    obtain ⟨i, hi, rfl⟩ := mem_mapIdx.mp hv
    exact length_patchChunk_le _ _ _ _

theorem solo_trimChunk (t : Token) {index tail : ℕ} (htail : tail ≤ arrayChunkBytes) :
    Solo (some t) (trimChunk t index tail) := by
  refine .bind (.command ⟨rfl, trivial⟩) fun r => ?_
  split
  · refine solo_stageDo t fun v hv => ?_
    rw [mem_singleton.mp hv]
    exact (length_take_le _ _).trans htail
  · exact .ret _

variable {chunkSize newSize : ℕ}

theorem solo_truncateArray {oldSize : ℕ} : Solo (some t) (truncateArray t oldSize newSize) := by
  have htail : newSize % arrayChunkBytes ≤ arrayChunkBytes :=
    (Nat.mod_lt _ arrayChunkBytes_pos).le
  unfold truncateArray
  split_ifs
  · exact .ret _
  · exact solo_stageDo t trivial
  · exact .bind (.onlyIf (solo_trimChunk t htail)) fun _ => .onlyIf (solo_stageDo t trivial)

theorem solo_loadContentExternal (id : Id) (ref : Option ContentRef) :
    Solo o (loadContentExternal id ref) := by
  have hbatches : ∀ size l buf, Solo o (loadArrayBatches id size l buf) := by
    intro size l
    induction l with
    | nil => exact fun _ => .ret _
    | cons batch rest ih => exact fun _ => .bind (.command trivial) fun _ => ih _
  unfold loadContentExternal
  split
  · exact .command trivial
  · exact .bind (.command trivial) fun _ => hbatches _ _ _
  · exact .command trivial

theorem solo_loadContentIf {b : Prop} [Decidable b] (i : InodeData) :
    Solo o (if b then loadContentExternal i.id i.contentRef else pure [] : Op Bytes) :=
  .ite (solo_loadContentExternal _ _) (.ret _)

theorem solo_rangeStageError (i : InodeData) {x : Op α} (hx : Solo (some t) x) :
    Solo (some t) (rangeStageError i x) := by
  refine .caught hx fun r => ?_
  split
  · refine .caught (.command trivial) fun r => ?_
    split
    · exact .fail _
    · exact .ite (.fail _) (.fail _)
    · exact .fail _
  · exact .lift _

variable {ref : ContentRef} {i : InodeData}

theorem solo_stageOldBytes : Solo (some t) (stageOldBytes t i ref) := by
  unfold stageOldBytes
  split
  · refine .bind (.command ⟨rfl, trivial⟩) fun r => ?_
    split
    · exact .ret _
    · exact .fail _
  · refine .bind ?_ fun content => solo_stageDo t ?_
    · split
      · exact solo_rangeStageError i (solo_loadContentExternal _ _)
      · exact .ret _
    · split
      · exact fits_emptyArray
      · exact trivial

theorem solo_stageNewBytes {off : ℕ} :
    Solo (some t) (stageNewBytes t i ref payload off newSize) := by
  unfold stageNewBytes
  split
  · exact .bind (solo_rangeStageError i solo_writeArrayRange) fun _ =>
      .onlyIf solo_truncateArray
  · refine .bind (.onlyIf (solo_rangeStageError i (solo_stageDo t trivial))) fun _ => ?_
    split
    · exact solo_stageDo t trivial
    · exact .onlyIf (solo_stageDo t trivial)

theorem solo_writeChunksTo {l : Chunks} : Solo (some t) (writeChunksTo t ref chunkSize l) := by
  induction l with
  | nil => exact .ret _
  | cons e rest ih =>
    obtain ⟨idx, data⟩ := e
    unfold writeChunksTo
    split
    · exact .fail _
    · refine .bind ?_ fun _ => ih
      unfold writeChunk
      split
      · exact solo_writeArrayRange
      · exact solo_stageDo t trivial

variable {chunks : Chunks}

theorem solo_stageChunks {creating : Bool} {original : InodeData} :
    Solo (some t) (stageChunks t creating original ref chunks chunkSize newSize) := by
  refine .bind ?_ fun _ => .bind (.onlyIf (solo_stageDo t fits_emptyArray)) fun _ =>
    .bind solo_writeChunksTo fun _ => .bind (.onlyIf ?_) fun _ => solo_stageDo t ?_
  · unfold stageChunkBase
    split
    · exact solo_stageDo t trivial
    · refine .bind ?_ fun _ => solo_stageDo t trivial
      split
      · exact .ret _
      · exact solo_loadContentExternal _ _
  · split
    · exact solo_truncateArray
    · exact solo_stageDo t trivial
  · split <;> exact trivial

/-! ## Reading -/

variable {id : Id} {size off : ℤ}

theorem solo_readRange {count : ℤ} : Solo o (readRange id ref size off count) := by
  unfold readRange
  split
  · exact .ret _
  split
  · exact .fail _
  dsimp only
  split
  · exact .command trivial
  · exact .bind (.command trivial) fun _ => .ret _

theorem solo_hashLive : Solo o (hashLive id ref size) := by
  have hpresent : ∀ failure, Solo o (contentPresent id size failure) := by
    intro failure
    refine .onlyIf (.bind (.command trivial) fun found => ?_)
    split
    · exact .ret _
    · exact .fail _
  have hbatches : ∀ l acc, Solo o (hashBatches id ref size.toNat l acc) := by
    intro l
    induction l with
    | nil => exact fun _ => .ret _
    | cons k rest ih =>
      refine fun acc => .bind solo_readRange fun data => ?_
      split
      · exact .fail _
      · exact ih _
  unfold hashLive
  split
  · exact .fail _
  · exact .bind (hpresent _) fun _ => .bind (hbatches _ _) fun _ => .bind (hpresent _) fun _ =>
      .ret _

theorem solo_restoreBeforeHash {before : Option InodeData} :
    Solo o (restoreBeforeHash before) := by
  unfold restoreBeforeHash
  split
  · refine .ite ?_ (.ret _)
    split
    · exact solo_hashLive
    · exact .ret _
  · exact .ret _

end Afs.Client
