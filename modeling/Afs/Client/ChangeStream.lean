import Mathlib.Data.Prod.Lex
import Afs.Workspace.Path

/-!
# Reading the change stream

`ReadChangeStream` reads the entries after a cursor and then asks for the oldest entry left: if it
is newer than the cursor, the cursor was trimmed and entries may be missing. The identity of an
entry is a pair of numbers and the stream is ordered by it, but the client compares the texts.

A stream is kept here with all its past, so that what was trimmed can be spoken of.
-/

namespace Afs.Client

open List Option

/-- The identity of a stream entry: milliseconds, then a sequence number. -/
abbrev EntryId := ℕ ×ₗ ℕ

/-- An identity as Redis writes it. -/
def EntryId.text (i : EntryId) : List Char :=
  Nat.toDigits 10 (ofLex i).1 ++ '-' :: Nat.toDigits 10 (ofLex i).2

/-- `0-0`, which no entry has. -/
def EntryId.zero : EntryId := toLex (0, 0)

/-- An entry and its field `payload`. -/
structure StreamEntry where
  id : EntryId
  payload : Option Bytes

/-- A stream with all its past: the first `trimmed` entries of `log` are gone. -/
structure ChangeLog where
  log : List StreamEntry
  trimmed : ℕ
  sorted : log.Pairwise fun a b => a.id < b.id
  positive : ∀ e ∈ log, EntryId.zero < e.id
  /-- The newest entry is never trimmed. -/
  nonempty : trimmed < log.length

namespace ChangeLog

/-- The entries Redis has. -/
def entries (L : ChangeLog) : List StreamEntry := L.log.drop L.trimmed

/-- The entries that were trimmed. -/
def gone (L : ChangeLog) : List StreamEntry := L.log.take L.trimmed

/-- Others add entries and trim old ones. -/
def Later (L L' : ChangeLog) : Prop := L.log <+: L'.log ∧ L.trimmed ≤ L'.trimmed

end ChangeLog

/-- `XREAD` after an identity. -/
def xread (stream : List StreamEntry) (after : EntryId) (count : ℕ) : List StreamEntry :=
  (stream.filter fun e => after < e.id).take count

/-- How `ReadChangeStream` fails. -/
inductive StreamErr
  | command
  | streamTrimmed
  deriving DecidableEq

section Reading

variable {ε : Type} (decode : Bytes → Option ε)

/-- An entry whose payload can be decoded. -/
def changeStreamEntry (e : StreamEntry) : Option (EntryId × ε) :=
  (e.payload.bind decode).map fun ev => (e.id, ev)

/-- The number of entries asked for. -/
def streamCount (count : ℤ) : ℕ := if count ≤ 0 then 500 else count.toNat

/-- `ReadChangeStream`, where `first` is the stream `XREAD` meets and `second` the one `XRANGE`
meets; `none` is a command that fails. -/
def readChangeStream (lastID : Option EntryId) (count : ℤ) (first second : Option (List StreamEntry)) :
    Except StreamErr (List (EntryId × ε)) :=
  let lastID := lastID.getD .zero
  match first with
  | none => .error .command
  | some stream =>
    let messages := xread stream lastID (streamCount count)
    if lastID ≠ .zero ∧ messages ≠ [] ∧
        (second.bind List.head?).any (fun oldest => decide (lastID.text < oldest.id.text)) then
      .error .streamTrimmed
    else .ok (messages.filterMap (changeStreamEntry decode))

/-- Nothing after the cursor was trimmed before it was read, and `out` is what can be decoded of
the next entries. -/
def Gapless (L : ChangeLog) (c : EntryId) (count : ℤ) (out : List (EntryId × ε)) : Prop :=
  (∀ e ∈ L.gone, ¬ c < e.id) ∧
    out = (xread L.log c (streamCount count)).filterMap (changeStreamEntry decode)

variable {decode}

theorem streamCount_pos (count : ℤ) : 0 < streamCount count := by
  unfold streamCount
  split <;> omega

variable {L : ChangeLog}

/-- What is left is newer than what is gone. -/
theorem ChangeLog.gone_lt_entries {e e' : StreamEntry} (he : e ∈ L.gone)
    (he' : e' ∈ L.entries) : e.id < e'.id := by
  have hsorted := L.sorted
  rw [← take_append_drop L.trimmed L.log, pairwise_append] at hsorted
  exact hsorted.2.2 e he e' he'

theorem ChangeLog.entries_ne_nil (L : ChangeLog) : L.entries ≠ [] := by
  have := L.nonempty
  simp only [entries, ne_eq, drop_eq_nil_iff]
  omega

/-- Gone entries stay gone. -/
theorem ChangeLog.Later.gone_subset {L' : ChangeLog} (h : L.Later L') : L.gone ⊆ L'.gone := by
  obtain ⟨⟨t, ht⟩, hle⟩ := h
  have hlen := L.nonempty
  intro e he
  have htake : L.gone = L'.log.take L.trimmed := by
    rw [ChangeLog.gone, ← ht, take_append_of_le_length hlen.le]
  rw [htake] at he
  exact take_subset_take_left _ hle he

/-- Without a gap, reading what is left is reading the whole past. -/
theorem xread_entries {c : EntryId} (h : ∀ e ∈ L.gone, ¬ c < e.id) (n : ℕ) :
    xread L.entries c n = xread L.log c n := by
  have hgone : L.gone.filter (fun e => decide (c < e.id)) = [] := by
    simpa using h
  unfold xread
  conv_rhs => rw [← take_append_drop L.trimmed L.log, filter_append]
  rw [← ChangeLog.gone, hgone, nil_append, ChangeLog.entries]

/-- After a gap there is something to read. -/
theorem xread_ne_nil {c : EntryId} {e : StreamEntry} (he : e ∈ L.gone)
    (hc : c < e.id) {n : ℕ} (hn : 0 < n) : xread L.entries c n ≠ [] := by
  obtain ⟨e', he'⟩ := exists_mem_of_ne_nil _ L.entries_ne_nil
  have hread : e' ∈ L.entries.filter fun e => c < e.id :=
    mem_filter.mpr ⟨he', by simpa using hc.trans (L.gone_lt_entries he he')⟩
  have hlen := length_pos_of_mem hread
  rw [xread, ne_eq, take_eq_nil_iff, not_or]
  exact ⟨hn.ne', ne_nil_of_length_pos hlen⟩

/-- **When the gap check of `ReadChangeStream` is right.** The stream is `L` when it is read and
`L'` when its oldest entry is asked for; the cursor is an entry that was there once. -/
theorem readChangeStream_gapless_iff {L L' : ChangeLog} (hlater : L.Later L') {c : EntryId}
    (hc : ∃ e ∈ L.log, e.id = c) (count : ℤ) (answered : Bool) :
    (∀ out, readChangeStream decode (some c) count (some L.entries)
        (if answered then some L'.entries else none) = .ok out → Gapless decode L c count out) ↔
      (∀ e ∈ L.gone, ¬ c < e.id) ∨
        answered = true ∧ ∀ oldest ∈ L'.entries.head?, (c.text < oldest.id.text ↔ c < oldest.id) := by
  have hzero : c ≠ .zero := by
    obtain ⟨e, he, rfl⟩ := hc
    exact (L.positive e he).ne'
  by_cases hgap : ∀ e ∈ L.gone, ¬ c < e.id
  · refine iff_of_true (fun out hout => ⟨hgap, ?_⟩) (.inl hgap)
    simp only [readChangeStream, getD_some, xread_entries hgap] at hout
    obtain ⟨-, h⟩ := of_ite_eq_ok hout
    · exact (Except.ok.inj h).symm
  · rw [or_iff_right hgap]
    push Not at hgap
    obtain ⟨e, he, hlt⟩ := hgap
    have hread := xread_ne_nil he hlt (streamCount_pos count)
    obtain ⟨oldest, hold⟩ : ∃ oldest, L'.entries.head? = some oldest :=
      ⟨_, List.head?_eq_some_head L'.entries_ne_nil⟩
    have hnewer : c < oldest.id :=
      hlt.trans (L'.gone_lt_entries (hlater.gone_subset he) (mem_of_mem_head? hold))
    constructor
    · intro h
      by_contra hmiss
      refine (h _ (if_neg ?_)).1 e he hlt
      rintro ⟨-, -, hany⟩
      cases answered with
      | false => cases hany
      | true =>
        refine hmiss ⟨rfl, fun o ho => ?_⟩
        obtain rfl := Option.some.inj (hold.symm.trans ho)
        exact iff_of_true (by simpa [hold] using hany) hnewer
    · rintro ⟨rfl, htext⟩ out hout
      have hcaught : (Option.bind (some L'.entries) List.head?).any
          (fun o => decide (c.text < o.id.text)) = true := by
        simpa [hold] using (htext oldest hold).mpr hnewer
      simp only [readChangeStream, getD_some, if_true] at hout
      rw [if_pos ⟨hzero, hread, hcaught⟩] at hout
      cases hout

/-- Three entries of one millisecond, of which the last is left. -/
def burst : ChangeLog where
  log := [⟨toLex (5, 9), none⟩, ⟨toLex (5, 10), some [1]⟩, ⟨toLex (5, 11), some [2]⟩]
  trimmed := 2
  sorted := by decide
  positive := by decide
  nonempty := by decide

/-- The text of `5-9` is after that of `5-11`: the entry `5-10` is lost unnoticed. -/
theorem burst_gap_missed :
    readChangeStream some (some (toLex (5, 9))) 0 (some burst.entries) (some burst.entries) =
        .ok [(toLex (5, 11), [2])] ∧
      ∃ e ∈ burst.gone, (toLex (5, 9) : EntryId) < e.id := by
  decide +kernel

/-- From `5-10` on, the same stream is read without a gap. -/
theorem burst_gapless :
    (∃ e ∈ burst.log, e.id = toLex (5, 10)) ∧
      ∀ out, readChangeStream some (some (toLex (5, 10))) 0 (some burst.entries)
        (if true then some burst.entries else none) = .ok out →
        Gapless some burst (toLex (5, 10)) 0 out :=
  ⟨by decide, (readChangeStream_gapless_iff ⟨prefix_rfl, le_rfl⟩ (by decide) 0 true).mpr
    (.inl (by decide))⟩

end Reading

end Afs.Client
