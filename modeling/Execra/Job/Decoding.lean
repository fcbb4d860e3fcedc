import Execra.Job.Sinks
import Execra.Model.Reader
import Mathlib.Logic.Function.Iterate

/-!
The lines that come out of `next_line`, whatever the chunks are that the bytes come in.
A call takes the bytes up to the next line feed, or all that is left; what is left for
the calls after it depends on the bytes only, and so does what they return.
-/

namespace Execra

/-- The bytes that the reader has and will have, if no read fails. -/
def BufReader.Holds (reader : BufReader) (bytes : List UInt8) : Prop :=
  ∃ chunks : List Chunk, reader.coming = chunks.map .ok ∧
    reader.buffered ++ chunks.flatMap Chunk.bytes = bytes

/-- The reader before anything was read. -/
def BufReader.over (chunks : List Chunk) : BufReader := { coming := chunks.map .ok }

/-- What the call after `k` others returns. -/
def lineAt (reader : BufReader) (k : Nat) : Option (Except IoError String) :=
  (nextLine ((fun lines => (nextLine lines).2)^[k] (some reader))).1

/-- What `read_until` returns from some bytes, and which it leaves. -/
inductive ReadsUntil (delim : UInt8) (bytes : List UInt8) :
    Except IoError (List UInt8) × BufReader → Prop where
  | found (next) (hdelim : delim ∈ bytes) (hnext : next.Holds (Lines.afterDelim delim bytes)) :
      ReadsUntil delim bytes (.ok (Lines.beforeDelim delim bytes ++ [delim]), next)
  | ended (next) (hdelim : delim ∉ bytes) (hnext : next.Holds []) :
      ReadsUntil delim bytes (.ok bytes, next)

variable {delim : UInt8} {bytes : List UInt8} {reader : BufReader}

/-- The delimiter is in the buffer. -/
theorem readUntilFrom_found {held buffered : List UInt8} (hheld : delim ∉ held)
    (hdelim : delim ∈ buffered) (chunks : List Chunk) :
    ReadsUntil delim (held ++ (buffered ++ chunks.flatMap Chunk.bytes))
      (readUntilFrom delim held buffered (chunks.map .ok)) := by
  have hbefore : Lines.beforeDelim delim (held ++ (buffered ++ chunks.flatMap Chunk.bytes)) =
      held ++ Lines.beforeDelim delim buffered := by
    rw [Lines.beforeDelim_append_of_not_mem hheld, Lines.beforeDelim_append_of_mem hdelim]
  have hafter : Lines.afterDelim delim (held ++ (buffered ++ chunks.flatMap Chunk.bytes)) =
      Lines.afterDelim delim buffered ++ chunks.flatMap Chunk.bytes := by
    rw [Lines.afterDelim_append_of_not_mem hheld, Lines.afterDelim_append_of_mem hdelim]
  unfold readUntilFrom
  rw [if_pos hdelim, ← hbefore]
  apply ReadsUntil.found
  · exact List.mem_append_right _ (List.mem_append_left _ hdelim)
  · exact ⟨chunks, rfl, hafter.symm⟩

/-- The loop from its middle: it has found no delimiter so far. -/
theorem readUntilFrom_reads {held : List UInt8} (hheld : delim ∉ held) (buffered : List UInt8)
    (chunks : List Chunk) :
    ReadsUntil delim (held ++ (buffered ++ chunks.flatMap Chunk.bytes))
      (readUntilFrom delim held buffered (chunks.map .ok)) := by
  induction chunks generalizing held buffered with
  | nil =>
      by_cases hdelim : delim ∈ buffered
      · exact readUntilFrom_found hheld hdelim []
      · unfold readUntilFrom
        rw [if_neg hdelim, List.flatMap_nil, List.append_nil]
        apply ReadsUntil.ended
        · rw [List.mem_append, not_or]
          exact ⟨hheld, hdelim⟩
        · exact ⟨[], rfl, rfl⟩
  | cons chunk chunks ih =>
      by_cases hdelim : delim ∈ buffered
      · exact readUntilFrom_found hheld hdelim (chunk :: chunks)
      · unfold readUntilFrom
        rw [if_neg hdelim]
        have hopen : delim ∉ held ++ buffered := by
          rw [List.mem_append, not_or]
          exact ⟨hheld, hdelim⟩
        have hrest := ih hopen chunk.bytes
        rw [List.append_assoc] at hrest
        exact hrest

theorem BufReader.Holds.readUntil (h : reader.Holds bytes) :
    ReadsUntil delim bytes (reader.readUntil delim) := by
  obtain ⟨chunks, hcoming, rfl⟩ := h
  unfold BufReader.readUntil
  rw [hcoming]
  exact readUntilFrom_reads List.not_mem_nil reader.buffered chunks

/-- What a call of `next_line` returns from some bytes, and which it leaves. -/
inductive NextLine (bytes : List UInt8) : Option (Except IoError String) × Option BufReader →
    Prop where
  | line (next) (hline : newline ∈ bytes) (hnext : next.Holds (Lines.afterDelim newline bytes)) :
      NextLine bytes (some (.ok (pieceText (Lines.beforeDelim newline bytes))), some next)
  | rest (next) (hrest : newline ∉ bytes) (hsome : bytes ≠ []) (hnext : next.Holds []) :
      NextLine bytes (some (.ok (pieceText bytes)), some next)
  | done (next) (hnone : bytes = []) (hnext : next.Holds []) : NextLine bytes (none, some next)

theorem BufReader.Holds.call (h : reader.Holds bytes) :
    NextLine bytes (nextLine (some reader)) := by
  have hreads : ReadsUntil newline bytes (reader.readUntil newline) := h.readUntil
  unfold nextLine
  simp only
  generalize reader.readUntil newline = read at hreads ⊢
  cases hreads with
  | found next hline hnext =>
      simp only [List.length_append, List.length_singleton, Nat.add_one_ne_zero, if_false,
        lineText_terminated]
      exact .line next hline hnext
  | ended next hrest hnext =>
      by_cases hnone : bytes = []
      · simp only [hnone, List.length_nil, if_true]
        exact .done next rfl hnext
      · simp only [List.length_eq_zero_iff, hnone, if_false, lineText_unterminated bytes hrest]
        exact .rest next hrest hnone hnext

/-! All calls. -/

/-- A call takes the first of the lines, and leaves the others. -/
theorem NextLine.reference {answered : Option (Except IoError String) × Option BufReader}
    (h : NextLine bytes answered) : ∃ next later, answered.2 = some next ∧ next.Holds later ∧
      answered.1 = (referenceLines bytes).head?.map .ok ∧
      referenceLines later = (referenceLines bytes).tail := by
  cases h with
  | line next hline hnext =>
      have hpieces : referenceLines bytes =
          pieceText (Lines.beforeDelim newline bytes) ::
            referenceLines (Lines.afterDelim newline bytes) := by
        unfold referenceLines
        nth_rewrite 1 [← Lines.beforeDelim_append_afterDelim bytes hline]
        rw [Lines.pieces_terminated _ _ (Lines.not_mem_beforeDelim bytes), List.map_cons]
      rw [hpieces]
      exact ⟨next, _, rfl, hnext, rfl, rfl⟩
  | rest next hrest hsome hnext =>
      have hpieces : referenceLines bytes = [pieceText bytes] := by
        unfold referenceLines
        rw [Lines.pieces_unterminated bytes hrest hsome, List.map_singleton]
      rw [hpieces]
      exact ⟨next, [], rfl, hnext, rfl, rfl⟩
  | done next hnone hnext =>
      rw [hnone]
      exact ⟨next, [], rfl, hnext, rfl, rfl⟩

/-- The calls return the lines of the bytes, one after the other. -/
theorem BufReader.Holds.lines (h : reader.Holds bytes) (k : Nat) :
    lineAt reader k = (referenceLines bytes)[k]?.map .ok := by
  induction k generalizing reader bytes with
  | zero =>
      obtain ⟨next, later, -, -, hline, -⟩ := h.call.reference
      rw [← List.head?_eq_getElem?, ← hline]
      rfl
  | succ k ih =>
      obtain ⟨next, later, hnext, hholds, -, hlater⟩ := h.call.reference
      unfold lineAt
      rw [Function.iterate_succ_apply, hnext, ← List.getElem?_tail, ← hlater]
      exact ih hholds

/-- A call gives what a poll gives of a pipe that has the same bytes and is closed. -/
theorem BufReader.Holds.poll (h : reader.Holds bytes) :
    (Pipe.nextLine { avail := bytes, fin := some .eof }).1 = some (nextLine (some reader)).1 := by
  have hpoll := Pipe.nextLine_poll { avail := bytes, fin := some .eof }
  have hcall := h.call
  generalize nextLine (some reader) = answered at hcall ⊢
  generalize Pipe.nextLine { avail := bytes, fin := some .eof } = polled at hpoll ⊢
  obtain ⟨result, pipe⟩ := polled
  cases hcall with
  | line next hline =>
      cases hpoll with
      | terminated => rfl
      | unterminated _ hnone | pending _ hnone => exact absurd hline hnone
      | eof _ _ hnone =>
          cases hnone
          cases hline
      | failed _ error hfail => cases hfail
  | rest next hrest hsome =>
      cases hpoll with
      | terminated _ hline => exact absurd hline hrest
      | unterminated => rfl
      | pending _ _ hopen => cases hopen
      | eof _ _ hnone => exact absurd hnone hsome
      | failed _ error hfail => cases hfail
  | done next hnone =>
      cases hpoll with
      | terminated _ hline =>
          rw [hnone] at hline
          cases hline
      | unterminated _ _ _ hsome => exact absurd hnone hsome
      | pending _ _ hopen => cases hopen
      | eof => rfl
      | failed _ error hfail => cases hfail

/-- However the bytes are cut into chunks, the calls of `next_line` return the pieces
between the line feeds, and what follows the last of these if there is something; and
nothing from then on. -/
theorem next_line_decodes (chunks : List Chunk) :
    let bytes := chunks.flatMap Chunk.bytes
    let reader := BufReader.over chunks
    ∃ pieces rest, bytes = pieces.flatMap (fun piece => piece ++ [newline]) ++ rest ∧
      (∀ piece ∈ pieces, newline ∉ piece) ∧ newline ∉ rest ∧
      (∀ k, lineAt reader k =
        ((pieces ++ if rest = [] then [] else [rest]).map pieceText)[k]?.map .ok) ∧
      (∀ k, (lineAt reader k).isSome = true ↔
        k < bytes.count newline + if rest = [] then 0 else 1) ∧
      ∀ k text, lineAt reader k = some (.ok text) → '\n' ∉ text.toList := by
  intro bytes reader
  have hholds : reader.Holds bytes := ⟨chunks, rfl, List.nil_append _⟩
  obtain ⟨pieces, rest, hbytes, hopen, hrest, hpieces⟩ := Lines.exists_terminated newline bytes
  have hlines : ∀ k, lineAt reader k =
      ((pieces ++ if rest = [] then [] else [rest]).map pieceText)[k]?.map .ok := by
    intro k
    rw [hholds.lines, referenceLines, hpieces]
  refine ⟨pieces, rest, hbytes, hopen, hrest, hlines, fun k => ?_, fun k text htext => ?_⟩
  · have hcount : bytes.count newline = pieces.length := by
      rw [hbytes, Lines.length_terminated hopen hrest]
    rw [hlines, Option.isSome_map, Option.isSome_iff_ne_none, ne_eq, List.getElem?_eq_none_iff,
      not_le, List.length_map, List.length_append, hcount]
    split <;> rfl
  · rw [hlines] at htext
    obtain ⟨line, hline, hsame⟩ := Option.map_eq_some_iff.mp htext
    cases hsame
    obtain ⟨piece, hpiece, rfl⟩ := List.mem_map.mp (List.mem_of_getElem? hline)
    apply pieceText_lineFeed
    rcases List.mem_append.mp hpiece with hfull | hlast
    · exact hopen piece hfull
    · split at hlast
      · cases hlast
      · rw [List.mem_singleton.mp hlast]
        exact hrest

end Execra
