import Execra.Foundation.Lines
import Execra.Foundation.Utf8
import Execra.Model.Data

/-!
The read side of one of the child's pipes, as the select loop of the driver
sees it: a `BufReader` polled through a `next_line` future. `read_until` moves
bytes out of the reader into the buffer of the future as they arrive, so a
pending future owns the bytes of an unfinished line, and dropping the future
drops those bytes.
-/

namespace Execra

/-- `std::io::Error`, reduced to its text. -/
structure IoError where
  text : String
deriving DecidableEq, Repr

/-- How a pipe stops delivering bytes. -/
inductive PipeEnd where
  | eof
  | failed (error : IoError)
deriving DecidableEq, Repr

def newline : UInt8 := 0x0A

def carriageReturn : UInt8 := 0x0D

/-- `if bytes.ends_with([b]) { bytes.pop(); }` -/
def popIfEndsWith (b : UInt8) (bytes : List UInt8) : List UInt8 :=
  if bytes.getLast? = some b then bytes.dropLast else bytes

/-- What `next_line` makes of the bytes `read_until` returned. -/
def lineText (bytes : List UInt8) : String :=
  Utf8.fromUtf8Lossy (popIfEndsWith carriageReturn (popIfEndsWith newline bytes))

/-- One of the child's output pipes. `held` is the buffer of the pending
`next_line` future, `avail` the bytes that can be read without waiting,
`fin` how the pipe ended once its write side is gone. A pending future never
holds a newline, since it would have completed there. -/
structure Pipe where
  held : List UInt8 := []
  avail : List UInt8 := []
  fin : Option PipeEnd := none
  heldOpen : newline ∉ held := by exact List.not_mem_nil

/-- The child's bytes become readable. -/
def Pipe.arrive (p : Pipe) (bytes : List UInt8) : Pipe :=
  { p with avail := p.avail ++ bytes }

/-- The write side closes, or reading starts to fail. -/
def Pipe.close (p : Pipe) (how : PipeEnd) : Pipe := { p with fin := some how }

/-- The pending future is dropped, and a new one starts with an empty buffer. -/
def Pipe.dropFuture (p : Pipe) : Pipe := { p with held := [], heldOpen := List.not_mem_nil }

/-- One poll of `reader.read_until(b'\n', &mut bytes)`: `none` is pending. -/
def Pipe.readUntil (p : Pipe) : Option (Except IoError (List UInt8)) × Pipe :=
  if h : newline ∈ p.avail then
    (some (.ok (p.held ++ Lines.beforeDelim newline p.avail ++ [newline])),
      { p with
        held := []
        avail := Lines.afterDelim newline p.avail
        heldOpen := List.not_mem_nil })
  else
    let bytes := p.held ++ p.avail
    match p.fin with
    | none =>
        (none, { p with held := bytes, avail := [], heldOpen := by simp [bytes, h, p.heldOpen] })
    | some .eof =>
        (some (.ok bytes), { p with held := [], avail := [], heldOpen := List.not_mem_nil })
    | some (.failed e) =>
        (some (.error e), { p with held := [], avail := [], heldOpen := List.not_mem_nil })

/-- One poll of `next_line(Some(reader))`. A ready future yields `none` at end
of file, and otherwise a line or the read error. -/
def Pipe.nextLine (p : Pipe) : Option (Option (Except IoError String)) × Pipe :=
  let (r, p') := p.readUntil
  match r with
  | none => (none, p')
  | some (.ok bytes) =>
      if bytes.length = 0 then (some none, p') else (some (some (.ok (lineText bytes))), p')
  | some (.error e) => (some (some (.error e)), p')

/-- The text of a piece whose newline is gone: one trailing `'\r'` is removed
and the rest is decoded. -/
def pieceText (piece : List UInt8) : String :=
  Utf8.fromUtf8Lossy (popIfEndsWith carriageReturn piece)

/-- The reference: a whole byte sequence split at `'\n'`, each piece decoded. -/
def referenceLines (bytes : List UInt8) : List String :=
  (Lines.pieces newline bytes).map pieceText

theorem lineText_terminated (piece : List UInt8) :
    lineText (piece ++ [newline]) = pieceText piece := by
  simp [lineText, pieceText, popIfEndsWith]

theorem lineText_unterminated (piece : List UInt8) (h : newline ∉ piece) :
    lineText piece = pieceText piece := by
  have hlast : piece.getLast? ≠ some newline := by
    intro hl
    exact h (List.mem_of_getLast? hl)
  have hpop : popIfEndsWith newline piece = piece := if_neg hlast
  rw [lineText, pieceText, hpop]

/-- What one poll of `next_line` does, by cases: the result and the pipe it
leaves. -/
inductive Pipe.Poll (p : Pipe) : Option (Option (Except IoError String)) → Pipe → Prop where
  | terminated (q : Pipe) (hline : newline ∈ p.avail) (hheld : q.held = [])
      (havail : q.avail = Lines.afterDelim newline p.avail) (hfin : q.fin = p.fin) :
      Poll p (some (some (.ok (pieceText (p.held ++ Lines.beforeDelim newline p.avail))))) q
  | pending (q : Pipe) (hline : newline ∉ p.avail) (hopen : p.fin = none)
      (hheld : q.held = p.held ++ p.avail) (havail : q.avail = []) (hfin : q.fin = p.fin) :
      Poll p none q
  | unterminated (q : Pipe) (hline : newline ∉ p.avail) (heof : p.fin = some .eof)
      (hrest : p.held ++ p.avail ≠ []) (hheld : q.held = []) (havail : q.avail = [])
      (hfin : q.fin = p.fin) :
      Poll p (some (some (.ok (pieceText (p.held ++ p.avail))))) q
  | eof (q : Pipe) (heof : p.fin = some .eof) (hrest : p.held ++ p.avail = [])
      (hheld : q.held = []) (havail : q.avail = []) (hfin : q.fin = p.fin) :
      Poll p (some none) q
  | failed (q : Pipe) (error) (hfail : p.fin = some (.failed error)) (hheld : q.held = [])
      (havail : q.avail = []) (hfin : q.fin = p.fin) :
      Poll p (some (some (.error error))) q

theorem Pipe.nextLine_poll (p : Pipe) : p.Poll p.nextLine.1 p.nextLine.2 := by
  by_cases hline : newline ∈ p.avail
  · have htext : lineText (p.held ++ Lines.beforeDelim newline p.avail ++ [newline]) =
        pieceText (p.held ++ Lines.beforeDelim newline p.avail) := lineText_terminated _
    have hpoll := Poll.terminated (p := p) p.nextLine.2 hline
      (by simp [nextLine, readUntil, hline]) (by simp [nextLine, readUntil, hline])
      (by simp [nextLine, readUntil, hline])
    rw [← htext] at hpoll
    simpa [nextLine, readUntil, hline] using hpoll
  · have hopen : newline ∉ p.held ++ p.avail := by simp [hline, p.heldOpen]
    rcases hfin : p.fin with _ | _ | error
    · simp only [nextLine, readUntil, hline, hfin, ↓reduceDIte]
      exact .pending _ hline hfin rfl rfl hfin.symm
    · by_cases hrest : p.held ++ p.avail = []
      · simp only [nextLine, readUntil, hline, hfin, hrest, ↓reduceDIte, List.length_nil,
          ↓reduceIte]
        exact .eof _ hfin hrest rfl rfl hfin.symm
      · have hlen : (p.held ++ p.avail).length ≠ 0 := by simpa using hrest
        simp only [nextLine, readUntil, hline, hfin, hlen, ↓reduceDIte, ↓reduceIte,
          lineText_unterminated _ hopen]
        exact .unterminated _ hline hfin hrest rfl rfl hfin.symm
    · simp only [nextLine, readUntil, hline, hfin, ↓reduceDIte]
      exact .failed _ error hfin rfl rfl hfin.symm

@[simp] theorem Pipe.dropFuture_avail (p : Pipe) : p.dropFuture.avail = p.avail := rfl

@[simp] theorem Pipe.dropFuture_held (p : Pipe) : p.dropFuture.held = [] := rfl

@[simp] theorem Pipe.dropFuture_fin (p : Pipe) : p.dropFuture.fin = p.fin := rfl

end Execra
