import Execra.Model.Pipe

/-!
`next_line` of the driver on a reader that is not shared with anything: every call runs
to its completion. What the child writes comes in chunks, one for each read of the pipe,
and the reader keeps what it has read and not handed on.
-/

namespace Execra

/-- The bytes of one read. A read without bytes is the end of the stream. -/
structure Chunk where
  bytes : List UInt8
  nonempty : bytes ≠ []

/-- A `BufReader`: the bytes in its buffer, and the reads of the pipe that are to come,
the end of the stream after the last of them. -/
structure BufReader where
  buffered : List UInt8 := []
  coming : List (Except IoError Chunk)

/-- The loop of `read_until`: `bytes` has what was read so far. The buffer is searched for
the delimiter and handed on up to it, or wholly, and is then filled by the next read. -/
def readUntilFrom (delim : UInt8) (bytes buffered : List UInt8)
    (coming : List (Except IoError Chunk)) : Except IoError (List UInt8) × BufReader :=
  if delim ∈ buffered then
    (.ok (bytes ++ Lines.beforeDelim delim buffered ++ [delim]),
      { buffered := Lines.afterDelim delim buffered, coming })
  else match coming with
    | [] => (.ok (bytes ++ buffered), { coming := [] })
    | .ok chunk :: coming => readUntilFrom delim (bytes ++ buffered) chunk.bytes coming
    | .error error :: coming => (.error error, { coming })

def BufReader.readUntil (reader : BufReader) (delim : UInt8) :
    Except IoError (List UInt8) × BufReader :=
  readUntilFrom delim [] reader.buffered reader.coming

/-- `next_line` -/
def nextLine : Option BufReader → Option (Except IoError String) × Option BufReader
  | some reader =>
      match reader.readUntil newline with
      | (.ok bytes, reader) =>
          if bytes.length = 0 then (none, some reader)
          else (some (.ok (lineText bytes)), some reader)
      | (.error error, reader) => (some (.error error), some reader)
  | none => (none, none)

end Execra
