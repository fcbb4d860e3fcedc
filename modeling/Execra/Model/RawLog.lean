import Execra.Model.Driver

/-!
The raw log of a job on disk. `finalize_raw_log` (`raw_output.rs`) compresses the log
into a second file and removes it; `logs` (`main.rs` of the command line) reads
whichever of the two files it finds. Each call of `finalize_raw_log` to the file system
is a step, and any of them may fail; a process that dies has taken no step after that.
`flate2` is a parameter.
-/

namespace Execra

def utf8Bytes (text : String) : List UInt8 := text.toUTF8.data.toList

/-- `read_to_string` -/
def readToString (bytes : List UInt8) : Option String := String.fromUTF8? bytes.toByteArray

/-- `<job>.log` and `<job>.log.gz` -/
structure LogFiles where
  plain : Option (List UInt8)
  gz : Option (List UInt8)
deriving DecidableEq

/-- `flate2`: an encoder that writes to a file as it goes, and the decoder. What the
encoder appends to its file comes first in the results of `write` and `finish`. -/
structure Gzip where
  Encoder : Type
  new : Encoder
  write : Encoder → List UInt8 → List UInt8 × Encoder
  finish : Encoder → List UInt8
  decode : List UInt8 → Option (List UInt8)

namespace LogFiles

def appendGz (files : LogFiles) (written : List UInt8) : LogFiles :=
  { files with gz := files.gz.map (· ++ written) }

/-- `logs`: what is printed, unless it ends in an error. -/
def logs (gzip : Gzip) (files : LogFiles) : Option String :=
  match files.plain, files.gz with
  | some bytes, _ => readToString bytes
  | none, some bytes => (gzip.decode bytes).bind readToString
  | none, none => none

end LogFiles

/-- The next call to the file system. The input is read from the file that was opened,
and `rest` is what has not been read yet. -/
inductive ArchiveStage (gzip : Gzip) where
  | opening
  | creating (input : List UInt8)
  | copying (rest : List UInt8) (encoder : gzip.Encoder)
  | finishing (encoder : gzip.Encoder)
  | removing
  | ended

structure Archive (gzip : Gzip) where
  files : LogFiles
  stage : ArchiveStage gzip

inductive ArchiveLabel where
  /-- The call succeeds. -/
  | succeed
  /-- The next bytes of the input are read and written to the encoder. -/
  | copy (n : Nat)
  /-- The call fails. The encoder may have written something by then, and when it is
  dropped. -/
  | fail (written : List UInt8)
deriving DecidableEq

def ArchiveLabel.fails : ArchiveLabel → Bool
  | .fail _ => true
  | _ => false

namespace Archive

variable {gzip : Gzip}

/-- `finalize_raw_log`, once the log is flushed and closed. -/
def finalizeRawLog (gzip : Gzip) (config : RuntimeConfig) (files : LogFiles) : Archive gzip where
  files
  stage :=
    if config.rawOutput = .persistGzipOnFinalize ∧ config.logDir.isSome then .opening else .ended

def step (s : Archive gzip) : ArchiveLabel → Option (Archive gzip)
  | .succeed =>
      match s.stage with
      | .opening => s.files.plain.map (fun input => { s with stage := .creating input })
      | .creating input =>
          some { files := { s.files with gz := some [] }, stage := .copying input gzip.new }
      -- The copy ends with a read that finds nothing.
      | .copying [] encoder => some { s with stage := .finishing encoder }
      | .copying (_ :: _) _ => none
      | .finishing encoder =>
          some { files := s.files.appendGz (gzip.finish encoder), stage := .removing }
      | .removing => some { files := { s.files with plain := none }, stage := .ended }
      | .ended => none
  | .copy n =>
      match s.stage with
      | .copying rest encoder =>
          if 0 < n ∧ n ≤ rest.length then
            let (written, encoder) := gzip.write encoder (rest.take n)
            some { files := s.files.appendGz written, stage := .copying (rest.drop n) encoder }
          else none
      | _ => none
  | .fail written =>
      match s.stage with
      | .copying .. | .finishing _ =>
          some { files := s.files.appendGz written, stage := .ended }
      | .opening | .creating _ | .removing => some { s with stage := .ended }
      | .ended => none

end Archive

end Execra
