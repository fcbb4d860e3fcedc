import Execra.Foundation.Transition
import Execra.Job.Sinks
import Execra.Model.RawLog

/-!
The compression of a raw log, with a failure or the end of the process at any point of
it. The log is there until the archive is complete; so whichever file `logs` finds, it
finds all of the log in it.
-/

namespace Execra

theorem readToString_utf8Bytes (text : String) : readToString (utf8Bytes text) = some text := by
  have hbytes : (utf8Bytes text).toByteArray = text.toUTF8 :=
    ByteArray.ext (by rw [utf8Bytes, List.data_toByteArray, Array.toArray_toList])
  have hvalid : text.toUTF8.IsValidUTF8 := text.isValidUTF8
  unfold readToString String.fromUTF8?
  rw [hbytes, dif_pos hvalid]
  rfl

namespace Gzip

variable (gzip : Gzip)

/-- The encoder after some pieces of the input, and what it has written for them. -/
def feed : gzip.Encoder → List (List UInt8) → List UInt8 × gzip.Encoder
  | encoder, [] => ([], encoder)
  | encoder, piece :: pieces =>
      let written := gzip.write encoder piece
      let rest := feed written.2 pieces
      (written.1 ++ rest.1, rest.2)

/-- The archive of an input that comes in pieces. -/
def encode (pieces : List (List UInt8)) : List UInt8 :=
  (gzip.feed gzip.new pieces).1 ++ gzip.finish (gzip.feed gzip.new pieces).2

/-- Decoding inverts encoding, however the input is cut. -/
def Inverts (bytes : List UInt8) : Prop :=
  ∀ pieces, pieces.flatten = bytes → gzip.decode (gzip.encode pieces) = some bytes

theorem feed_snoc (encoder : gzip.Encoder) (pieces : List (List UInt8)) (piece : List UInt8) :
    gzip.feed encoder (pieces ++ [piece]) =
      ((gzip.feed encoder pieces).1 ++ (gzip.write (gzip.feed encoder pieces).2 piece).1,
        (gzip.write (gzip.feed encoder pieces).2 piece).2) := by
  induction pieces generalizing encoder with
  | nil => exact Prod.ext (List.append_nil _) rfl
  | cons first pieces ih =>
      rw [List.cons_append, feed, feed, ih]
      exact Prod.ext (List.append_assoc ..).symm rfl

end Gzip

namespace Archive

variable {gzip : Gzip} {content : List UInt8} {s t : Archive gzip} {failed : Bool}

/-- Where the content of the log is, at each stage. Only a failure leaves the log and
ends the compression. -/
inductive Safe (gzip : Gzip) (content : List UInt8) : Bool → Archive gzip → Prop where
  | opening (gz) : Safe gzip content false ⟨⟨some content, gz⟩, .opening⟩
  | creating (gz) : Safe gzip content false ⟨⟨some content, gz⟩, .creating content⟩
  | copying (pieces rest) (hcut : pieces.flatten ++ rest = content) :
      Safe gzip content false
        ⟨⟨some content, some (gzip.feed gzip.new pieces).1⟩,
          .copying rest (gzip.feed gzip.new pieces).2⟩
  | finishing (pieces) (hcut : pieces.flatten = content) :
      Safe gzip content false
        ⟨⟨some content, some (gzip.feed gzip.new pieces).1⟩,
          .finishing (gzip.feed gzip.new pieces).2⟩
  | removing (pieces) (hcut : pieces.flatten = content) :
      Safe gzip content false ⟨⟨some content, some (gzip.encode pieces)⟩, .removing⟩
  | archived (pieces) (hcut : pieces.flatten = content) :
      Safe gzip content false ⟨⟨none, some (gzip.encode pieces)⟩, .ended⟩
  | kept (gz) : Safe gzip content true ⟨⟨some content, gz⟩, .ended⟩

theorem Safe.step (h : Safe gzip content failed s) {l : ArchiveLabel} (hstep : s.step l = some t) :
    Safe gzip content (failed || l.fails) t := by
  cases l with
  | succeed =>
      cases h with
      | opening gz =>
          cases hstep
          exact .creating gz
      | creating gz =>
          cases hstep
          exact .copying [] content rfl
      | copying pieces rest hcut =>
          cases rest with
          | nil =>
              cases hstep
              exact .finishing pieces (by rw [← hcut, List.append_nil])
          | cons byte rest => cases hstep
      | finishing pieces hcut =>
          cases hstep
          exact .removing pieces hcut
      | removing pieces hcut =>
          cases hstep
          exact .archived pieces hcut
      | archived | kept => cases hstep
  | copy n =>
      cases h with
      | copying pieces rest hcut =>
          simp only [Archive.step] at hstep
          split at hstep
          · cases hstep
            have hnext : (pieces ++ [rest.take n]).flatten ++ rest.drop n = content := by
              rw [List.flatten_append, List.flatten_singleton, List.append_assoc,
                List.take_append_drop, hcut]
            have hcopied := @Safe.copying gzip content _ _ hnext
            rw [gzip.feed_snoc] at hcopied
            exact hcopied
          · cases hstep
      | _ => cases hstep
  | fail written =>
      cases h with
      | archived | kept => cases hstep
      | _ =>
          cases hstep
          exact .kept _

/-- In whichever file `logs` looks, the log is there. -/
theorem Safe.logs (h : Safe gzip content failed s) (hinverts : gzip.Inverts content) :
    s.files.logs gzip = readToString content := by
  cases h with
  | archived pieces hcut =>
      simp only [LogFiles.logs, hinverts pieces hcut, Option.bind_some]
  | _ => rfl

/-- The compression can go on to its end without a failure. -/
def Completes (s : Archive gzip) : Prop := ∃ ls t, Transition.run Archive.step s ls = some t ∧
  ls.any ArchiveLabel.fails = false ∧ t.stage = .ended

theorem Completes.after {l : ArchiveLabel} (h : t.Completes) (hstep : s.step l = some t)
    (hl : l.fails = false) : s.Completes := by
  obtain ⟨ls, u, hrun, hls, hended⟩ := h
  refine ⟨l :: ls, u, ?_, ?_, hended⟩
  · rw [Transition.run_cons, hstep, Option.bind_some, hrun]
  · rw [List.any_cons, hl, hls, Bool.or_false]

theorem completes_copying (files : LogFiles) (rest : List UInt8) (encoder : gzip.Encoder) :
    Completes ⟨files, .copying rest encoder⟩ := by
  have hread : ∀ files (encoder : gzip.Encoder), Completes ⟨files, .copying [] encoder⟩ :=
    fun _ _ => ⟨[.succeed, .succeed, .succeed], _, rfl, rfl, rfl⟩
  cases rest with
  | nil => exact hread files encoder
  | cons byte rest =>
      -- All that is left is read at once.
      have hcopy : Archive.step ⟨files, .copying (byte :: rest) encoder⟩
          (.copy (byte :: rest).length) =
          some ⟨files.appendGz (gzip.write encoder (byte :: rest)).1,
            .copying [] (gzip.write encoder (byte :: rest)).2⟩ := by
        simp [Archive.step]
      exact (hread _ _).after hcopy rfl

theorem Safe.completes (h : Safe gzip content false s) : s.Completes := by
  have hcreating : ∀ files, Completes ⟨files, .creating content⟩ := fun files =>
    (completes_copying { files with gz := some [] } content gzip.new).after (l := .succeed) rfl rfl
  cases h with
  | archived => exact ⟨[], _, rfl, rfl, rfl⟩
  | removing => exact ⟨[.succeed], _, rfl, rfl, rfl⟩
  | finishing => exact ⟨[.succeed, .succeed], _, rfl, rfl, rfl⟩
  | copying => exact completes_copying _ _ _
  | creating gz => exact hcreating _
  | opening gz => exact (hcreating ⟨some content, gz⟩).after (l := .succeed) rfl rfl

/-- Along a run the log is safe, and no more than a failure keeps it from its end. -/
theorem safe_of_run {config : RuntimeConfig}
    (hpolicy : config.rawOutput = .persistGzipOnFinalize) (hdir : config.logDir.isSome = true)
    {gz : Option (List UInt8)} {ls : List ArchiveLabel}
    (hrun : Transition.run Archive.step (finalizeRawLog gzip config ⟨some content, gz⟩) ls =
      some t) : Safe gzip content (ls.any ArchiveLabel.fails) t := by
  refine Transition.run_induction (P := fun _ _ => True)
    (fun done s => Safe gzip content (done.any ArchiveLabel.fails) s) ?_ ?_
    (Transition.stepsMeet_of_forall (fun _ _ => trivial) _ _) hrun
  · unfold finalizeRawLog
    rw [if_pos ⟨hpolicy, hdir⟩]
    exact .opening gz
  · intro done s l t hsafe _ hstep
    rw [List.any_append, List.any_cons, List.any_nil, Bool.or_false]
    exact hsafe.step hstep

end Archive

/-- Wherever the compression of a log has failed or stopped, `logs` prints all of the
log; and if nothing fails it can go on to its end, where only the archive is left. -/
theorem logs_survive_archiving {gzip : Gzip} {content : String}
    (hinverts : gzip.Inverts (utf8Bytes content)) {config : RuntimeConfig}
    (hpolicy : config.rawOutput = .persistGzipOnFinalize) (hdir : config.logDir.isSome = true)
    {gz : Option (List UInt8)} {ls : List ArchiveLabel} {t : Archive gzip}
    (hrun : Transition.run Archive.step
      (Archive.finalizeRawLog gzip config ⟨some (utf8Bytes content), gz⟩) ls = some t) :
    t.files.logs gzip = some content ∧
      (ls.any ArchiveLabel.fails = false → t.Completes ∧
        (t.stage = .ended → t.files.plain = none ∧ t.files.gz.isSome = true)) := by
  have hsafe := Archive.safe_of_run hpolicy hdir hrun
  refine ⟨(hsafe.logs hinverts).trans (readToString_utf8Bytes content), fun hnone => ?_⟩
  rw [hnone] at hsafe
  refine ⟨hsafe.completes, fun hended => ?_⟩
  cases hsafe with
  | archived => exact ⟨rfl, rfl⟩
  | _ => cases hended

/-- The lines of a job survive with its log. -/
theorem Sys.Reachable.logs_survive {gzip : Gzip} {cfg : Config} {s : Sys}
    (hs : Sys.Reachable cfg s) (hpolicy : cfg.runtime.rawOutput = .persistGzipOnFinalize)
    (hdir : cfg.runtime.logDir.isSome = true) {content : String} (hlog : s.rawLog = some content)
    (hinverts : gzip.Inverts (utf8Bytes content)) {gz : Option (List UInt8)}
    {ls : List ArchiveLabel} {t : Archive gzip}
    (hrun : Transition.run Archive.step
      (Archive.finalizeRawLog gzip cfg.runtime ⟨s.rawLog.map utf8Bytes, gz⟩) ls = some t) :
    (t.files.logs gzip).bind readRaw = some s.lines := by
  rw [hlog] at hrun
  have hsafe := Archive.safe_of_run hpolicy hdir hrun
  rw [hsafe.logs hinverts, readToString_utf8Bytes, Option.bind_some, hs.filed.file content hlog]
  exact hs.filed.readable

/-! A log of one line. -/

def lineLog : String := "[stdout] hi\n"

def gzipHeader : List UInt8 := [0x1f, 0x8b, 0x08, 0, 0, 0, 0, 0, 0, 0xff]

/-- The line deflated, its checksum and its length. -/
def lineBody : List UInt8 :=
  [0x8b, 0x2e, 0x2e, 0x49, 0xc9, 0x2f, 0x2d, 0x89, 0x55, 0xc8, 0xc8, 0xe4, 0x02, 0x00,
    0xb5, 0xfc, 0x66, 0xfa, 0x0c, 0, 0, 0]

/-- The encoder writes its header with the first bytes that come, and the rest on its
end. -/
def lineGzip : Gzip where
  Encoder := Option (List UInt8)
  new := none
  write encoder piece :=
    (if encoder.isNone then gzipHeader else [], some (encoder.getD [] ++ piece))
  finish encoder :=
    (if encoder.isNone then gzipHeader else []) ++
      if encoder.getD [] = utf8Bytes lineLog then lineBody else []
  decode bytes := if bytes = gzipHeader ++ lineBody then some (utf8Bytes lineLog) else none

theorem lineGzip_feed (input : List UInt8) (pieces : List (List UInt8)) :
    lineGzip.feed (some input) pieces = ([], some (input ++ pieces.flatten)) := by
  induction pieces generalizing input with
  | nil => exact Prod.ext rfl (congrArg some (List.append_nil input).symm)
  | cons piece pieces ih =>
      have hrest : lineGzip.feed (some input) (piece :: pieces) =
          lineGzip.feed (some (input ++ piece)) pieces := rfl
      rw [hrest, ih, List.flatten_cons, List.append_assoc]

theorem lineGzip_finish : lineGzip.finish (some (utf8Bytes lineLog)) = lineBody := by
  change (if utf8Bytes lineLog = utf8Bytes lineLog then lineBody else []) = lineBody
  rw [if_pos rfl]

theorem lineGzip_inverts : lineGzip.Inverts (utf8Bytes lineLog) := by
  intro pieces hpieces
  have hencode : lineGzip.encode pieces = gzipHeader ++ lineBody := by
    cases pieces with
    | nil =>
        have hnothing : ([] : List UInt8) ≠ utf8Bytes lineLog := by decide +kernel
        exact absurd hpieces hnothing
    | cons piece pieces =>
        have hfeed : lineGzip.feed lineGzip.new (piece :: pieces) =
            (gzipHeader ++ (lineGzip.feed (some piece) pieces).1,
              (lineGzip.feed (some piece) pieces).2) := rfl
        rw [Gzip.encode, hfeed, lineGzip_feed, ← List.flatten_cons, hpieces, List.append_nil]
        exact congrArg _ lineGzip_finish
  rw [hencode]
  change (if gzipHeader ++ lineBody = gzipHeader ++ lineBody then some (utf8Bytes lineLog)
    else none) = some (utf8Bytes lineLog)
  rw [if_pos rfl]

def archiveConfig : RuntimeConfig := { logDir := some "logs", rawOutput := .persistGzipOnFinalize }

/-- The copy fails after five bytes. -/
def failedCopy : List ArchiveLabel := [.succeed, .succeed, .copy 5, .fail [0x8b]]

theorem logs_survive_archiving_line : ∃ t : Archive lineGzip,
    Transition.run Archive.step
      (Archive.finalizeRawLog lineGzip archiveConfig ⟨some (utf8Bytes lineLog), none⟩)
      failedCopy = some t ∧
    t.files.logs lineGzip = some lineLog := by
  have hruns : (Transition.run Archive.step
      (Archive.finalizeRawLog lineGzip archiveConfig ⟨some (utf8Bytes lineLog), none⟩)
      failedCopy).isSome = true := by decide +kernel
  obtain ⟨t, hrun⟩ := Option.isSome_iff_exists.mp hruns
  exact ⟨t, hrun, (logs_survive_archiving lineGzip_inverts rfl rfl hrun).1⟩

end Execra
