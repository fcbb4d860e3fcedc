import Execra.Model.Serde
import Execra.Model.Store
import Execra.Foundation.Hyphenated

/-!
The payloads that are persisted and sent come back as they were written: the
JSON tree of an event has no key twice on any level, so no field of a variant is
named like a tag it stands beside, and reading it gives the event again. This is
what a `Json` column is taken to stand for.
-/

namespace Execra

open JsonTree

/-! Values of the source's types that `serde` writes. It refuses a time before the epoch; and
a path that is not UTF-8, but here a path is its text. -/

/-- Seconds are a `u64`. -/
def Duration.WellTyped (d : Duration) : Prop := d < 2 ^ 64 * 1000000000

/-- A time that is written, from the epoch on; its seconds are an `i64`. -/
def SystemTime.WellTyped (t : SystemTime) : Prop := 0 ≤ t ∧ t.toNat < 2 ^ 63 * 1000000000

def CommandSpec.WellTyped (spec : CommandSpec) : Prop := ∀ d ∈ spec.timeout, Duration.WellTyped d

/-- A fraction is finite, and a number that a float can be. -/
def ProgressMetric.WellTyped : ProgressMetric → Prop
  | .fraction value => ∃ q, value = .finite q ∧ F32.ofRat q = value
  | .count done total => done < 2 ^ 64 ∧ total < 2 ^ 64
  | .bytes done total => done < 2 ^ 64 ∧ ∀ n ∈ total, n < 2 ^ 64

def Progress.WellTyped : Progress → Prop
  | .determinate metric => metric.WellTyped
  | .unknown | .indeterminate _ => True

def Finding.WellTyped (finding : Finding) : Prop := SystemTime.WellTyped finding.time

def Outcome.WellTyped : Outcome → Prop
  | .succeeded _ findings | .failed _ _ findings | .cancelled findings =>
      ∀ finding ∈ findings, finding.WellTyped

def EventBody.WellTyped : EventBody → Prop
  | .jobCreated command => command.WellTyped
  | .jobStarted pid => pid < 2 ^ 32
  | .phaseEntered phase _ _ | .phaseUpdated phase _ | .phaseExited phase => phase.uuid < 2 ^ 128
  | .progressUpdated progress => progress.WellTyped
  | .findingEmitted finding => finding.WellTyped
  | .finalized outcome => outcome.WellTyped
  | _ => True

structure Event.WellTyped (e : Event) : Prop where
  job : e.job.uuid < 2 ^ 128
  body : e.body.WellTyped
  time : SystemTime.WellTyped e.time

/-! The types without a tag. -/

theorem writeSpan_denotes {secsKey nanosKey : String} (hne : secsKey ≠ nanosKey) {span : Nat}
    (h : span < 2 ^ 64 * 1000000000) :
    Denotes (readSpan secsKey nanosKey) (writeSpan secsKey nanosKey span) span := by
  have hsecs : Denotes readU64 _ (span / 1000000000) := .u64 (by omega)
  have hnanos : Denotes readU32 _ (span % 1000000000) := .u32 (by omega)
  have hfits : span / 1000000000 < 2 ^ 64 := by omega
  have hspan : span / 1000000000 * 1000000000 + span % 1000000000 = span := by omega
  apply Denotes.object
  · simp [hne]
  · simp [hsecs.wellKeyed, hnanos.wellKeyed]
  · simp [hne, hsecs.read, hnanos.read, hspan, -Nat.reducePow, hfits]

theorem Duration.denotes {d : Duration} (h : Duration.WellTyped d) :
    Denotes Duration.deserialize (Duration.serialize d) d :=
  writeSpan_denotes (by simp) h

theorem SystemTime.denotes {t : SystemTime} (h : SystemTime.WellTyped t) :
    ∃ tree, SystemTime.serialize t = some tree ∧ Denotes SystemTime.deserialize tree t := by
  obtain ⟨hepoch, hhigh⟩ := h
  have hspan : t.toNat < 2 ^ 64 * 1000000000 := by omega
  have hne : "secs_since_epoch" ≠ "nanos_since_epoch" := by simp
  obtain ⟨hkeyed, hread⟩ := writeSpan_denotes hne hspan
  refine ⟨_, if_pos hepoch, hkeyed, ?_⟩
  have hfits : t.toNat / 1000000000 < 2 ^ 63 := by omega
  have htime : (t.toNat : Int) = t := Int.toNat_of_nonneg hepoch
  simp only [deserialize, hread, Option.bind_eq_bind, Option.bind_some, if_pos hfits, htime]

theorem JobId.denotes (text : UuidText) {job : JobId} (h : job.uuid < 2 ^ 128) :
    Denotes (JobId.deserialize text) (job.serialize text) job := by
  constructor
  · exact .string _
  · simp [deserialize, serialize, readString, text.parse_write _ h]

theorem PhaseId.denotes (text : UuidText) {phase : PhaseId} (h : phase.uuid < 2 ^ 128) :
    Denotes (PhaseId.deserialize text) (phase.serialize text) phase := by
  constructor
  · exact .string _
  · simp [deserialize, serialize, readString, text.parse_write _ h]

theorem Denotes.strings (texts : List String) :
    Denotes (readList readString) (writeList .string texts) texts :=
  Denotes.list (fun s _ => .string s)

theorem Denotes.optionString (text : Option String) :
    Denotes (readOption readString) (writeOption .string text) text :=
  Denotes.option rfl (fun s _ => .string s)

theorem CommandSpec.denotes {spec : CommandSpec} (h : spec.WellTyped) :
    Denotes CommandSpec.deserialize spec.serialize spec := by
  have hargs := Denotes.strings spec.args
  have htags := Denotes.strings spec.tags
  have henv : Denotes (readList (readPair readString readString))
      (writeList (writePair .string .string) spec.env) spec.env :=
    Denotes.list (fun entry _ => .pair (.string entry.1) (.string entry.2))
  have hcwd := Denotes.optionString spec.cwd
  have hlabel := Denotes.optionString spec.label
  have htimeout : Denotes (readOption Duration.deserialize)
      (writeOption Duration.serialize spec.timeout) spec.timeout :=
    Denotes.option rfl (fun d hd => Duration.denotes (h d hd))
  apply Denotes.object
  · simp
  · simp [hargs.wellKeyed, htags.wellKeyed, henv.wellKeyed, hcwd.wellKeyed, hlabel.wellKeyed,
      htimeout.wellKeyed, WellKeyed.string, (Denotes.bool _).wellKeyed]
  · simp [readString, (Denotes.bool _).read, hargs.read, htags.read, henv.read, hcwd.read,
      hlabel.read, htimeout.read]

theorem Severity.denotes (severity : Severity) :
    Denotes Severity.deserialize severity.serialize severity := by
  cases severity <;> exact ⟨.string _, rfl⟩

theorem Stream.denotes (stream : Stream) :
    Denotes Stream.deserialize stream.serialize stream := by
  cases stream <;> exact ⟨.string _, rfl⟩

theorem ExitCode.denotes (exit : ExitCode) :
    Denotes ExitCode.deserialize exit.serialize exit := by
  have hint (n : Option Int32) : Denotes (readOption readInt32) (writeOption writeInt32 n) n :=
    Denotes.option rfl (fun n _ => .int32 n)
  apply Denotes.object
  · simp
  · simp [(hint _).wellKeyed]
  · simp [(hint _).read]

/-! The types with a tag. -/

theorem F32.denotes {value : F32} (h : ∃ q, value = .finite q ∧ F32.ofRat q = value) :
    Denotes F32.deserialize value.serialize value := by
  obtain ⟨q, rfl, hq⟩ := h
  constructor
  · exact .real q
  · simp [deserialize, serialize, hq]

theorem ProgressMetric.denotes {metric : ProgressMetric} (h : metric.WellTyped) :
    Denotes ProgressMetric.deserialize metric.serialize metric := by
  cases metric with
  | fraction value =>
      have hvalue := F32.denotes h
      apply Denotes.tagged <;> simp [deserializeVariant, hvalue.wellKeyed, hvalue.read]
  | count done total =>
      have hdone := Denotes.u64 h.1
      have htotal := Denotes.u64 h.2
      apply Denotes.tagged <;>
        simp [deserializeVariant, hdone.wellKeyed, hdone.read, htotal.wellKeyed, htotal.read]
  | bytes done total =>
      have hdone := Denotes.u64 h.1
      have htotal : Denotes (readOption readU64) (writeOption writeNat total) total :=
        Denotes.option rfl (fun n hn => .u64 (h.2 n hn))
      apply Denotes.tagged <;>
        simp [deserializeVariant, hdone.wellKeyed, hdone.read, htotal.wellKeyed, htotal.read]

/-- A metric has no field that is named like the tag it is put under. -/
theorem ProgressMetric.kind_notMem (metric : ProgressMetric) : "kind" ∉ keys metric.entries := by
  cases metric <;> simp [entries, variant]

/-- The entries of a metric are a tree's of their own, and are read as one. -/
theorem Progress.denotes {progress : Progress} (h : progress.WellTyped) :
    Denotes Progress.deserialize progress.serialize progress := by
  cases progress with
  | unknown => apply Denotes.tagged <;> simp [deserializeVariant]
  | indeterminate hint =>
      have hhint := Denotes.optionString hint
      apply Denotes.tagged <;> simp [deserializeVariant, hhint.wellKeyed, hhint.read]
  | determinate metric =>
      have hmetric := ProgressMetric.denotes h
      cases hmetric.wellKeyed with
      | object hkeys hentries =>
          apply Denotes.tagged metric.kind_notMem hkeys hentries
          have hread := hmetric.read
          rw [ProgressMetric.serialize] at hread
          simp [deserializeVariant, hread]

theorem Action.denotes (action : Action) :
    Denotes Action.deserialize action.serialize action := by
  cases action with
  | command label program args cwd =>
      have hargs := Denotes.strings args
      have hcwd := Denotes.optionString cwd
      apply Denotes.tagged <;>
        simp [deserializeVariant, readString, WellKeyed.string, hargs.wellKeyed, hargs.read,
          hcwd.wellKeyed, hcwd.read]
  | link | instruction =>
      apply Denotes.tagged <;> simp [deserializeVariant, readString, WellKeyed.string]

theorem RelatedEntity.denotes (related : RelatedEntity) :
    Denotes RelatedEntity.deserialize related.serialize related := by
  cases related <;>
    exact Denotes.adjacent (by simp) (.string _) rfl

theorem Finding.denotes {finding : Finding} (h : finding.WellTyped) :
    ∃ tree, finding.serialize = some tree ∧ Denotes Finding.deserialize tree finding := by
  obtain ⟨time, htime, hat⟩ := SystemTime.denotes h
  have hseverity := Severity.denotes finding.severity
  have haction : Denotes (readOption Action.deserialize)
      (writeOption Action.serialize finding.action) finding.action :=
    Denotes.option rfl (fun action _ => action.denotes)
  have hrelated : Denotes (readOption RelatedEntity.deserialize)
      (writeOption RelatedEntity.serialize finding.related) finding.related :=
    Denotes.option rfl (fun related _ => related.denotes)
  simp only [Finding.serialize, htime, Option.bind_eq_bind, Option.bind_some, Option.pure_def,
    Option.some.injEq, exists_eq_left']
  apply Denotes.object
  · simp
  · simp [hseverity.wellKeyed, haction.wellKeyed, hrelated.wellKeyed, hat.wellKeyed,
      WellKeyed.string]
  · simp [readString, hseverity.read, haction.read, hrelated.read, hat.read]

theorem FailureReason.denotes (reason : FailureReason) :
    Denotes FailureReason.deserialize reason.serialize reason := by
  cases reason with
  | nonZeroExit n | signal n =>
      have hn := Denotes.int32 n
      apply Denotes.tagged <;> simp [deserializeVariant, hn.wellKeyed, hn.read]
  | knownError | spawnFailed | timeout =>
      apply Denotes.tagged <;> simp [deserializeVariant, readString, WellKeyed.string]

theorem Outcome.denotes {outcome : Outcome} (h : outcome.WellTyped) :
    ∃ tree, outcome.serialize = some tree ∧ Denotes Outcome.deserialize tree outcome := by
  have hwritten (findings : List Finding) (hall : ∀ finding ∈ findings, finding.WellTyped) :=
    mapM_denotes (fun finding hfinding => Finding.denotes (hall finding hfinding))
  cases outcome with
  | succeeded summary findings =>
      obtain ⟨trees, hmap, hfindings⟩ := hwritten findings h
      have hsummary := Denotes.optionString summary
      refine ⟨_, by rw [serialize, hmap]; rfl, ?_⟩
      apply Denotes.tagged <;>
        simp [deserializeVariant, hsummary.wellKeyed, hsummary.read, hfindings.wellKeyed,
          hfindings.read]
  | failed reason summary findings =>
      obtain ⟨trees, hmap, hfindings⟩ := hwritten findings h
      have hreason := reason.denotes
      have hsummary := Denotes.optionString summary
      refine ⟨_, by rw [serialize, hmap]; rfl, ?_⟩
      apply Denotes.tagged <;>
        simp [deserializeVariant, hreason.wellKeyed, hreason.read, hsummary.wellKeyed,
          hsummary.read, hfindings.wellKeyed, hfindings.read]
  | cancelled findings =>
      obtain ⟨trees, hmap, hfindings⟩ := hwritten findings h
      refine ⟨_, by rw [serialize, hmap]; rfl, ?_⟩
      apply Denotes.tagged <;> simp [deserializeVariant, hfindings.wellKeyed, hfindings.read]

/-! What the store takes for written is what the writers write. -/

theorem SystemTime.isSome_serialize (t : SystemTime) :
    (SystemTime.serialize t).isSome = SystemTime.serializes t := by
  unfold SystemTime.serialize SystemTime.serializes
  split <;> simp [*]

theorem Finding.isSome_serialize (finding : Finding) :
    finding.serialize.isSome = finding.serializes := by
  rw [Finding.serializes, ← SystemTime.isSome_serialize, Finding.serialize]
  cases SystemTime.serialize finding.time <;> rfl

theorem Outcome.isSome_serialize (outcome : Outcome) :
    outcome.serialize.isSome = outcome.serializes := by
  have hall (findings : List Finding) :
      (findings.mapM Finding.serialize).isSome = findings.all Finding.serializes := by
    rw [mapM_isSome, funext Finding.isSome_serialize]
  cases outcome with
  | succeeded _ findings | failed _ _ findings | cancelled findings =>
      rw [Outcome.serializes, ← hall, Outcome.serialize]
      cases findings.mapM Finding.serialize <;> rfl

theorem EventBody.isSome_serialize (text : UuidText) (body : EventBody) :
    (body.serialize text).isSome = body.serializes := by
  cases body with
  | findingEmitted finding =>
      rw [EventBody.serializes, ← Finding.isSome_serialize, EventBody.serialize]
      cases finding.serialize <;> rfl
  | finalized outcome =>
      rw [EventBody.serializes, ← Outcome.isSome_serialize, EventBody.serialize]
      cases outcome.serialize <;> rfl
  | _ => rfl

theorem Event.isSome_serialize (text : UuidText) (e : Event) :
    (e.serialize text).isSome = e.serializes := by
  rw [Event.serializes, ← EventBody.isSome_serialize text, ← SystemTime.isSome_serialize,
    Event.serialize]
  cases e.body.serialize text with
  | none => rfl
  | some fields => cases SystemTime.serialize e.time <;> rfl

/-- An event that has no text leaves the store as it is. -/
theorem Store.insertEvent_unwritten (text : UuidText) (store : Store) {e : Event}
    (h : e.serialize text = none) (eventOk findingOk : Bool) :
    (store.insertEvent e eventOk findingOk).1 = store := by
  have hrefused : e.serializes = false := by
    rw [← Event.isSome_serialize text, h]
    rfl
  rw [Store.insertEvent, hrefused, Bool.false_and]
  cases e.body <;> rfl

/-! The events. -/

/-- A variant stands in the tree of an event: between the fields that every variant
has, with names that are neither theirs nor the tag's. -/
structure EventBody.Stands (text : UuidText) (body : EventBody) (kind : String)
    (fields : Entries) : Prop where
  written : body.serialize text = some (kind, fields)
  nodup : (keys fields).Nodup
  apart : ∀ key ∈ ["kind", "job", "at"], key ∉ keys fields
  wellKeyed : ∀ entry ∈ fields, entry.2.WellKeyed
  read : ∀ job time : JsonTree,
    deserializeVariant text kind (("job", job) :: fields ++ [("at", time)]) = some body

theorem EventBody.stands (text : UuidText) {body : EventBody} (h : body.WellTyped) :
    ∃ kind fields, body.Stands text kind fields := by
  cases body with
  | jobCreated command =>
      have hcommand := CommandSpec.denotes h
      refine ⟨_, _, rfl, ?_, ?_, ?_, fun job time => ?_⟩ <;>
        simp [deserializeVariant, hcommand.wellKeyed, hcommand.read]
  | jobStarted pid =>
      have hpid := Denotes.u32 h
      refine ⟨_, _, rfl, ?_, ?_, ?_, fun job time => ?_⟩ <;>
        simp [deserializeVariant, hpid.wellKeyed, hpid.read]
  | phaseEntered phase name label =>
      have hphase := PhaseId.denotes text h
      have hlabel := Denotes.optionString label
      refine ⟨_, _, rfl, ?_, ?_, ?_, fun job time => ?_⟩ <;>
        simp [deserializeVariant, readString, WellKeyed.string, hphase.wellKeyed, hphase.read,
          hlabel.wellKeyed, hlabel.read]
  | phaseUpdated phase | phaseExited phase =>
      have hphase := PhaseId.denotes text h
      refine ⟨_, _, rfl, ?_, ?_, ?_, fun job time => ?_⟩ <;>
        simp [deserializeVariant, readString, WellKeyed.string, hphase.wellKeyed, hphase.read]
  | progressUpdated progress =>
      have hprogress := Progress.denotes h
      refine ⟨_, _, rfl, ?_, ?_, ?_, fun job time => ?_⟩ <;>
        simp [deserializeVariant, hprogress.wellKeyed, hprogress.read]
  | outputAppended stream =>
      have hstream := stream.denotes
      refine ⟨_, _, rfl, ?_, ?_, ?_, fun job time => ?_⟩ <;>
        simp [deserializeVariant, readString, WellKeyed.string, hstream.wellKeyed, hstream.read]
  | warningDetected text | interpreterError _ _ text =>
      have htext := Denotes.optionString text
      refine ⟨_, _, rfl, ?_, ?_, ?_, fun job time => ?_⟩ <;>
        simp [deserializeVariant, readString, WellKeyed.string, htext.wellKeyed, htext.read]
  | findingEmitted finding =>
      obtain ⟨tree, hwrite, hfinding⟩ := Finding.denotes h
      refine ⟨_, _, by rw [serialize, hwrite]; rfl, ?_, ?_, ?_, fun job time => ?_⟩ <;>
        simp [deserializeVariant, hfinding.wellKeyed, hfinding.read]
  | exited code =>
      have hcode := code.denotes
      refine ⟨_, _, rfl, ?_, ?_, ?_, fun job time => ?_⟩ <;>
        simp [deserializeVariant, hcode.wellKeyed, hcode.read]
  | finalized outcome =>
      obtain ⟨tree, hwrite, houtcome⟩ := Outcome.denotes h
      refine ⟨_, _, by rw [serialize, hwrite]; rfl, ?_, ?_, ?_, fun job time => ?_⟩ <;>
        simp [deserializeVariant, houtcome.wellKeyed, houtcome.read]
  | labelUpdated | knownErrorDetected | promptDetected | cancelled =>
      refine ⟨_, _, rfl, ?_, ?_, ?_, fun job time => ?_⟩ <;>
        simp [deserializeVariant, readString, WellKeyed.string]

theorem Event.denotes (text : UuidText) {e : Event} (h : e.WellTyped) :
    ∃ tree, e.serialize text = some tree ∧ Denotes (Event.deserialize text) tree e := by
  obtain ⟨kind, fields, hbody⟩ := EventBody.stands text h.body
  obtain ⟨time, htime, hat⟩ := SystemTime.denotes h.time
  have hjob := JobId.denotes text h.job
  rw [Event.serialize, hbody.written, htime]
  refine ⟨_, rfl, ?_⟩
  have hkind := hbody.apart "kind" (by simp)
  have hjobKey := hbody.apart "job" (by simp)
  have hatKey := hbody.apart "at" (by simp)
  apply Denotes.tagged
  · simp [hkind]
  · have hatLast : (keys fields ++ ["at"]).Nodup := by
      apply hbody.nodup.append (by simp)
      simpa using hatKey
    simp [hjobKey, hatLast]
  · intro entry hentry
    simp only [List.cons_append, List.mem_cons, List.mem_append, List.not_mem_nil,
      or_false] at hentry
    rcases hentry with rfl | hfield | rfl
    · exact hjob.wellKeyed
    · exact hbody.wellKeyed entry hfield
    · exact hat.wellKeyed
  · have hread := hbody.read (e.job.serialize text) time
    rw [List.cons_append] at hread
    simp [hread, field_append _ hatKey, hjobKey, hjob.read, hat.read]

/-- An event of the source's types comes back from its tree, and in the tree no field
stands under the name of a tag. A metric that is put under a tag leaves the tree of
the metric behind when the tag is taken off, and only a determinate progress is read
as one. -/
theorem wire_format_round_trips (text : UuidText) :
    (∀ e : Event, e.WellTyped →
      ∃ tree, e.serialize text = some tree ∧ tree.WellKeyed ∧
        Event.deserialize text tree = some e) ∧
    (∀ metric : ProgressMetric,
      untag "kind" (Progress.determinate metric).serialize =
        some ("determinate", metric.entries)) ∧
    ∀ (progress : Progress) (metric : ProgressMetric), progress.WellTyped →
      (Progress.deserialize progress.serialize = some (.determinate metric) ↔
        progress = .determinate metric) := by
  constructor
  · intro e h
    obtain ⟨tree, hwrite, hdenotes⟩ := Event.denotes text h
    exact ⟨tree, hwrite, hdenotes.wellKeyed, hdenotes.read⟩
  constructor
  · intro metric
    exact untag_tagged "determinate" metric.kind_notMem
  · intro progress metric h
    rw [(Progress.denotes h).read, Option.some.injEq]

def UuidText.hyphenated : UuidText where
  write := Hyphenated.write
  parse := Hyphenated.parse
  parse_write _ h := Hyphenated.parse_write h

def failedEvent : Event where
  job := ⟨7⟩
  body := .finalized (.failed (.signal 9) none
    [{ severity := .error, code := "disk", message := "full", time := 5250000,
       action := some (.command "retry" "tool" ["--again"] none), related := some (.file "log") }])
  time := 6750000

def halfway : ProgressMetric := .fraction (.finite (1 / 2))

theorem wire_format_round_trips_failed :
    (∃ tree, failedEvent.serialize .hyphenated = some tree ∧ tree.WellKeyed ∧
      Event.deserialize .hyphenated tree = some failedEvent) ∧
    (Progress.deserialize (Progress.determinate halfway).serialize = some (.determinate halfway) ↔
      Progress.determinate halfway = .determinate halfway) := by
  constructor
  · apply (wire_format_round_trips .hyphenated).1
    constructor
    · decide
    · exact List.forall_mem_singleton.mpr ⟨by decide, by decide⟩
    · exact ⟨by decide, by decide⟩
  · apply (wire_format_round_trips .hyphenated).2.2
    exact ⟨1 / 2, rfl, by decide +kernel⟩

end Execra
