import Execra.Model.Store

/-!
The findings table against the events table. `insert_event` writes an event of
a finding in two statements, the row of the event first and the denormalized
row of the finding second, and no transaction holds them together. The tables
agree as long as no call stops between the two.
-/

namespace Execra

/-- A call of `insert_event`, and which of its two statements take effect. -/
structure InsertCall where
  event : Event
  eventOk : Bool
  findingOk : Bool
deriving DecidableEq, Repr

/-- The row of the events table that stands for an event. -/
def Event.eventRows (event : Event) : List EventRow :=
  match event.body with
  | .outputAppended .. => []
  | _ =>
      [{ jobId := event.job, atMs := toMs event.time, kind := event.body.kind,
         payload := ⟨event⟩, schemaVersion := Execra.schemaVersion }]

/-- The row of the findings table that stands for an event. -/
def Event.findingRows (event : Event) : List FindingRow :=
  match event.body with
  | .findingEmitted finding =>
      [{ jobId := event.job, atMs := toMs finding.time, code := finding.code,
         severity := finding.severity.toText, findingJson := ⟨finding⟩ }]
  | _ => []

/-- The findings are those of the stored events, in their order. -/
def Store.Projected (store : Store) : Prop :=
  store.findings = store.events.flatMap (fun row => row.payload.value.findingRows)

/-- The store with all rows of an event. -/
def Store.withRows (store : Store) (event : Event) : Store :=
  { store with
    events := store.events ++ event.eventRows
    findings := store.findings ++ event.findingRows }

def Store.insert (store : Store) (call : InsertCall) : Store × Bool :=
  store.insertEvent call.event call.eventOk call.findingOk

/-- The store after a sequence of calls, whose results the caller ignores. -/
def Store.insertAll (store : Store) (calls : List InsertCall) : Store :=
  calls.foldl (fun store call => (store.insert call).1) store

/-- The call is `Ok` with all its rows added, or `Err` with the store as it was. -/
def Store.AllOrNothing (store : Store) (call : InsertCall) : Prop :=
  store.insert call = (store.withRows call.event, true) ∨ store.insert call = (store, false)

/-- The call writes the event of a finding and fails to write the finding. It writes nothing
of an event that has no serialisation. -/
def InsertCall.tears (call : InsertCall) : Bool :=
  match call.event.body with
  | .findingEmitted _ => call.event.serializes && call.eventOk && !call.findingOk
  | _ => false

/-- Every call is all or nothing, and the findings are a projection of the
events at every point. -/
structure Store.KeepsFindings (store : Store) (calls : List InsertCall) : Prop where
  atomic : ∀ done call rest, calls = done ++ call :: rest →
    (store.insertAll done).AllOrNothing call
  projected : ∀ done, done <+: calls → (store.insertAll done).Projected

@[simp] theorem Store.insertAll_nil (store : Store) : store.insertAll [] = store := rfl

@[simp] theorem Store.insertAll_cons (store : Store) (call : InsertCall)
    (calls : List InsertCall) :
    store.insertAll (call :: calls) = (store.insert call).1.insertAll calls := rfl

/-! One call. -/

theorem Store.insertEventRow_ne (store : Store) (event : Event) :
    store.insertEventRow event ≠ store := by
  intro h
  have hlength := congrArg (fun s => s.events.length) h
  simp [Store.insertEventRow] at hlength

/-- The two rows of a call belong to each other. -/
theorem Event.eventRows_flatMap (event : Event) :
    event.eventRows.flatMap (fun row => row.payload.value.findingRows) = event.findingRows := by
  unfold Event.eventRows
  split
  · next hbody => simp [Event.findingRows, hbody]
  · simp

theorem Store.Projected.withRows {store : Store} (h : store.Projected) (event : Event) :
    (store.withRows event).Projected := by
  change store.findings ++ event.findingRows = (store.events ++ event.eventRows).flatMap _
  rw [List.flatMap_append, event.eventRows_flatMap, ← h]

/-- A call is all or nothing unless it stops between its two statements. -/
theorem Store.allOrNothing_iff (store : Store) (call : InsertCall) :
    store.AllOrNothing call ↔ call.tears = false := by
  obtain ⟨⟨job, body, time⟩, eventOk, findingOk⟩ := call
  cases body with
  | findingEmitted finding =>
      simp only [Store.AllOrNothing, Store.insert, Store.insertEvent, InsertCall.tears]
      cases hwritten : Event.serializes ⟨job, .findingEmitted finding, time⟩ && eventOk with
      | false => exact ⟨fun _ => rfl, fun _ => Or.inr rfl⟩
      | true =>
          cases findingOk with
          | true => exact ⟨fun _ => rfl, fun _ => Or.inl rfl⟩
          | false =>
              refine ⟨fun h => ?_, fun h => by cases h⟩
              cases h with
              | inl hok => exact absurd (congrArg Prod.snd hok) Bool.false_ne_true
              | inr herr => exact absurd (congrArg Prod.fst herr) (store.insertEventRow_ne _)
  | outputAppended stream line =>
      refine ⟨fun _ => rfl, fun _ => Or.inl ?_⟩
      simp [Store.insert, Store.insertEvent, Store.withRows, Event.eventRows, Event.findingRows]
  | _ =>
      refine ⟨fun _ => rfl, fun _ => ?_⟩
      simp only [Store.AllOrNothing, Store.insert, Store.insertEvent]
      split
      · refine Or.inl ?_
        simp [Store.withRows, Store.insertEventRow, Event.eventRows, Event.findingRows]
      · exact Or.inr rfl

theorem Store.Projected.insert {store : Store} (h : store.Projected) {call : InsertCall}
    (hcall : call.tears = false) : (store.insert call).1.Projected := by
  cases (store.allOrNothing_iff call).mpr hcall with
  | inl hok => rw [hok]; exact h.withRows call.event
  | inr herr => rw [herr]; exact h

/-! Sequences of calls. -/

theorem Store.Projected.insertAll {store : Store} (h : store.Projected)
    {calls : List InsertCall} (hcalls : ∀ call ∈ calls, call.tears = false) :
    (store.insertAll calls).Projected := by
  induction calls generalizing store with
  | nil => exact h
  | cons call rest ih =>
      rw [List.forall_mem_cons] at hcalls
      exact ih (h.insert hcalls.1) hcalls.2

/-- Calls keep the two tables together exactly when none of them writes the
event of a finding and then fails to write the finding. -/
theorem findings_project_events_iff {store : Store} (h : store.Projected)
    (calls : List InsertCall) :
    store.KeepsFindings calls ↔ ∀ call ∈ calls, call.tears = false := by
  constructor
  · intro hkeeps call hcall
    obtain ⟨done, rest, rfl⟩ := List.append_of_mem hcall
    exact (Store.allOrNothing_iff _ call).mp (hkeeps.atomic done call rest rfl)
  · intro hcalls
    refine ⟨?_, ?_⟩
    · rintro done call rest rfl
      exact (Store.allOrNothing_iff _ call).mpr (hcalls call (by simp))
    · intro done hdone
      exact h.insertAll (fun call hcall => hcalls call (hdone.subset hcall))

/-- A finding whose event is written and whose own row is not. -/
def tornCall : InsertCall where
  event :=
    { job := ⟨7⟩, time := 2000000
      body := .findingEmitted
        { severity := .error, code := "E1", message := "m", time := 1000000 } }
  eventOk := true
  findingOk := false

theorem findings_project_events_iff_whole :
    Store.KeepsFindings {}
      [{ tornCall with findingOk := true }, { tornCall with eventOk := false }] :=
  (findings_project_events_iff (show Store.Projected {} from rfl) _).mpr (by decide)

/-- The call returns an error, its event stays, and the finding is missing. -/
theorem findings_lose_torn_call :
    (Store.insert {} tornCall).2 = false ∧ ¬ Store.AllOrNothing {} tornCall ∧
      ¬ (Store.insertAll {} [tornCall]).Projected ∧ ¬ Store.KeepsFindings {} [tornCall] := by
  refine ⟨rfl, ?_, ?_, fun h => ?_⟩
  · rw [Store.allOrNothing_iff]
    decide
  · exact fun h => absurd (congrArg List.length h) (by decide)
  · exact absurd (congrArg List.length (h.projected _ List.prefix_rfl)) (by decide)

end Execra
