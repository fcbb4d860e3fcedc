import Execra.Job.Moves

/-!
The driver seen alone. A `Ledger` holds what only the driver of a job writes:
the snapshot, the events it has sent, its row in the store, the raw output,
the history of its select loop. Nothing another task does changes the ledger,
and an operation of the driver changes it as `Ledger.act` says, with every
answer the world may give. So what holds of the driver's programs on ledgers
holds of the job under every interleaving.
-/

namespace Execra

open Program

structure Ledger where
  snapshot : Job
  sent : List Event
  row : Option (Option JobRow)
  upsertsOk : Bool
  rawOpen : Bool
  rawLog : Option String
  ring : List String
  child : Option Nat
  waitTasks : List (Option ProcessGroup)
  spawnFailed : Bool
  selected : List SelectResult
  verdict : Option Bool
  replied : Option Outcome
  phasesMade : Nat

namespace Ledger

@[simps] def send (d : Ledger) (event : Event) : Ledger :=
  { d with sent := d.sent ++ [event] }

@[simps] def update (d : Ledger) (u : SnapshotUpdate) : Ledger :=
  { d with snapshot := u.apply d.snapshot }

@[simps] def upsert (d : Ledger) (ok : Bool) : Ledger :=
  { d with
    row := if ok then d.row.map (fun old => some (JobRow.upserted old d.snapshot)) else d.row
    upsertsOk := d.upsertsOk && (ok || d.row.isNone) }

@[simps] def openRaw (d : Ledger) (opens : Bool) : Ledger :=
  { d with
    rawOpen := opens || d.rawOpen
    rawLog := if opens then some "" else d.rawLog }

@[simps] def writeRaw (d : Ledger) (text : String) : Ledger :=
  { d with rawLog := if d.rawOpen then d.rawLog.map (· ++ text) else d.rawLog }

/-- The driver keeps a line in memory. -/
@[simps] def push (d : Ledger) (line : String) : Ledger :=
  { d with ring := evict (d.ring ++ [line]) }

/-- `process_line` keeps a line in memory if the policy says so. -/
@[simps] def remember (cfg : Config) (d : Ledger) (line : String) : Ledger :=
  { d with
    ring := if cfg.runtime.rawOutput = .memoryOnly then evict (d.ring ++ [line])
      else d.ring }

/-- The log file is closed. -/
@[simps] def closeRaw (d : Ledger) : Ledger := { d with rawOpen := false }

@[simps] def tookId (d : Ledger) : Ledger := { d with phasesMade := d.phasesMade + 1 }

@[simps] def spawned (d : Ledger) (pid : Nat) : Ledger := { d with child := some pid }

@[simps] def failSpawn (d : Ledger) : Ledger := { d with spawnFailed := true }

/-- A wait task is spawned. -/
@[simps] def attend (d : Ledger) (procGroup : Option ProcessGroup) : Ledger :=
  { d with waitTasks := d.waitTasks ++ [procGroup] }

/-- The driver reads the token. -/
@[simps] def judge (d : Ledger) (cancelled : Bool) : Ledger :=
  { d with verdict := some cancelled }

/-- The outcome is sent to the handle. -/
@[simps] def answer (d : Ledger) (outcome : Outcome) : Ledger :=
  { d with replied := some outcome }

@[simps] def select (d : Ledger) (r : SelectResult) : Ledger :=
  { d with selected := d.selected ++ [r] }

/-- One operation of the driver, seen on its ledger. -/
def act (cfg : Config) (w : Oracle) : (o : Op) → Ledger → o.Ans × Ledger
  | .acquirePermit, d => (true, d)
  | .instant, d => (w.instant, d)
  | .now, d => (w.time, d)
  | .newPhaseId, d => (cfg.phaseIds d.phasesMade, d.tookId)
  | .openRawFile, d => ((), d.openRaw w.rawOpens)
  | .spawnChild, d =>
      (w.spawned, match w.spawned with
        | .ok pid => d.spawned pid
        | .error _ => d.failSpawn)
  | .send event, d => ((), d.send event)
  | .insertEvent _, d => ((), d)
  | .updateSnapshot u, d => ((), d.update u)
  | .upsertSnapshot, d => ((), d.upsert w.upsertOk)
  | .writeRaw text, d => ((), d.writeRaw text)
  | .pushMemoryRaw line, d => ((), d.push line)
  | .finalizeRawLog, d => ((), d.closeRaw)
  | .spawnWaitTask procGroup, d => ((), d.attend procGroup)
  | .onLine _ _, d => (w.interp, d)
  | .onExit _ _, d => (w.interp, d)
  | .isCancelled, d => (w.token, d.judge w.token)
  | .reply outcome, d => ((), d.answer outcome)

def init (cfg : Config) : Ledger where
  snapshot := cfg.initialJob
  sent := []
  row := cfg.store.map (fun store => (store.upsertJob cfg.initialJob).row cfg.id)
  upsertsOk := true
  rawOpen := false
  rawLog := none
  ring := []
  child := none
  waitTasks := []
  spawnFailed := false
  selected := []
  verdict := none
  replied := none
  phasesMade := 0

end Ledger

def Sys.ledger (cfg : Config) (s : Sys) : Ledger where
  snapshot := s.snapshot
  sent := s.sent
  row := s.store.map (fun store => store.row cfg.id)
  upsertsOk := s.upsertsOk
  rawOpen := s.rawOpen
  rawLog := s.rawLog
  ring := s.memoryRaw cfg.id
  child := s.child
  waitTasks := s.waitTasks
  spawnFailed := s.spawnFailed
  selected := s.selected
  verdict := s.verdict
  replied := s.outcomeRx.value
  phasesMade := s.phasesMade

/-- The oracle as the driver meets it in a state of the job: the clock and the
token are the job's. -/
def Oracle.seenIn (w : Oracle) (s : Sys) : Oracle :=
  { w with instant := s.instant, token := s.token }

theorem SnapshotUpdate.apply_id (u : SnapshotUpdate) (j : Job) : (u.apply j).id = j.id := by
  cases u <;> rfl

@[simp] theorem Sys.insertEvent_ledger (cfg : Config) (s : Sys) (e : Event) (w : Oracle) :
    (s.insertEvent e w).ledger cfg = s.ledger cfg := by
  have hrow : (s.store.map (fun st => (st.insertEvent e w.insertOk w.findingOk).1)).map
      (fun st => st.row cfg.id) = s.store.map (fun st => st.row cfg.id) := by
    cases s.store <;> simp
  simp [Sys.ledger, Sys.insertEvent, hrow]

/-- An operation of the driver acts on the ledger as `Ledger.act` says. -/
theorem Sys.act_ledger (cfg : Config) (w : Oracle) (o : Op) (s : Sys)
    (hid : s.snapshot.id = cfg.id) :
    (s.act cfg w o).1 = (Ledger.act cfg (w.seenIn s) o (s.ledger cfg)).1 ∧
      (s.act cfg w o).2.ledger cfg =
        (Ledger.act cfg (w.seenIn s) o (s.ledger cfg)).2 := by
  refine ⟨by cases o <;> rfl, ?_⟩
  cases o with
  | insertEvent event => exact s.insertEvent_ledger cfg event w
  | spawnChild =>
      simp only [Sys.act, Ledger.act, Oracle.seenIn]
      cases w.spawned <;> rfl
  | upsertSnapshot =>
      cases hstore : s.store with
      | none => simp [Sys.act, Ledger.act, Sys.upsertSnapshot, Ledger.upsert, Sys.ledger, hstore]
      | some store =>
          have hrow := store.row_upsertJob s.snapshot
          rw [hid] at hrow
          by_cases hok : w.upsertOk <;>
            simp [Sys.act, Ledger.act, Sys.upsertSnapshot, Ledger.upsert, Sys.ledger,
              Oracle.seenIn, hstore, hrow, hok]
  | openRawFile =>
      by_cases hopens : w.rawOpens <;>
        simp [Sys.act, Ledger.act, Ledger.openRaw, Sys.ledger, Oracle.seenIn, hopens]
  | writeRaw text =>
      simp only [Sys.act, Ledger.act, Ledger.writeRaw]
      cases h : s.rawOpen <;> simp [Sys.ledger, h]
  | pushMemoryRaw line => simp [Sys.act, Ledger.act, Ledger.push, Sys.ledger]
  | _ => rfl

/-! The steps of everybody else. -/

/-- No step of the wait task touches the driver or its ledger. -/
theorem Sys.WaitMove.frame {cfg : Config} {s t : Sys} (h : s.WaitMove cfg t) :
    t.ctl = s.ctl ∧ t.snapshot = s.snapshot ∧ t.ledger cfg = s.ledger cfg := by
  cases h with
  | insert time w hpc =>
      exact ⟨rfl, rfl, s.insertEvent_ledger cfg (cancelledEvent cfg time) w⟩
  | _ => exact ⟨rfl, rfl, rfl⟩

/-- Nor does any step of the callers, the handle, the child or the clock. -/
theorem Sys.WorldMove.frame (cfg : Config) {s t : Sys} {l : Label} (h : s.WorldMove l t) :
    t.ctl = s.ctl ∧ t.snapshot = s.snapshot ∧ t.ledger cfg = s.ledger cfg := by
  cases h with
  | handleAnswered outcome hrx =>
      exact ⟨rfl, rfl, by simp [Sys.ledger, hrx, Oneshot.value]⟩
  | arrive stream bytes | close stream how => cases stream <;> exact ⟨rfl, rfl, rfl⟩
  | _ => exact ⟨rfl, rfl, rfl⟩

theorem Sys.Move.frame {cfg : Config} {s t : Sys} (h : s.Move cfg t) :
    s.DriverMove cfg t ∨
      (t.ctl = s.ctl ∧ t.snapshot = s.snapshot ∧ t.ledger cfg = s.ledger cfg) := by
  cases h with
  | driver h => exact Or.inl h
  | wait h => exact Or.inr h.frame
  | world h => exact Or.inr (h.frame cfg)

/-- A branch the select loop may complete while it has the variables `v`. -/
def LoopVars.Offers (v : LoopVars) : SelectResult → Prop
  | .line stream _ => v.done stream = false
  | .exit result => v.childExited = false ∧ result.isSome

/-- What a step of the driver does to where it stands and to its ledger. -/
theorem Sys.DriverMove.ledger_cases {cfg : Config} {s t : Sys} (h : s.DriverMove cfg t)
    (hid : s.snapshot.id = cfg.id) :
    (∃ w o k, s.ctl = .run (.op o k) ∧
      t.ctl = settle (k (Ledger.act cfg w o (s.ledger cfg)).1) ∧
      t.ledger cfg = (Ledger.act cfg w o (s.ledger cfg)).2) ∨
    (∃ v, s.ctl = .top v ∧ v.ended = true ∧ t.ctl = settle (exitLoop cfg v) ∧
      t.ledger cfg = s.ledger cfg) ∨
    (t.ctl = s.ctl ∧ t.ledger cfg = s.ledger cfg) ∨
    (∃ v r, s.ctl = .top v ∧ v.ended = false ∧ v.Offers r ∧
      t.ctl = settle (loopTurn cfg v r) ∧ t.ledger cfg = (s.ledger cfg).select r) := by
  cases h with
  | op w o k hctl =>
      obtain ⟨hans, hled⟩ := s.act_ledger cfg w o hid
      refine Or.inl ⟨w.seenIn s, o, k, hctl, ?_, ?_⟩
      · rw [← hans]
      · rw [← hled]; rfl
  | leave v hctl hended => exact Or.inr (Or.inl ⟨v, hctl, hended, rfl, rfl⟩)
  | pending v hctl hended hout herr => exact Or.inr (Or.inr (Or.inl ⟨rfl, rfl⟩))
  | stdout v result hctl hended hdone hready =>
      exact Or.inr (Or.inr (Or.inr
        ⟨v, .line .stdout result, hctl, hended, hdone, rfl, rfl⟩))
  | stderr v result hctl hended hdone hout hready =>
      exact Or.inr (Or.inr (Or.inr
        ⟨v, .line .stderr result, hctl, hended, hdone, rfl, rfl⟩))
  | exit v outcome hctl hended hdone hout herr hready =>
      exact Or.inr (Or.inr (Or.inr
        ⟨v, .exit (some outcome), hctl, hended, ⟨hdone, rfl⟩, rfl, rfl⟩))

/-- The id of the snapshot never changes. -/
theorem Sys.Reachable.snapshot_id {cfg : Config} {s : Sys} (hs : Sys.Reachable cfg s) :
    s.snapshot.id = cfg.id := by
  refine hs.invariant (I := fun s => s.snapshot.id = cfg.id) rfl ?_
  intro s t _ _ hid hmove
  rcases hmove.frame with hdrv | ⟨_, hsnap, _⟩
  · cases hdrv with
    | op w o k hctl =>
        cases o with
        | updateSnapshot u => exact (u.apply_id s.snapshot).trans hid
        | spawnChild =>
            simp only [Sys.act]
            cases w.spawned <;> exact hid
        | upsertSnapshot =>
            simp only [Sys.act, Sys.upsertSnapshot]
            cases s.store with
            | none => exact hid
            | some store => by_cases hok : w.upsertOk <;> simpa [hok] using hid
        | openRawFile =>
            simp only [Sys.act]
            by_cases hopens : w.rawOpens <;> simpa [hopens] using hid
        | writeRaw text =>
            simp only [Sys.act]
            by_cases hopen : s.rawOpen <;> simpa [hopen] using hid
        | _ => exact hid
    | _ => exact hid
  · rw [hsnap]; exact hid

theorem Sys.init_ledger (cfg : Config) : (Sys.init cfg).ledger cfg = Ledger.init cfg := by
  unfold Sys.init Sys.ledger Ledger.init
  simp only [Option.map_map]
  rfl

/-- Weakest preconditions of the driver's programs on ledgers. -/
abbrev Driver.wp {α : Type} (cfg : Config) (G : Ledger → Ledger → Prop) (p : Driver α)
    (Q : α → Ledger → Prop) (d : Ledger) : Prop :=
  Program.wp (Ledger.act cfg) G p Q d

end Execra
