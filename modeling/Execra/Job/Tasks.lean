import Execra.Job.Lifecycle

/-!
How the tasks of a job are tied together. The driver spawns one wait task, for
the child it spawned, and hands it the child's process group; the exit channel
carries one value, which the wait task sends as its last act; a stream that
the select loop is done with has nothing left to read. These facts speak of
both sides at once, so they are invariants of the whole job.
-/

namespace Execra

/-- What an operation of the driver leaves to the other tasks. -/
structure Sys.Leaves (s t : Sys) : Prop where
  token : t.token = s.token
  group : t.group = s.group
  exitRx : t.exitRx = s.exitRx
  selected : t.selected = s.selected
  stdout : t.stdout = s.stdout
  stderr : t.stderr = s.stderr
  accepted : t.accepted = s.accepted
  handleYields : t.handleYields = s.handleYields

theorem Sys.Leaves.pipe {s t : Sys} (h : s.Leaves t) (stream : Stream) :
    t.pipe stream = s.pipe stream := by
  cases stream with
  | stdout => exact h.stdout
  | stderr => exact h.stderr

theorem Sys.act_leaves (cfg : Config) (w : Oracle) (o : Op) (s : Sys) :
    s.Leaves (s.act cfg w o).2 := by
  have hframe : ∀ t : Sys, t.token = s.token → t.group = s.group → t.exitRx = s.exitRx →
      t.selected = s.selected → t.stdout = s.stdout → t.stderr = s.stderr →
      t.accepted = s.accepted → t.handleYields = s.handleYields → s.Leaves t := fun t => .mk
  cases o with
  | openRawFile | spawnChild | writeRaw =>
      simp only [act]
      split <;> exact hframe _ rfl rfl rfl rfl rfl rfl rfl rfl
  | upsertSnapshot =>
      simp only [act, upsertSnapshot]
      split
      · exact hframe _ rfl rfl rfl rfl rfl rfl rfl rfl
      · split <;> exact hframe _ rfl rfl rfl rfl rfl rfl rfl rfl
  | _ => exact hframe _ rfl rfl rfl rfl rfl rfl rfl rfl

/-- Only `spawnWaitTask` touches the wait task. -/
theorem Sys.act_wait (cfg : Config) (w : Oracle) (o : Op) (s : Sys) :
    ((s.act cfg w o).2.wait = s.wait ∧ (s.act cfg w o).2.waitTasks = s.waitTasks) ∨
      ∃ procGroup, (s.act cfg w o).2.wait = { pc := .spawned, procGroup } ∧
        (s.act cfg w o).2.waitTasks = s.waitTasks ++ [procGroup] := by
  cases o with
  | openRawFile | spawnChild | writeRaw => simp only [act]; split <;> exact Or.inl ⟨rfl, rfl⟩
  | upsertSnapshot =>
      simp only [act, upsertSnapshot]
      split
      · exact Or.inl ⟨rfl, rfl⟩
      · split <;> exact Or.inl ⟨rfl, rfl⟩
  | spawnWaitTask procGroup => exact Or.inr ⟨procGroup, rfl, rfl⟩
  | _ => exact Or.inl ⟨rfl, rfl⟩

/-- No wait task yet, or the one that watches the child. -/
inductive Sys.Tasked (s : Sys) : Prop where
  | unspawned (htasks : s.waitTasks = []) (hwait : s.wait = {})
  | spawned (pid) (hchild : s.child = some pid)
      (htasks : s.waitTasks = [ProcessGroup.assign (some pid)])
      (hgroup : s.wait.procGroup = ProcessGroup.assign (some pid))
      (hpc : s.wait.pc ≠ .unspawned)

private theorem attended_of_nonempty {d : Ledger} (h : d.InLifecycle)
    (hne : d.waitTasks ≠ []) : d.Attended := by
  obtain ⟨life, -, hagrees⟩ := h
  cases life with
  | started c => exact hagrees.2.1.resolve_left hne
  | exited => exact hagrees.1
  | finalized => exact hagrees.1
  | _ => exact absurd hagrees hne

/-- What a step of the driver does to the wait task: nothing, or it spawns it. -/
theorem Sys.DriverMove.wait_cases {cfg : Config} {s t : Sys} (ht : Sys.Reachable cfg t)
    (h : s.DriverMove cfg t) :
    (t.wait = s.wait ∧ t.waitTasks = s.waitTasks) ∨
    ∃ pid, s.waitTasks = [] ∧ t.child = some pid ∧
      t.waitTasks = [ProcessGroup.assign (some pid)] ∧
      t.wait = { pc := .spawned, procGroup := ProcessGroup.assign (some pid) } := by
  cases h with
  | op w o k hctl =>
      rcases s.act_wait cfg w o with hsame | ⟨procGroup, hwait, htasks⟩
      · exact Or.inl hsame
      · have hne : (s.act cfg w o).2.waitTasks ≠ [] := by simp [htasks]
        obtain ⟨pid, hchild, hone⟩ := attended_of_nonempty ht.inLifecycle hne
        have hboth : s.waitTasks ++ [procGroup] = [ProcessGroup.assign (some pid)] :=
          htasks.symm.trans hone
        obtain ⟨hempty, hpg⟩ : s.waitTasks = [] ∧
            procGroup = ProcessGroup.assign (some pid) := by
          simpa [List.append_eq_singleton_iff] using hboth
        subst hpg
        exact Or.inr ⟨pid, hempty, hchild, hone, hwait⟩
  | _ => exact Or.inl ⟨rfl, rfl⟩

/-- A step of the wait task is one of a task that was spawned. -/
theorem Sys.WaitMove.spawned {cfg : Config} {s t : Sys} (h : s.WaitMove cfg t) :
    s.wait.pc ≠ .unspawned ∧ t.wait.pc ≠ .unspawned ∧
      t.wait.procGroup = s.wait.procGroup ∧ t.waitTasks = s.waitTasks ∧
      t.child = s.child := by
  cases h <;> simp_all [Sys.waitAt, Sys.send, Sys.insertEvent]

theorem Sys.Reachable.tasked {cfg : Config} {s : Sys} (hs : Sys.Reachable cfg s) :
    s.Tasked := by
  refine hs.invariant (I := Sys.Tasked) (.unspawned rfl rfl) ?_
  intro s t _ ht htasked hmove
  have hkept : t.child = s.child → t.wait = s.wait → t.waitTasks = s.waitTasks →
      t.Tasked := by
    intro hchild hwait htasks
    cases htasked with
    | unspawned hnone hinit => exact .unspawned (htasks.trans hnone) (hwait.trans hinit)
    | spawned pid hpid hone hgroup hpc =>
        exact .spawned pid (hchild.trans hpid) (htasks.trans hone) (hwait ▸ hgroup)
          (hwait ▸ hpc)
  cases hmove with
  | driver h =>
      rcases h.wait_cases ht with ⟨hwait, htasks⟩ | ⟨pid, -, hchild, hone, hwait⟩
      · cases htasked with
        | unspawned hnone hinit => exact .unspawned (htasks.trans hnone) (hwait.trans hinit)
        | spawned pid _ hone hgroup hpc =>
            have hone' : t.waitTasks = [ProcessGroup.assign (some pid)] := htasks.trans hone
            obtain ⟨pid', hchild', hone''⟩ :=
              attended_of_nonempty ht.inLifecycle (d := t.ledger cfg)
                (by simp [Sys.ledger, hone'])
            have hsame : ProcessGroup.assign (some pid') = ProcessGroup.assign (some pid) := by
              simpa [Sys.ledger, hone'] using hone''.symm
            have hpid : pid' = pid := by simpa [ProcessGroup.assign] using hsame
            exact .spawned pid (hpid ▸ hchild') hone' (hwait ▸ hgroup) (hwait ▸ hpc)
      · exact .spawned pid hchild hone (by rw [hwait]) (by rw [hwait]; simp)
  | wait h =>
      obtain ⟨hpc, hpc', hgroup, htasks, hchild⟩ := h.spawned
      cases htasked with
      | unspawned _ hinit => rw [hinit] at hpc; exact absurd rfl hpc
      | spawned pid hpid hone hpg _ =>
          exact .spawned pid (hchild.trans hpid) (htasks.trans hone) (hgroup.trans hpg) hpc'
  | world h => exact hkept h.tasks.child h.tasks.wait h.tasks.waitTasks

/-- A step of the driver leaves the wait task where it is, or spawns it. -/
theorem Sys.DriverMove.wait_pc {cfg : Config} {s t : Sys} (hs : Sys.Reachable cfg s)
    (ht : Sys.Reachable cfg t) (h : s.DriverMove cfg t) :
    t.wait.pc = s.wait.pc ∨ (s.wait.pc = .unspawned ∧ t.wait.pc = .spawned) := by
  rcases h.wait_cases ht with ⟨hwait, -⟩ | ⟨pid, hnone, -, -, hwait⟩
  · exact Or.inl (by rw [hwait])
  · cases hs.tasked with
    | unspawned _ hinit => exact Or.inr ⟨by rw [hinit], by rw [hwait]⟩
    | spawned _ _ hone => rw [hone] at hnone; cases hnone

/-- What tells a task that was not polled yet from none at all is all it changes. -/
theorem Sys.DriverMove.wait_same {cfg : Config} {s t : Sys} (hs : Sys.Reachable cfg s)
    (ht : Sys.Reachable cfg t) (h : s.DriverMove cfg t) {α : Type} (f : WaitPc → α)
    (hf : f .spawned = f .unspawned) : f t.wait.pc = f s.wait.pc := by
  rcases h.wait_pc hs ht with hsame | ⟨hbefore, hafter⟩
  · rw [hsame]
  · rw [hbefore, hafter, hf]

/-! The exit channel. -/

/-- The task has handed over its outcome. -/
def WaitPc.delivered : WaitPc → Bool
  | .finished _ => true
  | _ => false

/-- The channel is empty until the wait task is done, and the driver has
received exactly what was in it. -/
def Sys.Channel (s : Sys) : Prop :=
  match s.exitRx with
  | .empty => s.wait.pc.delivered = false ∧ exitIn s.selected = none
  | .sent _ => s.wait.pc.delivered = true ∧ exitIn s.selected = none
  | .taken outcome => s.wait.pc.delivered = true ∧ exitIn s.selected = some outcome

theorem Sys.channel_of_eq {s t : Sys} (h : s.Channel) (hrx : t.exitRx = s.exitRx)
    (hpc : t.wait.pc.delivered = s.wait.pc.delivered)
    (hexit : exitIn t.selected = exitIn s.selected) : t.Channel := by
  unfold Channel at h ⊢
  rw [hrx, hpc, hexit]
  exact h

/-- What a step of the driver does to the exit channel: nothing, or it takes
the value out. -/
theorem Sys.DriverMove.channel_cases {cfg : Config} {s t : Sys}
    (hs : Sys.Reachable cfg s) (h : s.DriverMove cfg t) :
    (t.exitRx = s.exitRx ∧ exitIn t.selected = exitIn s.selected) ∨
    ∃ outcome, s.exitRx = .sent outcome ∧ t.exitRx = .taken outcome ∧
      exitIn t.selected = some outcome := by
  cases h with
  | op w o k hctl =>
      have hleaves := s.act_leaves cfg w o
      exact Or.inl ⟨hleaves.exitRx, congrArg exitIn hleaves.selected⟩
  | leave v hctl hended => exact Or.inl ⟨rfl, rfl⟩
  | pending v hctl hended hout herr => exact Or.inl ⟨rfl, rfl⟩
  | stdout v result hctl hended hdone hready =>
      exact Or.inl ⟨rfl, by simp [Sys.selectDone, exitIn_append, SelectResult.exit?]⟩
  | stderr v result hctl hended hdone hout hready =>
      exact Or.inl ⟨rfl, by simp [Sys.selectDone, exitIn_append, SelectResult.exit?]⟩
  | exit v outcome hctl hended hdone hout herr hready =>
      have htracked : v.Tracks s.selected := tracked_of_top cfg s v hs hctl
      have hnone : exitIn s.selected = none := by simpa [hdone] using htracked.exited
      exact Or.inr ⟨outcome, hready, rfl,
        by simp [Sys.selectDone, exitIn_append, hnone, SelectResult.exit?]⟩

theorem Sys.WaitMove.channel_cases {cfg : Config} {s t : Sys} (h : s.WaitMove cfg t) :
    t.selected = s.selected ∧ s.wait.pc.delivered = false ∧
      ((t.exitRx = s.exitRx ∧ t.wait.pc.delivered = false) ∨
        ∃ outcome, t.exitRx = .sent outcome ∧ t.wait.pc.delivered = true) := by
  have hbefore : s.wait.pc.delivered = false := by cases h <;> simp [WaitPc.delivered, *]
  cases h with
  | deliver outcome branch hpc => exact ⟨rfl, hbefore, Or.inr ⟨outcome, rfl, rfl⟩⟩
  | _ => exact ⟨rfl, hbefore, Or.inl ⟨rfl, rfl⟩⟩

theorem Sys.Reachable.channel {cfg : Config} {s : Sys} (hs : Sys.Reachable cfg s) :
    s.Channel := by
  refine hs.invariant (I := Sys.Channel) ⟨rfl, rfl⟩ ?_
  intro s t hs ht hchannel hmove
  cases hmove with
  | driver h =>
      have hpc : t.wait.pc.delivered = s.wait.pc.delivered := h.wait_same hs ht _ rfl
      rcases h.channel_cases hs with ⟨hrx, hexit⟩ | ⟨outcome, hrx, hrx', hexit⟩
      · exact s.channel_of_eq hchannel hrx hpc hexit
      · simp only [Sys.Channel, hrx] at hchannel
        simp only [Sys.Channel, hrx']
        exact ⟨hpc.trans hchannel.1, hexit⟩
  | wait h =>
      obtain ⟨hsel, hbefore, hafter⟩ := h.channel_cases
      rcases hafter with ⟨hrx, hpc⟩ | ⟨outcome, hrx, hpc⟩
      · exact s.channel_of_eq hchannel hrx (hpc.trans hbefore.symm) (congrArg exitIn hsel)
      · have hnone : exitIn s.selected = none := by
          unfold Sys.Channel at hchannel
          split at hchannel <;> simp_all
        simp only [Sys.Channel, hrx]
        exact ⟨hpc, (congrArg exitIn hsel).trans hnone⟩
  | world h =>
      exact s.channel_of_eq hchannel h.tasks.exitRx (by rw [h.tasks.wait])
        (congrArg exitIn h.tasks.selected)

/-- The driver has received an exit only from a wait task that is done. -/
theorem Sys.Reachable.delivered_of_exit {cfg : Config} {s : Sys} (hs : Sys.Reachable cfg s)
    {outcome : WaitOutcome} (h : exitIn s.selected = some outcome) :
    s.exitRx = .taken outcome ∧ s.wait.pc.delivered = true := by
  have hchannel := hs.channel
  unfold Sys.Channel at hchannel
  split at hchannel
  · simp_all
  · simp_all
  · next _ hrx =>
      rw [h] at hchannel
      exact ⟨hrx.trans (congrArg Oneshot.taken (Option.some.inj hchannel.2).symm), hchannel.1⟩

/-! The pipes. -/

/-- The pipe has ended and there is nothing left to read from it. -/
def Pipe.Over (p : Pipe) : Prop := p.fin.isSome ∧ p.held = [] ∧ p.avail = []

theorem Pipe.Over.dropFuture {p : Pipe} (h : p.Over) : p.dropFuture.Over := ⟨h.1, rfl, h.2.2⟩

/-- A poll that delivers no line leaves nothing behind. -/
theorem Pipe.over_of_ended {p : Pipe} {stream : Stream}
    {result : Option (Except IoError String)} (hready : p.nextLine.1 = some result)
    (hend : SelectResult.ends stream (.line stream result) = true) :
    p.nextLine.2.Over := by
  have hpoll := p.nextLine_poll
  rw [hready] at hpoll
  cases hpoll with
  | terminated q hline => simp [SelectResult.ends] at hend
  | unterminated q hline => simp [SelectResult.ends] at hend
  | eof q heof hrest hheld havail hfin => exact ⟨by simp [hfin, heof], hheld, havail⟩
  | failed q error hfail hheld havail hfin => exact ⟨by simp [hfin, hfail], hheld, havail⟩

theorem Pipe.Over.polled {p : Pipe} (h : p.Over) {done : Bool} (hdone : done = true) :
    (p.polled done).Over := by
  rw [Pipe.polled, if_pos hdone]
  exact h

/-- A stream the select loop is done with has nothing left to read. -/
theorem Sys.Reachable.pipe_over {cfg : Config} {s : Sys} (hs : Sys.Reachable cfg s) :
    ∀ stream, endedIn stream s.selected = true → (s.pipe stream).Over := by
  refine hs.invariant
    (I := fun s => ∀ stream, endedIn stream s.selected = true → (s.pipe stream).Over)
    (fun stream h => by cases h) ?_
  intro s t hs _ hover hmove
  cases hmove with
  | driver h =>
      cases h with
      | op w o k hctl =>
          have hleaves := s.act_leaves cfg w o
          intro stream hended
          have hended' : endedIn stream (s.act cfg w o).2.selected = true := hended
          rw [hleaves.selected] at hended'
          have hpipe : (s.act cfg w o).2.pipe stream = s.pipe stream := hleaves.pipe stream
          exact hpipe ▸ hover stream hended'
      | leave v hctl hended => exact fun stream => by cases stream <;> exact hover _
      | pending v hctl hended hout herr =>
          have htracked : v.Tracks s.selected := tracked_of_top cfg s v hs hctl
          intro stream hended
          have hdone := (htracked.done stream).trans hended
          cases stream <;> exact (hover _ hended).polled hdone
      | stdout v result hctl hended hdone hready =>
          have htracked : v.Tracks s.selected := tracked_of_top cfg s v hs hctl
          intro stream hend
          replace hend := (endedIn_append stream s.selected _).symm.trans hend
          cases stream with
          | stdout =>
              rw [← htracked.done] at hend
              simp only [LoopVars.done, hdone, Bool.false_or] at hend
              exact (Pipe.over_of_ended hready hend).dropFuture
          | stderr =>
              rw [SelectResult.ends_of_ne (by decide), Bool.or_false] at hend
              exact (hover .stderr hend).dropFuture
      | stderr v result hctl hended hdone hout hready =>
          have htracked : v.Tracks s.selected := tracked_of_top cfg s v hs hctl
          intro stream hend
          replace hend := (endedIn_append stream s.selected _).symm.trans hend
          cases stream with
          | stdout =>
              rw [SelectResult.ends_of_ne (by decide), Bool.or_false] at hend
              have hdone' : v.stdoutDone = true := (htracked.done .stdout).trans hend
              exact ((hover .stdout hend).polled hdone').dropFuture
          | stderr =>
              rw [← htracked.done] at hend
              simp only [LoopVars.done, hdone, Bool.false_or] at hend
              exact (Pipe.over_of_ended hready hend).dropFuture
      | exit v outcome hctl hended hdone hout herr hready =>
          have htracked : v.Tracks s.selected := tracked_of_top cfg s v hs hctl
          intro stream hend
          have hend' : endedIn stream s.selected = true := by
            simpa [Sys.selectDone, endedIn_append, SelectResult.ends] using hend
          have hdone' := (htracked.done stream).trans hend'
          cases stream <;> exact ((hover _ hend').polled hdone').dropFuture
  | wait h =>
      intro stream hended
      have hsel := h.channel_cases.1
      have hpipe : t.pipe stream = s.pipe stream := by cases h <;> cases stream <;> rfl
      rw [hsel] at hended
      exact hpipe ▸ hover stream hended
  | world h =>
      cases h with
      | arrive stream _ hchild hfin | close stream _ hchild hfin =>
          intro stream' hended
          cases stream <;> cases stream' <;>
            first
            | exact hover _ hended
            | exact absurd (hover _ hended).1 (by simp [hfin])
      | _ => exact fun stream => by cases stream <;> exact hover _

end Execra
