import Execra.Model.Pipe

/-!
The child's process group on Unix. The child is spawned as the leader of a
group of its own; descendants join it by being forked. A signal sent with
`killpg` reaches every process that is in the group at that moment. SIGTERM
may be ignored, SIGKILL may not: a process that has been sent SIGKILL does
nothing but exit, so it forks no more.
-/

namespace Execra

inductive Signal where
  | term | kill
deriving DecidableEq, Repr

structure Process where
  ignoresTerm : Bool := false
  gotTerm : Bool := false
  gotKill : Bool := false
  exited : Bool := false
deriving DecidableEq, Repr

/-- Why a process exits: on its own account or because of a signal. -/
inductive ExitCause where
  | own | term | kill
deriving DecidableEq, Repr

def Process.canExit (p : Process) : ExitCause → Bool
  | .own => !p.exited
  | .term => !p.exited && p.gotTerm && !p.ignoresTerm
  | .kill => !p.exited && p.gotKill

def Process.receive (p : Process) : Signal → Process
  | .term => if p.exited then p else { p with gotTerm := true }
  | .kill => if p.exited then p else { p with gotKill := true }

/-- The group of a job. `waitStatus` is what `child.wait()` returns once it is
ready; `sent` lists the signals sent to the group, in order. -/
structure Group where
  leader : Process := {}
  descendants : List Process := []
  waitStatus : Option (Except IoError ExitStatus) := none
  sent : List Signal := []

def Group.members (g : Group) : List Process := g.leader :: g.descendants

/-- `libc::killpg(pgid, sig)`. -/
def Group.killpg (g : Group) (sig : Signal) : Group :=
  { g with
    leader := g.leader.receive sig
    descendants := g.descendants.map (fun p => p.receive sig)
    sent := g.sent ++ [sig] }

/-- `child.start_kill()`: SIGKILL to the leader alone. -/
def Group.startKill (g : Group) : Group := { g with leader := g.leader.receive .kill }

/-- The leader exits and `child.wait()` becomes ready with its status. -/
def Group.exitLeader (g : Group) (cause : ExitCause) (status : ExitStatus) : Option Group :=
  if g.leader.canExit cause && g.waitStatus.isNone then
    some { g with leader := { g.leader with exited := true }, waitStatus := some (.ok status) }
  else none

/-- `child.wait()` becomes ready with an error. -/
def Group.failWait (g : Group) (e : IoError) : Option Group :=
  if g.waitStatus.isNone then some { g with waitStatus := some (.error e) } else none

def Group.exitDescendant (g : Group) (i : Nat) (cause : ExitCause) : Option Group :=
  match g.descendants[i]? with
  | some p =>
      if p.canExit cause then
        some { g with descendants := g.descendants.set i { p with exited := true } }
      else none
  | none => none

/-- Member `i` of the group (the leader is 0) forks a process. -/
def Group.fork (g : Group) (i : Nat) (ignoresTerm : Bool) : Option Group :=
  match g.members[i]? with
  | some p =>
      if !p.exited && !p.gotKill then
        some { g with descendants := g.descendants ++ [{ ignoresTerm := ignoresTerm }] }
      else none
  | none => none

/-- `proc_group::ProcessGroup` on Unix. -/
structure ProcessGroup where
  pgid : Nat
deriving DecidableEq, Repr

/-- `ProcessGroup::assign`, given `child.id()`. -/
def ProcessGroup.assign (childId : Option Nat) : Option ProcessGroup :=
  childId.map (fun pid => { pgid := pid })

/-- `wait::terminate_child`. -/
def terminateChild (g : Group) (procGroup : Option ProcessGroup) : Group :=
  match procGroup with
  | some _ => g.killpg .term
  | none => g.startKill

/-- `wait::kill_child`. -/
def killChild (g : Group) (procGroup : Option ProcessGroup) : Group :=
  match procGroup with
  | some _ => g.killpg .kill
  | none => g.startKill

/-- No process of the group is left running without SIGKILL on its way. -/
def Group.TakenDown (g : Group) : Prop := ∀ p ∈ g.members, p.exited ∨ p.gotKill

/-- Every process of the group has exited. -/
def Group.AllExited (g : Group) : Prop := ∀ p ∈ g.members, p.exited

instance (g : Group) : Decidable g.TakenDown := by unfold Group.TakenDown; infer_instance

instance (g : Group) : Decidable g.AllExited := by unfold Group.AllExited; infer_instance

theorem Group.AllExited.takenDown {g : Group} (h : g.AllExited) : g.TakenDown :=
  fun p hp => Or.inl (h p hp)

theorem Process.receive_kill (p : Process) :
    (p.receive .kill).exited ∨ (p.receive .kill).gotKill := by
  by_cases h : p.exited <;> simp [Process.receive, h]

theorem Group.killpg_kill_takenDown (g : Group) : (g.killpg .kill).TakenDown := by
  intro p hp
  simp only [Group.members, Group.killpg, List.mem_cons, List.mem_map] at hp
  rcases hp with rfl | ⟨q, _, rfl⟩
  · exact g.leader.receive_kill
  · exact q.receive_kill

/-- What the processes of a group do by themselves, with the guards of the
functions above and their results. -/
inductive Group.Move (g : Group) : Group → Prop where
  | exitLeader (cause) (status : ExitStatus) (hcan : g.leader.canExit cause = true)
      (hwaiting : g.waitStatus.isNone = true) :
      Move g { g with
        leader := { g.leader with exited := true }
        waitStatus := some (.ok status) }
  | failWait (error) (hwaiting : g.waitStatus.isNone = true) :
      Move g { g with waitStatus := some (.error error) }
  | exitDescendant (i p cause) (hp : g.descendants[i]? = some p)
      (hcan : p.canExit cause = true) :
      Move g { g with descendants := g.descendants.set i { p with exited := true } }
  | fork (p) (ignoresTerm) (hp : p ∈ g.members) (hrunning : p.exited = false)
      (hspared : p.gotKill = false) :
      Move g { g with descendants := g.descendants ++ [{ ignoresTerm := ignoresTerm }] }

section Move

variable {g g' : Group}

theorem Group.exitLeader_move {cause : ExitCause} {status : ExitStatus}
    (h : g.exitLeader cause status = some g') : g.Move g' := by
  unfold exitLeader at h
  split at h
  · next hguard =>
      cases h
      rw [Bool.and_eq_true] at hguard
      exact .exitLeader cause status hguard.1 hguard.2
  · cases h

theorem Group.failWait_move {error : IoError} (h : g.failWait error = some g') :
    g.Move g' := by
  unfold failWait at h
  split at h
  · next hwaiting => cases h; exact .failWait error hwaiting
  · cases h

theorem Group.exitDescendant_move {i : Nat} {cause : ExitCause}
    (h : g.exitDescendant i cause = some g') : g.Move g' := by
  unfold exitDescendant at h
  split at h
  · next p hp =>
      split at h
      · next hcan => cases h; exact .exitDescendant i p cause hp hcan
      · cases h
  · cases h

theorem Group.fork_move {i : Nat} {ignoresTerm : Bool}
    (h : g.fork i ignoresTerm = some g') : g.Move g' := by
  unfold fork at h
  split at h
  · next p hp =>
      split at h
      · next hguard =>
          cases h
          simp only [Bool.and_eq_true, Bool.not_eq_true'] at hguard
          exact .fork p ignoresTerm (List.mem_of_getElem? hp) hguard.1 hguard.2
      · cases h
  · cases h

/-- Once a group is down, none of its processes brings it back up. -/
theorem Group.TakenDown.move (h : g.TakenDown) (hmove : g.Move g') : g'.TakenDown := by
  cases hmove with
  | exitLeader cause status hcan hwaiting =>
      intro p hp
      rcases List.mem_cons.mp hp with rfl | hp
      · exact Or.inl rfl
      · exact h p (List.mem_cons_of_mem _ hp)
  | failWait error hwaiting => exact h
  | exitDescendant i p cause hp hcan =>
      intro q hq
      rcases List.mem_cons.mp hq with rfl | hq
      · exact h _ List.mem_cons_self
      · rcases List.mem_or_eq_of_mem_set hq with hq | rfl
        · exact h q (List.mem_cons_of_mem _ hq)
        · exact Or.inl rfl
  | fork p ignoresTerm hp hrunning hspared =>
      rcases h p hp with hexited | hkilled
      · rw [hrunning] at hexited; cases hexited
      · rw [hspared] at hkilled; cases hkilled

/-- Nothing the processes do changes the record of the signals sent. -/
theorem Group.Move.sent (hmove : g.Move g') : g'.sent = g.sent := by
  cases hmove <;> rfl

/-- A child that has been reaped stays reaped. -/
theorem Group.Move.waitStatus (hmove : g.Move g') (h : g.waitStatus.isSome) :
    g'.waitStatus.isSome := by
  cases hmove with
  | exitLeader | failWait => rfl
  | exitDescendant | fork => exact h

end Move

end Execra
