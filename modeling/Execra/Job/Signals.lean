import Execra.Job.Cancellation

/-!
The signals a job's process group is sent. The wait task sends them, at two of
its program points, and where it stands says which it has sent: SIGTERM exactly
on its cancel branch, SIGKILL whenever it has to force an end. It stands beyond its first
`select!` on the cancel branch only if the token is cancelled, and then the
driver, which reads the token after the task is done, finds it cancelled too.
-/

namespace Execra

/-- The task has left its first `select!` because of the token. -/
def WaitPc.cancelTaken : WaitPc → Bool
  | .cancelStamp | .cancelSend _ | .cancelInsert _ | .terminate | .grace _ => true
  | .kill branch | .reap branch | .deliver _ branch | .finished branch => branch = .cancelled
  | .unspawned | .spawned | .select => false

/-- The task has sent SIGTERM. -/
def WaitPc.termSent : WaitPc → Bool
  | .grace _ => true
  | .kill branch | .reap branch | .deliver _ branch | .finished branch => branch = .cancelled
  | _ => false

/-- The task has sent SIGKILL, for all its place tells: the cancel branch may
end without. -/
def WaitPc.killSent : WaitPc → Bool
  | .reap _ => true
  | .deliver _ branch | .finished branch => branch = .timedOut
  | _ => false

/-- `child.wait()` has returned to the task. -/
def WaitPc.reaped : WaitPc → Bool
  | .deliver _ _ | .finished _ => true
  | _ => false

/-- What a step that is not the wait task's can do to what the task works
with. -/
structure Sys.Aside (s t : Sys) : Prop where
  pc : t.wait.pc = s.wait.pc ∨ (s.wait.pc = .unspawned ∧ t.wait.pc = .spawned)
  group : t.group = s.group ∨ s.group.Move t.group
  token : s.token = true → t.token = true
  verdict : t.verdict = s.verdict ∨ t.verdict = some s.token

theorem Sys.DriverMove.aside {cfg : Config} {s t : Sys} (hs : Sys.Reachable cfg s)
    (ht : Sys.Reachable cfg t) (h : s.DriverMove cfg t) : s.Aside t := by
  have hpc := h.wait_pc hs ht
  cases h with
  | op w o k hctl =>
      have hleaves := s.act_leaves cfg w o
      refine ⟨hpc, Or.inl hleaves.group, fun h => hleaves.token ▸ h, ?_⟩
      cases Sys.act_hearing hctl rfl with
      | same _ _ _ _ hverdict => exact Or.inl hverdict
      | failSpawn _ _ _ _ _ _ hverdict => exact Or.inl hverdict
      | judge _ _ _ _ hverdict => exact Or.inr hverdict
  | _ => exact ⟨hpc, Or.inl rfl, id, Or.inl rfl⟩

theorem Sys.WorldMove.aside {s t : Sys} {l : Label} (h : s.WorldMove l t) : s.Aside t := by
  cases h with
  | cancelToken hcallers => exact ⟨Or.inl rfl, Or.inl rfl, fun _ => rfl, Or.inl rfl⟩
  | group l g hl hchild hmove => exact ⟨Or.inl rfl, Or.inr hmove, id, Or.inl rfl⟩
  | arrive stream _ | close stream _ =>
      cases stream <;> exact ⟨Or.inl rfl, Or.inl rfl, id, Or.inl rfl⟩
  | _ => exact ⟨Or.inl rfl, Or.inl rfl, id, Or.inl rfl⟩

/-- The wait task has the process group of its child. -/
theorem Sys.Reachable.procGroup {cfg : Config} {s : Sys} (hs : Sys.Reachable cfg s)
    (hpc : s.wait.pc ≠ .unspawned) : ∃ pg, s.wait.procGroup = some pg := by
  cases hs.tasked with
  | unspawned _ hinit => rw [hinit] at hpc; exact absurd rfl hpc
  | spawned pid _ _ hgroup _ => exact ⟨_, hgroup⟩

/-- The task has not reported yet while the driver has not read the token. -/
theorem Sys.WaitMove.verdict_none {cfg : Config} {s t : Sys} (hs : Sys.Reachable cfg s)
    (h : s.WaitMove cfg t) : s.verdict = none := by
  by_contra hread
  have hover : LoopOver s.selected := hs.judged.2.1 (Option.isSome_iff_ne_none.mpr hread)
  obtain ⟨outcome, hexit⟩ := Option.isSome_iff_exists.mp hover.2
  have hdelivered := (hs.delivered_of_exit hexit).2
  rw [h.channel_cases.2.1] at hdelivered
  cases hdelivered

/-- What the place of the wait task says about the signals, the token and the
child. -/
structure Sys.Signalled (s : Sys) : Prop where
  term : .term ∈ s.group.sent ↔ s.wait.pc.termSent = true
  killed : s.wait.pc.killSent = true → .kill ∈ s.group.sent
  token : s.wait.pc.cancelTaken = true → s.token = true
  read : s.wait.pc.cancelTaken = true → s.verdict ≠ some false
  reaped : s.wait.pc.reaped = true → s.group.waitStatus.isSome

theorem Sys.Signalled.aside {s t : Sys} (h : s.Signalled) (haside : s.Aside t) :
    t.Signalled := by
  have hsent : t.group.sent = s.group.sent := by
    rcases haside.group with hsame | hmove
    · rw [hsame]
    · exact hmove.sent
  have hwaited : s.group.waitStatus.isSome → t.group.waitStatus.isSome := by
    rcases haside.group with hsame | hmove
    · rw [hsame]; exact id
    · exact hmove.waitStatus
  rcases haside.pc with hpc | ⟨hbefore, hafter⟩
  · refine ⟨by rw [hsent, hpc]; exact h.term, by rw [hsent, hpc]; exact h.killed,
      by rw [hpc]; exact fun htaken => haside.token (h.token htaken), ?_,
      by rw [hpc]; exact fun hreaped => hwaited (h.reaped hreaped)⟩
    rw [hpc]
    intro htaken
    rcases haside.verdict with hverdict | hverdict
    · rw [hverdict]; exact h.read htaken
    · rw [hverdict, h.token htaken]; simp
  · have hnone : .term ∉ s.group.sent := by
      rw [h.term, hbefore]
      exact Bool.false_ne_true
    refine ⟨?_, ?_, ?_, ?_, ?_⟩ <;> rw [hafter]
    · rw [hsent]; exact ⟨fun hmem => absurd hmem hnone, Bool.noConfusion⟩
    all_goals exact Bool.noConfusion

theorem Sys.Signalled.wait {cfg : Config} {s t : Sys} (h : s.Signalled)
    (hs : Sys.Reachable cfg s) (hmove : s.WaitMove cfg t) : t.Signalled := by
  have hnone := hmove.verdict_none hs
  obtain ⟨pg, hpg⟩ := hs.procGroup hmove.spawned.1
  obtain ⟨hterm, hkilled, htoken, -, hreaped⟩ := h
  cases hmove with
  | terminate hpc =>
      rw [hpc] at hterm htoken
      refine ⟨?_, Bool.noConfusion, fun _ => htoken rfl, fun _ => by simp [waitAt, hnone],
        Bool.noConfusion⟩
      simp [waitAt, terminateChild, hpg, Group.killpg, WaitPc.termSent]
  | kill branch hpc =>
      rw [hpc] at hterm htoken
      have hsent : (killChild s.group s.wait.procGroup).sent = s.group.sent ++ [.kill] := by
        simp [killChild, hpg, Group.killpg]
      refine ⟨?_, fun _ => ?_, htoken, fun _ => by simp [waitAt, hnone], Bool.noConfusion⟩
      · simp only [waitAt, hsent, List.mem_append, List.mem_singleton, reduceCtorEq, or_false]
        exact hterm
      · simp [waitAt, hsent]
  | cancelled hpc hready =>
      rw [hpc] at hterm
      exact ⟨hterm, Bool.noConfusion, fun _ => hready, fun _ => by simp [waitAt, hnone],
        Bool.noConfusion⟩
  | start hpc =>
      rw [hpc] at hterm
      exact ⟨hterm, Bool.noConfusion, Bool.noConfusion, Bool.noConfusion, Bool.noConfusion⟩
  | timedOut hpc hready =>
      rw [hpc] at hterm
      exact ⟨hterm, Bool.noConfusion, Bool.noConfusion, Bool.noConfusion, Bool.noConfusion⟩
  | childExited status hpc hready =>
      rw [hpc] at hterm
      exact ⟨hterm, Bool.noConfusion, Bool.noConfusion, Bool.noConfusion,
        fun _ => by simp [waitAt, hready]⟩
  | graceExit deadline status hpc hready =>
      rw [hpc] at hterm htoken
      exact ⟨hterm, Bool.noConfusion, htoken, fun _ => by simp [waitAt, hnone],
        fun _ => by simp [waitAt, hready]⟩
  | reap branch status hpc hready =>
      rw [hpc] at hterm hkilled htoken
      exact ⟨hterm, fun _ => hkilled rfl, htoken, fun _ => by simp [waitAt, hnone],
        fun _ => by simp [waitAt, hready]⟩
  | deliver outcome branch hpc =>
      rw [hpc] at hterm hkilled htoken hreaped
      exact ⟨hterm, hkilled, htoken, fun _ => by simp [waitAt, hnone], hreaped⟩
  | stamp time hpc =>
      rw [hpc] at hterm htoken
      exact ⟨hterm, Bool.noConfusion, htoken, fun _ => by simp [waitAt, hnone], Bool.noConfusion⟩
  | send time hpc =>
      rw [hpc] at hterm htoken
      exact ⟨hterm, Bool.noConfusion, htoken, fun _ => by simp [waitAt, Sys.send, hnone],
        Bool.noConfusion⟩
  | insert time w hpc =>
      rw [hpc] at hterm htoken
      exact ⟨hterm, Bool.noConfusion, htoken, fun _ => by simp [waitAt, insertEvent, hnone],
        Bool.noConfusion⟩
  | graceOver deadline hpc hready =>
      rw [hpc] at hterm htoken
      exact ⟨hterm, Bool.noConfusion, htoken, fun _ => by simp [waitAt, hnone], Bool.noConfusion⟩

theorem Sys.Reachable.signalled {cfg : Config} {s : Sys} (hs : Sys.Reachable cfg s) :
    s.Signalled := by
  refine hs.invariant (I := Sys.Signalled) ?_ ?_
  · exact ⟨by simp [Sys.init, WaitPc.termSent], Bool.noConfusion, Bool.noConfusion,
      Bool.noConfusion, Bool.noConfusion⟩
  · intro s t hs ht h hmove
    cases hmove with
    | driver hmove => exact h.aside (hmove.aside hs ht)
    | wait hmove => exact h.wait hs hmove
    | world hmove => exact h.aside hmove.aside

end Execra
