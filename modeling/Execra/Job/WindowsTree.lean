import Execra.Job.WindowsMirror

/-!
What becomes of the Job Object and of the processes in it. Its handle is made at most once
and closed before the wait task is over. What the wait task does on Unix to the child alone,
when the child leaves first, is done here to all: dropping the group ends what is attached,
so only a process that was started before the child was attached can be left.
-/

namespace Execra

/-! The calls on the handle. -/

/-- The calls on a handle that is open. -/
def HandleOpen (calls : List HandleCall) : Prop :=
  ∃ rest, calls = .createJobObject :: rest ∧ .createJobObject ∉ rest ∧ .closeHandle ∉ rest

/-- The calls when no handle is open: there was none, or it has been closed. -/
def HandleShut (calls : List HandleCall) : Prop :=
  calls = [] ∨ ∃ opened, HandleOpen opened ∧ calls = opened ++ [.closeHandle]

theorem HandleOpen.call {calls : List HandleCall} {call : HandleCall} (h : HandleOpen calls)
    (hcreate : call ≠ .createJobObject) (hclose : call ≠ .closeHandle) :
    HandleOpen (calls ++ [call]) := by
  obtain ⟨rest, rfl, hone, hopen⟩ := h
  refine ⟨rest ++ [call], rfl, ?_, ?_⟩
  · simp [hone, Ne.symm hcreate]
  · simp [hopen, Ne.symm hclose]

/-- Whether `assign` has the handle. -/
def AssignPc.hasHandle : AssignPc → Bool
  | .setInformation | .rawHandle | .assignProcess | .closeHandle => true
  | .uncalled | .createJobObject | .returned => false

/-- Whether `assign` was called and has not returned. -/
def AssignPc.running : AssignPc → Bool
  | .uncalled | .returned => false
  | _ => true

def JobTree.hasHandle (t : JobTree) : Bool := t.held || t.assign.hasHandle

/-! The processes. -/

/-- It has exited, or it does nothing more but exit. -/
def TreeProcess.IsDown (p : TreeProcess) : Prop := p.exited = true ∨ p.terminated = true

/-- Everything in the Job Object is down. -/
def JobTree.Ended (t : JobTree) : Prop := ∀ p ∈ t.members, p.attached = true → p.IsDown

theorem TreeProcess.terminate_down (p : TreeProcess) : p.terminate.IsDown := by
  unfold terminate
  split
  · next hexited => exact Or.inl hexited
  · exact Or.inr rfl

theorem TreeProcess.terminate_attached (p : TreeProcess) :
    p.terminate.attached = p.attached := by
  unfold terminate
  split <;> rfl

theorem TreeProcess.terminate_exited (p : TreeProcess) : p.terminate.exited = p.exited := by
  unfold terminate
  split <;> rfl

section Handle

variable {t t' : JobTree}

/-- What the calls on the handle have in common with who has it. -/
structure JobTree.HandleKept (t : JobTree) : Prop where
  opened : t.hasHandle = true → HandleOpen t.handleCalls
  shut : t.hasHandle = false → HandleShut t.handleCalls
  unmade : t.assign = .uncalled ∨ t.assign = .createJobObject → t.handleCalls = []
  held : t.held = true → t.assign = .returned ∧ t.killOnClose = true
  limited : t.assign = .rawHandle ∨ t.assign = .assignProcess → t.killOnClose = true

theorem JobTree.HandleKept.stirs (h : t.HandleKept) (hstirs : t.Stirs t') :
    t'.HandleKept := by
  cases hstirs <;> exact ⟨h.opened, h.shut, h.unmade, h.held, h.limited⟩

theorem JobTree.HandleKept.not_held (h : t.HandleKept) (hassign : t.assign ≠ .returned) :
    t.held = false := by
  rw [Bool.eq_false_iff]
  intro hheld
  exact hassign (h.held hheld).1

theorem JobTree.HandleKept.launch (h : t.HandleKept) (hassign : t.assign = .uncalled) :
    JobTree.HandleKept { t with assign := .createJobObject } := by
  have hnone : t.handleCalls = [] := h.unmade (Or.inl hassign)
  have hheld : t.held = false := h.not_held (by rw [hassign]; exact AssignPc.noConfusion)
  refine ⟨fun hhas => ?_, fun _ => Or.inl hnone, fun _ => hnone, fun hhas => ?_, fun hlater => ?_⟩
  · simp [hasHandle, hheld, AssignPc.hasHandle] at hhas
  · rw [hheld] at hhas
    cases hhas
  · rcases hlater with hlater | hlater <;> cases hlater

theorem JobTree.killChild_held (t : JobTree) : t.killChild.held = t.held := by
  unfold killChild
  split <;> rfl

theorem JobTree.killChild_dropped (t : JobTree) : t.killChild.dropped = t.dropped := by
  unfold killChild
  split <;> rfl

theorem JobTree.HandleKept.killChild (h : t.HandleKept) : t.killChild.HandleKept := by
  unfold JobTree.killChild
  split
  · next hheld =>
      have hopen : HandleOpen t.handleCalls := h.opened (by simp [hasHandle, hheld])
      have hreturned := (h.held hheld).1
      refine ⟨fun _ => ?_, fun hhas => ?_, fun hfirst => ?_, h.held, h.limited⟩
      · exact hopen.call HandleCall.noConfusion HandleCall.noConfusion
      · change (t.held || t.assign.hasHandle) = false at hhas
        simp [hheld] at hhas
      · change t.assign = .uncalled ∨ t.assign = .createJobObject at hfirst
        rw [hreturned] at hfirst
        rcases hfirst with hfirst | hfirst <;> cases hfirst
  · exact ⟨h.opened, h.shut, h.unmade, h.held, h.limited⟩

theorem JobTree.closeHandle_calls (t : JobTree) :
    t.closeHandle.handleCalls = t.handleCalls ++ [.closeHandle] := by
  unfold closeHandle
  split <;> rfl

theorem JobTree.closeHandle_assign (t : JobTree) : t.closeHandle.assign = t.assign := by
  unfold closeHandle
  split <;> rfl

theorem JobTree.closeHandle_held (t : JobTree) : t.closeHandle.held = t.held := by
  unfold closeHandle
  split <;> rfl

theorem JobTree.closeHandle_dropped (t : JobTree) : t.closeHandle.dropped = t.dropped := by
  unfold closeHandle
  split <;> rfl

/-- The handle is closed, and nobody has it. -/
theorem JobTree.HandleKept.closed (hopen : HandleOpen t.handleCalls)
    (hcalls : t'.handleCalls = t.handleCalls ++ [.closeHandle]) (hheld : t'.held = false)
    (hassign : t'.assign = .returned) : t'.HandleKept := by
  refine ⟨fun hhas => ?_, fun _ => Or.inr ⟨_, hopen, hcalls⟩, fun hfirst => ?_, fun hhas => ?_,
    fun hlater => ?_⟩
  · simp [hasHandle, hheld, hassign, AssignPc.hasHandle] at hhas
  · rw [hassign] at hfirst
    rcases hfirst with hfirst | hfirst <;> cases hfirst
  · rw [hheld] at hhas
    cases hhas
  · rw [hassign] at hlater
    rcases hlater with hlater | hlater <;> cases hlater

theorem JobTree.HandleKept.dropGroup (h : t.HandleKept) : t.dropGroup.HandleKept := by
  unfold JobTree.dropGroup
  split
  · next hheld =>
      have hopen : HandleOpen t.handleCalls := h.opened (by simp [hasHandle, hheld])
      exact .closed hopen t.closeHandle_calls rfl (t.closeHandle_assign.trans (h.held hheld).1)
  · exact h

theorem JobTree.HandleKept.dropAll (h : t.HandleKept) : t.dropAll.HandleKept := by
  have hgroup := h.dropGroup
  unfold JobTree.dropAll dropChild
  split <;> exact ⟨hgroup.opened, hgroup.shut, hgroup.unmade, hgroup.held, hgroup.limited⟩

/-- While `assign` goes on with the handle it has. -/
theorem JobTree.HandleKept.goes_on (hopen : HandleOpen t'.handleCalls)
    (hhas : t'.assign.hasHandle = true) (hheld : t'.held = false)
    (hlimited : t'.assign = .rawHandle ∨ t'.assign = .assignProcess → t'.killOnClose = true) :
    t'.HandleKept := by
  refine ⟨fun _ => hopen, fun hnone => ?_, fun hfirst => ?_, fun hother => ?_, hlimited⟩
  · simp [hasHandle, hhas] at hnone
  · rcases hfirst with hfirst | hfirst <;> rw [hfirst] at hhas <;> cases hhas
  · rw [hheld] at hother
    cases hother

theorem JobTree.HandleKept.assign (h : t.HandleKept) {ok : Bool}
    (hstep : t.assignStep ok = some t') : t'.HandleKept := by
  have hcalled : t.assign ≠ .returned := by
    intro hreturned
    rw [assignStep, hreturned] at hstep
    cases hstep
  have hheld : t.held = false := h.not_held hcalled
  unfold assignStep at hstep
  cases hassign : t.assign with
  | uncalled | returned =>
      rw [hassign] at hstep
      cases hstep
  | createJobObject =>
      have hnone : t.handleCalls = [] := h.unmade (Or.inr hassign)
      rw [hassign] at hstep
      cases ok with
      | true =>
          cases hstep
          refine .goes_on ⟨[], ?_, List.not_mem_nil, List.not_mem_nil⟩ rfl hheld ?_
          · change t.handleCalls ++ [_] = _
            rw [hnone]
            rfl
          · rintro (hlater | hlater) <;> cases hlater
      | false =>
          cases hstep
          refine ⟨fun hhas => ?_, fun _ => Or.inl hnone, fun _ => hnone, fun hhas => ?_, ?_⟩
          · simp [hasHandle, hheld, AssignPc.hasHandle] at hhas
          · change t.held = true at hhas
            rw [hheld] at hhas
            cases hhas
          · rintro (hlater | hlater) <;> cases hlater
  | setInformation =>
      have hbefore := h.opened (by simp [hasHandle, hassign, AssignPc.hasHandle])
      have hopen : HandleOpen (t.handleCalls ++ [.setInformation]) :=
        hbefore.call HandleCall.noConfusion HandleCall.noConfusion
      rw [hassign] at hstep
      cases ok with
      | true =>
          cases hstep
          exact .goes_on hopen rfl hheld (fun _ => rfl)
      | false =>
          cases hstep
          refine .goes_on hopen rfl hheld ?_
          rintro (hlater | hlater) <;> cases hlater
  | rawHandle =>
      have hopen := h.opened (by simp [hasHandle, hassign, AssignPc.hasHandle])
      rw [hassign] at hstep
      cases ok with
      | true =>
          cases hstep
          exact .goes_on hopen rfl hheld (fun _ => h.limited (Or.inl hassign))
      | false =>
          cases hstep
          refine .goes_on hopen rfl hheld ?_
          rintro (hlater | hlater) <;> cases hlater
  | assignProcess =>
      have hbefore := h.opened (by simp [hasHandle, hassign, AssignPc.hasHandle])
      have hopen : HandleOpen (t.handleCalls ++ [.assignProcess]) :=
        hbefore.call HandleCall.noConfusion HandleCall.noConfusion
      have hlimited := h.limited (Or.inr hassign)
      rw [hassign] at hstep
      cases ok with
      | true =>
          cases hstep
          refine ⟨fun _ => hopen, fun hhas => ?_, fun hfirst => ?_, fun _ => ⟨rfl, hlimited⟩,
            fun _ => hlimited⟩
          · cases hhas
          · rcases hfirst with hfirst | hfirst <;> cases hfirst
      | false =>
          cases hstep
          refine .goes_on hopen rfl hheld ?_
          rintro (hlater | hlater) <;> cases hlater
  | closeHandle =>
      have hopen := h.opened (by simp [hasHandle, hassign, AssignPc.hasHandle])
      rw [hassign] at hstep
      cases hstep
      exact .closed hopen t.closeHandle_calls (t.closeHandle_held.trans hheld) rfl

end Handle

section Processes

variable {t t' : JobTree}

/-- What the processes of a tree have in common: nothing is attached if there is no group,
the child is known to have exited only if it has, and if no process was started before the
child was attached all are. -/
structure JobTree.ProcessesKept (t : JobTree) : Prop where
  loose : t.held = false → t.dropped = false → ∀ p ∈ t.members, p.attached = false
  reaped : ∀ status, t.waitStatus = some (.ok status) → t.leader.exited = true
  first : t.startedEarly = false → t.assign ≠ .returned → t.descendants = []
  whole : t.startedEarly = false → t.leader.attached = true →
    ∀ p ∈ t.descendants, p.attached = true

/-- An operation that changes no process but by terminating it. -/
structure JobTree.Terminates (t t' : JobTree) : Prop where
  leader : t'.leader = t.leader ∨ t'.leader = t.leader.terminate
  descendants : ∀ p' ∈ t'.descendants, ∃ p ∈ t.descendants, p' = p ∨ p' = p.terminate
  waitStatus : t'.waitStatus = t.waitStatus
  startedEarly : t'.startedEarly = t.startedEarly
  assign : t'.assign = t.assign

theorem JobTree.Terminates.refl (t : JobTree) : t.Terminates t :=
  ⟨Or.inl rfl, fun p hp => ⟨p, hp, Or.inl rfl⟩, rfl, rfl, rfl⟩

theorem TreeProcess.terminate_terminate (p : TreeProcess) :
    p.terminate.terminate = p.terminate := by
  obtain ⟨attached, terminated, exited⟩ := p
  cases exited <;> rfl

theorem TreeProcess.terminates_trans {p q r : TreeProcess} (hq : q = p ∨ q = p.terminate)
    (hr : r = q ∨ r = q.terminate) : r = p ∨ r = p.terminate := by
  rcases hq with rfl | rfl
  · exact hr
  · rw [p.terminate_terminate] at hr
    rcases hr with rfl | rfl <;> exact Or.inr rfl

theorem JobTree.Terminates.trans {u : JobTree} (h : t.Terminates t') (h' : t'.Terminates u) :
    t.Terminates u := by
  refine ⟨TreeProcess.terminates_trans h.leader h'.leader, fun r hr => ?_,
    h'.waitStatus.trans h.waitStatus, h'.startedEarly.trans h.startedEarly,
    h'.assign.trans h.assign⟩
  obtain ⟨q, hq, hlater⟩ := h'.descendants r hr
  obtain ⟨p, hp, hbefore⟩ := h.descendants q hq
  exact ⟨p, hp, TreeProcess.terminates_trans hbefore hlater⟩

theorem JobTree.endAttached_terminates (t : JobTree) : t.Terminates t.endAttached := by
  refine ⟨?_, fun q hq => ?_, rfl, rfl, rfl⟩
  · simp only [endAttached]
    split
    · exact Or.inr rfl
    · exact Or.inl rfl
  · obtain ⟨p, hp, rfl⟩ := List.mem_map.mp hq
    refine ⟨p, hp, ?_⟩
    split
    · exact Or.inr rfl
    · exact Or.inl rfl

theorem JobTree.startKill_terminates (t : JobTree) : t.Terminates t.startKill :=
  ⟨Or.inr rfl, fun p hp => ⟨p, hp, Or.inl rfl⟩, rfl, rfl, rfl⟩

theorem JobTree.closeHandle_terminates (t : JobTree) : t.Terminates t.closeHandle := by
  unfold closeHandle
  split
  · have h := t.endAttached_terminates
    exact ⟨h.leader, h.descendants, h.waitStatus, h.startedEarly, h.assign⟩
  · exact ⟨Or.inl rfl, fun p hp => ⟨p, hp, Or.inl rfl⟩, rfl, rfl, rfl⟩

theorem JobTree.killChild_terminates (t : JobTree) : t.Terminates t.killChild := by
  unfold killChild
  split
  · have h := t.endAttached_terminates
    exact ⟨h.leader, h.descendants, h.waitStatus, h.startedEarly, h.assign⟩
  · exact t.startKill_terminates

theorem JobTree.dropGroup_terminates (t : JobTree) : t.Terminates t.dropGroup := by
  unfold dropGroup
  split
  · have h := t.closeHandle_terminates
    exact ⟨h.leader, h.descendants, h.waitStatus, h.startedEarly, h.assign⟩
  · exact .refl t

theorem TreeProcess.attached_of_terminated {p q : TreeProcess} (h : q = p ∨ q = p.terminate) :
    q.attached = p.attached := by
  rcases h with rfl | rfl
  · rfl
  · exact p.terminate_attached

theorem JobTree.Terminates.mem (h : t.Terminates t') {q : TreeProcess} (hq : q ∈ t'.members) :
    ∃ p ∈ t.members, q = p ∨ q = p.terminate := by
  rcases List.mem_cons.mp hq with rfl | hq
  · exact ⟨t.leader, List.mem_cons_self, h.leader⟩
  · obtain ⟨p, hp, hsame⟩ := h.descendants q hq
    exact ⟨p, List.mem_cons_of_mem _ hp, hsame⟩

theorem JobTree.Terminates.ended (h : t.Terminates t') (hended : t.Ended) : t'.Ended := by
  intro q hq hattached
  obtain ⟨p, hp, hsame⟩ := h.mem hq
  rw [TreeProcess.attached_of_terminated hsame] at hattached
  rcases hsame with rfl | rfl
  · exact hended q hp hattached
  · exact p.terminate_down

theorem JobTree.ProcessesKept.terminates (h : t.ProcessesKept) (hterminates : t.Terminates t')
    (hloose : t'.held = false → t'.dropped = false → t.held = false ∧ t.dropped = false) :
    t'.ProcessesKept := by
  constructor
  · intro hheld hdropped q hq
    obtain ⟨p, hp, hsame⟩ := hterminates.mem hq
    rw [TreeProcess.attached_of_terminated hsame]
    obtain ⟨hbefore, hlater⟩ := hloose hheld hdropped
    exact h.loose hbefore hlater p hp
  · intro status hstatus
    rw [hterminates.waitStatus] at hstatus
    rcases hterminates.leader with hsame | hsame <;> rw [hsame]
    · exact h.reaped status hstatus
    · rw [TreeProcess.terminate_exited]
      exact h.reaped status hstatus
  · intro hearly hassign
    rw [hterminates.startedEarly] at hearly
    rw [hterminates.assign] at hassign
    rw [List.eq_nil_iff_forall_not_mem]
    intro q hq
    obtain ⟨p, hp, -⟩ := hterminates.descendants q hq
    rw [h.first hearly hassign] at hp
    exact List.not_mem_nil hp
  · intro hearly hattached q hq
    rw [hterminates.startedEarly] at hearly
    rw [TreeProcess.attached_of_terminated hterminates.leader] at hattached
    obtain ⟨p, hp, hsame⟩ := hterminates.descendants q hq
    rw [TreeProcess.attached_of_terminated hsame]
    exact h.whole hearly hattached p hp

theorem JobTree.endAttached_ended (t : JobTree) : t.endAttached.Ended := by
  have hdown : ∀ p : TreeProcess, (if p.attached then p.terminate else p).attached = true →
      (if p.attached then p.terminate else p).IsDown := by
    intro p
    split
    · intro _
      exact p.terminate_down
    · next hloose =>
        intro hattached
        exact absurd hattached hloose
  intro q hq hattached
  rcases List.mem_cons.mp hq with rfl | hq
  · exact hdown t.leader hattached
  · obtain ⟨p, -, rfl⟩ := List.mem_map.mp hq
    exact hdown p hattached

theorem JobTree.ProcessesKept.loose_ended (h : t.ProcessesKept) (hheld : t.held = false)
    (hdropped : t.dropped = false) : t.Ended := by
  intro p hp hattached
  rw [h.loose hheld hdropped p hp] at hattached
  cases hattached

/-- `kill` ends all that is attached, or there is nothing attached. -/
theorem JobTree.ProcessesKept.killChild_ended (h : t.ProcessesKept)
    (hdropped : t.dropped = false) : t.killChild.Ended := by
  unfold killChild
  split
  · exact t.endAttached_ended
  · next hheld =>
      exact t.startKill_terminates.ended (h.loose_ended (Bool.eq_false_iff.mpr hheld) hdropped)

theorem JobTree.dropChild_terminates (t : JobTree) : t.Terminates t.dropChild := by
  unfold dropChild
  split
  · exact .refl t
  · exact t.startKill_terminates

theorem JobTree.dropGroup_ended (h : t.ProcessesKept) (hhandle : t.HandleKept)
    (hdropped : t.dropped = false) : t.dropGroup.Ended := by
  unfold dropGroup
  split
  · next hheld =>
      change t.closeHandle.Ended
      unfold closeHandle
      rw [if_pos (hhandle.held hheld).2]
      exact t.endAttached_ended
  · next hheld => exact h.loose_ended (Bool.eq_false_iff.mpr hheld) hdropped

/-- The wait task leaves nothing of the Job Object, and it leaves the child dead. -/
theorem JobTree.dropAll_ended (h : t.ProcessesKept) (hhandle : t.HandleKept)
    (hdropped : t.dropped = false) : t.dropAll.Ended ∧ t.dropAll.leader.IsDown := by
  have hended := t.dropGroup.dropChild_terminates.ended (dropGroup_ended h hhandle hdropped)
  refine ⟨hended, ?_⟩
  change t.dropGroup.dropChild.leader.IsDown
  unfold dropChild
  split
  · next status hstatus =>
      rw [t.dropGroup_waitStatus] at hstatus
      have hexited : t.leader.exited = true := h.reaped status hstatus
      rcases t.dropGroup_terminates.leader with hsame | hsame <;> rw [hsame]
      · exact Or.inl hexited
      · exact t.leader.terminate_down
  · exact t.dropGroup.leader.terminate_down

theorem JobTree.ProcessesKept.dropAll (h : t.ProcessesKept) : t.dropAll.ProcessesKept := by
  have hboth := t.dropGroup_terminates.trans t.dropGroup.dropChild_terminates
  have hall : t.Terminates t.dropAll := ⟨hboth.leader, hboth.descendants, hboth.waitStatus,
    hboth.startedEarly, hboth.assign⟩
  refine h.terminates hall (fun _ hdropped => ?_)
  cases hdropped

theorem JobTree.ProcessesKept.stirs (h : t.ProcessesKept) (hstirs : t.Stirs t') :
    t'.ProcessesKept := by
  cases hstirs with
  | exitLeader code hrunning =>
      refine ⟨fun hheld hdropped p hp => ?_, fun _ _ => rfl, h.first, h.whole⟩
      rcases List.mem_cons.mp hp with rfl | hp
      · exact h.loose hheld hdropped t.leader List.mem_cons_self
      · exact h.loose hheld hdropped p (List.mem_cons_of_mem _ hp)
  | exitDescendant i p hp hrunning =>
      have hmem : p ∈ t.descendants := List.mem_of_getElem? hp
      refine ⟨fun hheld hdropped q hq => ?_, h.reaped, fun hearly hassign => ?_,
        fun hearly hattached q hq => ?_⟩
      · rcases List.mem_cons.mp hq with rfl | hq
        · exact h.loose hheld hdropped t.leader List.mem_cons_self
        · rcases List.mem_or_eq_of_mem_set hq with hq | rfl
          · exact h.loose hheld hdropped q (List.mem_cons_of_mem _ hq)
          · exact h.loose hheld hdropped p (List.mem_cons_of_mem _ hmem)
      · rw [h.first hearly hassign] at hmem
        exact absurd hmem List.not_mem_nil
      · rcases List.mem_or_eq_of_mem_set hq with hq | rfl
        · exact h.whole hearly hattached q hq
        · exact h.whole hearly hattached p hmem
  | failWait error hwaiting =>
      exact ⟨h.loose, fun _ hother => (by cases hother), h.first, h.whole⟩
  | start p hp hrunning hspared =>
      refine ⟨fun hheld hdropped q hq => ?_, h.reaped, fun hearly hassign => ?_,
        fun hearly hattached q hq => ?_⟩
      · rcases List.mem_cons.mp hq with rfl | hq
        · exact h.loose hheld hdropped t.leader List.mem_cons_self
        · rcases List.mem_append.mp hq with hq | hq
          · exact h.loose hheld hdropped q (List.mem_cons_of_mem _ hq)
          · rw [List.mem_singleton.mp hq]
            exact h.loose hheld hdropped p hp
      · change (t.startedEarly || decide (t.assign ≠ .returned)) = false at hearly
        change t.assign ≠ .returned at hassign
        simp [hassign] at hearly
      · change (t.startedEarly || decide (t.assign ≠ .returned)) = false at hearly
        rw [Bool.or_eq_false_iff] at hearly
        rcases List.mem_append.mp hq with hq | hq
        · exact h.whole hearly.1 hattached q hq
        · rw [List.mem_singleton.mp hq]
          rcases List.mem_cons.mp hp with rfl | hp
          · exact hattached
          · exact h.whole hearly.1 hattached p hp

/-- What starts from a process that is up was not attached, or something attached is up. -/
theorem JobTree.Ended.stirs (h : t.Ended) (hstirs : t.Stirs t') : t'.Ended := by
  cases hstirs with
  | exitLeader code hrunning =>
      intro p hp hattached
      rcases List.mem_cons.mp hp with rfl | hp
      · exact Or.inl rfl
      · exact h p (List.mem_cons_of_mem _ hp) hattached
  | exitDescendant i p hp hrunning =>
      intro q hq hattached
      rcases List.mem_cons.mp hq with rfl | hq
      · exact h t.leader List.mem_cons_self hattached
      · rcases List.mem_or_eq_of_mem_set hq with hq | rfl
        · exact h q (List.mem_cons_of_mem _ hq) hattached
        · exact Or.inl rfl
  | failWait error hwaiting => exact h
  | start p hp hrunning hspared =>
      intro q hq hattached
      rcases List.mem_cons.mp hq with rfl | hq
      · exact h t.leader List.mem_cons_self hattached
      · rcases List.mem_append.mp hq with hq | hq
        · exact h q (List.mem_cons_of_mem _ hq) hattached
        · rw [List.mem_singleton.mp hq] at hattached
          rcases h p hp hattached with hdown | hdown
          · rw [hrunning] at hdown
            cases hdown
          · rw [hspared] at hdown
            cases hdown

theorem JobTree.ProcessesKept.assign (h : t.ProcessesKept) (hheld : t.held = false)
    {ok : Bool} (hstep : t.assignStep ok = some t') : t'.ProcessesKept := by
  unfold assignStep at hstep
  cases hassign : t.assign with
  | uncalled | returned =>
      rw [hassign] at hstep
      cases hstep
  | createJobObject | setInformation | rawHandle =>
      have hbare : t.startedEarly = false → t.descendants = [] := by
        intro hearly
        exact h.first hearly (by rw [hassign]; exact AssignPc.noConfusion)
      rw [hassign] at hstep
      cases ok <;> cases hstep <;>
        exact ⟨h.loose, h.reaped, fun hearly _ => hbare hearly, h.whole⟩
  | assignProcess =>
      have hbare : t.startedEarly = false → t.descendants = [] := by
        intro hearly
        exact h.first hearly (by rw [hassign]; exact AssignPc.noConfusion)
      rw [hassign] at hstep
      cases ok with
      | false =>
          cases hstep
          exact ⟨h.loose, h.reaped, fun hearly _ => hbare hearly, h.whole⟩
      | true =>
          cases hstep
          refine ⟨fun hother => ?_, h.reaped, fun _ hother => absurd rfl hother,
            fun hearly _ p hp => ?_⟩
          · cases hother
          · change p ∈ t.descendants at hp
            rw [hbare hearly] at hp
            exact absurd hp List.not_mem_nil
  | closeHandle =>
      rw [hassign] at hstep
      cases hstep
      have hclosed := h.terminates t.closeHandle_terminates (fun _ hdropped =>
        ⟨hheld, t.closeHandle_dropped.symm.trans hdropped⟩)
      exact ⟨hclosed.loose, hclosed.reaped, fun _ hother => absurd rfl hother, hclosed.whole⟩

theorem JobTree.Stirs.same (h : t.Stirs t') :
    t'.assign = t.assign ∧ t'.held = t.held ∧ t'.dropped = t.dropped := by
  cases h <;> exact ⟨rfl, rfl, rfl⟩

theorem JobTree.Stirs.leader_down (h : t.Stirs t') (hdown : t.leader.IsDown) :
    t'.leader.IsDown := by
  cases h with
  | exitLeader code hrunning => exact Or.inl rfl
  | _ => exact hdown

theorem JobTree.assignStep_called {ok : Bool} (h : t.assignStep ok = some t') :
    t.assign.running = true ∧ t'.assign ≠ .uncalled ∧ t'.dropped = t.dropped := by
  unfold assignStep at h
  cases hassign : t.assign <;> rw [hassign] at h <;> cases ok <;> cases h <;>
    first
      | exact ⟨rfl, AssignPc.noConfusion, rfl⟩
      | exact ⟨rfl, AssignPc.noConfusion, t.closeHandle_dropped⟩

theorem AssignPc.hasHandle_of_idle {pc : AssignPc} (h : pc.running = false) :
    pc.hasHandle = false := by
  cases pc <;> first | rfl | cases h

theorem JobTree.dropAll_assign (t : JobTree) : t.dropAll.assign = t.assign :=
  (t.dropGroup_terminates.trans t.dropGroup.dropChild_terminates).assign

theorem JobTree.dropAll_held (t : JobTree) : t.dropAll.held = false := by
  have hgroup : t.dropGroup.held = false := by
    unfold dropGroup
    split
    · rfl
    · next hheld => exact Bool.eq_false_iff.mpr hheld
  change t.dropGroup.dropChild.held = false
  unfold dropChild
  split <;> exact hgroup

end Processes

/-! Whole jobs. -/

/-- The wait task has made the child end: `terminate_child` was called, or `kill_child` and
not the child has brought it to where it is. -/
def WaitPc.pastKill : WaitPc → Bool
  | .grace _ | .reap _ => true
  | .kill branch => branch = .cancelled
  | .deliver _ branch | .finished branch => branch ≠ .exited
  | _ => false

/-- It does so in steps that act on the child. -/
theorem Sys.waitStep_pastKill {cfg : Config} {w : Oracle} {s t : Sys} {c : WaitChoice}
    (hmeets : s.wait.pc.meetsChild c = false) (h : s.waitStep cfg w c = some t)
    (hpast : t.wait.pc.pastKill = true) : s.wait.pc.pastKill = true := by
  cases c with
  | child => cases hmeets
  | go =>
      cases hpc : s.wait.pc with
      | spawned | cancelStamp | cancelSend time | cancelInsert time =>
          simp only [waitStep, hpc] at h
          cases h
          cases hpast
      | deliver outcome branch =>
          simp only [waitStep, hpc] at h
          cases h
          exact hpast
      | terminate | kill branch | reap branch =>
          rw [hpc] at hmeets
          cases hmeets
      | _ =>
          simp only [waitStep, hpc] at h
          cases h
  | cancel =>
      cases hpc : s.wait.pc <;> simp only [waitStep, hpc] at h <;> first
        | cases h
        | (split at h <;> cases h; cases hpast)
  | timer =>
      cases hpc : s.wait.pc with
      | select =>
          simp only [waitStep, hpc] at h
          split at h
          · cases h
            cases hpast
          · cases h
      | grace deadline => rfl
      | _ =>
          simp only [waitStep, hpc] at h
          cases h

/-- What a job on Windows keeps. -/
structure WindowsSys.Kept (cfg : Config) (s : WindowsSys) : Prop where
  mirrored : s.Mirrored cfg
  handle : s.tree.HandleKept
  processes : s.tree.ProcessesKept
  uncalled : s.tree.assign = .uncalled → s.sys.child = none
  running : s.tree.assign.running = true → s.sys.wait.pc = .unspawned
  gone : s.tree.dropped = true → (∃ branch, s.sys.wait.pc = .finished branch) ∧
    s.tree.hasHandle = false ∧ s.tree.leader.IsDown
  ended : s.sys.wait.pc.pastKill = true ∨ s.tree.dropped = true → s.tree.Ended

section Kept

variable {cfg : Config} {s t : WindowsSys}

theorem WindowsSys.kept_init : (WindowsSys.init cfg).Kept cfg := by
  refine ⟨⟨{}, Transition.Reachable.refl _, rfl⟩, ?_, ?_, fun _ => rfl, fun h => ?_,
    fun h => ?_, fun h => ?_⟩
  · refine ⟨fun h => ?_, fun _ => Or.inl rfl, fun _ => rfl, fun h => ?_, fun h => ?_⟩
    · cases h
    · cases h
    · rcases h with h | h <;> cases h
  · refine ⟨fun _ _ p hp => ?_, fun _ h => ?_, fun _ _ => rfl, fun _ h => ?_⟩
    · rw [List.mem_singleton.mp hp]
      rfl
    · cases h
    · cases h
  · cases h
  · cases h
  · rcases h with h | h <;> cases h

/-- A step that spawns the child does nothing to the wait task. -/
theorem Sys.driverStep_spawns {w : Oracle} {s t : Sys} (h : s.driverStep cfg w = some t)
    (hnone : s.child = none) (hsome : t.child.isSome) : t.wait = s.wait := by
  rcases Sys.driverStep_cases h with ⟨o, k, hctl, rfl⟩ | ⟨v, hctl, hmove⟩
  · cases o with
    | spawnWaitTask procGroup =>
        change s.child.isSome = true at hsome
        rw [hnone] at hsome
        cases hsome
    | openRawFile | spawnChild | writeRaw =>
        simp only [act]
        split <;> rfl
    | upsertSnapshot =>
        simp only [act, upsertSnapshot]
        split
        · rfl
        · split <;> rfl
    | _ => rfl
  · cases hmove with
    | op w o k hother =>
        rw [hctl] at hother
        cases hother
    | _ => rfl

/-- A step of the driver on the job alone: the wait task stays where it is, or it was
spawned. -/
theorem WindowsSys.Kept.driver_pc {w : Oracle} {sys : Sys} (h : s.Kept cfg)
    (hstep : s.sys.driverStep cfg w = some sys) :
    sys.wait.pc = s.sys.wait.pc ∨ (s.sys.wait.pc = .unspawned ∧ sys.wait.pc = .spawned) := by
  obtain ⟨g, hreach, -⟩ := h.mirrored
  have hunix : (s.sys.withGroup g).driverStep cfg w = some (sys.withGroup g) := by
    rw [Sys.driverStep_withGroup, hstep, Option.map_some]
  have hnext : Sys.Reachable cfg (sys.withGroup g) := hreach.extend (l := .driver w) hunix
  have hpc := (Sys.driverStep_move hunix).wait_pc hreach hnext
  exact hpc

/-- Without a child there is no wait task. -/
theorem WindowsSys.Kept.unspawned_of_childless (h : s.Kept cfg) (hnone : s.sys.child = none) :
    s.sys.wait.pc = .unspawned := by
  obtain ⟨g, hreach, -⟩ := h.mirrored
  cases hreach.tasked with
  | unspawned _ hinit =>
      change s.sys.wait = {} at hinit
      rw [hinit]
  | spawned pid hchild _ _ _ =>
      change s.sys.child = some pid at hchild
      rw [hnone] at hchild
      cases hchild

/-- What a step on the job alone has to do. -/
theorem WindowsSys.Kept.beside {sys : Sys} (h : s.Kept cfg)
    (hmirrored : WindowsSys.Mirrored cfg { s with sys })
    (hchild : s.tree.assign = .uncalled → sys.child = none)
    (hpc : sys.wait.pc = s.sys.wait.pc ∨ s.tree.assign.running = false ∧
      (∀ branch, s.sys.wait.pc ≠ .finished branch) ∧
      (sys.wait.pc.pastKill = true → s.sys.wait.pc.pastKill = true)) :
    WindowsSys.Kept cfg { s with sys } := by
  refine ⟨hmirrored, h.handle, h.processes, hchild, fun hrunning => ?_, fun hdropped => ?_,
    fun hlate => ?_⟩
  · rcases hpc with hsame | ⟨hidle, -, -⟩
    · exact hsame.trans (h.running hrunning)
    · change s.tree.assign.running = true at hrunning
      rw [hidle] at hrunning
      cases hrunning
  · obtain ⟨⟨branch, hfinished⟩, hshut⟩ := h.gone hdropped
    rcases hpc with hsame | ⟨-, hopen, -⟩
    · exact ⟨⟨branch, hsame.trans hfinished⟩, hshut⟩
    · exact absurd hfinished (hopen branch)
  · apply h.ended
    rcases hlate with hpast | hdropped
    · rcases hpc with hsame | ⟨-, -, hbefore⟩
      · rw [← hsame]
        exact Or.inl hpast
      · exact Or.inl (hbefore hpast)
    · exact Or.inr hdropped

theorem AssignPc.not_running {pc : AssignPc} (h : pc = .uncalled ∨ pc = .returned) :
    pc.running = false := by
  rcases h with rfl | rfl <;> rfl

/-- The wait task is there only when `assign` has returned or was never called. -/
theorem WindowsSys.Kept.idle (h : s.Kept cfg) (hpc : s.sys.wait.pc ≠ .unspawned) :
    s.tree.assign.running = false := by
  rw [Bool.eq_false_iff]
  intro hrunning
  exact hpc (h.running hrunning)

theorem WindowsSys.Kept.not_dropped (h : s.Kept cfg)
    (hpc : ∀ branch, s.sys.wait.pc ≠ .finished branch) : s.tree.dropped = false := by
  rw [Bool.eq_false_iff]
  intro hdropped
  obtain ⟨⟨branch, hfinished⟩, -⟩ := h.gone hdropped
  exact hpc branch hfinished

/-- The wait task acts on the child, and goes on to where it has made it end. -/
theorem WindowsSys.Kept.kills {pc : WaitPc} (h : s.Kept cfg)
    (hmirrored : WindowsSys.Mirrored cfg { sys := s.sys.waitAt pc, tree := s.tree.killChild })
    (hspawned : s.sys.wait.pc ≠ .unspawned)
    (hopen : ∀ branch, s.sys.wait.pc ≠ .finished branch) :
    WindowsSys.Kept cfg { sys := s.sys.waitAt pc, tree := s.tree.killChild } := by
  have hdropped : s.tree.dropped = false := h.not_dropped hopen
  have hkept : s.tree.killChild.dropped = s.tree.dropped := s.tree.killChild_dropped
  have hassign : s.tree.killChild.assign = s.tree.assign := s.tree.killChild_terminates.assign
  refine ⟨hmirrored, h.handle.killChild, ?_, fun huncalled => ?_, fun hrunning => ?_,
    fun hlater => ?_, fun _ => h.processes.killChild_ended hdropped⟩
  · refine h.processes.terminates s.tree.killChild_terminates (fun hheld hother => ?_)
    exact ⟨s.tree.killChild_held.symm.trans hheld, hkept.symm.trans hother⟩
  · exact h.uncalled (hassign.symm.trans huncalled)
  · change s.tree.killChild.assign.running = true at hrunning
    rw [hassign, h.idle hspawned] at hrunning
    cases hrunning
  · change s.tree.killChild.dropped = true at hlater
    rw [hkept, hdropped] at hlater
    cases hlater

theorem WindowsSys.Kept.step (h : s.Kept cfg) (hmove : s.Move cfg t) : t.Kept cfg := by
  have hmirrored := h.mirrored.step hmove
  cases hmove with
  | launch w sys hassign hstep hchild =>
      have hnone : s.sys.child = none := h.uncalled hassign
      have hwait : sys.wait = s.sys.wait := Sys.driverStep_spawns hstep hnone hchild
      have hunspawned : s.sys.wait.pc = .unspawned := h.unspawned_of_childless hnone
      have hdropped : s.tree.dropped = false := by
        apply h.not_dropped
        intro branch hfinished
        rw [hunspawned] at hfinished
        cases hfinished
      refine ⟨hmirrored, h.handle.launch hassign, ?_, fun huncalled => ?_, fun _ => ?_,
        fun hlater => ?_, fun hlate => ?_⟩
      · refine ⟨h.processes.loose, h.processes.reaped, fun hearly _ => ?_, h.processes.whole⟩
        exact h.processes.first hearly (by rw [hassign]; exact AssignPc.noConfusion)
      · cases huncalled
      · change sys.wait.pc = .unspawned
        rw [hwait, hunspawned]
      · change s.tree.dropped = true at hlater
        rw [hdropped] at hlater
        cases hlater
      · change sys.wait.pc.pastKill = true ∨ s.tree.dropped = true at hlate
        rw [hwait, hunspawned, hdropped] at hlate
        rcases hlate with hlate | hlate <;> cases hlate
  | driver w sys hstep hassign =>
      refine h.beside hmirrored (fun huncalled => ?_) ?_
      · rcases hassign with ⟨-, hnone⟩ | hreturned
        · exact hnone
        · rw [huncalled] at hreturned
          cases hreturned
      · rcases h.driver_pc hstep with hsame | ⟨hbefore, hafter⟩
        · exact Or.inl hsame
        · refine Or.inr ⟨AssignPc.not_running (hassign.imp And.left id), fun branch hother => ?_,
            fun hpast => ?_⟩
          · rw [hbefore] at hother
            cases hother
          · rw [hafter] at hpast
            cases hpast
  | assign ok tree hstep =>
      obtain ⟨hrunning, hcalled, hsame⟩ := JobTree.assignStep_called hstep
      have hunspawned : s.sys.wait.pc = .unspawned := h.running hrunning
      have hdropped : s.tree.dropped = false := by
        apply h.not_dropped
        rw [hunspawned]
        exact fun _ => WaitPc.noConfusion
      have hheld : s.tree.held = false := by
        apply h.handle.not_held
        intro hreturned
        rw [hreturned] at hrunning
        cases hrunning
      refine ⟨hmirrored, h.handle.assign hstep, h.processes.assign hheld hstep,
        fun huncalled => absurd huncalled hcalled, fun _ => hunspawned, fun hlater => ?_,
        fun hlate => ?_⟩
      · change tree.dropped = true at hlater
        rw [hsame, hdropped] at hlater
        cases hlater
      · change s.sys.wait.pc.pastKill = true ∨ tree.dropped = true at hlate
        rw [hunspawned, hsame, hdropped] at hlate
        rcases hlate with hlate | hlate <;> cases hlate
  | wait c w sys hmeets hstep =>
      have hspawned := (Sys.waitStep_move hstep).spawned
      refine h.beside hmirrored (fun huncalled => ?_)
        (Or.inr ⟨h.idle hspawned.1, fun branch hother => ?_, Sys.waitStep_pastKill hmeets hstep⟩)
      · exact hspawned.2.2.2.2.trans (h.uncalled huncalled)
      · cases c <;> simp [Sys.waitStep, hother] at hstep
  | terminate hpc =>
      apply h.kills hmirrored
      · rw [hpc]; exact WaitPc.noConfusion
      · rw [hpc]; exact fun _ => WaitPc.noConfusion
  | kill branch hpc =>
      apply h.kills hmirrored
      · rw [hpc]; exact WaitPc.noConfusion
      · rw [hpc]; exact fun _ => WaitPc.noConfusion
  | childExited status hpc hready =>
      refine h.beside hmirrored h.uncalled (Or.inr ⟨h.idle ?_, ?_, fun hpast => ?_⟩)
      · rw [hpc]; exact WaitPc.noConfusion
      · rw [hpc]; exact fun _ => WaitPc.noConfusion
      · cases hpast
  | graceExit deadline status hpc hready =>
      refine h.beside hmirrored h.uncalled (Or.inr ⟨h.idle ?_, ?_, fun _ => ?_⟩)
      · rw [hpc]; exact WaitPc.noConfusion
      · rw [hpc]; exact fun _ => WaitPc.noConfusion
      · rw [hpc]; rfl
  | reap branch status hpc hready =>
      refine h.beside hmirrored h.uncalled (Or.inr ⟨h.idle ?_, ?_, fun _ => ?_⟩)
      · rw [hpc]; exact WaitPc.noConfusion
      · rw [hpc]; exact fun _ => WaitPc.noConfusion
      · rw [hpc]; rfl
  | drop branch hpc hfirst =>
      have hidle : s.tree.assign.running = false :=
        h.idle (by rw [hpc]; exact WaitPc.noConfusion)
      obtain ⟨hended, hdown⟩ := JobTree.dropAll_ended h.processes h.handle hfirst
      have hassign : s.tree.dropAll.assign = s.tree.assign := s.tree.dropAll_assign
      refine ⟨hmirrored, h.handle.dropAll, h.processes.dropAll, fun huncalled => ?_,
        fun hrunning => ?_, fun _ => ⟨⟨branch, hpc⟩, ?_, hdown⟩, fun _ => hended⟩
      · exact h.uncalled (hassign.symm.trans huncalled)
      · change s.tree.dropAll.assign.running = true at hrunning
        rw [hassign, hidle] at hrunning
        cases hrunning
      · change (s.tree.dropAll.held || s.tree.dropAll.assign.hasHandle) = false
        rw [s.tree.dropAll_held, hassign, Bool.false_or]
        exact AssignPc.hasHandle_of_idle hidle
  | aside l sys haside hstep =>
      cases Sys.step_by hstep with
      | driver w hdriver => cases haside
      | wait c w hwait => cases haside
      | world _ hworld =>
          have hsame := hworld.tasks
          refine h.beside hmirrored (fun huncalled => ?_) (Or.inl ?_)
          · exact hsame.child.trans (h.uncalled huncalled)
          · rw [hsame.wait]
  | stirs tree hchild hstirs =>
      obtain ⟨hassign, hheld, hdropped⟩ := hstirs.same
      refine ⟨hmirrored, h.handle.stirs hstirs, h.processes.stirs hstirs, fun huncalled => ?_,
        fun hrunning => ?_, fun hlater => ?_, fun hlate => ?_⟩
      · exact h.uncalled (hassign.symm.trans huncalled)
      · change tree.assign.running = true at hrunning
        rw [hassign] at hrunning
        exact h.running hrunning
      · obtain ⟨hfinished, hshut, hdown⟩ := h.gone (hdropped.symm.trans hlater)
        refine ⟨hfinished, ?_, hstirs.leader_down hdown⟩
        change (tree.held || tree.assign.hasHandle) = false
        rw [hheld, hassign]
        exact hshut
      · refine JobTree.Ended.stirs (h.ended ?_) hstirs
        rcases hlate with hpast | hlater
        · exact Or.inl hpast
        · exact Or.inr (hdropped.symm.trans hlater)

theorem WindowsSys.kept_of_run {ls : List WindowsLabel}
    (hrun : Transition.run (WindowsSys.step cfg) (WindowsSys.init cfg) ls = some s) :
    s.Kept cfg := by
  have hreach : Transition.Reachable (WindowsSys.step cfg) (WindowsSys.init cfg) s := ⟨ls, hrun⟩
  apply hreach.invariant WindowsSys.kept_init
  intro s l t h hstep
  exact h.step (WindowsSys.step_move hstep)

end Kept

/-- The handle of the Job Object is made at most once, before any other call, and nothing
is called on it when it was closed. While `assign` or a `ProcessGroup` has it, it is open;
when neither has, it was never made or it is closed; and the wait task leaves it to nobody. -/
theorem job_object_closed_once {cfg : Config} {ls : List WindowsLabel} {s : WindowsSys}
    (hrun : Transition.run (WindowsSys.step cfg) (WindowsSys.init cfg) ls = some s) :
    (s.tree.hasHandle = true → HandleOpen s.tree.handleCalls) ∧
    (s.tree.hasHandle = false → HandleShut s.tree.handleCalls) ∧
    (s.tree.dropped = true → HandleShut s.tree.handleCalls) := by
  have h := WindowsSys.kept_of_run hrun
  exact ⟨h.handle.opened, h.handle.shut, fun hdropped => h.handle.shut (h.gone hdropped).2.1⟩

/-- It is made, limited, given the child, and closed. -/
theorem job_object_closed_once_attached :
    attachedEnd.tree.handleCalls.length = 4 ∧ HandleShut attachedEnd.tree.handleCalls := by
  have h := job_object_closed_once (Transition.run_endOf _ attachedRun attached_runs)
  exact ⟨by decide +kernel, h.2.2 (by decide +kernel)⟩

/-- On Windows the wait task ends all that is in the Job Object: at once when it acts on a
cancelled or timed out job, and in every case when it is over, however the child has left.
Then the child is down too; and if it is in the Job Object, and nothing was started before
it was, no process of the job is left. -/
theorem windows_job_ends_tree {cfg : Config} {ls : List WindowsLabel} {s : WindowsSys}
    (hrun : Transition.run (WindowsSys.step cfg) (WindowsSys.init cfg) ls = some s) :
    (s.sys.wait.pc.pastKill = true ∨ s.tree.dropped = true →
      ∀ p ∈ s.tree.members, p.attached = true → p.IsDown) ∧
    (s.tree.dropped = true → s.tree.leader.IsDown ∧
      (s.tree.leader.attached = true → s.tree.startedEarly = false →
        ∀ p ∈ s.tree.members, p.IsDown)) := by
  have h := WindowsSys.kept_of_run hrun
  refine ⟨h.ended, fun hdropped => ⟨(h.gone hdropped).2.2, fun hattached hearly p hp => ?_⟩⟩
  apply h.ended (Or.inr hdropped) p hp
  rcases List.mem_cons.mp hp with rfl | hp
  · exact hattached
  · exact h.processes.whole hearly hattached p hp

/-- The process that the child has started outlives the child, but not the wait task. -/
theorem windows_job_ends_tree_attached : attachedEnd.tree.members.length = 2 ∧
    ∀ p ∈ attachedEnd.tree.members, p.IsDown := by
  have h := windows_job_ends_tree (Transition.run_endOf _ attachedRun attached_runs)
  exact ⟨by decide +kernel, (h.2 (by decide +kernel)).2 (by decide +kernel) (by decide +kernel)⟩

end Execra
