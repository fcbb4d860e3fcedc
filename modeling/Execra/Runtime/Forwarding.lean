import Execra.Runtime.Channel
import Execra.Runtime.Permits

/-!
Whether a forwarder ends after its job. It stops at `Finalized`, which is one value
of a channel that all jobs send on. A forwarder that has not read it yet loses it
when 1024 more events are sent, and then nothing it can still receive will stop it.
-/

namespace Execra

/-! A turn of the forwarder, on either path. -/

namespace Forwarder

variable {f f' : Forwarder}

theorem turn_open {w : Wakeup} (h : f.turn w = some f') : f.stopped = false := by
  by_contra hstopped
  simp [turn, hstopped] at h

theorem turn_event {event : Event} (h : f.turn (.next (some event)) = some f') :
    ∃ state, f' = { f with
      state
      delivered := f.delivered ++ f.builder.deliver event false
      stopped := event.body.isFinalized } := by
  have hopen := turn_open h
  unfold turn at h
  rw [hopen, if_neg (by simp)] at h
  cases hcreep : f.builder.creep with
  | none => rw [hcreep] at h; cases h; exact ⟨_, rfl⟩
  | some creep => rw [hcreep] at h; cases h; exact ⟨_, rfl⟩

theorem turn_of_open (hopen : f.stopped = false) (event : Event) :
    ∃ f', f.turn (.next (some event)) = some f' := by
  unfold turn
  rw [hopen, if_neg (by simp)]
  cases f.builder.creep <;> exact ⟨_, rfl⟩

theorem turn_ticked {now : SystemTime} (h : f.turn (.tick now) = some f') :
    ∃ state delivered, f' = { f with state, delivered } := by
  have hopen := turn_open h
  unfold turn at h
  rw [hopen, if_neg (by simp)] at h
  cases hcreep : f.builder.creep with
  | none => rw [hcreep] at h; cases h
  | some creep =>
      rw [hcreep] at h
      obtain ⟨cs, -, rfl⟩ := Option.map_eq_some_iff.mp h
      rcases cs.tick with ⟨_ | value, cs'⟩ <;> exact ⟨_, _, rfl⟩

end Forwarder

/-! A round of the stream. -/

section Round

variable {stream : EventStream} {events : EventChannel} {history : List Event} {job : JobId}

/-- What the stream finds, in terms of the events that were sent. -/
inductive EventStream.Rounds (stream : EventStream) (job : JobId) (oldest : Nat)
    (history : List Event) : Round → Prop where
  | pending (hread : history.length ≤ stream.rx) : Rounds stream job oldest history .pending
  | lagged (hbehind : stream.rx < oldest) :
      Rounds stream job oldest history (.again { stream with rx := oldest })
  | other (event) (hkept : oldest ≤ stream.rx) (hvalue : history[stream.rx]? = some event)
      (hjob : event.job ≠ job) :
      Rounds stream job oldest history (.again { stream with rx := stream.rx + 1 })
  | own (event) (hkept : oldest ≤ stream.rx) (hvalue : history[stream.rx]? = some event)
      (hjob : event.job = job) :
      Rounds stream job oldest history (.ready event { stream with rx := stream.rx + 1 })

theorem EventStream.round_cases (hcarries : events.Carries history)
    (hfilter : stream.filter = some job) :
    stream.Rounds job events.oldest history (stream.round events) := by
  obtain ⟨rx, filter⟩ := stream
  obtain rfl : filter = some job := hfilter
  have hreads := hcarries.recv rx
  unfold round
  generalize events.recv rx = found at hreads ⊢
  cases hreads with
  | lagged hlagged => exact .lagged hlagged
  | value event hkept hvalue =>
      simp only [Option.any_some]
      split
      · next hother => exact .other event hkept hvalue (by simpa using hother)
      · next hown => exact .own event hkept hvalue (by simpa using hown)
  | empty hkept hread => exact .pending hread

end Round

namespace ForwardTask

/-- The event the forwarder stops at. -/
def ends (task : ForwardTask) (event : Event) : Bool :=
  event.job = task.forwarder.job && event.body.isFinalized

/-- The receiver has been read to its end. -/
def Drained (task : ForwardTask) (events : EventChannel) : Prop :=
  task.forwarder.stopped = true ∨ (events.recv task.stream.rx).1 = .empty

/-- The forwarder has delivered `Finalized`, to everyone and last, and returned. -/
def Ended (task : ForwardTask) : Prop :=
  task.forwarder.stopped = true ∧ ∃ event, task.ends event = true ∧
    task.forwarder.builder.deliver event false <:+ task.forwarder.delivered

/-- The receiver of a forwarder that runs. -/
structure Tuned (task : ForwardTask) (history : List Event) : Prop where
  filter : task.stream.filter = some task.forwarder.job
  rx : task.stream.rx ≤ history.length

/-- The forwarder has not lost `Finalized`: it has not been sent, it can still be
received, or the forwarder has ended with it. -/
inductive Keeps (history : List Event) (oldest : Nat) (task : ForwardTask) : Prop where
  | waiting (hopen : task.forwarder.stopped = false)
      (hbefore : ∀ event ∈ history, task.ends event = false)
  | coming (p event) (hopen : task.forwarder.stopped = false) (hp : history[p]? = some event)
      (hends : task.ends event = true) (hahead : task.stream.rx ≤ p) (hkept : oldest ≤ p)
  | ended (p event) (hp : history[p]? = some event) (hends : task.ends event = true)
      (hpast : p < task.stream.rx) (hended : task.Ended)

/-- `Finalized` was sent and is gone, and the forwarder has not had it. -/
def Lost (history : List Event) (oldest : Nat) (task : ForwardTask) : Prop :=
  task.forwarder.stopped = false ∧ ∃ p event, history[p]? = some event ∧
    task.ends event = true ∧ p < oldest

variable {history : List Event} {events : EventChannel} {task : ForwardTask} {event : Event}

/-! Another event is sent. -/

theorem Tuned.send (h : task.Tuned history) : task.Tuned (history ++ [event]) :=
  ⟨h.filter, by simpa using Nat.le_succ_of_le h.rx⟩

private theorem getElem?_of_append {p : Nat} {found : Event} (hp : history[p]? = some found) :
    (history ++ [event])[p]? = some found := by
  rw [List.getElem?_append_left (List.getElem?_eq_some_iff.mp hp).1, hp]

theorem Lost.send (h : Lost history events.oldest task) :
    Lost (history ++ [event]) (events.send event).oldest task := by
  obtain ⟨hopen, p, found, hp, hends, hgone⟩ := h
  exact ⟨hopen, p, found, getElem?_of_append hp, hends,
    Nat.lt_of_lt_of_le hgone (Broadcast.oldest_le_send event)⟩

theorem Keeps.send (h : Keeps history events.oldest task) (htuned : task.Tuned history)
    (hcarries : events.Carries history)
    (hkeeps : ∀ found, events.overruns task.stream.rx = some found → task.ends found = false) :
    Keeps (history ++ [event]) (events.send event).oldest task := by
  have htail := hcarries.tail
  cases h with
  | waiting hopen hbefore =>
      cases hends : task.ends event with
      | false =>
          refine .waiting hopen (fun found hfound => ?_)
          rcases List.mem_append.mp hfound with hfound | hfound
          · exact hbefore found hfound
          · rw [List.mem_singleton.mp hfound, hends]
      | true =>
          refine .coming history.length event hopen (by simp) hends htuned.rx ?_
          rw [Broadcast.oldest_send]
          omega
  | coming p found hopen hp hends hahead hkept =>
      refine .coming p found hopen (getElem?_of_append hp) hends hahead ?_
      have hlt := (List.getElem?_eq_some_iff.mp hp).1
      by_contra hgone
      have hoverrun : events.overruns task.stream.rx = some found := by
        rw [Broadcast.oldest_send] at hgone
        have holdest : events.oldest = p := by rw [Broadcast.oldest] at hkept ⊢; omega
        exact hcarries.overruns_iff.mpr ⟨by omega, by omega, holdest ▸ hp⟩
      rw [hkeeps found hoverrun] at hends
      cases hends
  | ended p found hp hends hpast hended =>
      exact .ended p found (getElem?_of_append hp) hends hpast hended

/-- There is only one event the forwarder stops at. -/
def Once (history : List Event) (task : ForwardTask) : Prop :=
  ∀ (p q : Nat) (e e' : Event), history[p]? = some e → history[q]? = some e' →
    task.ends e = true → task.ends e' = true → p = q

theorem Keeps.overrun (h : Keeps history events.oldest task) (honce : Once history task)
    (hcarries : events.Carries history) {found : Event}
    (hoverrun : events.overruns task.stream.rx = some found) (hends : task.ends found = true) :
    Lost (history ++ [event]) (events.send event).oldest task := by
  obtain ⟨hbehind, hfull, hfound⟩ := hcarries.overruns_iff.mp hoverrun
  have hgone : events.oldest < (events.send event).oldest := by
    rw [Broadcast.oldest_send, Broadcast.oldest, hcarries.tail]
    omega
  have hopen : task.forwarder.stopped = false := by
    cases h with
    | waiting hopen => exact hopen
    | coming p e hopen => exact hopen
    | ended p e hp hends' hpast =>
        have hsame := honce p _ e found hp hfound hends' hends
        omega
  exact ⟨hopen, _, found, getElem?_of_append hfound, hends, hgone⟩

/-! The forwarder reads. -/

section Reads

variable {oldest : Nat} {stream : EventStream}

theorem Tuned.skip (h : task.Tuned history) (holdest : oldest ≤ history.length)
    (hround : task.stream.Rounds task.forwarder.job oldest history (.again stream)) :
    Tuned { task with stream } history := by
  cases hround with
  | lagged hbehind => exact ⟨h.filter, holdest⟩
  | other event hkept hvalue hjob =>
      exact ⟨h.filter, (List.getElem?_eq_some_iff.mp hvalue).1⟩

theorem Tuned.take (h : task.Tuned history) {forwarder : Forwarder}
    (hround : task.stream.Rounds task.forwarder.job oldest history (.ready event stream))
    (hturn : task.forwarder.turn (.next (some event)) = some forwarder) :
    Tuned { stream, forwarder } history := by
  obtain ⟨state, rfl⟩ := Forwarder.turn_event hturn
  cases hround with
  | own event hkept hvalue hjob =>
      exact ⟨h.filter, (List.getElem?_eq_some_iff.mp hvalue).1⟩

theorem Tuned.tick (h : task.Tuned history) {forwarder : Forwarder} {now : SystemTime}
    (hturn : task.forwarder.turn (.tick now) = some forwarder) :
    Tuned { task with forwarder } history := by
  obtain ⟨state, delivered, rfl⟩ := Forwarder.turn_ticked hturn
  exact ⟨h.filter, h.rx⟩

/-- What lies before the new position is not `Finalized`, or no longer there. -/
theorem Keeps.again (h : Keeps history oldest task) {rx : Nat}
    (hopen : task.forwarder.stopped = false)
    (hpassed : ∀ (p : Nat) (event : Event), history[p]? = some event → task.ends event = true →
      task.stream.rx ≤ p → oldest ≤ p → rx ≤ p) :
    Keeps history oldest { task with stream := { task.stream with rx } } := by
  cases h with
  | waiting hopen hbefore => exact .waiting hopen hbefore
  | coming p event hopen hp hends hahead hkept =>
      exact .coming p event hopen hp hends (hpassed p event hp hends hahead hkept) hkept
  | ended p event hp hends hpast hended => rw [hended.1] at hopen; cases hopen

/-- The forwarder skips a gap, or an event of another job. -/
theorem Keeps.skip (h : Keeps history oldest task) (hopen : task.forwarder.stopped = false)
    (hround : task.stream.Rounds task.forwarder.job oldest history (.again stream)) :
    Keeps history oldest { task with stream } := by
  cases hround with
  | lagged hbehind => exact h.again hopen (fun _ _ _ _ _ hkept => hkept)
  | other event hkept hvalue hjob =>
      refine h.again hopen (fun p found hp hends hahead _ => ?_)
      rcases Nat.lt_or_eq_of_le hahead with hahead | rfl
      · exact hahead
      · cases hp.symm.trans hvalue
        simp [ends, hjob] at hends

/-- The forwarder receives an event of its job. -/
theorem Keeps.take (h : Keeps history oldest task) {forwarder : Forwarder}
    (hround : task.stream.Rounds task.forwarder.job oldest history (.ready event stream))
    (hturn : task.forwarder.turn (.next (some event)) = some forwarder) :
    Keeps history oldest { stream, forwarder } := by
  have hopen := Forwarder.turn_open hturn
  obtain ⟨state, rfl⟩ := Forwarder.turn_event hturn
  cases hround with
  | own event hkept hvalue hjob =>
      cases hfinal : event.body.isFinalized with
      | true =>
          have hends : task.ends event = true := by simp [ends, hjob, hfinal]
          exact .ended _ event hvalue hends (Nat.lt_succ_self _)
            ⟨rfl, event, hends, List.suffix_append _ _⟩
      | false =>
          cases h with
          | waiting _ hbefore => exact .waiting rfl hbefore
          | coming p found _ hp hends hahead hkept =>
              refine .coming p found rfl hp hends ?_ hkept
              rcases Nat.lt_or_eq_of_le hahead with hahead | rfl
              · exact hahead
              · cases hp.symm.trans hvalue
                simp [ends, hfinal] at hends
          | ended p found hp hends hpast hended => rw [hended.1] at hopen; cases hopen

/-- The ticker is nothing to it. -/
theorem Keeps.tick (h : Keeps history oldest task) {forwarder : Forwarder} {now : SystemTime}
    (hturn : task.forwarder.turn (.tick now) = some forwarder) :
    Keeps history oldest { task with forwarder } := by
  have hopen := Forwarder.turn_open hturn
  obtain ⟨state, delivered, rfl⟩ := Forwarder.turn_ticked hturn
  cases h with
  | waiting _ hbefore => exact .waiting hopen hbefore
  | coming p event _ hp hends hahead hkept => exact .coming p event hopen hp hends hahead hkept
  | ended p event hp hends hpast hended => rw [hended.1] at hopen; cases hopen

/-- What a forwarder receives after it has lost `Finalized` is not what it stops at. -/
theorem Lost.take (h : Lost history oldest task) (honce : Once history task)
    {forwarder : Forwarder}
    (hround : task.stream.Rounds task.forwarder.job oldest history (.ready event stream))
    (hturn : task.forwarder.turn (.next (some event)) = some forwarder) :
    Lost history oldest { stream, forwarder } := by
  obtain ⟨hopen, p, found, hp, hends, hgone⟩ := h
  obtain ⟨state, rfl⟩ := Forwarder.turn_event hturn
  cases hround with
  | own event hkept hvalue hjob =>
      refine ⟨?_, p, found, hp, hends, hgone⟩
      by_contra hfinal
      have hstops : task.ends event = true := by
        simpa [ends, hjob] using hfinal
      have hsame := honce p _ found event hp hvalue hends hstops
      omega

theorem Lost.tick (h : Lost history oldest task) {forwarder : Forwarder} {now : SystemTime}
    (hturn : task.forwarder.turn (.tick now) = some forwarder) :
    Lost history oldest { task with forwarder } := by
  obtain ⟨hopen, p, found, hp, hends, hgone⟩ := h
  obtain ⟨state, delivered, rfl⟩ := Forwarder.turn_ticked hturn
  exact ⟨hopen, p, found, hp, hends, hgone⟩

end Reads

end ForwardTask

/-! A forwarder among others. -/

namespace App

/-- The step sends an event, and `Finalized` has to make room for it before
forwarder `k` has read it. -/
def overruns (k : Nat) (s : App) (l : AppLabel) : Bool :=
  (s.sends l).isSome &&
    s.tasks[k]?.any (fun task => (s.events.overruns task.stream.rx).any task.ends)

/-- Forwarder `k` has not lost `Finalized`. -/
def Holds (k : Nat) (s : App) (history : List Event) : Prop :=
  ∀ task, s.tasks[k]? = some task →
    task.Keeps history s.events.oldest ∧ task.Tuned history

/-- Forwarder `k` has lost it. -/
def Misses (k : Nat) (s : App) (history : List Event) : Prop :=
  ∃ task, s.tasks[k]? = some task ∧ task.Lost history s.events.oldest ∧ task.Tuned history

/-- The job has sent `Finalized`. -/
def FinalizedSent (s : App) (job : JobId) : Prop :=
  ∃ e ∈ s.rt.jobs, e.cfg.id = job ∧ ∃ event ∈ e.sys.log, event.body.isFinalized = true

instance (s : App) (job : JobId) : Decidable (s.FinalizedSent job) :=
  inferInstanceAs (Decidable (∃ e ∈ s.rt.jobs, e.cfg.id = job ∧
    ∃ event ∈ e.sys.log, event.body.isFinalized = true))

section Steps

variable {k : Nat} {s t : App} {l : AppLabel} {history : List Event}

theorem Broadcasts.once (h : s.Broadcasts history) (task : ForwardTask) :
    task.Once history := by
  intro p q e e' hp hq hends hends'
  simp only [ForwardTask.ends, Bool.and_eq_true, decide_eq_true_eq] at hends hends'
  exact le_antisymm (h.last hq hends'.2 hp (hends.1.trans hends'.1.symm))
    (h.last hp hends.2 hq (hends'.1.trans hends.1.symm))

theorem Broadcasts.oldest_le (h : s.Broadcasts history) : s.events.oldest ≤ history.length := by
  rw [Broadcast.oldest, h.carries.tail]
  omega

theorem Holds.step (h : s.Holds k history) (hb : s.Broadcasts history)
    (hkeeps : s.overruns k l = false) (hmove : s.Move l t) :
    t.Holds k (history ++ (s.sends l).toList) := by
  have hnone : (history ++ (none : Option Event).toList) = history := List.append_nil _
  intro task' htask'
  cases hmove with
  | runtime l rt hstep =>
      obtain ⟨hkept, htuned⟩ := h task' htask'
      cases hsends : s.rt.sends l with
      | none => simpa [sends, hsends] using And.intro hkept htuned
      | some event =>
          have hsends' : s.sends (.runtime l) = some event := hsends
          rw [hsends']
          refine ⟨?_, htuned.send⟩
          refine hkept.send htuned hb.carries (fun found hfound => ?_)
          have htask : s.tasks[k]? = some task' := htask'
          simpa [overruns, hsends', htask, hfound] using hkeeps
  | bare => exact hnone.symm ▸ h task' htask'
  | forwarded builder cfg upsertOk rt hstep hfresh =>
      rcases Nat.lt_or_ge k s.tasks.length with hold | hnew
      · rw [List.getElem?_append_left hold] at htask'
        exact hnone.symm ▸ h task' htask'
      · rw [List.getElem?_append_right hnew] at htask'
        obtain rfl := List.mem_singleton.mp (List.mem_of_getElem? htask')
        refine hnone.symm ▸ ⟨.waiting rfl (fun event hevent => ?_), rfl, hb.carries.tail.le⟩
        obtain ⟨e, he, hid⟩ := hb.told.known event hevent
        have hother := hid ▸ Runtime.ne_of_not_knows hfresh he
        simp [ForwardTask.ends, hother]
  | again j task stream htask hopen hround =>
      rcases Runtime.getElem?_of_set htask' with ⟨rfl, rfl⟩ | ⟨-, hsame⟩
      · obtain ⟨hkept, htuned⟩ := h task htask
        have hcases := hround ▸ EventStream.round_cases hb.carries htuned.filter
        exact hnone.symm ▸ ⟨hkept.skip hopen hcases, htuned.skip hb.oldest_le hcases⟩
      · exact hnone.symm ▸ h task' hsame
  | ready j task event stream forwarder htask hround hturn =>
      rcases Runtime.getElem?_of_set htask' with ⟨rfl, rfl⟩ | ⟨-, hsame⟩
      · obtain ⟨hkept, htuned⟩ := h task htask
        have hcases := hround ▸ EventStream.round_cases hb.carries htuned.filter
        exact hnone.symm ▸ ⟨hkept.take hcases hturn, htuned.take hcases hturn⟩
      · exact hnone.symm ▸ h task' hsame
  | tick j now task forwarder htask hturn =>
      rcases Runtime.getElem?_of_set htask' with ⟨rfl, rfl⟩ | ⟨-, hsame⟩
      · obtain ⟨hkept, htuned⟩ := h task htask
        exact hnone.symm ▸ ⟨hkept.tick hturn, htuned.tick hturn⟩
      · exact hnone.symm ▸ h task' hsame

private theorem set_get {tasks : List ForwardTask} {j k : Nat} {x task : ForwardTask}
    (h : tasks[k]? = some task) : (j = k ∧ (tasks.set j x)[k]? = some x) ∨
      (j ≠ k ∧ (tasks.set j x)[k]? = some task) := by
  rcases eq_or_ne j k with rfl | hne
  · exact Or.inl ⟨rfl, List.getElem?_set_self (List.getElem?_eq_some_iff.mp h).1⟩
  · exact Or.inr ⟨hne, by rw [List.getElem?_set_ne hne, h]⟩

/-- The step takes `Finalized` away. -/
theorem Holds.overrun (h : s.Holds k history) (hb : s.Broadcasts history)
    (hoverrun : s.overruns k l = true) (hmove : s.Move l t) :
    t.Misses k (history ++ (s.sends l).toList) := by
  simp only [overruns, Bool.and_eq_true, Option.any_eq_true] at hoverrun
  obtain ⟨hsends, task, htask, found, hfound, hends⟩ := hoverrun
  obtain ⟨hkept, htuned⟩ := h task htask
  cases hmove with
  | runtime l rt hstep =>
      obtain ⟨event, hevent⟩ := Option.isSome_iff_exists.mp hsends
      have hsends' : s.rt.sends l = some event := hevent
      rw [hevent]
      refine ⟨task, htask, ?_, htuned.send⟩
      simp only [hsends']
      exact hkept.overrun (hb.once task) hb.carries hfound hends
  | _ => cases hsends

/-- A lost `Finalized` does not come back. -/
theorem Misses.step (h : s.Misses k history) (hb : s.Broadcasts history) (hmove : s.Move l t) :
    t.Misses k (history ++ (s.sends l).toList) := by
  have hnone : (history ++ (none : Option Event).toList) = history := List.append_nil _
  obtain ⟨task, htask, hlost, htuned⟩ := h
  have hset : ∀ {j : Nat} {x : ForwardTask},
      (j = k → x.Lost history s.events.oldest ∧ x.Tuned history) →
      ∃ task', (s.tasks.set j x)[k]? = some task' ∧
        task'.Lost history s.events.oldest ∧ task'.Tuned history := by
    intro j x hx
    rcases @set_get s.tasks j k x task htask with ⟨hj, hget⟩ | ⟨-, hget⟩
    · exact ⟨x, hget, hx hj⟩
    · exact ⟨task, hget, hlost, htuned⟩
  cases hmove with
  | runtime l rt hstep =>
      cases hsends : s.rt.sends l with
      | none =>
          have hsends' : s.sends (.runtime l) = none := hsends
          rw [hsends']
          exact ⟨task, htask, hnone.symm ▸ hlost, hnone.symm ▸ htuned⟩
      | some event =>
          have hsends' : s.sends (.runtime l) = some event := hsends
          rw [hsends']
          exact ⟨task, htask, hlost.send, htuned.send⟩
  | bare => exact hnone.symm ▸ ⟨task, htask, hlost, htuned⟩
  | forwarded =>
      refine hnone.symm ▸ ⟨task, ?_, hlost, htuned⟩
      rw [List.getElem?_append_left (List.getElem?_eq_some_iff.mp htask).1, htask]
  | again j found stream hfound hopen hround =>
      refine hnone.symm ▸ hset (fun hj => ?_)
      subst hj
      cases htask.symm.trans hfound
      have hcases := hround ▸ EventStream.round_cases hb.carries htuned.filter
      exact ⟨hlost, htuned.skip hb.oldest_le hcases⟩
  | ready j found event stream forwarder hfound hround hturn =>
      refine hnone.symm ▸ hset (fun hj => ?_)
      subst hj
      cases htask.symm.trans hfound
      have hcases := hround ▸ EventStream.round_cases hb.carries htuned.filter
      exact ⟨hlost.take (hb.once task) hcases hturn, htuned.take hcases hturn⟩
  | tick j now found forwarder hfound hturn =>
      refine hnone.symm ▸ hset (fun hj => ?_)
      subst hj
      cases htask.symm.trans hfound
      exact ⟨hlost.tick hturn, htuned.tick hturn⟩

theorem Broadcasts.ends_of_sent (h : s.Broadcasts history) {task : ForwardTask}
    (hsent : s.FinalizedSent task.forwarder.job) : ∃ event ∈ history, task.ends event = true := by
  obtain ⟨e, he, hid, event, hevent, hfinal⟩ := hsent
  obtain ⟨i, hi⟩ := List.mem_iff_getElem?.mp he
  rw [← h.told.log i e hi] at hevent
  obtain ⟨hmem, hjob⟩ := List.mem_filter.mp hevent
  exact ⟨event, hmem, by simpa [ForwardTask.ends, hfinal, ← hid] using hjob⟩

end Steps

/-- Along a run a forwarder loses `Finalized` in the first step that takes it away,
and in no other. -/
theorem holds_or_misses {start : Runtime} (hstart : start.jobs = []) (k : Nat)
    {ls : List AppLabel} {s : App}
    (hrun : Transition.run step { rt := start } ls = some s) :
    (Transition.StepsMeet step (fun s l => s.overruns k l = false) { rt := start } ls →
      s.Holds k (history { rt := start } ls)) ∧
    (¬ Transition.StepsMeet step (fun s l => s.overruns k l = false) { rt := start } ls →
      s.Misses k (history { rt := start } ls)) := by
  refine Transition.run_induction_reached (P := fun _ _ => True) (fun done s =>
    (Transition.StepsMeet step (fun s l => s.overruns k l = false) { rt := start } done →
      Holds k s (history { rt := start } done)) ∧
    (¬ Transition.StepsMeet step (fun s l => s.overruns k l = false) { rt := start } done →
      Misses k s (history { rt := start } done)))
    ⟨fun _ _ htask => ?_, fun hmet => absurd trivial hmet⟩ ?_
    (Transition.stepsMeet_of_forall (fun _ _ => trivial) _ _) hrun
  · cases htask
  intro done m l t hm h _ hstep
  have hb := broadcasts_of_run hstart hm
  have hmove := step_move hstep
  have hgrown : history { rt := start } (done ++ [l]) =
      history { rt := start } done ++ (m.sends l).toList := Transition.observe_snoc _ hm l
  rw [hgrown, Transition.stepsMeet_snoc_iff hm]
  refine ⟨fun hmet => (h.1 hmet.1).step hb hmet.2 hmove, fun hmet => ?_⟩
  by_cases hdone : Transition.StepsMeet step (fun s l => s.overruns k l = false)
      { rt := start } done
  · have hoverrun : m.overruns k l = true := by simpa [hdone] using hmet
    exact (h.1 hdone).overrun hb hoverrun hmove
  · exact (h.2 hdone).step hb hmove

end App

/-- A forwarder that has read its receiver to the end after its job has sent
`Finalized` has delivered it and returned if and only if no event was sent that took
`Finalized` out of the channel before the forwarder had read it. -/
theorem forwarder_ends_iff {start : Runtime} (hstart : start.jobs = []) {ls : List AppLabel}
    {s : App} (hrun : Transition.run App.step { rt := start } ls = some s) {k : Nat}
    {task : ForwardTask} (htask : s.tasks[k]? = some task)
    (hsent : s.FinalizedSent task.forwarder.job) (hdrained : task.Drained s.events) :
    task.Ended ↔
      Transition.StepsMeet App.step (fun s l => s.overruns k l = false) { rt := start } ls := by
  have hb := App.broadcasts_of_run hstart hrun
  have hcases := App.holds_or_misses hstart k hrun
  by_cases hmet : Transition.StepsMeet App.step (fun s l => s.overruns k l = false)
      { rt := start } ls
  · refine iff_of_true ?_ hmet
    obtain ⟨hkept, htuned⟩ := hcases.1 hmet task htask
    cases hkept with
    | waiting hopen hbefore =>
        obtain ⟨event, hevent, hends⟩ := hb.ends_of_sent hsent
        rw [hbefore event hevent] at hends
        cases hends
    | coming p event hopen hp hends hahead hkept =>
        have hlt := (List.getElem?_eq_some_iff.mp hp).1
        rcases hdrained with hstopped | hempty
        · rw [hopen] at hstopped; cases hstopped
        · have hreads := hb.carries.recv task.stream.rx
          generalize s.events.recv task.stream.rx = found at hempty hreads
          cases hreads with
          | lagged | value => cases hempty
          | empty _ hread => omega
    | ended p event hp hends hpast hended => exact hended
  · refine iff_of_false (fun hended => ?_) hmet
    obtain ⟨found, hfound, hlost, -⟩ := hcases.2 hmet
    cases htask.symm.trans hfound
    exact absurd (hlost.1.symm.trans hended.1) (by simp)

/-! Two tasks: one whose forwarder ends, and one whose forwarder is left behind. -/

/-- A job that runs and is finalized, and whose handle has its outcome. -/
def forwardedRun : List AppLabel :=
  .task { observers := 1 } plainConfig true ::
    (onJob 0 (drive 12 ++ leaveQuietly ++ drive 18 ++ [.pollHandle])).map .runtime

/-- Its forwarder reads. -/
def readRun : List AppLabel := forwardedRun ++ List.replicate 4 (.receive 0)

theorem readRun_runs :
    (Transition.run App.step { rt := soloRuntime } readRun).isSome = true := by
  decide +kernel

def readEnd : App := Transition.endOf _ _ readRun readRun_runs

def readTask : ForwardTask := (readEnd.tasks[0]?).get (by decide +kernel)

theorem forwarder_ends_iff_read : readTask.Ended :=
  (forwarder_ends_iff rfl (Transition.run_endOf _ readRun readRun_runs)
    (Option.some_get _).symm (by decide +kernel) (Or.inl (by decide +kernel))).mpr
    (by decide +kernel)

/-- Job `n + 1` is spawned and announced. -/
def newcomer (n : Nat) : List AppLabel :=
  [.runtime (.spawn { plainConfig with id := ⟨n + 1⟩ } true), .runtime (.job (n + 1) (.driver {}))]

def crowd (n : Nat) : List AppLabel := (List.range n).flatMap newcomer

namespace App

/-- Job 0 and those of a crowd, in memory. -/
structure Crowded (s : App) (n : Nat) : Prop where
  store : s.rt.store = none
  persisted : s.rt.persisted = []
  jobs : s.rt.jobs.length = n + 1
  ids : ∀ e ∈ s.rt.jobs, e.cfg.id.uuid ≤ n

theorem Crowded.newcomer {s : App} {n : Nat} (h : s.Crowded n) :
    ∃ t event, Transition.run step s (newcomer n) = some t ∧ t.Crowded (n + 1) ∧
      t.tasks = s.tasks ∧ t.events = s.events.send event ∧ ∀ e ∈ s.rt.jobs, e ∈ t.rt.jobs := by
  have hfresh : s.rt.knows ⟨n + 1⟩ = false := by
    simp only [Runtime.knows, h.persisted, h.store, List.any_nil, Option.any_none, Bool.or_false,
      List.any_eq_false, decide_eq_true_eq]
    intro e he hid
    have hle := h.ids e he
    rw [hid] at hle
    exact absurd hle (Nat.not_succ_le_self n)
  let cfg : Config := { plainConfig with id := ⟨n + 1⟩ }
  let entry := s.rt.accept cfg
  let event : Event := { job := ⟨n + 1⟩, body := .jobCreated cfg.spec, time := cfg.createdAt }
  let announced : Entry := { entry with sys := { entry.sys.withStore s.rt.store with
    ctl := settle (.op (.insertEvent event) (fun _ => launchJob entry.cfg))
    log := [event]
    sent := [event] } }
  let after : App := { s with
    rt := { s.rt with jobs := (s.rt.jobs ++ [entry]).set (n + 1) announced }
    events := s.events.send event }
  have hspawn : s.step (.runtime (.spawn cfg true)) =
      some { s with rt := { s.rt with jobs := s.rt.jobs ++ [entry] } } := by
    simp [step, stepRuntime, Runtime.step, Runtime.spawn, Runtime.sends, hfresh, h.store, cfg,
      entry, Runtime.accept, Sys.init]
  have hget : (s.rt.jobs ++ [entry])[n + 1]? = some entry := by
    rw [List.getElem?_append_right h.jobs.le, h.jobs, Nat.sub_self]
    rfl
  have hsend : step { s with rt := { s.rt with jobs := s.rt.jobs ++ [entry] } }
      (.runtime (.job (n + 1) (.driver {}))) = some after := by
    simp only [step, stepRuntime, Runtime.step, Runtime.sends, hget]
    rfl
  refine ⟨after, event, ?_, ⟨h.store, h.persisted, ?_, fun e he => ?_⟩, rfl, rfl, fun e he => ?_⟩
  · change (s.step (.runtime (.spawn cfg true))).bind _ = _
    rw [hspawn]
    change (step _ (.runtime (.job (n + 1) (.driver {})))).bind _ = _
    rw [hsend]
    rfl
  · simp [after, h.jobs]
  · rcases List.mem_or_eq_of_mem_set he with he | rfl
    · rcases List.mem_append.mp he with he | he
      · exact Nat.le_succ_of_le (h.ids e he)
      · rw [List.mem_singleton.mp he]; exact Nat.le_refl _
    · exact Nat.le_refl _
  · obtain ⟨i, hi⟩ := List.mem_iff_getElem?.mp he
    have hlt := (List.getElem?_eq_some_iff.mp hi).1
    have hne : n + 1 ≠ i := by rw [h.jobs] at hlt; omega
    refine List.mem_of_getElem? (i := i) ?_
    change ((s.rt.jobs ++ [entry]).set (n + 1) announced)[i]? = _
    rw [List.getElem?_set_ne hne, List.getElem?_append_left hlt, hi]

theorem Crowded.crowd {s : App} (h : s.Crowded 0) (n : Nat) :
    ∃ t, Transition.run step s (crowd n) = some t ∧ t.Crowded n ∧ t.tasks = s.tasks ∧
      t.events.tail = s.events.tail + n ∧ ∀ e ∈ s.rt.jobs, e ∈ t.rt.jobs := by
  induction n with
  | zero => exact ⟨s, rfl, h, rfl, rfl, fun _ he => he⟩
  | succ n ih =>
      obtain ⟨m, hm, hcrowded, htasks, htail, hjobs⟩ := ih
      obtain ⟨t, event, ht, hcrowded', htasks', hevents, hjobs'⟩ := hcrowded.newcomer
      refine ⟨t, ?_, hcrowded', htasks'.trans htasks, ?_, fun e he => hjobs' e (hjobs e he)⟩
      · rw [Execra.crowd, List.range_succ, List.flatMap_append, Transition.run_append]
        change (Transition.run step s (Execra.crowd n)).bind _ = _
        rw [hm, List.flatMap_singleton]
        exact ht
      · rw [hevents, Broadcast.tail_send, htail]
        omega

/-- Forwarder `k` reads once. -/
structure ReadsOn (s t : App) (history : List Event) (k : Nat) (task task' : ForwardTask) :
    Prop where
  step : s.step (.receive k) = some t
  found : t.tasks[k]? = some task'
  rx : task'.stream.rx =
    if task.stream.rx < s.events.oldest then s.events.oldest else task.stream.rx + 1
  job : task'.forwarder.job = task.forwarder.job
  rt : t.rt = s.rt
  events : t.events = s.events
  lost : task.Lost history s.events.oldest → task'.Lost history s.events.oldest
  tuned : task'.Tuned history

theorem Broadcasts.of_same {s t : App} {history : List Event} (hb : s.Broadcasts history)
    (hrt : t.rt = s.rt) (hevents : t.events = s.events) : t.Broadcasts history :=
  ⟨hevents ▸ hb.carries, hrt ▸ hb.told, hrt ▸ hb.shares⟩

/-- A forwarder that runs can read as long as there is something left. -/
theorem Broadcasts.receive {s : App} {history : List Event} (hb : s.Broadcasts history) {k : Nat}
    {task : ForwardTask} (htask : s.tasks[k]? = some task) (htuned : task.Tuned history)
    (hopen : task.forwarder.stopped = false) (hmore : task.stream.rx < history.length) :
    ∃ t task', ReadsOn s t history k task task' := by
  have hk := (List.getElem?_eq_some_iff.mp htask).1
  have hcases := EventStream.round_cases hb.carries htuned.filter
  generalize hround : task.stream.round s.events = found at hcases
  cases hcases with
  | pending hread => omega
  | lagged hbehind =>
      let task' : ForwardTask := { task with stream := { task.stream with rx := s.events.oldest } }
      refine ⟨{ s with tasks := s.tasks.set k task' }, task', ?_, List.getElem?_set_self hk,
        (if_pos hbehind).symm, rfl, rfl, rfl, fun hlost => hlost,
        htuned.skip hb.oldest_le (.lagged hbehind)⟩
      simp only [App.step, htask, hopen, hround, Bool.false_eq_true, ↓reduceIte, task']
  | other event hkept hvalue hjob =>
      let task' : ForwardTask :=
        { task with stream := { task.stream with rx := task.stream.rx + 1 } }
      refine ⟨{ s with tasks := s.tasks.set k task' }, task', ?_, List.getElem?_set_self hk,
        (if_neg (Nat.not_lt.mpr hkept)).symm, rfl, rfl, rfl, fun hlost => hlost,
        htuned.skip hb.oldest_le (.other event hkept hvalue hjob)⟩
      simp only [App.step, htask, hopen, hround, Bool.false_eq_true, ↓reduceIte, task']
  | own event hkept hvalue hjob =>
      obtain ⟨forwarder, hturn⟩ := Forwarder.turn_of_open hopen event
      let task' : ForwardTask :=
        { stream := { task.stream with rx := task.stream.rx + 1 }, forwarder }
      have hown := EventStream.Rounds.own event hkept hvalue hjob
      refine ⟨{ s with tasks := s.tasks.set k task' }, task', ?_, List.getElem?_set_self hk,
        (if_neg (Nat.not_lt.mpr hkept)).symm, ?_, rfl, rfl,
        fun hlost => hlost.take (hb.once task) hown hturn, htuned.take hown hturn⟩
      · simp only [App.step, App.turnTask, htask, hopen, hround, hturn, Bool.false_eq_true,
          ↓reduceIte, Option.map_some, task']
      · obtain ⟨state, rfl⟩ := Forwarder.turn_event hturn
        rfl

/-- A forwarder that has lost `Finalized` reads to the end of its receiver. -/
theorem Broadcasts.read {s : App} {history : List Event} (hb : s.Broadcasts history) {k n : Nat}
    {task : ForwardTask} (htask : s.tasks[k]? = some task)
    (hlost : task.Lost history s.events.oldest) (htuned : task.Tuned history)
    (hkept : s.events.oldest ≤ task.stream.rx) (hleft : task.stream.rx + n = history.length) :
    ∃ t task', Transition.run App.step s (List.replicate n (.receive k)) = some t ∧
      t.rt = s.rt ∧ t.Broadcasts history ∧ t.tasks[k]? = some task' ∧
      task'.forwarder.job = task.forwarder.job ∧ task'.Lost history t.events.oldest ∧
      task'.Tuned history ∧ task'.Drained t.events := by
  induction n generalizing s task with
  | zero =>
      refine ⟨s, task, rfl, rfl, hb, htask, rfl, hlost, htuned, Or.inr ?_⟩
      have hreads := hb.carries.recv task.stream.rx
      generalize s.events.recv task.stream.rx = found at hreads ⊢
      cases hreads with
      | lagged hbehind => omega
      | value event _ hvalue =>
          have hlt := (List.getElem?_eq_some_iff.mp hvalue).1
          omega
      | empty => rfl
  | succ n ih =>
      obtain ⟨m, task', hread⟩ := hb.receive htask htuned hlost.1 (by omega)
      have hrx := hread.rx
      rw [if_neg (Nat.not_lt.mpr hkept)] at hrx
      have holdest : m.events.oldest = s.events.oldest := by rw [hread.events]
      obtain ⟨t, last, hrun, hrt, hbt, hlast, hjob, hrest⟩ :=
        ih (hb.of_same hread.rt hread.events) hread.found (holdest ▸ hread.lost hlost)
          hread.tuned (by rw [holdest, hrx]; omega) (by rw [hrx]; omega)
      refine ⟨t, last, ?_, hrt.trans hread.rt, hbt, hlast, hjob.trans hread.job, hrest⟩
      rw [List.replicate_succ, Transition.run_cons, hread.step]
      exact hrun

/-- A forwarder that has lost `Finalized` never returns. -/
theorem Misses.run {s t : App} {history : List Event} {k : Nat} (h : s.Misses k history)
    (hb : s.Broadcasts history) {ls : List AppLabel}
    (hrun : Transition.run App.step s ls = some t) :
    ∃ task, t.tasks[k]? = some task ∧ t.awaited task = none := by
  have hmisses : ∃ history, t.Broadcasts history ∧ t.Misses k history := by
    refine Transition.invariant_of_run (P := fun _ _ => True)
      (I := fun t => ∃ history, App.Broadcasts t history ∧ App.Misses k t history) ?_
      ⟨history, hb, h⟩ (Transition.stepsMeet_of_forall (fun _ _ => trivial) _ _) hrun
    rintro s l t ⟨history, hb, h⟩ - hstep
    exact ⟨_, hb.step hstep, h.step hb (step_move hstep)⟩
  obtain ⟨_, -, task, htask, hlost, -⟩ := hmisses
  exact ⟨task, htask, by simp [awaited, hlost.1]⟩

end App

namespace App

/-- A forwarder is left behind: `Finalized` is sent, a crowd is announced, and then
it reads. -/
theorem left_behind {start : Runtime} (hstart : start.jobs = []) {ls more : List AppLabel}
    {s : App} (hrun : Transition.run step { rt := start } ls = some s) (hcrowded : s.Crowded 0)
    {task : ForwardTask} (htask : s.tasks[0]? = some task)
    (hopen : task.forwarder.stopped = false) (hrx : task.stream.rx = 0)
    (htuned : task.Tuned (history { rt := start } ls))
    (hsent : s.FinalizedSent task.forwarder.job)
    (hmore : more = crowd 1024 ++ List.replicate 1025 (.receive 0)) :
    ∃ t task', Transition.run step { rt := start } (ls ++ more) = some t ∧
      t.tasks[0]? = some task' ∧ task'.forwarder.job = task.forwarder.job ∧
      (∀ e ∈ s.rt.jobs, e ∈ t.rt.jobs) ∧
      task'.Drained t.events ∧ ¬ task'.Ended ∧
      ∀ rest u, Transition.run step t rest = some u →
        ∃ last, u.tasks[0]? = some last ∧ u.awaited last = none := by
  have hb := broadcasts_of_run hstart hrun
  obtain ⟨event, hevent, hends⟩ := hb.ends_of_sent hsent
  obtain ⟨p, hp⟩ := List.mem_iff_getElem?.mp hevent
  have hlt := (List.getElem?_eq_some_iff.mp hp).1
  obtain ⟨m, hm, -, htasks, htail, hjobs⟩ := hcrowded.crowd 1024
  have hall : Transition.run step { rt := start } (ls ++ crowd 1024) = some m := by
    rw [Transition.run_append, hrun, Option.bind_some, hm]
  have hbm := broadcasts_of_run hstart hall
  have hgrown : history { rt := start } (ls ++ crowd 1024) =
      history { rt := start } ls ++ history s (crowd 1024) :=
    Transition.observe_append _ hrun _
  have holdest : m.events.oldest = (history { rt := start } ls).length := by
    rw [Broadcast.oldest, htail, hb.carries.tail, Nat.add_sub_cancel]
  have hlength : (history { rt := start } (ls ++ crowd 1024)).length = m.events.oldest + 1024 := by
    rw [← hbm.carries.tail, htail, holdest, hb.carries.tail]
  have hlost : task.Lost (history { rt := start } (ls ++ crowd 1024)) m.events.oldest := by
    refine ⟨hopen, p, event, ?_, hends, holdest ▸ hlt⟩
    rw [hgrown, List.getElem?_append_left hlt, hp]
  have htunedm : task.Tuned (history { rt := start } (ls ++ crowd 1024)) :=
    ⟨htuned.filter, by rw [hrx]; exact Nat.zero_le _⟩
  have htaskm : m.tasks[0]? = some task := by rw [htasks, htask]
  -- The first read is told of the gap.
  obtain ⟨u, first, hread⟩ := hbm.receive htaskm htunedm hopen (by rw [hrx, hlength]; omega)
  have hfirst := hread.rx
  rw [hrx, if_pos (by rw [holdest]; omega)] at hfirst
  have holdestu : u.events.oldest = m.events.oldest := by rw [hread.events]
  have hbu := hbm.of_same hread.rt hread.events
  obtain ⟨t, last, ht, hrt, hbt, hlast, hjob, hlostt, htunedt, hdrained⟩ :=
    hbu.read hread.found (holdestu ▸ hread.lost hlost) hread.tuned (by rw [holdestu, hfirst])
      (by rw [hfirst, hlength])
  refine ⟨t, last, ?_, hlast, hjob.trans hread.job, ?_, hdrained, ?_, ?_⟩
  · rw [hmore, ← List.append_assoc, Transition.run_append, hall, Option.bind_some,
      List.replicate_succ, Transition.run_cons, hread.step, Option.bind_some, ht]
  · intro e he
    rw [hrt, hread.rt]
    exact hjobs e he
  · exact fun hended => absurd (hlostt.1.symm.trans hended.1) (by simp)
  · exact fun rest v hv => Misses.run ⟨last, hlast, hlostt, htunedt⟩ hbt hv

end App

/-- While the crowd is announced the forwarder is not scheduled; then it reads all
there is. -/
def lateReads : List AppLabel := crowd 1024 ++ List.replicate 1025 (.receive 0)

theorem forwardedRun_runs :
    (Transition.run App.step { rt := soloRuntime } forwardedRun).isSome = true := by
  decide

def forwardedEnd : App := Transition.endOf _ _ forwardedRun forwardedRun_runs

def forwardedTask : ForwardTask := (forwardedEnd.tasks[0]?).get (by decide)

/-- The job is finalized and its handle has the outcome; 1024 events of other jobs
follow before its forwarder reads. The forwarder has then read its receiver to the
end and has not seen `Finalized`, and whatever happens from there on, awaiting the
task comes to nothing. -/
theorem forwarder_left_waiting : ∃ s task,
    Transition.run App.step { rt := soloRuntime } (forwardedRun ++ lateReads) = some s ∧
    s.tasks[0]? = some task ∧
    (∃ e ∈ s.rt.jobs, e.cfg.id = task.forwarder.job ∧ e.sys.handleYields.isSome = true ∧
      ∃ event ∈ e.sys.log, event.body.isFinalized = true) ∧
    task.Drained s.events ∧ ¬ task.Ended ∧
    ∀ rest t, Transition.run App.step s rest = some t →
      ∃ task', t.tasks[0]? = some task' ∧ t.awaited task' = none := by
  have hrun : Transition.run App.step { rt := soloRuntime } forwardedRun = some forwardedEnd :=
    Transition.run_endOf _ _ forwardedRun_runs
  have htask : forwardedEnd.tasks[0]? = some forwardedTask := (Option.some_get _).symm
  have hmet : Transition.StepsMeet App.step (fun s l => s.overruns 0 l = false)
      { rt := soloRuntime } forwardedRun := by decide +kernel
  have hholds := (App.holds_or_misses rfl 0 hrun).1 hmet
  have hyields : ∃ e ∈ forwardedEnd.rt.jobs, e.cfg.id = ⟨0⟩ ∧
      e.sys.handleYields.isSome = true ∧
      ∃ event ∈ e.sys.log, event.body.isFinalized = true := by decide
  obtain ⟨e, he, hid, hyields, hfinal⟩ := hyields
  obtain ⟨s, task, hs, hget, hjob, hjobs, hrest⟩ :=
    App.left_behind rfl hrun ⟨rfl, rfl, by decide, by decide⟩ htask (by decide) (by decide)
      (hholds _ htask).2 (by decide) (show lateReads = _ from rfl)
  refine ⟨s, task, hs, hget, ⟨e, hjobs e he, ?_, hyields, hfinal⟩, hrest⟩
  rw [hjob]
  exact hid

end Execra
