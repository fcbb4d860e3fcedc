import Execra.Model.Forwarder

/-!
Creep forwarding against plain forwarding. The two loops take the same events and
stop at the same one; what the ticker adds is marked as synthetic, and the ticker
is armed only in a phase that has a range.
-/

namespace Execra

/-- The events that arm the ticker or disarm it. -/
def EventBody.isMark : EventBody → Bool
  | .phaseEntered .. | .phaseExited _ | .cancelled | .finalized _ => true
  | _ => false

def Wakeup.event? : Wakeup → Option Event
  | .next event => event
  | .tick _ => none

def Wakeup.isTick : Wakeup → Bool
  | .next _ => false
  | .tick _ => true

/-- The bodies of the events that have been received. -/
def received (ws : List Wakeup) : List EventBody := (ws.filterMap Wakeup.event?).map Event.body

/-- The last of them that arms or disarms. -/
def latestMark (ws : List Wakeup) : Option EventBody :=
  ((received ws).filter EventBody.isMark).getLast?

/-- The phase that was entered has a range. -/
def Creeps (creep : Creep) (mark : Option EventBody) : Prop :=
  ∃ phase name label start finish, mark = some (.phaseEntered phase name label) ∧
    creep name = some (start, finish) ∧ start.lt finish = true

/-- The deliveries of events that were received. -/
def genuine (ds : List Delivery) : List Delivery := ds.filter (fun d => !d.synthetic)

theorem received_snoc (ws : List Wakeup) (w : Wakeup) :
    received (ws ++ [w]) = received ws ++ (w.event?.map Event.body).toList := by
  cases hw : w.event? <;> simp [received, List.filterMap_append, hw]

theorem latestMark_snoc_event (ws : List Wakeup) (event : Event) :
    latestMark (ws ++ [.next (some event)]) =
      if event.body.isMark then some event.body else latestMark ws := by
  rw [latestMark, received_snoc]
  by_cases hmark : event.body.isMark
  · simp [Wakeup.event?, List.filter_append, hmark]
  · simp [Wakeup.event?, List.filter_append, hmark, latestMark]

theorem latestMark_snoc_none (ws : List Wakeup) {w : Wakeup} (h : w.event? = none) :
    latestMark (ws ++ [w]) = latestMark ws := by
  rw [latestMark, received_snoc, h]
  simp [latestMark]

/-- All recipients are handed the same event. -/
theorem TaskBuilder.of_mem_deliver {b : TaskBuilder} {event : Event} {synthetic : Bool}
    {d : Delivery} (hd : d ∈ b.deliver event synthetic) :
    d.event = event ∧ d.synthetic = synthetic := by
  simp only [TaskBuilder.deliver, List.mem_append, List.mem_map] at hd
  rcases hd with ⟨i, -, rfl⟩ | ⟨name, -, rfl⟩ <;> exact ⟨rfl, rfl⟩

theorem genuine_deliver (b : TaskBuilder) (event : Event) :
    genuine (b.deliver event false) = b.deliver event false ∧
      genuine (b.deliver event true) = [] := by
  refine ⟨List.filter_eq_self.mpr (fun d hd => ?_), List.filter_eq_nil_iff.mpr (fun d hd => ?_)⟩
  · rw [(b.of_mem_deliver hd).2]; rfl
  · rw [(b.of_mem_deliver hd).2]; simp

/-- An armed ticker was armed by a phase with a range, or was armed before. -/
theorem rearm_creeps {creep : Creep} {state : Option CreepState} {body : EventBody}
    {mark : Option EventBody} (h : state.isSome = true → Creeps creep mark)
    (harmed : (rearm creep state body).isSome = true) :
    Creeps creep (if body.isMark then some body else mark) := by
  cases body with
  | phaseEntered phase name label =>
      simp only [rearm, Option.isSome_map] at harmed
      obtain ⟨range, hrange⟩ := Option.isSome_iff_exists.mp harmed
      obtain ⟨hname, hlt⟩ := Option.filter_eq_some_iff.mp hrange
      exact ⟨phase, name, label, range.1, range.2, rfl, hname, hlt⟩
  | phaseExited | finalized | cancelled => cases harmed
  | _ => exact h harmed

namespace Forwarder

theorem feed_snoc (f : Forwarder) (ws : List Wakeup) (w : Wakeup) :
    f.feed (ws ++ [w]) = ((f.feed ws).turn w).getD (f.feed ws) := by
  simp [feed, List.foldl_append]

/-- What a turn of the loop with a ticker does. -/
inductive CreepTurn (creep : Creep) (f : Forwarder) : Wakeup → Forwarder → Prop where
  | closed : CreepTurn creep f (.next none) { f with stopped := true }
  | event (event : Event) :
      CreepTurn creep f (.next (some event)) { f with
        state := rearm creep f.state event.body
        delivered := f.delivered ++ f.builder.deliver event false
        stopped := event.body.isFinalized }
  | eased (now value state) (harmed : f.state.isSome = true) :
      CreepTurn creep f (.tick now) { f with
        state
        delivered := f.delivered ++ f.builder.deliver (creepEvent f.job value now) true }
  | idle (now state) (harmed : f.state.isSome = true) :
      CreepTurn creep f (.tick now) { f with state }

theorem creepTurn_cases {creep : Creep} {f next : Forwarder} {w : Wakeup}
    (h : f.creepTurn creep w = some next) : f.CreepTurn creep w next := by
  cases w with
  | next event =>
      cases event with
      | none => cases h; exact .closed
      | some event => cases h; exact .event event
  | tick now =>
      obtain ⟨cs, hcs, rfl⟩ := Option.map_eq_some_iff.mp h
      have harmed : f.state.isSome = true := by rw [hcs]; rfl
      rcases cs.tick with ⟨_ | value, cs'⟩
      · exact .idle now _ harmed
      · exact .eased now value _ harmed

/-- A turn of a forwarder with a ticker: none once it has returned. -/
theorem turn_creep {creep : Creep} {f : Forwarder} (hcreep : f.builder.creep = some creep)
    (w : Wakeup) : f.turn w = if f.stopped then none else f.creepTurn creep w := by
  simp [turn, hcreep]

theorem turn_plain {f : Forwarder} (hcreep : f.builder.creep = none) (event : Option Event) :
    f.turn (.next event) = if f.stopped then none else some (f.plainTurn event) := by
  simp [turn, hcreep]

/-- The forwarder with a ticker, and the one without, after the same events. -/
structure Shadow (job : JobId) (b : TaskBuilder) (creep : Creep) (ws : List Wakeup)
    (crept plain : Forwarder) : Prop where
  job : crept.job = job
  creepBuilder : crept.builder = { b with creep := some creep }
  plainBuilder : plain.builder = { b with creep := none }
  delivered : genuine crept.delivered = plain.delivered
  stopped : crept.stopped = plain.stopped
  armed : crept.stopped = false → crept.state.isSome = true → Creeps creep (latestMark ws)
  unfinished : crept.stopped = false → ∀ body ∈ received ws, body.isFinalized = false

section Shadow

variable {job : JobId} {b : TaskBuilder} {creep : Creep} {ws : List Wakeup}
  {crept plain after : Forwarder}

/-- The recipients do not depend on the ticker. -/
theorem Shadow.deliver (h : Shadow job b creep ws crept plain) :
    crept.builder.deliver = plain.builder.deliver := by
  rw [h.creepBuilder, h.plainBuilder]
  rfl

/-- A wakeup that brings no event. -/
theorem Shadow.pass (h : Shadow job b creep ws crept plain) {w : Wakeup} (hw : w.event? = none) :
    Shadow job b creep (ws ++ [w]) crept plain := by
  have hreceived : received (ws ++ [w]) = received ws := by
    rw [received_snoc, hw]
    exact List.append_nil _
  exact ⟨h.job, h.creepBuilder, h.plainBuilder, h.delivered, h.stopped,
    latestMark_snoc_none ws hw ▸ h.armed, hreceived ▸ h.unfinished⟩

/-- A turn of the ticker, which the plain loop does not have. -/
theorem Shadow.tick (h : Shadow job b creep ws crept plain) {now : SystemTime}
    (hopen : crept.stopped = false) (hturn : crept.CreepTurn creep (.tick now) after) :
    Shadow job b creep ws after plain := by
  cases hturn with
  | eased now value state harmed =>
      refine ⟨h.job, h.creepBuilder, h.plainBuilder, ?_, h.stopped,
        fun _ _ => h.armed hopen harmed, h.unfinished⟩
      simp only [genuine, List.filter_append]
      rw [← genuine, ← genuine, (genuine_deliver _ _).2, List.append_nil]
      exact h.delivered
  | idle now state harmed =>
      exact ⟨h.job, h.creepBuilder, h.plainBuilder, h.delivered, h.stopped,
        fun _ _ => h.armed hopen harmed, h.unfinished⟩

/-- An event, or the end of the stream: both loops take it. -/
theorem Shadow.next (h : Shadow job b creep ws crept plain) {event : Option Event}
    (hopen : crept.stopped = false) (hturn : crept.CreepTurn creep (.next event) after) :
    Shadow job b creep (ws ++ [.next event]) after (plain.plainTurn event) := by
  cases hturn with
  | closed =>
      exact ⟨h.job, h.creepBuilder, h.plainBuilder, h.delivered, rfl, nofun, nofun⟩
  | event event =>
      refine ⟨h.job, h.creepBuilder, h.plainBuilder, ?_, rfl, fun hnext harmed => ?_,
        fun hnext => ?_⟩
      · simp only [genuine, List.filter_append]
        rw [← genuine, ← genuine, (genuine_deliver _ _).1, h.delivered, h.deliver]
        rfl
      · rw [latestMark_snoc_event]
        exact rearm_creeps (h.armed hopen) harmed
      · intro body hbody
        rw [received_snoc] at hbody
        rcases List.mem_append.mp hbody with hbody | hbody
        · exact h.unfinished hopen body hbody
        · rw [List.mem_singleton.mp hbody]
          exact hnext

/-- A wakeup after the task has returned. -/
theorem Shadow.ended (h : Shadow job b creep ws crept plain) (hstopped : crept.stopped = true)
    (w : Wakeup) : Shadow job b creep (ws ++ [w]) crept plain := by
  refine ⟨h.job, h.creepBuilder, h.plainBuilder, h.delivered, h.stopped, fun hopen => ?_,
    fun hopen => ?_⟩
  all_goals rw [hstopped] at hopen; cases hopen

end Shadow

/-- The forwarder at its first turn. -/
def start (job : JobId) (b : TaskBuilder) : Forwarder := { job, builder := b }

/-- With a ticker. -/
def crept (job : JobId) (b : TaskBuilder) (creep : Creep) (ws : List Wakeup) : Forwarder :=
  (start job { b with creep := some creep }).feed ws

/-- Without one, and without its ticks. -/
def plain (job : JobId) (b : TaskBuilder) (ws : List Wakeup) : Forwarder :=
  (start job { b with creep := none }).feed (ws.filter (fun w => !w.isTick))

section Wakeups

variable (job : JobId) (b : TaskBuilder) (creep : Creep) (ws : List Wakeup)

theorem crept_snoc (w : Wakeup) : crept job b creep (ws ++ [w]) =
    ((crept job b creep ws).turn w).getD (crept job b creep ws) := feed_snoc _ ws w

theorem plain_tick (now : SystemTime) :
    plain job b (ws ++ [.tick now]) = plain job b ws := by
  simp [plain, List.filter_append, Wakeup.isTick]

theorem plain_next (event : Option Event) : plain job b (ws ++ [.next event]) =
    ((plain job b ws).turn (.next event)).getD (plain job b ws) := by
  rw [plain, List.filter_append]
  exact feed_snoc _ _ (.next event)

theorem shadow : Shadow job b creep ws (crept job b creep ws) (plain job b ws) := by
  induction ws using List.reverseRecOn with
  | nil => exact ⟨rfl, rfl, rfl, rfl, rfl, nofun, fun _ => List.forall_mem_nil _⟩
  | append_singleton ws w ih =>
      have hcreep : (crept job b creep ws).builder.creep = some creep := by
        rw [ih.creepBuilder]
      have hplain : (plain job b ws).builder.creep = none := by rw [ih.plainBuilder]
      rw [crept_snoc, turn_creep hcreep]
      cases hopen : (crept job b creep ws).stopped with
      | true =>
          have hsame : plain job b (ws ++ [w]) = plain job b ws := by
            cases w with
            | tick now => exact plain_tick job b ws now
            | next event =>
                rw [plain_next, turn_plain hplain, ← ih.stopped, hopen]
                rfl
          rw [hsame]
          exact ih.ended hopen w
      | false =>
          rw [if_neg (by simp)]
          cases w with
          | tick now =>
              rw [plain_tick]
              refine Shadow.pass ?_ rfl
              cases hturn : (crept job b creep ws).creepTurn creep (.tick now) with
              | none => exact ih
              | some after => exact ih.tick hopen (creepTurn_cases hturn)
          | next event =>
              rw [plain_next, turn_plain hplain, ← ih.stopped, hopen, if_neg (by simp)]
              cases hturn : (crept job b creep ws).creepTurn creep (.next event) with
              | none => cases event <;> cases hturn
              | some after => exact ih.next hopen (creepTurn_cases hturn)

end Wakeups

end Forwarder

/-- What a wakeup adds to the deliveries. A synthetic one is that of a tick, while
the latest of the events that arm or disarm has entered a phase with a range, and
before any `Finalized`. -/
def Forwarder.Eases (job : JobId) (creep : Creep) (before : List Wakeup) (w : Wakeup)
    (f after : Forwarder) : Prop :=
  ∃ added, after.delivered = f.delivered ++ added ∧ ∀ d ∈ added, d.synthetic = true →
    (∃ now value, w = .tick now ∧ d.event = creepEvent job value now) ∧
    Creeps creep (latestMark before) ∧ ∀ body ∈ received before, body.isFinalized = false

/-- Without its synthetic events the forwarder with a ticker is the one without:
it delivers the same events in the same order, and after any number of wakeups
either both have returned or neither has. Synthetic events are delivered in phases
with a range only, and never after `Finalized`. -/
theorem creep_refines_plain (job : JobId) (b : TaskBuilder) (creep : Creep) (ws : List Wakeup) :
    genuine (Forwarder.crept job b creep ws).delivered = (Forwarder.plain job b ws).delivered ∧
    (Forwarder.crept job b creep ws).stopped = (Forwarder.plain job b ws).stopped ∧
    ∀ before w rest, ws = before ++ w :: rest →
      Forwarder.Eases job creep before w (Forwarder.crept job b creep before)
        (Forwarder.crept job b creep (before ++ [w])) := by
  have h := Forwarder.shadow job b creep
  refine ⟨(h ws).delivered, (h ws).stopped, fun before w rest _ => ?_⟩
  rw [Forwarder.crept_snoc]
  have hbefore := h before
  generalize Forwarder.crept job b creep before = f at hbefore ⊢
  have hsame : f.Eases job creep before w f := ⟨[], (List.append_nil _).symm, List.forall_mem_nil _⟩
  rw [Forwarder.turn_creep (show f.builder.creep = some creep by rw [hbefore.creepBuilder])]
  cases hopen : f.stopped with
  | true => exact hsame
  | false =>
      rw [if_neg (by simp)]
      cases hturn : f.creepTurn creep w with
      | none => exact hsame
      | some after =>
          cases Forwarder.creepTurn_cases hturn with
          | closed | idle => exact hsame
          | event event =>
              refine ⟨_, rfl, fun d hd hsynthetic => ?_⟩
              rw [(TaskBuilder.of_mem_deliver hd).2] at hsynthetic
              cases hsynthetic
          | eased now value state harmed =>
              refine ⟨_, rfl, fun d hd _ => ⟨⟨now, value, rfl, ?_⟩, ?_⟩⟩
              · rw [(TaskBuilder.of_mem_deliver hd).1, hbefore.job]
              · exact ⟨hbefore.armed hopen harmed, hbefore.unfinished hopen⟩

end Execra
