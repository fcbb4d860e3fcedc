import Execra.Job.Sinks
import Execra.Runtime.Permits

/-!
The raw output of all jobs. The log files are apart from each other by their
names; the rings are not: they are values of one map that all jobs lock and
write to. Nothing reads the map, so it is kept beside the runtime here, and the
steps of the jobs push to it.
-/

namespace Execra

/-- The line a step of a job pushes to the map. -/
def Sys.pushes (s : Sys) : Label → Option String
  | .driver _ =>
      match s.ctl with
      | .run (.op (.pushMemoryRaw line) _) => some line
      | _ => none
  | _ => none

/-- The runtime with `memory_raw`; a job without an entry has an empty ring. -/
structure SharedRings where
  rt : Runtime
  memoryRaw : JobId → List String := fun _ => []

namespace SharedRings

/-- `raw.entry(job_id).or_default()`, and a line pushed to it. -/
def push (h : SharedRings) (id : JobId) (line : String) : JobId → List String :=
  Function.update h.memoryRaw id (evict (h.memoryRaw id ++ [line]))

/-- The map after a step. -/
def ringsAfter (h : SharedRings) : RuntimeLabel → JobId → List String
  | .job i own =>
      match h.rt.jobs[i]? with
      | some e =>
          match e.sys.pushes own with
          | some line => h.push e.cfg.id line
          | none => h.memoryRaw
      | none => h.memoryRaw
  | _ => h.memoryRaw

def step (h : SharedRings) (l : RuntimeLabel) : Option SharedRings :=
  (h.rt.step l).map (fun rt => { rt, memoryRaw := h.ringsAfter l })

end SharedRings

/-- The file system lets log files be opened. -/
def RuntimeLabel.opensRaw : RuntimeLabel → Bool
  | .job _ own => own.opensRaw
  | _ => true

/-! The rings of the jobs. -/

theorem Sys.step_memoryRaw {cfg : Config} {s t : Sys} {l : Label}
    (hstep : s.step cfg l = some t) :
    t.memoryRaw cfg.id = match s.pushes l with
      | some line => evict (s.memoryRaw cfg.id ++ [line])
      | none => s.memoryRaw cfg.id := by
  cases Sys.step_by hstep with
  | driver w hdriver =>
      rcases Sys.driverStep_cases hdriver with ⟨o, k, hctl, rfl⟩ | ⟨v, hctl, hmove⟩
      · simp only [Sys.pushes, hctl]
        cases o with
        | pushMemoryRaw line => simp [Sys.act]
        | spawnChild => simp only [Sys.act]; cases w.spawned <;> rfl
        | upsertSnapshot =>
            simp only [Sys.act, Sys.upsertSnapshot]
            repeat' split
            all_goals rfl
        | openRawFile | writeRaw => simp only [Sys.act]; split <;> rfl
        | _ => rfl
      · simp only [Sys.pushes, hctl]
        cases hmove with
        | op w o k hctl' => rw [hctl] at hctl'; cases hctl'
        | _ => rfl
  | wait c w hwait => exact congrArg Ledger.ring (Sys.waitStep_move hwait).frame.2.2
  | world _ hworld =>
      have hring := congrArg Ledger.ring (hworld.frame cfg).2.2
      have hnone : s.pushes l = none := by
        cases hworld with
        | group l g hl => cases l <;> first | rfl | cases hl
        | _ => rfl
      rw [hnone]
      exact hring

/-- Each job of a runtime has its own id, and the map has its ring. -/
structure SharedRings.Kept (h : SharedRings) : Prop where
  ids : (h.rt.jobs.map (fun e => e.cfg.id)).Nodup
  rings : ∀ e ∈ h.rt.jobs, h.memoryRaw e.cfg.id = e.sys.memoryRaw e.cfg.id
  blank : ∀ id, (∀ e ∈ h.rt.jobs, e.cfg.id ≠ id) → h.memoryRaw id = []

namespace SharedRings

variable {h h' : SharedRings} {l : RuntimeLabel}

theorem Kept.distinct (hkept : h.Kept) : h.rt.Distinct := hkept.ids

/-- A job that has moved, and a map that differs at its id only. -/
theorem Kept.set (hkept : h.Kept) {i : Nat} {e e' : Entry} (he : h.rt.jobs[i]? = some e)
    {rt : Runtime} (hjobs : rt.jobs = h.rt.jobs.set i e') (hcfg : e'.cfg = e.cfg)
    {rings : JobId → List String} (hown : rings e.cfg.id = e'.sys.memoryRaw e.cfg.id)
    (hother : ∀ id, id ≠ e.cfg.id → rings id = h.memoryRaw id) :
    Kept { rt, memoryRaw := rings } := by
  have hids : rt.jobs.map (fun e => e.cfg.id) = h.rt.jobs.map (fun e => e.cfg.id) := by
    rw [hjobs, Runtime.map_id_set he hcfg]
  have hsame : ∀ {id}, (∀ f ∈ rt.jobs, f.cfg.id ≠ id) → ∀ f ∈ h.rt.jobs, f.cfg.id ≠ id := by
    intro id hfree f hf hid
    have hmem : id ∈ rt.jobs.map (fun e => e.cfg.id) :=
      hids ▸ List.mem_map.mpr ⟨f, hf, hid⟩
    obtain ⟨f', hf', hid'⟩ := List.mem_map.mp hmem
    exact hfree f' hf' hid'
  refine ⟨hids ▸ hkept.ids, fun f hf => ?_, fun id hfree => ?_⟩
  · obtain ⟨j, hj⟩ := List.mem_iff_getElem?.mp hf
    rw [hjobs] at hj
    rcases Runtime.getElem?_of_set hj with ⟨rfl, rfl⟩ | ⟨hij, hj⟩
    · rw [hcfg]
      exact hown
    · exact (hother _ (fun hid => hij (hkept.distinct.same he hj hid.symm))).trans
        (hkept.rings f (List.mem_of_getElem? hj))
  · exact (hother id (fun hid => hsame hfree e (List.mem_of_getElem? he) hid.symm)).trans
      (hkept.blank id (hsame hfree))

theorem Kept.step (hkept : h.Kept) (hstep : h.step l = some h') : h'.Kept := by
  obtain ⟨rt, hrt, rfl⟩ := Option.map_eq_some_iff.mp hstep
  have hjob : ∀ {i : Nat} {e : Entry} {own : Label} {s : Sys} {rt' : Runtime} (permit : Permit),
      h.rt.jobs[i]? = some e → (e.sys.withStore h.rt.store).step e.cfg own = some s →
      rt'.jobs = h.rt.jobs.set i { e with sys := s, permit } →
      Kept { rt := rt', memoryRaw := h.ringsAfter (.job i own) } := by
    intro i e own s rt' permit he hown hjobs
    have hpushed := Sys.step_memoryRaw hown
    change s.memoryRaw e.cfg.id = match e.sys.pushes own with
      | some line => evict (e.sys.memoryRaw e.cfg.id ++ [line])
      | none => e.sys.memoryRaw e.cfg.id at hpushed
    have hring := hkept.rings e (List.mem_of_getElem? he)
    have hmap : h.ringsAfter (.job i own) = match e.sys.pushes own with
        | some line => h.push e.cfg.id line
        | none => h.memoryRaw := by
      rw [ringsAfter, he]
    rw [hmap]
    refine hkept.set he hjobs rfl ?_ ?_
    · rw [hpushed, ← hring]
      cases e.sys.pushes own with
      | none => rfl
      | some line => exact Function.update_self ..
    · intro id hid
      cases e.sys.pushes own with
      | none => rfl
      | some line => exact Function.update_of_ne hid ..
  cases Runtime.step_move hrt with
  | refuse | openHistory => exact ⟨hkept.ids, hkept.rings, hkept.blank⟩
  | spawn cfg upsertOk hfresh =>
      have hnew : ∀ e ∈ h.rt.jobs, e.cfg.id ≠ cfg.id :=
        fun e he => Runtime.ne_of_not_knows hfresh he
      refine ⟨(Runtime.Move.spawn cfg upsertOk hfresh).distinct hkept.distinct, ?_,
        fun id hfree => ?_⟩
      · intro e he
        rcases List.mem_append.mp he with he | he
        · exact hkept.rings e he
        · rw [List.mem_singleton.mp he]
          exact hkept.blank cfg.id hnew
      · exact hkept.blank id (fun e he => hfree e (List.mem_append_left _ he))
  | acquire i e w s he hctl hfree hown => exact hjob .held he hown rfl
  | job i e own s he hctl hown => exact hjob e.permit he hown rfl
  | release i e he hctl hheld =>
      exact @Kept.set h hkept i e { e with permit := .released } he _ rfl rfl _
        (hkept.rings e (List.mem_of_getElem? he)) (fun _ _ => rfl)

/-- Without the map, the runtime runs as it does. -/
theorem run_rt {P : RuntimeLabel → Prop} {start : SharedRings} {ls : List RuntimeLabel}
    (hmeet : Transition.StepsMeet step (fun _ l => P l) start ls)
    (hrun : Transition.run step start ls = some h) :
    Transition.StepsMeet Runtime.step (fun _ l => P l) start.rt ls ∧
      Transition.run Runtime.step start.rt ls = some h.rt := by
  refine Transition.run_induction (fun done h =>
    Transition.StepsMeet Runtime.step (fun _ l => P l) start.rt done ∧
      Transition.run Runtime.step start.rt done = some h.rt) ⟨trivial, rfl⟩ ?_ hmeet hrun
  rintro done m l t ⟨hdone, hm⟩ hl hstep
  obtain ⟨rt, hrt, rfl⟩ := Option.map_eq_some_iff.mp hstep
  exact ⟨hdone.snoc hm hl, (Transition.run_snoc_iff ..).mpr ⟨m.rt, hm, hrt⟩⟩

theorem kept_of_run {start : Runtime} (hstart : start.jobs = []) {ls : List RuntimeLabel}
    (hrun : Transition.run step { rt := start } ls = some h) : h.Kept := by
  refine Transition.invariant_of_run (P := fun _ _ => True) (I := Kept)
    (fun _ _ _ hkept _ hstep => hkept.step hstep) ?_
    (Transition.stepsMeet_of_forall (fun _ _ => trivial) _ _) hrun
  refine ⟨?_, fun e he => ?_, fun _ _ => rfl⟩
  · rw [hstart]
    exact List.nodup_nil
  · rw [hstart] at he
    cases he

end SharedRings

/-- The job has run as it would with a store of its own, by labels that meet a
condition. -/
def Entry.RunsBy (A : Label → Prop) (e : Entry) : Prop :=
  ∃ store ls, store.isSome = e.cfg.store.isSome ∧
    Transition.StepsMeet (Sys.step e.cfg) (fun _ l => A l) (Sys.init e.cfg) ls ∧
    Transition.run (Sys.step e.cfg) (Sys.init e.cfg) ls = some (e.sys.withStore store)

theorem Entry.RunsBy.step {A : Label → Prop} {e : Entry} (h : e.RunsBy A)
    {store : Option Store} {s : Sys} {l : Label} (hl : A l)
    (hstore : store.isSome = e.cfg.store.isSome)
    (hstep : (e.sys.withStore store).step e.cfg l = some s) (permit : Permit) :
    Entry.RunsBy A { e with sys := s, permit } := by
  obtain ⟨own, ls, hown, hmeet, hrun⟩ := h
  obtain ⟨-, store', hstore', hsame⟩ := Sys.step_store (hown.trans hstore.symm) hstep
  exact ⟨store', ls ++ [l], hstore'.trans hstore, hmeet.snoc hrun hl,
    (Transition.run_snoc_iff ..).mpr ⟨_, hrun, hsame⟩⟩

theorem Runtime.entries_run_by {A : Label → Prop} {P : Runtime → RuntimeLabel → Prop}
    (hA : ∀ rt i own, P rt (.job i own) → A own) {start rt : Runtime} (hstart : start.jobs = [])
    {ls : List RuntimeLabel} (hmeet : Transition.StepsMeet Runtime.step P start ls)
    (hrun : Transition.run Runtime.step start ls = some rt) : ∀ e ∈ rt.jobs, e.RunsBy A := by
  refine Runtime.run_entries (A := A) (I := Entry.RunsBy A) hA (fun rt cfg => ?_) ?_ hstart hmeet
    hrun
  · exact ⟨(rt.accept cfg).sys.store, [], by simp [Runtime.accept, Sys.init], trivial, rfl⟩
  · intro e own e' _ hruns hown hmove
    cases hmove with
    | acquire w store s hstore hctl hstep => exact hruns.step (hown _ rfl) hstore hstep .held
    | step l store s hstore hctl hstep => exact hruns.step (hown _ rfl) hstore hstep e.permit
    | release => exact hruns

/-- What the sinks of all jobs hold. -/
structure SharedRings.SinksAgree (h : SharedRings) : Prop where
  file : ∀ e ∈ h.rt.jobs, e.cfg.runtime.persistsRaw = true →
    e.sys.rawLog.getD "" = rawText e.sys.lines ∧
      readRaw (e.sys.rawLog.getD "") = some e.sys.lines
  ring : ∀ e ∈ h.rt.jobs, e.cfg.runtime.rawOutput = .memoryOnly →
    h.memoryRaw e.cfg.id = lastLines e.sys.lines
  apart : ∀ l h', h.step l = some h' → ∀ e ∈ h.rt.jobs,
    h'.memoryRaw e.cfg.id ≠ h.memoryRaw e.cfg.id →
    ∃ i own, l = .job i own ∧ h.rt.jobs[i]? = some e

/-- The log file of a job, where it can be opened, holds the lines the job has
sent and can be read back; its ring holds the last of them; and only the job's
own steps change its ring. -/
theorem raw_output_sinks_agree {start : Runtime} (hstart : start.jobs = [])
    {ls : List RuntimeLabel} {h : SharedRings}
    (hopens : Transition.StepsMeet SharedRings.step (fun _ l => l.opensRaw = true)
      { rt := start } ls)
    (hrun : Transition.run SharedRings.step { rt := start } ls = some h) : h.SinksAgree := by
  have hkept := SharedRings.kept_of_run hstart hrun
  obtain ⟨hmeet, hrt⟩ := SharedRings.run_rt hopens hrun
  have hruns := Runtime.entries_run_by (A := fun l => l.opensRaw = true) (fun _ _ _ hl => hl)
    hstart hmeet hrt
  refine ⟨fun e he hpersists => ?_, fun e he hmemory => ?_, fun l h' hstep e he hchanged => ?_⟩
  · obtain ⟨store, own, -, hown, hreach⟩ := hruns e he
    have hfile : e.sys.rawLog.getD "" = rawText e.sys.lines :=
      (lines_in_file hpersists hown hreach :)
    have hreadable : readRaw (rawText e.sys.lines) = some e.sys.lines :=
      (show Sys.Reachable e.cfg (e.sys.withStore store) from ⟨own, hreach⟩).filed.readable
    exact ⟨hfile, hfile ▸ hreadable⟩
  · obtain ⟨store, own, -, -, hreach⟩ := hruns e he
    have hring : e.sys.memoryRaw e.cfg.id =
        if e.cfg.runtime.rawOutput = .memoryOnly then lastLines e.sys.lines else [] :=
      (show Sys.Reachable e.cfg (e.sys.withStore store) from ⟨own, hreach⟩).filed.ring
    rw [hkept.rings e he, hring, if_pos hmemory]
  · obtain ⟨rt, -, rfl⟩ := Option.map_eq_some_iff.mp hstep
    change h.ringsAfter l e.cfg.id ≠ _ at hchanged
    cases l with
    | job i own =>
        unfold SharedRings.ringsAfter at hchanged
        cases hi : h.rt.jobs[i]? with
        | none => simp [hi] at hchanged
        | some e' =>
            cases hpushes : e'.sys.pushes own with
            | none => simp [hi, hpushes] at hchanged
            | some line =>
                simp only [hi, hpushes] at hchanged
                have hid : e.cfg.id = e'.cfg.id := by
                  by_contra hne
                  exact hchanged (Function.update_of_ne hne ..)
                obtain ⟨j, hj⟩ := List.mem_iff_getElem?.mp he
                obtain rfl := hkept.distinct.same hj hi hid
                exact ⟨j, own, rfl, hj⟩
    | _ => exact absurd rfl hchanged

/-- A runtime that keeps log files, with room for two jobs. -/
def loggingRuntime : Runtime :=
  .fromParts { logDir := some "logs", rawOutput := .persist } 2 none []

/-- Two jobs write a line each, and their drivers process them in turns. -/
def loggingRun : List RuntimeLabel :=
  [.spawn plainConfig true, .spawn { plainConfig with id := ⟨1⟩ } true] ++ onJob 0 (drive 13) ++
    onJob 1 (drive 13) ++ onJob 0 [.arrive .stdout [0x78, newline]] ++
    onJob 1 [.arrive .stderr [0x79, newline]] ++ onJob 0 (drive 3) ++ onJob 1 (drive 4) ++
    onJob 0 (drive 1)

theorem loggingRun_runs :
    (Transition.run SharedRings.step { rt := loggingRuntime } loggingRun).isSome = true := by
  decide

def loggingEnd : SharedRings := Transition.endOf _ _ loggingRun loggingRun_runs

theorem raw_output_sinks_agree_logging :
    loggingEnd.rt.jobs.map (fun e => e.sys.rawLog) =
        [some "[stdout] x\n", some "[stderr] y\n"] ∧ loggingEnd.SinksAgree :=
  ⟨by decide, raw_output_sinks_agree rfl (by decide)
    (Transition.run_endOf _ loggingRun loggingRun_runs)⟩

end Execra
