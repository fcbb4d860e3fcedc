import Execra.Foundation.Pool
import Execra.Runtime.Permits
import Execra.Runtime.Registry

/-!
The runtime is a pool with as many slots as it has permits. Whatever its jobs, their
processes and the other users of its history do, all that happens to the pool is that a
job is submitted, that a driver that waited comes to a slot, and that a job leaves its
final snapshot behind.
-/

namespace Execra

/-- How far a job is in the pool, by what has become of its permit. -/
def Entry.stage (e : Entry) : TaskStage Job :=
  match e.permit with
  | .waiting => .queued
  | .held => .running
  | .released => .done e.sys.snapshot

namespace Runtime

/-- The jobs a runtime has accepted, as a pool. -/
def pool (rt : Runtime) : Pool JobId Job := fun id =>
  (rt.jobs.find? (fun e => e.cfg.id = id)).map Entry.stage

variable {rt rt' : Runtime} {l : RuntimeLabel} {i : ℕ} {e e' : Entry}

theorem pool_of_mem (hdistinct : rt.Distinct) (he : e ∈ rt.jobs) :
    rt.pool e.cfg.id = some e.stage := by
  obtain ⟨found, hfound⟩ : ∃ found, rt.jobs.find? (fun other => other.cfg.id = e.cfg.id) =
      some found := by
    apply Option.isSome_iff_exists.mp
    exact List.find?_isSome.mpr ⟨e, he, decide_eq_true rfl⟩
  have hid : found.cfg.id = e.cfg.id := of_decide_eq_true (List.find?_some hfound :)
  have hsame : found = e :=
    List.inj_on_of_nodup_map hdistinct (List.mem_of_find?_eq_some hfound) he hid
  rw [pool, hfound, hsame, Option.map_some]

theorem mem_of_pool {id : JobId} {stage : TaskStage Job} (h : rt.pool id = some stage) :
    ∃ e ∈ rt.jobs, e.cfg.id = id ∧ e.stage = stage := by
  obtain ⟨e, hfound, hstage⟩ := Option.map_eq_some_iff.mp h
  exact ⟨e, List.mem_of_find?_eq_some hfound, of_decide_eq_true (List.find?_some hfound :), hstage⟩

theorem pool_of_fresh {id : JobId} (h : ∀ e ∈ rt.jobs, e.cfg.id ≠ id) : rt.pool id = none := by
  unfold pool
  rw [Option.map_eq_none_iff, List.find?_eq_none]
  intro e he
  rw [decide_eq_true_iff]
  exact h e he

/-- When a job moves, its own stage is the only one that may change. -/
theorem pool_set (hdistinct : rt.Distinct) (hafter : rt'.Distinct) (he : rt.jobs[i]? = some e)
    (hjobs : rt'.jobs = rt.jobs.set i e') (hcfg : e'.cfg = e.cfg) :
    rt'.pool = rt.pool.enter e.cfg.id e'.stage := by
  have hlen : i < rt.jobs.length := (List.getElem?_eq_some_iff.mp he).1
  have hmem : e' ∈ rt'.jobs := by
    rw [hjobs]
    exact List.mem_set hlen e'
  funext id
  by_cases hown : id = e.cfg.id
  · have hself := pool_of_mem hafter hmem
    rw [hcfg] at hself
    rw [hown, Pool.enter_self, hself]
  rw [Pool.enter_of_ne hown]
  by_cases hlive : ∃ other ∈ rt.jobs, other.cfg.id = id
  · obtain ⟨other, hother, rfl⟩ := hlive
    obtain ⟨j, hj⟩ := List.mem_iff_getElem?.mp hother
    have hji : i ≠ j := by
      rintro rfl
      cases he.symm.trans hj
      exact hown rfl
    have hstill : other ∈ rt'.jobs := by
      apply List.mem_of_getElem? (i := j)
      rw [hjobs, List.getElem?_set_ne hji, hj]
    rw [pool_of_mem hafter hstill, pool_of_mem hdistinct hother]
  · have hids := map_id_set he hcfg
    rw [← hjobs] at hids
    rw [pool_of_fresh (fun other hother hid => hlive ⟨other, hother, hid⟩)]
    apply pool_of_fresh
    intro other hother hid
    have hsome : id ∈ rt.jobs.map (fun e => e.cfg.id) := by
      rw [← hids, ← hid]
      exact List.mem_map_of_mem hother
    obtain ⟨before, hbefore, hsame⟩ := List.mem_map.mp hsome
    exact hlive ⟨before, hbefore, hsame⟩

/-- An accepted job is submitted. -/
theorem pool_append (hafter : rt'.Distinct) (hjobs : rt'.jobs = rt.jobs ++ [e]) :
    rt'.pool = rt.pool.enter e.cfg.id e.stage := by
  funext id
  by_cases hown : id = e.cfg.id
  · rw [hown, Pool.enter_self]
    apply pool_of_mem hafter
    simp [hjobs]
  · have hother : e.cfg.id ≠ id := fun hsame => hown hsame.symm
    rw [Pool.enter_of_ne hown, pool, pool, hjobs, List.find?_append]
    simp [hother]

/-- The busy jobs of the pool hold the permits. -/
theorem busy_encard (hdistinct : rt.Distinct) :
    rt.pool.busy.encard = rt.heldPermits := by
  have hids : (rt.jobs.filter Entry.holds).map (fun e => e.cfg.id) |>.Nodup :=
    hdistinct.sublist (List.filter_sublist.map _)
  have hbusy : rt.pool.busy = ((rt.jobs.filter Entry.holds).map (fun e => e.cfg.id)).toFinset := by
    ext id
    simp only [List.coe_toFinset, Set.mem_ofPred_eq, List.mem_map, List.mem_filter]
    constructor
    · intro hid
      obtain ⟨e, he, hown, hstage⟩ := mem_of_pool hid
      refine ⟨e, ⟨he, ?_⟩, hown⟩
      cases hpermit : e.permit <;> simp [Entry.stage, hpermit, Entry.holds] at hstage ⊢
    · rintro ⟨e, ⟨he, hholds⟩, rfl⟩
      have hpermit : e.permit = .held := of_decide_eq_true hholds
      have hstage : e.stage = .running := by rw [Entry.stage, hpermit]
      exact (pool_of_mem hdistinct he).trans (congrArg some hstage)
  rw [hbusy, Set.encard_coe_eq_coe_finsetCard, List.toFinset_card_of_nodup hids, List.length_map,
    heldPermits, List.countP_eq_length_filter]

/-- A step of the runtime is one of the pool, or the pool does not see it. -/
theorem Move.pool {slots : ℕ} (h : rt.Move l rt') (hshares : rt.Shares) (hdistinct : rt.Distinct)
    (hplaced : ∀ e ∈ rt.jobs, e.Placed) (hpermits : rt.permits + rt.heldPermits = slots) :
    rt'.pool = rt.pool ∨ Pool.Step slots rt.pool rt'.pool := by
  have hafter := h.distinct hdistinct
  cases h with
  | refuse | openHistory => exact Or.inl rfl
  | spawn cfg upsertOk hfresh =>
      right
      rw [pool_append hafter rfl]
      apply Pool.Step.submit
      exact pool_of_fresh (fun e he => ne_of_not_knows hfresh he)
  | acquire i e w s he hctl hfree hstep =>
      right
      have hmem := List.mem_of_getElem? he
      have hstage : e.stage = .queued := by
        cases hplaced e hmem with
        | waiting hpermit => rw [Entry.stage, hpermit]
        | held hpermit hpermitted => rw [hpermitted.acquires] at hctl; cases hctl
        | released hpermit hreturned => rw [hreturned] at hctl; cases hctl
      rw [pool_set hdistinct hafter he rfl rfl]
      apply Pool.Step.start
      · rw [pool_of_mem hdistinct hmem, hstage]
      · rw [busy_encard hdistinct, ← hpermits, Nat.cast_lt]
        omega
  | job i e l s he hctl hstep =>
      left
      have hmem := List.mem_of_getElem? he
      have hstage : Entry.stage { e with sys := s } = e.stage := by
        cases hpermit : e.permit with
        | waiting | held => simp only [Entry.stage, hpermit]
        | released =>
            have hruns := (hshares e hmem).2
            have hfinal := (Entry.finalized_of_released hruns (hplaced e hmem) hpermit).1
            have hsame : s.snapshot = e.sys.snapshot :=
              (hruns.advances (hshares e hmem).1 hstep).final hfinal
            simp only [Entry.stage, hpermit, hsame]
      rw [pool_set hdistinct hafter he rfl rfl]
      apply Pool.enter_eq_self
      exact (pool_of_mem hdistinct hmem).trans (congrArg some hstage.symm)
  | release i e he hctl hheld =>
      right
      have hmem := List.mem_of_getElem? he
      rw [pool_set hdistinct hafter he rfl rfl]
      apply Pool.Step.finish
      rw [pool_of_mem hdistinct hmem, Entry.stage, hheld]

end Runtime

section Refinement

variable {config : RuntimeConfig} {maxConcurrent : ℕ} {history : Option Store}
  {start rt rt' : Runtime} {ls more : List RuntimeLabel}

/-- A runtime that was built has all its permits and no job of its own. -/
theorem Runtime.fromParts_of_build
    (hbuild : Runtime.build config maxConcurrent history = .ok start) :
    ∃ store persisted, start = Runtime.fromParts config maxConcurrent store persisted := by
  cases history with
  | none =>
      cases hbuild
      exact ⟨none, [], rfl⟩
  | some found =>
      unfold Runtime.build at hbuild
      cases hlist : found.resurrectStrandedJobs.1.listJobs 10000 {} with
      | error err =>
          simp only [hlist] at hbuild
          cases hbuild
      | ok jobs =>
          simp only [hlist] at hbuild
          cases hbuild
          exact ⟨_, jobs, rfl⟩

theorem Runtime.pool_steps (hbuild : Runtime.build config maxConcurrent history = .ok start)
    (hrun : Transition.run Runtime.step start ls = some rt)
    (hmore : Transition.run Runtime.step rt more = some rt') :
    Pool.Steps (max maxConcurrent 1) rt.pool rt'.pool := by
  have hstart := Runtime.build_jobs hbuild
  have hsettled := Runtime.settled_of_build hbuild
  obtain ⟨store, persisted, rfl⟩ := Runtime.fromParts_of_build hbuild
  refine Transition.run_induction_reached (P := fun _ _ => True)
    (fun _ m => Pool.Steps (max maxConcurrent 1) rt.pool m.pool) .refl ?_
    (Transition.stepsMeet_of_forall (fun _ _ => trivial) _ _) hmore
  intro done m l t hm hsteps _ hstep
  have hreached : Transition.run Runtime.step
      (Runtime.fromParts config maxConcurrent store persisted) (ls ++ done) = some m := by
    rw [Transition.run_append, hrun]
    exact hm
  obtain ⟨-, hshares, hdistinct⟩ := Runtime.keeps_of_run hstart hsettled hreached
  have hplaced : ∀ e ∈ m.jobs, e.Placed := fun e he => (Runtime.jobs_placed rfl hreached e he).2
  have hpermits := Runtime.permits_constant hreached
  rcases (Runtime.step_move hstep).pool hshares hdistinct hplaced hpermits with hsame | hpool
  · rw [hsame]
    exact hsteps
  · exact hsteps.tail hpool

/-- Every run of a runtime is a run of the pool with as many slots as `max_concurrent`
says, and at least one. A job that is queued in the pool is answered for with its first
snapshot, and nothing was spawned for it; one that is done is answered for with the
snapshot it has left there, which is finalized and never changes again. -/
theorem runtime_refines_pool
    (hbuild : Runtime.build config maxConcurrent history = .ok start)
    (hrun : Transition.run Runtime.step start ls = some rt)
    (hmore : Transition.run Runtime.step rt more = some rt') :
    Pool.Steps (max maxConcurrent 1) Pool.empty rt.pool ∧
    Pool.Steps (max maxConcurrent 1) rt.pool rt'.pool ∧
    rt.pool.busy.encard ≤ (max maxConcurrent 1 : ℕ) ∧
    (∀ e ∈ rt.jobs, rt.pool e.cfg.id = some .queued →
      rt.job e.cfg.id = some e.cfg.initialJob ∧ e.sys.child = none) ∧
    ∀ id j, rt.pool id = some (.done j) → j.state = .finalized ∧
      rt'.pool id = some (.done j) ∧ rt'.job id = some j := by
  have hstart := Runtime.build_jobs hbuild
  obtain ⟨hkeeps, hshares, hdistinct⟩ :=
    Runtime.keeps_of_run hstart (Runtime.settled_of_build hbuild) hrun
  have hempty : start.pool = Pool.empty := by
    funext id
    apply Runtime.pool_of_fresh
    simp [hstart]
  have hsteps : Pool.Steps (max maxConcurrent 1) Pool.empty rt.pool := by
    have hnothing : Transition.run Runtime.step start [] = some start := rfl
    rw [← hempty]
    exact Runtime.pool_steps hbuild hnothing hrun
  have hmoresteps := Runtime.pool_steps hbuild hrun hmore
  have hplaced := Runtime.jobs_placed hstart hrun
  refine ⟨hsteps, hmoresteps, Pool.bounded_of_empty hsteps, fun e he hqueued => ?_,
    fun id j hdone => ?_⟩
  · rw [Runtime.pool_of_mem hdistinct he] at hqueued
    have hstage := Option.some.inj hqueued
    cases (hplaced e he).2 with
    | waiting hpermit hwaits =>
        rw [Runtime.job_of_entry hkeeps hshares hdistinct he, hwaits.snapshot]
        exact ⟨rfl, hwaits.child⟩
    | held hpermit => rw [Entry.stage, hpermit] at hstage; cases hstage
    | released hpermit => rw [Entry.stage, hpermit] at hstage; cases hstage
  · obtain ⟨e, he, rfl, hstage⟩ := Runtime.mem_of_pool hdone
    have hanswer := Runtime.job_of_entry hkeeps hshares hdistinct he
    cases (hplaced e he).2 with
    | waiting hpermit => rw [Entry.stage, hpermit] at hstage; cases hstage
    | held hpermit => rw [Entry.stage, hpermit] at hstage; cases hstage
    | released hpermit hctl =>
        rw [Entry.stage, hpermit] at hstage
        cases hstage
        have hfinal := (Entry.finalized_of_released (hplaced e he).1 (hplaced e he).2 hpermit).1
        obtain ⟨j', hj', hbecomes⟩ := Runtime.job_becomes hbuild hrun hmore hanswer
        rw [hbecomes.final hfinal] at hj'
        exact ⟨hfinal, hmoresteps.done hdone, hj'⟩

theorem runtime_refines_pool_serial :
    serialRestEnd.jobs.map Entry.permit = [.released, .held] ∧
    Pool.Steps (max 1 1) storedTwo.pool serialRestEnd.pool ∧
    ∀ e ∈ storedTwo.jobs, storedTwo.pool e.cfg.id = some .queued →
      storedTwo.job e.cfg.id = some e.cfg.initialJob ∧ e.sys.child = none := by
  have h := runtime_refines_pool storedRuntime_built
    (Transition.run_endOf storedRuntime spawnTwo storedTwo_runs)
    (Transition.run_endOf storedTwo serialRest serialRest_runs)
  exact ⟨by decide, h.2.1, h.2.2.2.1⟩

end Refinement

end Execra
