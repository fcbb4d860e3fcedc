import Execra.Store.Decode
import Execra.Store.Listing

/-!
`JobsQuery::run` over its two back ends. The store compares milliseconds that
were cast to 64 bits, the runtime compares its snapshots at full resolution. As
long as no time is so late that the cast wraps, the store lists what the runtime
selects, and beyond it only jobs within the millisecond of a bound; and on whole
milliseconds both list the same jobs in the same order.
-/

namespace Execra

/-! Lists that are related element by element. -/

section Related

variable {α β : Type} {R : α → β → Prop} {r : α → α → Prop} {s : β → β → Prop}
  [DecidableRel r] [DecidableRel s]

theorem forall₂_orderedInsert {a : α} {b : β} {l : List α} {l' : List β}
    (hrs : ∀ a b a' b', R a a' → R b b' → (r a b ↔ s a' b')) (hab : R a b)
    (h : List.Forall₂ R l l') :
    List.Forall₂ R (l.orderedInsert r a) (l'.orderedInsert s b) := by
  induction h with
  | nil => exact .cons hab .nil
  | @cons c d l l' hcd hrest ih =>
      by_cases hac : r a c
      · rw [List.orderedInsert_cons_of_le r l hac,
          List.orderedInsert_cons_of_le s l' ((hrs _ _ _ _ hab hcd).mp hac)]
        exact .cons hab (.cons hcd hrest)
      · rw [List.orderedInsert_of_not_le r l hac,
          List.orderedInsert_of_not_le s l' (fun h => hac ((hrs _ _ _ _ hab hcd).mpr h))]
        exact .cons hcd ih

theorem forall₂_insertionSort {l : List α} {l' : List β}
    (hrs : ∀ a b a' b', R a a' → R b b' → (r a b ↔ s a' b')) (h : List.Forall₂ R l l') :
    List.Forall₂ R (l.insertionSort r) (l'.insertionSort s) := by
  induction h with
  | nil => exact .nil
  | cons hab _ ih => exact forall₂_orderedInsert hrs hab ih

end Related

theorem forall₂_mapM {α β γ ε : Type} {f : α → Except ε γ} {R : α → β → Prop} {S : γ → β → Prop}
    (hf : ∀ a b, R a b → ∃ c, f a = .ok c ∧ S c b) {l : List α} {l' : List β}
    (h : List.Forall₂ R l l') : ∃ values, l.mapM f = .ok values ∧ List.Forall₂ S values l' := by
  induction h with
  | nil => exact ⟨[], rfl, .nil⟩
  | @cons a b l l' hab _ ih =>
      obtain ⟨c, hc, hcb⟩ := hf a b hab
      obtain ⟨values, hvalues, hrest⟩ := ih
      exact ⟨c :: values, by rw [List.mapM_cons, hc, hvalues]; rfl, .cons hcb hrest⟩

theorem forall₂_mem {α β : Type} {R : α → β → Prop} {l : List α} {l' : List β}
    (h : List.Forall₂ R l l') : (∀ a ∈ l, ∃ b ∈ l', R a b) ∧ ∀ b ∈ l', ∃ a ∈ l, R a b := by
  induction h with
  | nil => exact ⟨by simp, by simp⟩
  | cons hab _ ih =>
      constructor
      · intro c hc
        rcases List.mem_cons.mp hc with rfl | hc
        · exact ⟨_, List.mem_cons_self, hab⟩
        · obtain ⟨d, hd, hcd⟩ := ih.1 c hc
          exact ⟨d, List.mem_cons_of_mem _ hd, hcd⟩
      · intro d hd
        rcases List.mem_cons.mp hd with rfl | hd
        · exact ⟨_, List.mem_cons_self, hab⟩
        · obtain ⟨c, hc, hcd⟩ := ih.2 d hd
          exact ⟨c, List.mem_cons_of_mem _ hc, hcd⟩

theorem forall₂_limited {α β : Type} {R : α → β → Prop} {l : List α} {l' : List β} (limit : Nat)
    (h : List.Forall₂ R l l') : List.Forall₂ R (limited limit l) (limited limit l') := by
  unfold limited
  dsimp only
  split
  · exact h
  · exact List.forall₂_take _ h

/-! The query. -/

def JobsQuery.filter (query : JobsQuery) : JobsFilter where
  tag := query.tag
  state := query.state
  createdAfter := query.createdAfter
  createdBefore := query.createdBefore

/-- `JobsQuery::run`: the snapshots are those of the runtime's jobs, in the order
its map lists them. -/
def JobsQuery.run (query : JobsQuery) (store : Option Store) (snapshots : List Job) :
    Except StoreError (List Job) :=
  let limit := query.limit.getD 100
  match store with
  | some store => store.listJobs limit query.filter
  | none =>
      .ok (((snapshots.filter query.matches).insertionSort
        (fun a b => b.createdAt ≤ a.createdAt)).take limit)

/-- The row tells the job in its present state. -/
structure JobRow.Holds (row : JobRow) (job : Job) : Prop where
  id : row.id = job.id
  command : row.commandJson.value = job.command
  created : row.createdAtMs = toMs job.createdAt
  state : row.state = job.state.toText
  schema : row.schemaVersion = Execra.schemaVersion

/-- The store holds these jobs and no others. -/
def Store.HoldsJobs (store : Store) (jobs : List Job) : Prop :=
  ∃ held, List.Forall₂ JobRow.Holds store.jobs held ∧ held.Perm jobs

/-- What a row tells of a job. -/
def Job.core (job : Job) : JobId × CommandSpec × JobState × SystemTime :=
  (job.id, job.command, job.state, job.createdAt)

/-- The job read from the store is this one, with its time of creation to the
millisecond. -/
def Job.Shows (stored job : Job) : Prop :=
  stored.core = { job with createdAt := truncMs job.createdAt }.core

/-- The job lies outside a bound of the query and in the same millisecond. -/
def JobsQuery.AtBound (query : JobsQuery) (job : Job) : Prop :=
  (∃ after ∈ query.createdAfter,
    job.createdAt < after ∧ job.createdAt / 1000000 = after / 1000000) ∨
  ∃ before ∈ query.createdBefore,
    before < job.createdAt ∧ job.createdAt / 1000000 = before / 1000000

/-- The times a query compares. -/
def JobsQuery.times (query : JobsQuery) (jobs : List Job) : List SystemTime :=
  jobs.map Job.createdAt ++ query.createdAfter.toList ++ query.createdBefore.toList

def WholeMs (t : SystemTime) : Prop := t % 1000000 = 0

/-- The two back ends agree. -/
structure JobsQuery.Agrees (query : JobsQuery) (store : Store) (jobs : List Job) : Prop where
  selected : LimitCovers (query.limit.getD 100) (store.jobs.countP query.filter.admits) →
    ∃ listed, query.run (some store) jobs = .ok listed ∧
      (∀ job ∈ jobs, query.matches job = true → ∃ stored ∈ listed, stored.Shows job) ∧
      ∀ stored ∈ listed, ∃ job ∈ jobs, stored.Shows job ∧
        (query.matches job = true ∨ query.AtBound job)
  same : (jobs.map Job.createdAt).Nodup → (∀ t ∈ query.times jobs, WholeMs t) →
    ∃ listed selected, query.run (some store) jobs = .ok listed ∧
      query.run none jobs = .ok selected ∧ listed.map Job.core = selected.map Job.core ∧
      selected.Pairwise (fun a b => b.createdAt ≤ a.createdAt)

/-- A query without a tag over jobs that are held both in memory and in the
store. The two bounds on numbers are those of a `usize` and of a `Vec`. -/
structure JobsQuery.Asked (query : JobsQuery) (store : Store) (jobs : List Job) : Prop where
  untagged : query.tag = none
  word : query.limit.getD 100 < 2 ^ 64
  few : jobs.length < 2 ^ 63
  held : store.HoldsJobs jobs
  epoch : ∀ t ∈ query.times jobs, 0 ≤ t

/-! Times whose milliseconds fit. -/

/-- The milliseconds of the time fit an `i64`. -/
def MsRange (t : SystemTime) : Prop := 0 ≤ t ∧ t < 2 ^ 63 * 1000000

theorem MsRange.ms_lt {t : SystemTime} (h : MsRange t) : t / 1000000 < 2 ^ 63 :=
  Int.ediv_lt_of_lt_mul (by decide) h.2

theorem bmod_of_lt {q : Int} (hpos : 0 ≤ q) (hlt : q < 2 ^ 63) : Int.bmod q (2 ^ 64) = q :=
  Int.bmod_eq_of_le (by omega) (by omega)

theorem MsRange.toMs_eq {t : SystemTime} (h : MsRange t) : toMs t = t / 1000000 := by
  rw [toMs, if_pos h.1]
  exact bmod_of_lt (Int.ediv_nonneg h.1 (by decide)) h.ms_lt

/-- A cast number of milliseconds is at most the largest `i64`. -/
theorem toMs_lt (t : SystemTime) : toMs t < 2 ^ 63 := by
  unfold toMs
  split
  · exact Int.bmod_lt (by decide)
  · decide

theorem JobRow.holds_ofJob (job : Job) : (JobRow.ofJob job).Holds job := ⟨rfl, rfl, rfl, rfl, rfl⟩

/-- The row follows its job through the upserts of its snapshots. -/
theorem JobRow.Holds.conflict {row : JobRow} {job later : Job} (h : row.Holds job)
    (hid : later.id = job.id) (hcommand : later.command = job.command)
    (hcreated : later.createdAt = job.createdAt) :
    (row.conflict (JobRow.ofJob later)).Holds later where
  id := h.id.trans hid.symm
  command := h.command.trans hcommand.symm
  created := h.created.trans (congrArg toMs hcreated).symm
  state := rfl
  schema := h.schema

theorem JobRow.Holds.decode {row : JobRow} {job : Job} (h : row.Holds job)
    (hearly : MsRange job.createdAt) : ∃ stored, row.decode = .ok stored ∧ stored.Shows job := by
  unfold JobRow.decode buildJob
  rw [h.schema, checkSchemaVersion_current, h.state, JobState.ofText_toText]
  refine ⟨_, rfl, ?_⟩
  simp only [Job.Shows, Job.core, h.id, h.command, h.created,
    (fromMs_toMs_iff hearly.1).mpr hearly.ms_lt]

/-- The `WHERE` clause of a query without a tag, in whole milliseconds. -/
def JobsQuery.passes (query : JobsQuery) (job : Job) : Bool :=
  query.state.all (fun state => job.state = state) &&
    query.createdAfter.all (fun after => after / 1000000 ≤ job.createdAt / 1000000) &&
    query.createdBefore.all (fun before => job.createdAt / 1000000 ≤ before / 1000000)

theorem JobsQuery.passes_iff (query : JobsQuery) (job : Job) :
    query.passes job = true ↔
      (∀ state ∈ query.state, job.state = state) ∧
      (∀ after ∈ query.createdAfter, after / 1000000 ≤ job.createdAt / 1000000) ∧
      ∀ before ∈ query.createdBefore, job.createdAt / 1000000 ≤ before / 1000000 := by
  simp only [JobsQuery.passes, Bool.and_eq_true, Option.all_eq_true, decide_eq_true_eq, and_assoc]
  rfl

theorem JobsQuery.matches_iff {query : JobsQuery} (htag : query.tag = none) (job : Job) :
    query.matches job = true ↔
      (∀ state ∈ query.state, job.state = state) ∧
      (∀ after ∈ query.createdAfter, after ≤ job.createdAt) ∧
      ∀ before ∈ query.createdBefore, job.createdAt ≤ before := by
  simp only [JobsQuery.matches, htag, Option.all_none, Bool.and_true, Bool.and_eq_true,
    Option.all_eq_true, decide_eq_true_eq, and_assoc]
  rfl

theorem JobRow.Holds.admits_iff {row : JobRow} {job : Job} (h : row.Holds job)
    {query : JobsQuery} (htag : query.tag = none)
    (hearly : ∀ t ∈ query.times [job], MsRange t) :
    query.filter.admits row = true ↔ query.passes job = true := by
  simp only [JobsQuery.times, List.map_cons, List.map_nil, List.mem_append, List.mem_singleton,
    Option.mem_toList] at hearly
  have hcreated : row.createdAtMs = job.createdAt / 1000000 :=
    h.created.trans (hearly _ (Or.inl (Or.inl rfl))).toMs_eq
  have hafter : ∀ after ∈ query.createdAfter, toMs after = after / 1000000 :=
    fun after ha => (hearly after (Or.inl (Or.inr ha))).toMs_eq
  have hbefore : ∀ before ∈ query.createdBefore, toMs before = before / 1000000 :=
    fun before hb => (hearly before (Or.inr hb)).toMs_eq
  have hstate : ∀ state : JobState, job.state.toText = state.toText ↔ job.state = state := by
    intro state
    cases job.state <;> cases state <;> decide
  rw [query.passes_iff]
  simp only [JobsFilter.admits, JobsQuery.filter, htag, h.state, hcreated, Option.all_none,
    Bool.and_true, Bool.and_eq_true, Option.all_eq_true, decide_eq_true_eq, hstate, and_assoc]
  refine and_congr_right fun _ => and_congr ?_ ?_
  · exact forall₂_congr fun after ha => by rw [hafter after ha]
  · exact forall₂_congr fun before hb => by rw [hbefore before hb]

/-- A job that passes in milliseconds is selected or lies at a bound. -/
theorem JobsQuery.matches_or_atBound {query : JobsQuery} {job : Job} (htag : query.tag = none)
    (h : query.passes job = true) : query.matches job = true ∨ query.AtBound job := by
  obtain ⟨hstate, hafter, hbefore⟩ := (query.passes_iff job).mp h
  rw [query.matches_iff htag]
  by_cases hout : query.AtBound job
  · exact Or.inr hout
  · refine Or.inl ⟨hstate, fun after ha => ?_, fun before hb => ?_⟩
    · by_contra hlt
      have hms : job.createdAt / 1000000 ≤ after / 1000000 :=
        Int.ediv_le_ediv (by decide) (not_le.mp hlt).le
      exact hout (Or.inl ⟨after, ha, not_le.mp hlt, le_antisymm hms (hafter after ha)⟩)
    · by_contra hlt
      have hms : before / 1000000 ≤ job.createdAt / 1000000 :=
        Int.ediv_le_ediv (by decide) (not_le.mp hlt).le
      exact hout (Or.inr ⟨before, hb, not_le.mp hlt, le_antisymm (hbefore before hb) hms⟩)

/-- A selected job passes in milliseconds. -/
theorem JobsQuery.passes_of_matches {query : JobsQuery} {job : Job} (htag : query.tag = none)
    (h : query.matches job = true) : query.passes job = true := by
  obtain ⟨hstate, hafter, hbefore⟩ := (query.matches_iff htag job).mp h
  exact (query.passes_iff job).mpr
    ⟨hstate, fun after ha => Int.ediv_le_ediv (by decide) (hafter after ha),
      fun before hb => Int.ediv_le_ediv (by decide) (hbefore before hb)⟩

/-! The two runs. -/

/-- The job was created in a millisecond no earlier than the other's. -/
def Job.NewerMs (a b : Job) : Prop := b.createdAt / 1000000 ≤ a.createdAt / 1000000

instance : DecidableRel Job.NewerMs :=
  fun a b => inferInstanceAs (Decidable (b.createdAt / 1000000 ≤ a.createdAt / 1000000))

theorem JobsQuery.mem_times_single {query : JobsQuery} {jobs : List Job} {job : Job}
    (hjob : job ∈ jobs) {t : SystemTime} (ht : t ∈ query.times [job]) : t ∈ query.times jobs := by
  simp only [JobsQuery.times, List.map_cons, List.map_nil, List.mem_append,
    List.mem_singleton] at ht ⊢
  rcases ht with (rfl | ht) | ht
  · exact Or.inl (Or.inl (List.mem_map_of_mem hjob))
  · exact Or.inl (Or.inr ht)
  · exact Or.inr ht

/-- The store answers as a run over the jobs themselves in milliseconds. -/
theorem JobsQuery.Asked.run_store {query : JobsQuery} {store : Store} {jobs : List Job}
    (h : query.Asked store jobs) (hearly : ∀ t ∈ query.times jobs, MsRange t) :
    ∃ held listed : List Job, held.Perm jobs ∧ query.run (some store) jobs = .ok listed ∧
      store.jobs.countP query.filter.admits = (held.filter query.passes).length ∧
      List.Forall₂ Job.Shows listed (limited (query.limit.getD 100)
        ((held.filter query.passes).insertionSort Job.NewerMs)) := by
  obtain ⟨held, hheld, hperm⟩ := h.held
  have hsingle : ∀ job ∈ held, ∀ t ∈ query.times [job], MsRange t :=
    fun job hjob t ht => hearly t (query.mem_times_single (hperm.subset hjob) ht)
  have hrows : List.Forall₂ (fun row job => (∀ t ∈ query.times [job], MsRange t) ∧ row.Holds job)
      store.jobs held :=
    ((List.forall₂_and_left _ _).mpr ⟨hsingle, List.Forall₂.flip hheld⟩).flip
  have hcreated : ∀ job : Job, (∀ t ∈ query.times [job], MsRange t) → MsRange job.createdAt :=
    fun job hjob => hjob _ (by simp [JobsQuery.times])
  have hfiltered := List.rel_filter
    (fun row job hrow => Iff.of_eq (congrArg (· = true) (Bool.eq_iff_iff.mpr
      (JobRow.Holds.admits_iff hrow.2 h.untagged hrow.1)))) hrows
  have hsorted := forall₂_insertionSort (r := fun a b : JobRow => b.createdAtMs ≤ a.createdAtMs)
    (s := Job.NewerMs)
    (fun a b a' b' ha hb => by
      rw [ha.2.created, hb.2.created, (hcreated a' ha.1).toMs_eq, (hcreated b' hb.1).toMs_eq]
      rfl) hfiltered
  obtain ⟨listed, hlisted, hshows⟩ := forall₂_mapM
    (fun row job hrow => hrow.2.decode (hcreated job hrow.1))
    (forall₂_limited (query.limit.getD 100) hsorted)
  refine ⟨held, listed, hperm, ?_, ?_, hshows⟩
  · exact (Store.listJobs_untagged store _ h.untagged).trans hlisted
  · rw [List.countP_eq_length_filter]
    exact hfiltered.length_eq

theorem JobsQuery.Asked.selected {query : JobsQuery} {store : Store} {jobs : List Job}
    (h : query.Asked store jobs) (hearly : ∀ t ∈ query.times jobs, MsRange t)
    (hcovers : LimitCovers (query.limit.getD 100) (store.jobs.countP query.filter.admits)) :
    ∃ listed, query.run (some store) jobs = .ok listed ∧
      (∀ job ∈ jobs, query.matches job = true → ∃ stored ∈ listed, stored.Shows job) ∧
      ∀ stored ∈ listed, ∃ job ∈ jobs, stored.Shows job ∧
        (query.matches job = true ∨ query.AtBound job) := by
  obtain ⟨held, listed, hperm, hlisted, hcount, hshows⟩ := h.run_store hearly
  rw [limited_of_covers hcovers (by rw [List.length_insertionSort, hcount])] at hshows
  have hmem : ∀ job, job ∈ (held.filter query.passes).insertionSort Job.NewerMs ↔
      job ∈ jobs ∧ query.passes job = true := by
    intro job
    rw [List.mem_insertionSort, List.mem_filter, hperm.mem_iff]
  refine ⟨listed, hlisted, fun job hjob hmatches => ?_, fun stored hstored => ?_⟩
  · exact (forall₂_mem hshows).2 job
      ((hmem job).mpr ⟨hjob, query.passes_of_matches h.untagged hmatches⟩)
  · obtain ⟨job, hjob, hshow⟩ := (forall₂_mem hshows).1 stored hstored
    obtain ⟨hheld, hpasses⟩ := (hmem job).mp hjob
    exact ⟨job, hheld, hshow, query.matches_or_atBound h.untagged hpasses⟩

/-! On whole milliseconds. -/

theorem WholeMs.truncMs_eq {t : SystemTime} (ht : WholeMs t) : truncMs t = t :=
  Int.ediv_mul_cancel (Int.dvd_of_emod_eq_zero ht)

/-- Whole milliseconds compare as their numbers do. -/
theorem WholeMs.ediv_le_iff {t u : SystemTime} (ht : WholeMs t) (hu : WholeMs u) :
    t / 1000000 ≤ u / 1000000 ↔ t ≤ u := by
  refine ⟨fun h => ?_, Int.ediv_le_ediv (by decide)⟩
  calc t = t / 1000000 * 1000000 := ht.truncMs_eq.symm
    _ ≤ u / 1000000 * 1000000 := Int.mul_le_mul_of_nonneg_right h (by decide)
    _ = u := hu.truncMs_eq

theorem JobsQuery.passes_eq_matches {query : JobsQuery} {job : Job} (htag : query.tag = none)
    (hwhole : ∀ t ∈ query.times [job], WholeMs t) : query.passes job = query.matches job := by
  simp only [JobsQuery.times, List.map_cons, List.map_nil, List.mem_append, List.mem_singleton,
    Option.mem_toList] at hwhole
  have hcreated : WholeMs job.createdAt := hwhole _ (Or.inl (Or.inl rfl))
  rw [Bool.eq_iff_iff, query.passes_iff, query.matches_iff htag]
  refine and_congr_right fun _ => and_congr ?_ ?_
  · exact forall₂_congr fun after ha =>
      (hwhole after (Or.inl (Or.inr ha))).ediv_le_iff hcreated
  · exact forall₂_congr fun before hb => hcreated.ediv_le_iff (hwhole before (Or.inr hb))

theorem limited_eq_take {α : Type} {limit : Nat} {rows : List α} (hword : limit < 2 ^ 64)
    (hfew : rows.length < 2 ^ 63) : limited limit rows = rows.take limit := by
  by_cases hlimit : limit < 2 ^ 63
  · have hsmall : Int.bmod limit (2 ^ 64) = limit :=
      bmod_of_lt (by omega) (by exact_mod_cast hlimit)
    unfold limited
    simp only [hsmall]
    rw [if_neg (by omega), Int.toNat_natCast]
  · rw [limited_of_negative hword (not_lt.mp hlimit), List.take_of_length_le (by omega)]

/-- Jobs of different times have one newest-first order. -/
theorem insertionSort_eq_of_perm {l l' : List Job} (hperm : l.Perm l')
    (hdistinct : (l'.map Job.createdAt).Nodup) :
    l.insertionSort (fun a b => b.createdAt ≤ a.createdAt) =
      l'.insertionSort (fun a b => b.createdAt ≤ a.createdAt) := by
  have htrans : IsTrans Job (fun a b => b.createdAt ≤ a.createdAt) :=
    ⟨fun _ _ _ hab hbc => le_trans hbc hab⟩
  have htotal : Std.Total (fun a b : Job => b.createdAt ≤ a.createdAt) :=
    ⟨fun a b => le_total b.createdAt a.createdAt⟩
  refine List.Perm.eq_of_pairwise ?_ (List.pairwise_insertionSort _ l)
    (List.pairwise_insertionSort _ l')
    ((List.perm_insertionSort _ l).trans (hperm.trans (List.perm_insertionSort _ l').symm))
  intro a b ha hb hab hba
  exact List.inj_on_of_nodup_map hdistinct (hperm.subset ((List.mem_insertionSort _).mp ha))
    ((List.mem_insertionSort _).mp hb) (le_antisymm hba hab)

theorem insertionSort_newerMs {l : List Job} (hwhole : ∀ job ∈ l, WholeMs job.createdAt) :
    l.insertionSort Job.NewerMs = l.insertionSort (fun a b => b.createdAt ≤ a.createdAt) := by
  have hsame := @forall₂_insertionSort Job Job (fun a b => WholeMs a.createdAt ∧ a = b)
    Job.NewerMs (fun a b => b.createdAt ≤ a.createdAt) _ _ l l
    (fun a b a' b' ha hb => by
      rw [← ha.2, ← hb.2]
      exact hb.1.ediv_le_iff ha.1)
    (List.forall₂_same.mpr fun job hjob => ⟨hwhole job hjob, rfl⟩)
  have hequal := ((List.forall₂_and_left _ _).mp hsame).2
  rwa [List.forall₂_eq_eq_eq] at hequal

theorem Job.map_core_of_shows {listed selected : List Job}
    (h : List.Forall₂ Job.Shows listed selected)
    (hwhole : ∀ job ∈ selected, WholeMs job.createdAt) :
    listed.map Job.core = selected.map Job.core := by
  have hcores : listed.map Job.core =
      selected.map (fun job => { job with createdAt := truncMs job.createdAt }.core) := by
    rw [← List.forall₂_eq_eq_eq, List.forall₂_map_left_iff, List.forall₂_map_right_iff]
    exact h
  refine hcores.trans (List.map_congr_left fun job hjob => ?_)
  rw [(hwhole job hjob).truncMs_eq]

theorem JobsQuery.Asked.same {query : JobsQuery} {store : Store} {jobs : List Job}
    (h : query.Asked store jobs) (hearly : ∀ t ∈ query.times jobs, MsRange t)
    (hdistinct : (jobs.map Job.createdAt).Nodup) (hwhole : ∀ t ∈ query.times jobs, WholeMs t) :
    ∃ listed selected, query.run (some store) jobs = .ok listed ∧
      query.run none jobs = .ok selected ∧ listed.map Job.core = selected.map Job.core ∧
      selected.Pairwise (fun a b => b.createdAt ≤ a.createdAt) := by
  obtain ⟨held, listed, hperm, hlisted, -, hshows⟩ := h.run_store hearly
  have hsingle : ∀ job ∈ held, ∀ t ∈ query.times [job], WholeMs t :=
    fun job hjob t ht => hwhole t (query.mem_times_single (hperm.subset hjob) ht)
  have hcreated : ∀ job ∈ jobs, WholeMs job.createdAt :=
    fun job hjob => hwhole _ (query.mem_times_single hjob (by simp [JobsQuery.times]))
  have hfilter : held.filter query.passes = held.filter query.matches :=
    List.filter_congr fun job hjob =>
      JobsQuery.passes_eq_matches h.untagged (hsingle job hjob)
  have hsorted : (held.filter query.passes).insertionSort Job.NewerMs =
      (jobs.filter query.matches).insertionSort (fun a b => b.createdAt ≤ a.createdAt) := by
    rw [hfilter, insertionSort_newerMs fun job hjob =>
      hcreated job (hperm.subset (List.mem_of_mem_filter hjob))]
    exact insertionSort_eq_of_perm (hperm.filter _)
      (hdistinct.sublist (List.filter_sublist.map Job.createdAt))
  have hfew : ((jobs.filter query.matches).insertionSort
      (fun a b => b.createdAt ≤ a.createdAt)).length < 2 ^ 63 := by
    rw [List.length_insertionSort]
    exact (List.length_filter_le _ _).trans_lt h.few
  rw [hsorted, limited_eq_take h.word hfew] at hshows
  refine ⟨listed, _, hlisted, rfl, ?_, ?_⟩
  · refine Job.map_core_of_shows hshows fun job hjob => hcreated job ?_
    exact List.mem_of_mem_filter ((List.mem_insertionSort _).mp (List.mem_of_mem_take hjob))
  · have htrans : IsTrans Job (fun a b => b.createdAt ≤ a.createdAt) :=
      ⟨fun _ _ _ hab hbc => le_trans hbc hab⟩
    have htotal : Std.Total (fun a b : Job => b.createdAt ≤ a.createdAt) :=
      ⟨fun a b => le_total b.createdAt a.createdAt⟩
    exact (List.pairwise_insertionSort _ _).sublist (List.take_sublist _ _)

/-! Late times. -/

/-- A job that was created at a given time. -/
def jobCreatedAt (t : SystemTime) : Job where
  id := ⟨7⟩
  command := { program := "tool" }
  createdAt := t
  startedAt := none
  state := .queued
  currentPhase := none
  progress := .unknown
  label := none
  exit := none
  outcome := none

/-- The store with the row of one job. -/
def Store.ofJob (job : Job) : Store where
  jobs := [JobRow.ofJob job]

theorem JobsQuery.asked_ofJob {query : JobsQuery} {job : Job} (htag : query.tag = none)
    (hlimit : query.limit = none) (hepoch : ∀ t ∈ query.times [job], 0 ≤ t) :
    query.Asked (.ofJob job) [job] where
  untagged := htag
  word := by rw [hlimit]; decide
  few := show 1 < 2 ^ 63 by decide
  held := ⟨[job], .cons (JobRow.holds_ofJob job) .nil, .refl _⟩
  epoch := hepoch

/-- The start of the last millisecond an `i64` counts. -/
def lastMs : SystemTime := (2 ^ 63 - 1) * 1000000

/-- A bound from `2^63` milliseconds on is cast to a number that the row of the
last early millisecond reaches, and the job was created long before the bound. -/
theorem not_agrees_of_late {t : SystemTime} (hlate : 2 ^ 63 * 1000000 ≤ t) :
    ¬ JobsQuery.Agrees { createdAfter := some t } (.ofJob (jobCreatedAt lastMs))
      [jobCreatedAt lastMs] := by
  intro h
  have hcast : toMs t ≤ toMs lastMs := Int.le_of_lt_add_one (toMs_lt t)
  have hbefore : (jobCreatedAt lastMs).createdAt < t := lt_of_lt_of_le (by decide) hlate
  have hms : lastMs / 1000000 < t / 1000000 :=
    lt_of_lt_of_le (by decide) (Int.ediv_le_ediv (by decide) hlate)
  have hadmits : JobsFilter.admits { createdAfter := some t }
      (JobRow.ofJob (jobCreatedAt lastMs)) = true := by
    simp only [JobsFilter.admits, Option.all_none, Option.all_some, Bool.true_and, Bool.and_true]
    exact decide_eq_true hcast
  have hcovers : LimitCovers 100 ((Store.ofJob (jobCreatedAt lastMs)).jobs.countP
      (JobsFilter.admits { createdAfter := some t })) :=
    ⟨by decide, Or.inl ((List.countP_le_length).trans (by decide))⟩
  obtain ⟨listed, hlisted, -, hextra⟩ := h.selected hcovers
  have hrows : (Store.ofJob (jobCreatedAt lastMs)).jobs.filter
      (JobsFilter.admits { createdAfter := some t }) = [JobRow.ofJob (jobCreatedAt lastMs)] :=
    List.filter_eq_self.mpr fun row hrow => by
      rw [List.mem_singleton.mp hrow]
      exact hadmits
  have hrun : ([JobRow.ofJob (jobCreatedAt lastMs)]).mapM JobRow.decode = .ok listed := by
    rw [← hlisted, JobsQuery.run, Store.listJobs_untagged _ _ rfl]
    dsimp only [JobsQuery.filter]
    rw [hrows]
    rfl
  cases hrun
  obtain ⟨job, hjob, -, hselected⟩ := hextra _ List.mem_cons_self
  rw [List.mem_singleton.mp hjob] at hselected
  rcases hselected with hmatches | ⟨after, hafter, -, hequal⟩ | ⟨before, hbefore, -⟩
  · have hge := ((JobsQuery.matches_iff rfl _).mp hmatches).2.1 t rfl
    exact absurd hge (not_le.mpr hbefore)
  · cases hafter
    exact absurd hequal hms.ne
  · cases hbefore

/-- The back ends agree on all jobs and queries whose times are less than `2^63`
milliseconds after the epoch, and any one time `t` can be allowed besides these if
and only if it is less as well: a later one is the bound of a query on which the
back ends disagree. -/
theorem query_back_ends_agree (t : SystemTime) :
    (∀ (query : JobsQuery) (store : Store) (jobs : List Job), query.Asked store jobs →
      (∀ u ∈ query.times jobs, u < 2 ^ 63 * 1000000 ∨ u = t) → query.Agrees store jobs) ↔
    t < 2 ^ 63 * 1000000 := by
  refine ⟨fun hagrees => ?_, fun ht query store jobs h htimes => ?_⟩
  · by_contra hlate
    have hlate := not_lt.mp hlate
    refine not_agrees_of_late hlate (hagrees _ _ _ (JobsQuery.asked_ofJob rfl rfl ?_) ?_)
    · intro u hu
      rcases List.mem_cons.mp hu with rfl | hu
      · decide
      · rw [List.mem_singleton.mp hu]
        exact le_trans (by decide) hlate
    · intro u hu
      rcases List.mem_cons.mp hu with rfl | hu
      · exact Or.inl (by decide)
      · exact Or.inr (List.mem_singleton.mp hu)
  · have hearly : ∀ u ∈ query.times jobs, MsRange u := by
      intro u hu
      rcases htimes u hu with hlt | rfl
      · exact ⟨h.epoch u hu, hlt⟩
      · exact ⟨h.epoch u hu, ht⟩
    exact ⟨h.selected hearly, h.same hearly⟩

theorem query_back_ends_agree_single :
    JobsQuery.Agrees { createdBefore := some 5 } (.ofJob (jobCreatedAt 3000007))
      [jobCreatedAt 3000007] :=
  (query_back_ends_agree 0).mpr (by decide) _ _ _ (JobsQuery.asked_ofJob rfl rfl (by decide))
    (by decide)

/-- A bound of `2^63` milliseconds is none for the runtime's snapshots, and no
row of the store is within it. -/
theorem late_bound_empties_store_listing :
    JobsQuery.run { createdBefore := some (2 ^ 63 * 1000000) } (some (.ofJob (jobCreatedAt 0)))
        [jobCreatedAt 0] = .ok [] ∧
      JobsQuery.run { createdBefore := some (2 ^ 63 * 1000000) } none [jobCreatedAt 0] =
        .ok [jobCreatedAt 0] ∧
      ¬ JobsQuery.Agrees { createdBefore := some (2 ^ 63 * 1000000) } (.ofJob (jobCreatedAt 0))
        [jobCreatedAt 0] := by
  have hrun : JobsQuery.run { createdBefore := some (2 ^ 63 * 1000000) }
      (some (.ofJob (jobCreatedAt 0))) [jobCreatedAt 0] = .ok [] := rfl
  refine ⟨hrun, rfl, fun h => ?_⟩
  obtain ⟨listed, hlisted, hselected, -⟩ := h.selected ⟨by decide, Or.inl (by decide)⟩
  cases hrun.symm.trans hlisted
  obtain ⟨stored, hstored, -⟩ := hselected _ List.mem_cons_self rfl
  exact absurd hstored List.not_mem_nil

end Execra
