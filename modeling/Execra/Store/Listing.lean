import Execra.Model.Query

/-!
What `list_jobs` returns. A store that was filled by upserts holds rows that
decode and that tell in their tags column what their command says; listing it
with a filter is filtering what is listed without one, because the sort by time
of creation is stable.
-/

namespace Execra

/-! Filters and stable sorting. -/

section Sorting

variable {α : Type} (r : α → α → Prop) [DecidableRel r]

/-- An element is inserted into a sorted list before the same elements whether
the list is filtered before or afterwards. -/
theorem filter_orderedInsert [IsTrans α r] (p : α → Bool) (a : α) {l : List α}
    (hsorted : l.Pairwise r) :
    (l.orderedInsert r a).filter p =
      if p a then (l.filter p).orderedInsert r a else l.filter p := by
  induction l with
  | nil => cases hp : p a <;> simp [hp]
  | cons b l ih =>
      obtain ⟨hhead, htail⟩ := List.pairwise_cons.mp hsorted
      by_cases hab : r a b
      · have hall : ∀ c ∈ (b :: l).filter p, r a c := by
          intro c hc
          rcases List.mem_cons.mp (List.mem_filter.mp hc).1 with rfl | hc
          · exact hab
          · exact IsTrans.trans _ _ _ hab (hhead c hc)
        rw [List.orderedInsert_cons_of_le r l hab]
        cases hp : p a with
        | false => simp [hp]
        | true =>
            rw [List.filter_cons_of_pos hp, if_pos rfl]
            cases hrest : (b :: l).filter p with
            | nil => rfl
            | cons c rest =>
                rw [List.orderedInsert_cons_of_le r rest (hall c (hrest ▸ List.mem_cons_self))]
      · rw [List.orderedInsert_of_not_le r l hab, List.filter_cons, List.filter_cons, ih htail]
        cases hpa : p a <;> cases hpb : p b <;> simp [hab]

theorem filter_insertionSort [IsTrans α r] [Std.Total r] (p : α → Bool) (l : List α) :
    (l.insertionSort r).filter p = (l.filter p).insertionSort r := by
  induction l with
  | nil => rfl
  | cons a l ih =>
      rw [List.insertionSort_cons, filter_orderedInsert r p a (l.pairwise_insertionSort r), ih]
      cases hp : p a <;> simp [hp]

end Sorting

/-- Two filters leave the same of a list if and only if they agree on it. -/
theorem filter_eq_filter_iff {α : Type} {p q : α → Bool} {l : List α} :
    l.filter p = l.filter q ↔ ∀ a ∈ l, p a = q a := by
  constructor
  · intro heq a ha
    have hmem : a ∈ l.filter p ↔ a ∈ l.filter q := by rw [heq]
    rw [List.mem_filter, List.mem_filter, and_iff_right ha, and_iff_right ha] at hmem
    exact Bool.eq_iff_iff.mpr hmem
  · exact List.filter_congr

/-- Filtering rows and decoding them is decoding and filtering. -/
theorem mapM_filter {α β ε : Type} {f : α → Except ε β} {p : α → Bool} {q : β → Bool}
    {rows : List α} {values : List β} (hrows : rows.mapM f = .ok values)
    (hpq : ∀ row ∈ rows, ∀ value, f row = .ok value → p row = q value) :
    (rows.filter p).mapM f = .ok (values.filter q) := by
  induction rows generalizing values with
  | nil => cases hrows; rfl
  | cons row rows ih =>
      rw [List.mapM_cons] at hrows
      cases hvalue : f row with
      | error e => rw [hvalue] at hrows; cases hrows
      | ok value =>
          cases hrest : rows.mapM f with
          | error e => rw [hvalue, hrest] at hrows; cases hrows
          | ok rest =>
              rw [hvalue, hrest] at hrows
              cases hrows
              have htail := ih hrest (fun row hrow => hpq row (List.mem_cons_of_mem _ hrow))
              have hhead := hpq row List.mem_cons_self value hvalue
              rw [List.filter_cons, List.filter_cons, hhead]
              split
              · rw [List.mapM_cons, hvalue, htail]; rfl
              · exact htail

theorem mapM_ok {α β ε : Type} {f : α → Except ε β} {rows : List α}
    (h : ∀ row ∈ rows, ∃ value, f row = .ok value) : ∃ values, rows.mapM f = .ok values := by
  induction rows with
  | nil => exact ⟨[], rfl⟩
  | cons row rows ih =>
      obtain ⟨value, hvalue⟩ := h row List.mem_cons_self
      obtain ⟨values, hvalues⟩ := ih (fun row hrow => h row (List.mem_cons_of_mem _ hrow))
      exact ⟨value :: values, by rw [List.mapM_cons, hvalue, hvalues]; rfl⟩

theorem mem_of_mapM {α β ε : Type} {f : α → Except ε β} {rows : List α} {values : List β}
    (h : rows.mapM f = .ok values) (value : β) :
    value ∈ values ↔ ∃ row ∈ rows, f row = .ok value := by
  induction rows generalizing values with
  | nil => cases h; simp
  | cons row rows ih =>
      rw [List.mapM_cons] at h
      cases hvalue : f row with
      | error e => rw [hvalue] at h; cases h
      | ok head =>
          cases hrest : rows.mapM f with
          | error e => rw [hvalue, hrest] at h; cases h
          | ok rest =>
              rw [hvalue, hrest] at h
              cases h
              simp [ih hrest, hvalue, eq_comm]

/-! Rows written by upserts. -/

/-- What `upsert_job` makes sure of in every row it writes. -/
structure JobRow.Written (row : JobRow) : Prop where
  tags : row.tagsJson = Execra.tagsJson row.commandJson.value.tags
  schema : row.schemaVersion = Execra.schemaVersion
  state : ∃ state : JobState, row.state = state.toText

theorem JobRow.written_ofJob (job : Job) : (JobRow.ofJob job).Written := ⟨rfl, rfl, ⟨_, rfl⟩⟩

theorem JobRow.Written.conflict {old : JobRow} (h : old.Written) (job : Job) :
    (old.conflict (JobRow.ofJob job)).Written := ⟨h.tags, h.schema, ⟨job.state, rfl⟩⟩

theorem mem_upsertRow {row new : JobRow} {rows : List JobRow} (h : row ∈ upsertRow new rows) :
    row ∈ rows ∨ row = new ∨ ∃ old ∈ rows, row = old.conflict new := by
  induction rows with
  | nil => exact Or.inr (Or.inl (List.mem_singleton.mp h))
  | cons old rest ih =>
      unfold upsertRow at h
      split at h
      · rcases List.mem_cons.mp h with rfl | h
        · exact Or.inr (Or.inr ⟨old, List.mem_cons_self, rfl⟩)
        · exact Or.inl (List.mem_cons_of_mem _ h)
      · rcases List.mem_cons.mp h with rfl | h
        · exact Or.inl List.mem_cons_self
        · rcases ih h with h | h | ⟨old', hold, h⟩
          · exact Or.inl (List.mem_cons_of_mem _ h)
          · exact Or.inr (Or.inl h)
          · exact Or.inr (Or.inr ⟨old', List.mem_cons_of_mem _ hold, h⟩)

/-- All rows of the jobs table were written by upserts. -/
def Store.Written (store : Store) : Prop := ∀ row ∈ store.jobs, row.Written

theorem Store.Written.upsertJob {store : Store} (h : store.Written) (job : Job) :
    (store.upsertJob job).Written := by
  intro row hrow
  rcases mem_upsertRow hrow with hrow | rfl | ⟨old, hold, rfl⟩
  · exact h row hrow
  · exact JobRow.written_ofJob job
  · exact (h old hold).conflict job

theorem Store.Written.foldl {store : Store} (h : store.Written) (jobs : List Job) :
    (jobs.foldl Store.upsertJob store).Written := by
  induction jobs generalizing store with
  | nil => exact h
  | cons job rest ih => exact ih (h.upsertJob job)

theorem JobRow.Written.decode {row : JobRow} (h : row.Written) :
    ∃ job, row.decode = .ok job ∧ job.command = row.commandJson.value := by
  obtain ⟨state, hstate⟩ := h.state
  unfold JobRow.decode buildJob
  rw [h.schema, checkSchemaVersion_current, hstate, JobState.ofText_toText]
  exact ⟨_, rfl, rfl⟩

theorem newestFirst_filter (p : JobRow → Bool) (rows : List JobRow) :
    newestFirst (rows.filter p) = (newestFirst rows).filter p := by
  have htrans : IsTrans JobRow (fun a b => b.createdAtMs ≤ a.createdAtMs) :=
    ⟨fun _ _ _ hab hbc => le_trans hbc hab⟩
  have htotal : Std.Total (fun a b : JobRow => b.createdAtMs ≤ a.createdAtMs) :=
    ⟨fun a b => le_total b.createdAtMs a.createdAtMs⟩
  exact (filter_insertionSort _ p rows).symm

/-- A limit that leaves out none of `n` rows: it is at least `n`, or it is
negative as an `i64`. -/
def LimitCovers (limit n : Nat) : Prop := limit < 2 ^ 64 ∧ (n ≤ limit ∨ 2 ^ 63 ≤ limit)

theorem LimitCovers.ne_zero {limit n : Nat} (h : LimitCovers limit n) (hsome : n ≠ 0) :
    limit ≠ 0 := by
  rintro rfl
  obtain ⟨-, hfew | hnegative⟩ := h
  · exact hsome (Nat.le_zero.mp hfew)
  · exact absurd hnegative (by decide)

/-- Some limit leaves nothing out, however many rows there are. -/
theorem limitCovers_all (n : Nat) : LimitCovers (2 ^ 63) n := ⟨by decide, Or.inr le_rfl⟩

/-- A limit that is negative as an `i64` is none. -/
theorem limited_of_negative {α : Type} {limit : Nat} {rows : List α} (hword : limit < 2 ^ 64)
    (hnegative : 2 ^ 63 ≤ limit) : limited limit rows = rows := by
  have hbmod : Int.bmod limit (2 ^ 64) < 0 := by
    rw [Int.bmod_def, Int.emod_eq_of_lt (by omega) (by exact_mod_cast hword)]
    split <;> omega
  unfold limited
  exact if_pos hbmod

theorem limited_of_covers {α : Type} {limit n : Nat} (h : LimitCovers limit n) {rows : List α}
    (hrows : rows.length ≤ n) : limited limit rows = rows := by
  cases h.2 with
  | inl hfew => exact limited_of_length_le h.1 (hrows.trans hfew)
  | inr hnegative => exact limited_of_negative h.1 hnegative

/-- Listing with a filter that decoded rows answer for. -/
theorem Store.listJobs_filter {store : Store} {all : List Job} {filter : JobsFilter}
    {q : Job → Bool} (hall : (newestFirst store.jobs).mapM JobRow.decode = .ok all)
    (hq : ∀ row ∈ store.jobs, ∀ job, row.decode = .ok job → filter.admits row = q job)
    {limit : Nat} (hlimit : LimitCovers limit store.jobs.length)
    (haccepted : filter.refused limit store.jobs = false) :
    store.listJobs limit filter = .ok (all.filter q) := by
  rw [Store.listJobs, haccepted, if_neg Bool.false_ne_true, newestFirst_filter,
    limited_of_covers hlimit]
  · refine mapM_filter hall (fun row hrow => hq row ?_)
    exact (List.mem_insertionSort _).mp hrow
  · exact (List.length_filter_le _ _).trans (List.length_insertionSort _ _).le

/-- Without a filter every job is listed. -/
theorem Store.listJobs_all {store : Store} {all : List Job}
    (hall : (newestFirst store.jobs).mapM JobRow.decode = .ok all) {limit : Nat}
    (hlimit : LimitCovers limit store.jobs.length) : store.listJobs limit {} = .ok all := by
  have hfilter := @Store.listJobs_filter store all {} (fun _ => true) hall
    (fun _ _ _ _ => rfl) limit hlimit (JobsFilter.refused_untagged rfl _ _)
  simpa using hfilter

/-- Everything a written store lists, and the commands it lists. -/
theorem Store.Written.listed {store : Store} (h : store.Written) :
    ∃ all, (newestFirst store.jobs).mapM JobRow.decode = .ok all ∧
      ∀ command, (∃ job ∈ all, job.command = command) ↔
        ∃ row ∈ store.jobs, row.commandJson.value = command := by
  have hmem : ∀ row, row ∈ newestFirst store.jobs ↔ row ∈ store.jobs :=
    fun row => List.mem_insertionSort _
  obtain ⟨all, hall⟩ : ∃ all, (newestFirst store.jobs).mapM JobRow.decode = .ok all :=
    mapM_ok (fun row hrow => by
      obtain ⟨job, hjob, -⟩ := (h row ((hmem row).mp hrow)).decode
      exact ⟨job, hjob⟩)
  refine ⟨all, hall, fun command => ⟨?_, ?_⟩⟩
  · rintro ⟨job, hjob, rfl⟩
    obtain ⟨row, hrow, hdecode⟩ := (mem_of_mapM hall job).mp hjob
    obtain ⟨job', hdecode', hcommand⟩ := (h row ((hmem row).mp hrow)).decode
    cases hdecode.symm.trans hdecode'
    exact ⟨row, (hmem row).mp hrow, hcommand.symm⟩
  · rintro ⟨row, hrow, rfl⟩
    obtain ⟨job, hdecode, hcommand⟩ := (h row hrow).decode
    exact ⟨job, (mem_of_mapM hall job).mpr ⟨row, (hmem row).mpr hrow, hdecode⟩, hcommand⟩

end Execra
