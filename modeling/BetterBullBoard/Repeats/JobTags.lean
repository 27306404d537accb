import BetterBullBoard.Lib.Grouped
import BetterBullBoard.Lib.Machine
import BetterBullBoard.Job.Upsert

/-! # The tags that can be searched for

`job_tags` is kept by a refresh that reads the runs created in the last hour.
`created_at` is the time a job was enqueued; its tags come with a later event.
-/

namespace BetterBullBoard

variable {J : Type}

structure JobTag where
  tag : String
  tagLower : String
  lastSeenAt : Int
  updatedAt : Int
  deriving Repr, DecidableEq

def JobTag.key (t : JobTag) : Option String := some t.tag

structure JobTagsTable where
  rows : List JobTag
  unique : UniqueIndex.Unique JobTag.key rows

/-- The tags of a run that are not empty. -/
def JobRun.tagTexts (r : JobRun J) : List String := (r.tags.getD []).filter (· ≠ "")

/-- The rows of the `SELECT` before they are grouped. -/
def unnestedTags (createdFrom : Option Int) (runs : List (JobRun J)) : List (String × Int) :=
  (runs.filter fun r => createdFrom.all (· ≤ r.createdAt)).flatMap fun r =>
    r.tagTexts.map fun tag => (tag, r.createdAt)

def selectTags (lower : String → String) (now : Int) (createdFrom : Option Int) (runs : List (JobRun J)) :
    List JobTag :=
  (Grouped.groupBy Prod.fst (unnestedTags createdFrom runs)).map fun group =>
    { tag := group.1, tagLower := lower group.1, lastSeenAt := ((group.2.map Prod.snd).max?).getD 0, updatedAt := now }

/-- The `SET` clause. -/
def mergeTag (stored ex : JobTag) : JobTag :=
  { stored with tagLower := ex.tagLower, lastSeenAt := max stored.lastSeenAt ex.lastSeenAt, updatedAt := ex.updatedAt }

namespace JobTagsTable

def empty : JobTagsTable := ⟨[], .nil⟩

def upsertTag (t : JobTagsTable) (ex : JobTag) : JobTagsTable where
  rows := UniqueIndex.doUpdate JobTag.key mergeTag ex t.rows
  unique := t.unique.doUpdate fun _ _ => rfl

def insertOnConflict (t : JobTagsTable) (rows : List JobTag) : JobTagsTable := rows.foldl upsertTag t

def deleteSeenBefore (t : JobTagsTable) (cutoff : Int) : JobTagsTable where
  rows := t.rows.filter fun row => !decide (row.lastSeenAt < cutoff)
  unique := t.unique.sublist List.filter_sublist

/-- The tag is listed, last seen then or later. -/
def SeenSince (t : JobTagsTable) (tag : String) (since : Int) : Prop :=
  ∃ row ∈ t.rows, row.tag = tag ∧ since ≤ row.lastSeenAt

theorem SeenSince.mono {t : JobTagsTable} {tag : String} {since moment : Int} (h : t.SeenSince tag moment)
    (earlier : since ≤ moment) : t.SeenSince tag since := by
  obtain ⟨row, hrow, same, later⟩ := h
  exact ⟨row, hrow, same, le_trans earlier later⟩

theorem seenSince_upsertTag {t : JobTagsTable} {ex : JobTag} {tag : String} {since : Int} :
    (t.upsertTag ex).SeenSince tag since ↔ t.SeenSince tag since ∨ (ex.tag = tag ∧ since ≤ ex.lastSeenAt) := by
  have clash_iff : ∀ row : JobTag, UniqueIndex.Clash JobTag.key row ex ↔ row.tag = ex.tag :=
    fun row => ⟨fun clash => Option.some.inj clash.2, fun same => ⟨rfl, congrArg some same⟩⟩
  constructor
  · rintro ⟨row, hrow, rfl, later⟩
    rcases (UniqueIndex.mem_doUpdate t.unique).mp hrow with ⟨old, -⟩ | ⟨old, hold, clash, rfl⟩ | ⟨rfl, -⟩
    · exact .inl ⟨row, old, rfl, later⟩
    · cases le_max_iff.mp later with
      | inl stored => exact .inl ⟨old, hold, rfl, stored⟩
      | inr new => exact .inr ⟨((clash_iff old).mp clash).symm, new⟩
    · exact .inr ⟨rfl, later⟩
  · rintro (⟨row, hrow, rfl, later⟩ | ⟨rfl, later⟩)
    · by_cases clash : UniqueIndex.Clash JobTag.key row ex
      · exact ⟨_, (UniqueIndex.mem_doUpdate t.unique).mpr (.inr (.inl ⟨row, hrow, clash, rfl⟩)), rfl,
          le_max_of_le_left later⟩
      · exact ⟨row, (UniqueIndex.mem_doUpdate t.unique).mpr (.inl ⟨hrow, clash⟩), rfl, later⟩
    · by_cases fresh : ∀ row ∈ t.rows, ¬ UniqueIndex.Clash JobTag.key row ex
      · exact ⟨ex, (UniqueIndex.mem_doUpdate t.unique).mpr (.inr (.inr ⟨rfl, fresh⟩)), rfl, later⟩
      · simp only [not_forall, not_not] at fresh
        obtain ⟨row, hrow, clash⟩ := fresh
        exact ⟨_, (UniqueIndex.mem_doUpdate t.unique).mpr (.inr (.inl ⟨row, hrow, clash, rfl⟩)),
          (clash_iff row).mp clash, le_max_of_le_right later⟩

theorem seenSince_insertOnConflict {t : JobTagsTable} {rows : List JobTag} {tag : String} {since : Int} :
    (t.insertOnConflict rows).SeenSince tag since ↔
      t.SeenSince tag since ∨ ∃ ex ∈ rows, ex.tag = tag ∧ since ≤ ex.lastSeenAt := by
  induction rows generalizing t with
  | nil => simp [insertOnConflict]
  | cons ex rows ih =>
      rw [insertOnConflict, List.foldl_cons]
      refine ih.trans ?_
      rw [seenSince_upsertTag, or_assoc]
      simp

theorem seenSince_deleteSeenBefore {t : JobTagsTable} {cutoff : Int} {tag : String} {since : Int} :
    (t.deleteSeenBefore cutoff).SeenSince tag since ↔ t.SeenSince tag (max since cutoff) := by
  simp only [SeenSince, deleteSeenBefore, List.mem_filter, Bool.not_eq_true', decide_eq_false_iff_not, not_lt,
    max_le_iff]
  exact exists_congr fun row => by tauto

end JobTagsTable

theorem mem_unnestedTags {createdFrom : Option Int} {runs : List (JobRun J)} {tag : String} {moment : Int} :
    (tag, moment) ∈ unnestedTags createdFrom runs ↔
      ∃ r ∈ runs, (∀ start ∈ createdFrom, start ≤ r.createdAt) ∧ tag ∈ r.tagTexts ∧ r.createdAt = moment := by
  simp only [unnestedTags, List.mem_flatMap, List.mem_filter, List.mem_map, Prod.mk.injEq, Option.all_eq_true,
    decide_eq_true_eq, and_assoc]
  refine exists_congr fun r => and_congr_right fun _ => and_congr_right fun _ => ?_
  constructor
  · rintro ⟨_, member, rfl, same⟩
    exact ⟨member, same⟩
  · rintro ⟨member, same⟩
    exact ⟨tag, member, rfl, same⟩

/-- A bound below the largest of some numbers is below one of them. -/
theorem le_max?_iff {l : List Int} (nonempty : l ≠ []) {n : Int} : n ≤ l.max?.getD 0 ↔ ∃ m ∈ l, n ≤ m := by
  obtain ⟨largest, found⟩ := Option.isSome_iff_exists.mp (List.isSome_max?_iff.mpr nonempty)
  obtain ⟨member, most⟩ := List.max?_eq_some_iff.mp found
  rw [found, Option.getD_some]
  exact ⟨fun h => ⟨largest, member, h⟩, fun ⟨m, hm, h⟩ => le_trans h (most m hm)⟩

/-- What the statement proposes, read off the runs. -/
theorem selectTags_iff {lower : String → String} {now : Int} {createdFrom : Option Int} {runs : List (JobRun J)}
    {tag : String} {since : Int} :
    (∃ ex ∈ selectTags lower now createdFrom runs, ex.tag = tag ∧ since ≤ ex.lastSeenAt) ↔
      ∃ r ∈ runs, (∀ start ∈ createdFrom, start ≤ r.createdAt) ∧ tag ∈ r.tagTexts ∧ since ≤ r.createdAt := by
  have proposed : (∃ ex ∈ selectTags lower now createdFrom runs, ex.tag = tag ∧ since ≤ ex.lastSeenAt) ↔
      ∃ moment, (tag, moment) ∈ unnestedTags createdFrom runs ∧ since ≤ moment := by
    have inGroup : ∀ {k : String} {p : String × Int}, p ∈ Grouped.group Prod.fst (unnestedTags createdFrom runs) k ↔
        p ∈ unnestedTags createdFrom runs ∧ p.1 = k := by
      simp [Grouped.group]
    constructor
    · rintro ⟨_, hex, rfl, later⟩
      obtain ⟨⟨k, g⟩, hg, rfl⟩ := List.mem_map.mp hex
      obtain ⟨rfl, p, hp, rfl⟩ := Grouped.mem_groupBy.mp hg
      have nonempty := List.ne_nil_of_mem (List.mem_map_of_mem (f := Prod.snd) (inGroup.mpr ⟨hp, rfl⟩))
      obtain ⟨moment, hat, later⟩ := (le_max?_iff nonempty).mp later
      obtain ⟨q, hq, rfl⟩ := List.mem_map.mp hat
      obtain ⟨member, same⟩ := inGroup.mp hq
      exact ⟨q.2, same ▸ member, later⟩
    · rintro ⟨moment, member, later⟩
      have grouped := inGroup.mpr ⟨member, rfl⟩
      have group : (tag, Grouped.group Prod.fst (unnestedTags createdFrom runs) tag) ∈
          Grouped.groupBy Prod.fst (unnestedTags createdFrom runs) :=
        Grouped.mem_groupBy.mpr ⟨rfl, (tag, moment), member, rfl⟩
      refine ⟨_, List.mem_map.mpr ⟨_, group, rfl⟩, rfl, ?_⟩
      have listed : moment ∈ (Grouped.group Prod.fst (unnestedTags createdFrom runs) tag).map Prod.snd :=
        List.mem_map.mpr ⟨_, grouped, rfl⟩
      exact (le_max?_iff (List.ne_nil_of_mem listed)).mpr ⟨moment, listed, later⟩
  rw [proposed]
  simp only [mem_unnestedTags]
  constructor
  · rintro ⟨_, ⟨r, hr, recent, tagged, rfl⟩, later⟩
    exact ⟨r, hr, recent, tagged, later⟩
  · rintro ⟨r, hr, recent, tagged, later⟩
    exact ⟨_, ⟨r, hr, recent, tagged, rfl⟩, later⟩

/-! ## Refreshes -/

def JOB_TAGS_REFRESH_LOOKBACK_MS : Int := 1000 * 60 * 60

/-- What a refresh goes by: where it starts to look, what it deletes, and the runs
    it found. -/
structure TagsRefresh (J : Type) where
  createdFrom : Option Int
  deleteBefore : Option Int
  runs : List (JobRun J)

namespace TagsRefresh

/-- It saw the run with this tag. -/
def Saw (e : TagsRefresh J) (r : JobRun J) (tag : String) : Prop :=
  r ∈ e.runs ∧ (∀ start ∈ e.createdFrom, start ≤ r.createdAt) ∧ tag ∈ r.tagTexts

/-- It keeps tags last seen then. -/
def Keeps (e : TagsRefresh J) (moment : Int) : Prop := ∀ cutoff ∈ e.deleteBefore, cutoff ≤ moment

/-- The transaction. -/
def apply (lower : String → String) (now : Int) (e : TagsRefresh J) (tags : JobTagsTable) : JobTagsTable :=
  let tags := tags.insertOnConflict (selectTags lower now e.createdFrom e.runs)
  match e.deleteBefore with
  | none => tags
  | some cutoff => tags.deleteSeenBefore cutoff

/-- It lists what was listed and what it sees, if that is recent enough to keep. -/
theorem seenSince_apply {lower : String → String} {now : Int} {e : TagsRefresh J} {tags : JobTagsTable} {tag : String}
    {since : Int} : (e.apply lower now tags).SeenSince tag since ↔
      ∃ moment, since ≤ moment ∧ e.Keeps moment ∧
        (tags.SeenSince tag moment ∨ ∃ r, e.Saw r tag ∧ moment ≤ r.createdAt) := by
  have inserted : ∀ moment, (tags.insertOnConflict (selectTags lower now e.createdFrom e.runs)).SeenSince tag moment ↔
      tags.SeenSince tag moment ∨ ∃ r, e.Saw r tag ∧ moment ≤ r.createdAt := by
    intro moment
    rw [JobTagsTable.seenSince_insertOnConflict, selectTags_iff]
    simp only [Saw, and_assoc]
  simp only [← inserted, Keeps, apply]
  cases e.deleteBefore with
  | none =>
      simp only [Option.not_mem_none, false_implies, implies_true, true_and]
      exact ⟨fun h => ⟨since, le_refl _, h⟩, fun ⟨moment, earlier, h⟩ => h.mono earlier⟩
  | some cutoff =>
      simp only [Option.mem_some_iff, forall_eq', JobTagsTable.seenSince_deleteSeenBefore]
      exact ⟨fun h => ⟨_, le_max_left _ _, le_max_right _ _, h⟩,
        fun ⟨moment, earlier, kept, h⟩ => h.mono (max_le earlier kept)⟩

end TagsRefresh

/-- Among these refreshes, the latest first, one saw the tag on a run of that time
    or later, which no refresh since found too old. -/
def SeenSinceBy (refreshes : List (TagsRefresh J)) (tag : String) (since : Int) : Prop :=
  ∃ later e earlier r, refreshes = later ++ e :: earlier ∧ e.Saw r tag ∧ since ≤ r.createdAt ∧
    e.Keeps r.createdAt ∧ ∀ e' ∈ later, e'.Keeps r.createdAt

/-- One more refresh sees the tag itself, or keeps what an earlier one saw. -/
theorem seenSinceBy_cons {e : TagsRefresh J} {refreshes : List (TagsRefresh J)} {tag : String} {since : Int} :
    SeenSinceBy (e :: refreshes) tag since ↔ (∃ r, e.Saw r tag ∧ since ≤ r.createdAt ∧ e.Keeps r.createdAt) ∨
      ∃ moment, since ≤ moment ∧ e.Keeps moment ∧ SeenSinceBy refreshes tag moment := by
  constructor
  · rintro ⟨later, e', earlier, r, split, saw, recent, kept, since'⟩
    cases later with
    | nil =>
        obtain ⟨rfl, -⟩ := List.cons.inj split
        exact .inl ⟨r, saw, recent, kept⟩
    | cons e'' later =>
        obtain ⟨rfl, rest⟩ := List.cons.inj split
        simp only [List.forall_mem_cons] at since'
        exact .inr ⟨r.createdAt, recent, since'.1, later, e', earlier, r, rest, saw, le_refl _, kept, since'.2⟩
  · rintro (⟨r, saw, recent, kept⟩ | ⟨moment, recent, keeps, later, e', earlier, r, split, saw, recent', kept, since'⟩)
    · exact ⟨[], e, refreshes, r, rfl, saw, recent, kept, by simp⟩
    · have keeps' : e.Keeps r.createdAt := fun cutoff h => le_trans (keeps cutoff h) recent'
      exact ⟨e :: later, e', earlier, r, congrArg (e :: ·) split, saw, le_trans recent recent', kept,
        List.forall_mem_cons.mpr ⟨keeps', since'⟩⟩

/-! ## Histories -/

structure TagsSystem (J : Type) where
  runs : JobRunsTable J
  tags : JobTagsTable
  /-- The refreshes so far, the latest first. -/
  refreshes : List (TagsRefresh J)

inductive TagsAction (J : Type) where
  | upsert (ctx : UpsertContext) (runs : List (JobRunInsert J))
  /-- With the two readings of the clock, and the clock of the database. -/
  | refresh (now now' updatedAt : Int)

namespace TagsSystem

/-- The migration that made the table filled it from all runs. -/
def start (lower : String → String) (now : Int) (runs : JobRunsTable J) : TagsSystem J :=
  let e : TagsRefresh J := ⟨none, none, runs.rows⟩
  ⟨runs, e.apply lower now .empty, [e]⟩

def refreshRecentJobTags (autoDeletePostgresData : Option Int) (now now' : Int) (s : TagsSystem J) : TagsRefresh J where
  createdFrom := some (now - JOB_TAGS_REFRESH_LOOKBACK_MS)
  deleteBefore := (truthyNumber autoDeletePostgresData).map (now' - ·)
  runs := s.runs.rows

variable [DecidableEq J] (lower : String → String) (autoDeletePostgresData : Option Int)

def step (s : TagsSystem J) : TagsAction J → Option (TagsSystem J)
  | .upsert ctx runs => some { s with runs := (upsertJobRuns ctx runs s.runs).1 }
  | .refresh now now' updatedAt =>
      let e := s.refreshRecentJobTags autoDeletePostgresData now now'
      some { s with tags := e.apply lower updatedAt s.tags, refreshes := e :: s.refreshes }

variable {lower} {autoDeletePostgresData}

/-- The table lists what the refreshes have seen and kept. -/
def Faithful (s : TagsSystem J) : Prop :=
  ∀ tag since, s.tags.SeenSince tag since ↔ SeenSinceBy s.refreshes tag since

omit [DecidableEq J] in
theorem faithful_apply {e : TagsRefresh J} {tags : JobTagsTable} {refreshes : List (TagsRefresh J)} {now : Int}
    (same : ∀ tag since, tags.SeenSince tag since ↔ SeenSinceBy refreshes tag since) (tag : String) (since : Int) :
    (e.apply lower now tags).SeenSince tag since ↔ SeenSinceBy (e :: refreshes) tag since := by
  rw [TagsRefresh.seenSince_apply, seenSinceBy_cons]
  constructor
  · rintro ⟨moment, recent, keeps, stored | ⟨r, saw, later⟩⟩
    · exact .inr ⟨moment, recent, keeps, (same tag moment).mp stored⟩
    · exact .inl ⟨r, saw, le_trans recent later, fun cutoff h => le_trans (keeps cutoff h) later⟩
  · rintro (⟨r, saw, recent, keeps⟩ | ⟨moment, recent, keeps, seen⟩)
    · exact ⟨r.createdAt, recent, keeps, .inr ⟨r, saw, le_refl _⟩⟩
    · exact ⟨moment, recent, keeps, .inl ((same tag moment).mpr seen)⟩

omit [DecidableEq J] in
theorem faithful_start (now : Int) (runs : JobRunsTable J) : (start lower now runs).Faithful := by
  have empty : ∀ tag since,
      JobTagsTable.empty.SeenSince tag since ↔ SeenSinceBy ([] : List (TagsRefresh J)) tag since := by
    intro tag since
    simp [JobTagsTable.SeenSince, JobTagsTable.empty, SeenSinceBy]
  exact faithful_apply empty

theorem faithful_step {s s' : TagsSystem J} {a : TagsAction J} (faithful : s.Faithful)
    (enabled : step lower autoDeletePostgresData s a = some s') : s'.Faithful := by
  cases a with
  | upsert ctx runs =>
      obtain rfl := Option.some.inj enabled
      exact faithful
  | refresh now now' updatedAt =>
      obtain rfl := Option.some.inj enabled
      exact faithful_apply faithful

/-- Every tag of every run that the latest refresh found in retention is listed,
    last seen no earlier than the run was created. -/
def Listed (s : TagsSystem J) : Prop :=
  ∀ r ∈ s.runs.rows, (∀ e ∈ s.refreshes.head?, e.Keeps r.createdAt) → ∀ tag ∈ r.tagTexts,
    s.tags.SeenSince tag r.createdAt

/-- In any history, a refresh leaves every tag listed exactly when each was seen, by
    this refresh or by one before, on a run no older that no refresh since found too
    old. -/
theorem listed_iff {now : Int} {runs : JobRunsTable J} {ts : List (Machine.Transition (TagsSystem J) (TagsAction J))}
    {s : TagsSystem J}
    (run : Machine.Run (step lower autoDeletePostgresData) (start lower now runs) ts s) :
    ∀ x ∈ ts, ∀ now now' updatedAt, x.act = .refresh now now' updatedAt → (x.post.Listed ↔
      ∀ r ∈ x.post.runs.rows, (∀ e ∈ x.post.refreshes.head?, e.Keeps r.createdAt) → ∀ tag ∈ r.tagTexts,
        SeenSinceBy x.post.refreshes tag r.createdAt) := by
  intro x hx _ _ _ _
  obtain ⟨before, enabled⟩ :=
    run.invariant_pre (I := Faithful) (fun _ _ _ => faithful_step) (faithful_start now runs) x hx
  have after := faithful_step before enabled
  exact forall₂_congr fun r _ => imp_congr_right fun _ => forall₂_congr fun tag _ => after tag r.createdAt

/-! ## A delayed job -/

/-- A run of queue `mail` enqueued then, as its waiting event brings its tags. -/
def taggedRun (enqueuedAt : Int) : JobRunInsert Unit :=
  { mailRun .waiting none with
    enqueuedAt := .value enqueuedAt, createdAt := some enqueuedAt, tags := .value ["vip"], delayMs := some 7200000 }

/-- The event comes between two refreshes, half an hour apart. -/
def taggedActs (enqueuedAt : Int) : List (TagsAction Unit) :=
  [.refresh 7200000 7200000 7200000, .upsert {} [taggedRun enqueuedAt], .refresh 9000000 9000000 9000000]

/-- Twenty minutes after it was enqueued, the tag is listed. -/
theorem recent_tag_listed : ∃ ts s,
    Machine.Run (step id none) (start id 0 (.empty : JobRunsTable Unit)) ts s ∧ ∃ x ∈ ts,
      x.act = .refresh 9000000 9000000 9000000 ∧ x.post.Listed := by
  have performed : Machine.perform (step id none) (start id 0 .empty) (taggedActs 7800000) = some _ := rfl
  have run := Machine.perform_run performed
  refine ⟨_, _, run, _, List.mem_cons_of_mem _ (List.mem_cons_of_mem _ List.mem_cons_self), rfl, ?_⟩
  refine (listed_iff run _ (List.mem_cons_of_mem _ (List.mem_cons_of_mem _ List.mem_cons_self)) _ _ _ rfl).mpr ?_
  intro r hr _ tag tagged
  obtain rfl : r = excluded {} 0 (taggedRun 7800000) := List.mem_singleton.mp hr
  refine ⟨[], _, _, _, rfl, ⟨hr, fun start h => ?_, tagged⟩, le_refl _, fun cutoff h => ?_, by simp⟩
  · obtain rfl := Option.some.inj h
    decide
  · cases h

/-- Two hours after, it is not. -/
theorem late_tag_not_listed :
    ¬ ∀ (lower : String → String) (autoDeletePostgresData : Option Int) (now : Int) (runs : JobRunsTable Unit)
      (ts : List (Machine.Transition (TagsSystem Unit) (TagsAction Unit))) (s : TagsSystem Unit),
      Machine.Run (step lower autoDeletePostgresData) (start lower now runs) ts s →
      ∀ x ∈ ts, ∀ now now' updatedAt, x.act = .refresh now now' updatedAt → x.post.Listed := by
  intro all
  have performed : Machine.perform (step id none) (start id 0 .empty) (taggedActs 60000) = some _ := rfl
  have listed := all id none 0 .empty _ _ (Machine.perform_run performed) _
    (List.mem_cons_of_mem _ (List.mem_cons_of_mem _ List.mem_cons_self)) _ _ _ rfl
  obtain ⟨row, hrow, -⟩ := listed (excluded {} 0 (taggedRun 60000)) (by decide)
    (fun e he cutoff h => by obtain rfl := Option.some.inj he; cases h) "vip" (by decide)
  exact List.not_mem_nil (show row ∈ [] from hrow)

end TagsSystem

end BetterBullBoard
