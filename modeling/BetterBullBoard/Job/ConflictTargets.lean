import BetterBullBoard.Lib.JoinedText
import BetterBullBoard.Job.Stream

/-! # The conflict targets of one statement

The statement's rows are told apart by a text, queue, job id and time joined by
dashes; the unique index tells them apart by the three values. Queues and job
ids may hold dashes themselves, and a time before the epoch begins with one.
-/

namespace BetterBullBoard

variable {J : Type}

/-- The runs of a call that are in retention. -/
def inRetention (ctx : UpsertContext) (runs : List (JobRunInsert J)) : List (JobRunInsert J) :=
  runs.filter (isWithinRetention · (getRetentionCutoff ctx))

/-- The statement has each conflict target of the runs in retention, once. -/
def EachTargetOnce (ctx : UpsertContext) (runs : List (JobRunInsert J)) : Prop :=
  ((insertValues ctx runs).map (·.target)).Nodup ∧
    ∀ k, some k ∈ (insertValues ctx runs).map (·.target) ↔ some k ∈ (inRetention ctx runs).map (·.target)

/-- What stands before the digits of the time: the queue, and the job id with the
    minus sign. -/
def beforeDigits (k : String × String × Int) : String × String :=
  (k.1, if k.2.2 < 0 then k.2.1 ++ "-" else k.2.1)

/-- One queue is the other followed by a dash and the beginning of its job id:
    queue `mail` with job `eu-7`, queue `mail-eu` with job `7`. -/
def DashMoved (a b : String × String) : Prop :=
  ∃ part, b.1 = a.1 ++ "-" ++ part ∧ a.2 = part ++ "-" ++ b.2

/-- Two different conflict targets with one text. -/
structure Ambiguous (a b : String × String × Int) : Prop where
  differ : a ≠ b
  digits : a.2.2.natAbs = b.2.2.natAbs
  dashes : beforeDigits a = beforeDigits b ∨ DashMoved (beforeDigits a) (beforeDigits b) ∨
    DashMoved (beforeDigits b) (beforeDigits a)

def joined (k : String × String × Int) : String := k.1 ++ "-" ++ k.2.1 ++ "-" ++ toString k.2.2

theorem joined_eq (k : String × String × Int) :
    joined k = (beforeDigits k).1 ++ "-" ++ (beforeDigits k).2 ++ "-" ++ k.2.2.natAbs.repr := by
  obtain ⟨queue, jobId, moment⟩ := k
  cases moment with
  | ofNat n =>
      have : ¬ (Int.ofNat n < 0) := Int.not_lt.mpr (Int.natCast_nonneg n)
      simp only [joined, beforeDigits, this, if_false]
      rfl
  | negSucc n =>
      have : Int.negSucc n < 0 := Int.negSucc_lt_zero n
      have text : toString (Int.negSucc n) = "-" ++ (n + 1).repr := rfl
      simp only [joined, beforeDigits, this, if_true, text, String.append_assoc, Int.natAbs_negSucc]

theorem dashes_eq_iff {a b : String × String} :
    a.1 ++ "-" ++ a.2 = b.1 ++ "-" ++ b.2 ↔ a = b ∨ DashMoved a b ∨ DashMoved b a := by
  rw [JoinedText.append_eq_iff (d := '-') rfl, ← Prod.ext_iff]
  rfl

/-- Two targets have one text exactly when they are ambiguous. -/
theorem joined_eq_iff {a b : String × String × Int} : joined a = joined b ↔ a = b ∨ Ambiguous a b := by
  have texts : joined a = joined b ↔ a.2.2.natAbs = b.2.2.natAbs ∧ (beforeDigits a = beforeDigits b ∨
      DashMoved (beforeDigits a) (beforeDigits b) ∨ DashMoved (beforeDigits b) (beforeDigits a)) := by
    rw [joined_eq, joined_eq, ← dashes_eq_iff]
    constructor
    · intro same
      exact (JoinedText.numbered_inj (d := '-') rfl rfl same).symm
    · rintro ⟨digits, before⟩
      rw [digits, before]
  constructor
  · intro same
    obtain ⟨digits, dashes⟩ := texts.mp same
    by_cases differ : a = b
    · exact .inl differ
    · exact .inr ⟨differ, digits, dashes⟩
  · rintro (rfl | ambiguous)
    · rfl
    · exact texts.mpr ⟨ambiguous.digits, ambiguous.dashes⟩

/-- Queues without a dash and times since the epoch leave no doubt. -/
theorem not_ambiguous {a b : String × String × Int} (plain : '-' ∉ a.1.toList ∧ '-' ∉ b.1.toList)
    (since : 0 ≤ a.2.2 ∧ 0 ≤ b.2.2) : ¬ Ambiguous a b := by
  intro ambiguous
  have before : ∀ k : String × String × Int, 0 ≤ k.2.2 → beforeDigits k = (k.1, k.2.1) := fun k h => by
    rw [beforeDigits, if_neg (Int.not_lt.mpr h)]
  have dash : ∀ queue part : String, '-' ∈ (queue ++ "-" ++ part).toList := fun queue part => by simp
  have dashes := ambiguous.dashes
  rw [before a since.1, before b since.2] at dashes
  rcases dashes with same | ⟨part, moved, -⟩ | ⟨part, moved, -⟩
  · obtain ⟨queue, jobId⟩ := Prod.mk.inj same
    have digits := ambiguous.digits
    exact ambiguous.differ (Prod.ext queue (Prod.ext jobId (by omega)))
  · exact plain.2 (moved ▸ dash _ _)
  · exact plain.1 (moved ▸ dash _ _)

theorem mem_inRetention {ctx : UpsertContext} {runs : List (JobRunInsert J)} {run : JobRunInsert J} :
    run ∈ inRetention ctx runs ↔ run ∈ runs ∧ isWithinRetention run (getRetentionCutoff ctx) := by
  simp [inRetention]

/-- The rows of a statement are the last runs of each text. -/
theorem insertValues_perm (ctx : UpsertContext) (runs : List (JobRunInsert J)) :
    (insertValues ctx runs).Perm (JsMap.lastOfEach dedupeKey (inRetention ctx runs)) :=
  (List.perm_insertionSort _ _).trans (JsMap.ofEntries_perm dedupeKey (inRetention ctx runs))

theorem nodup_dedupeKeys (ctx : UpsertContext) (runs : List (JobRunInsert J)) :
    ((insertValues ctx runs).map dedupeKey).Nodup :=
  ((insertValues_perm ctx runs).map dedupeKey).nodup_iff.mpr (JsMap.nodup_lastOfEach dedupeKey _)

theorem target_of_enqueued {run : JobRunInsert J} {moment : Int} (enqueued : run.enqueuedAt = .value moment) :
    run.target = some (run.queue, run.jobId, moment) := by
  rw [JobRunInsert.target, enqueued]
  rfl

section

variable {ctx : UpsertContext} {runs : List (JobRunInsert J)}

/-- No two rows of a statement have one conflict target. -/
theorem nodup_targets (enqueued : ∀ run ∈ runs, ∃ moment, run.enqueuedAt = .value moment) :
    ((insertValues ctx runs).map (·.target)).Nodup := by
  have rows := nodup_dedupeKeys ctx runs
  refine List.Nodup.map_on (fun a ha b hb same => List.inj_on_of_nodup_map rows ha hb ?_) rows.of_map
  obtain ⟨moment, given⟩ := enqueued a (mem_insertValues ha).1
  have target := target_of_enqueued given
  rw [dedupeKey_of_target target, dedupeKey_of_target (same ▸ target)]

theorem dedupeKey_joined {run : JobRunInsert J} {k} (target : run.target = some k) : dedupeKey run = joined k :=
  dedupeKey_of_target target

/-- The statement has every conflict target of the runs in retention exactly once
    if and only if no two of the runs have ambiguous ones. -/
theorem eachTargetOnce_iff (ctx : UpsertContext) (runs : List (JobRunInsert J))
    (enqueued : ∀ run ∈ runs, ∃ moment, run.enqueuedAt = .value moment) :
    EachTargetOnce ctx runs ↔ ∀ a ∈ inRetention ctx runs, ∀ b ∈ inRetention ctx runs, ∀ k l,
      a.target = some k → b.target = some l → ¬ Ambiguous k l := by
  constructor
  · rintro ⟨-, same⟩ a ha b hb k l hk hl ambiguous
    obtain ⟨a', ha', hk'⟩ := List.mem_map.mp ((same k).mpr (List.mem_map.mpr ⟨a, ha, hk⟩))
    obtain ⟨b', hb', hl'⟩ := List.mem_map.mp ((same l).mpr (List.mem_map.mpr ⟨b, hb, hl⟩))
    have text : dedupeKey a' = dedupeKey b' := by
      rw [dedupeKey_joined hk', dedupeKey_joined hl']
      exact joined_eq_iff.mpr (.inr ambiguous)
    obtain rfl := List.inj_on_of_nodup_map (nodup_dedupeKeys ctx runs) ha' hb' text
    exact ambiguous.differ (Option.some.inj (hk'.symm.trans hl'))
  · intro clear
    refine ⟨nodup_targets enqueued, fun k => ⟨fun h => ?_, fun h => ?_⟩⟩
    · obtain ⟨run, member, target⟩ := List.mem_map.mp h
      exact List.mem_map.mpr ⟨run, mem_inRetention.mpr (mem_insertValues member), target⟩
    · obtain ⟨run, member, target⟩ := List.mem_map.mp h
      obtain ⟨given, retained⟩ := mem_inRetention.mp member
      obtain ⟨run', member', text⟩ := insertValues_covers ctx given retained
      have kept := mem_insertValues member'
      obtain ⟨moment, enqueued'⟩ := enqueued run' kept.1
      have target' := target_of_enqueued enqueued'
      rw [dedupeKey_joined target', dedupeKey_joined target] at text
      cases joined_eq_iff.mp text with
      | inl same => exact List.mem_map.mpr ⟨run', member', target'.trans (congrArg some same)⟩
      | inr ambiguous => exact absurd ambiguous (clear run' (mem_inRetention.mpr kept) run member _ _ target' target)

end

/-- A job of queue `mail` enqueued at 1000. -/
def jobOf (queue jobId : String) : JobRunInsert Unit :=
  { jobId, queue, status := .waiting, enqueuedAt := .value 1000, createdAt := some 1000 }

/-- Two jobs of one queue keep their rows. -/
theorem eachTargetOnce_one_queue : EachTargetOnce {} [jobOf "mail" "eu-7", jobOf "mail" "7"] := by
  have plain : ∀ a ∈ inRetention {} [jobOf "mail" "eu-7", jobOf "mail" "7"], ∀ k, a.target = some k →
      '-' ∉ k.1.toList ∧ 0 ≤ k.2.2 := by
    intro a ha k hk
    have either : a = jobOf "mail" "eu-7" ∨ a = jobOf "mail" "7" := by simpa using (mem_inRetention.mp ha).1
    rcases either with rfl | rfl
    · obtain rfl := Option.some.inj hk
      decide
    · obtain rfl := Option.some.inj hk
      decide
  refine (eachTargetOnce_iff _ _ (by simp [jobOf])).mpr fun a ha b hb k l hk hl => ?_
  exact not_ambiguous ⟨(plain a ha k hk).1, (plain b hb l hl).1⟩ ⟨(plain a ha k hk).2, (plain b hb l hl).2⟩

/-- Job `7` of `mail-eu` is dropped for job `eu-7` of `mail`. -/
theorem moved_dash_drops_run :
    ¬ ∀ (ctx : UpsertContext) (runs : List (JobRunInsert Unit)),
      (∀ run ∈ runs, ∃ moment, run.enqueuedAt = .value moment) → EachTargetOnce ctx runs := by
  intro all
  have once := (all {} [jobOf "mail-eu" "7", jobOf "mail" "eu-7"] (by simp [jobOf])).2 ("mail-eu", "7", 1000)
  revert once
  decide

end BetterBullBoard
