import BetterBullBoard.Core.Schemas
import BetterBullBoard.Lib.JsText
import BetterBullBoard.Lib.SortedRows
import BetterBullBoard.Lib.Utf16
import BetterBullBoard.Lib.Wildcard
import BetterBullBoard.Repeats.JobTags

/-! # Searching for tags

`api/tags/route.ts` over the table that the refreshes keep. The text is put into the
pattern as it is, so a percent sign, an underscore or a backslash in it is not found
literally.
-/

namespace BetterBullBoard

open JsText (trim)
open Wildcard (Token Matches literal)

/-- What a pattern of `LIKE` means. One that ends in a lone backslash is refused; none
    here does. -/
def likeTokens : List Char → List Token
  | [] => []
  | '%' :: rest => .any :: likeTokens rest
  | '_' :: rest => .one :: likeTokens rest
  | '\\' :: c :: rest => .char c :: likeTokens rest
  | c :: rest => .char c :: likeTokens rest

def like (text pattern : String) : Bool := decide (Matches (likeTokens pattern.toList) text)

/-- The characters that mean something else in a pattern. -/
def PlainText (text : String) : Prop := '%' ∉ text.toList ∧ '_' ∉ text.toList ∧ '\\' ∉ text.toList

instance (text : String) : Decidable (PlainText text) := inferInstanceAs (Decidable (_ ∧ _ ∧ _))

def MIN_TAG_SEARCH_LENGTH : Nat := 2

/-- `text.length` -/
def textLength (text : String) : Nat := (Utf16.codeUnits text).length

variable {κ : Type} [LinearOrder κ] (db : Database κ)

/-- `ORDER BY`, the tags that begin with the text first. -/
def tagOrder (prefixSearch : String) (a b : JobTag) : Bool :=
  Keyset.orderBy [Keyset.asc fun t : JobTag => if like t.tagLower prefixSearch then 0 else 1,
    Keyset.asc fun t => db.collate t.tag] a b

def getTags (toLowerCase : String → String) (table : JobTagsTable) (search : Option String) : List String :=
  let search := search.map trim
  match truthyString search with
  | none => []
  | some search =>
      if textLength search < MIN_TAG_SEARCH_LENGTH then []
      else
        let normalizedSearch := toLowerCase search
        let prefixSearch := normalizedSearch ++ "%"
        let containsSearch := "%" ++ normalizedSearch ++ "%"
        let searchPattern := if textLength normalizedSearch = 2 then prefixSearch else containsSearch
        let tags := ((table.rows.filter fun t => like t.tagLower searchPattern).insertionSort
          fun a b => tagOrder db prefixSearch a b = true).take 100
        (tags.map (·.tag)).filter (· ≠ "")

/-! ## What a plain text finds -/

theorem likeTokens_append {text : String} (plain : PlainText text) (rest : List Char) :
    likeTokens (text.toList ++ rest) = literal text ++ likeTokens rest := by
  rw [PlainText] at plain
  rw [literal]
  generalize text.toList = chars at plain
  induction chars with
  | nil => rfl
  | cons c chars ih =>
      simp only [List.mem_cons, not_or] at plain
      obtain ⟨⟨percent, percents⟩, ⟨underscore, underscores⟩, backslash, backslashes⟩ := plain
      rw [List.cons_append, likeTokens.eq_5 _ _ (Ne.symm percent) (Ne.symm underscore)
        (fun _ _ same => absurd same.symm backslash), ih ⟨percents, underscores, backslashes⟩]
      rfl

theorem like_begins {text : String} (plain : PlainText text) {tagLower : String} :
    like tagLower (text ++ "%") = true ↔ ∃ rest, tagLower = text ++ rest := by
  rw [like, decide_eq_true_iff, String.toList_append, likeTokens_append plain, Wildcard.matches_append]
  simp only [Wildcard.matches_literal]
  constructor
  · rintro ⟨_, rest, rfl, rfl, -⟩
    exact ⟨rest, rfl⟩
  · rintro ⟨rest, rfl⟩
    exact ⟨text, rest, rfl, rfl, Wildcard.matches_any⟩

theorem like_contains {text : String} (plain : PlainText text) {tagLower : String} :
    like tagLower ("%" ++ text ++ "%") = true ↔ ∃ before rest, tagLower = before ++ text ++ rest := by
  have pattern : likeTokens ("%" ++ text ++ "%").toList = [.any] ++ likeTokens (text ++ "%").toList := by
    rw [String.append_assoc, String.toList_append]
    rfl
  have rest : ∀ after, Matches (likeTokens (text ++ "%").toList) after ↔ ∃ rest, after = text ++ rest := fun after => by
    rw [← like_begins plain, like, decide_eq_true_iff]
  rw [like, decide_eq_true_iff, pattern, Wildcard.matches_append]
  simp only [rest]
  constructor
  · rintro ⟨before, _, rfl, -, after, rfl⟩
    exact ⟨before, after, by rw [String.append_assoc]⟩
  · rintro ⟨before, after, rfl⟩
    exact ⟨before, _, String.append_assoc, Wildcard.matches_any, after, rfl⟩

namespace TagsSystem

section

variable (lower : String → String) (normalizedSearch : String)

/-- With two characters a tag has to begin with them, with more to contain them. -/
def Found (tag : String) : Prop :=
  if textLength normalizedSearch = 2 then ∃ rest, lower tag = normalizedSearch ++ rest
  else ∃ before rest, lower tag = before ++ normalizedSearch ++ rest

def BeginsWith (tag : String) : Prop := ∃ rest, lower tag = normalizedSearch ++ rest

/-- Tags that begin with the text come first; among those, and among the others, the
    database's order decides. -/
def TagBefore (a b : String) : Prop :=
  (BeginsWith lower normalizedSearch a ∧ ¬ BeginsWith lower normalizedSearch b) ∨
    ((BeginsWith lower normalizedSearch a ↔ BeginsWith lower normalizedSearch b) ∧ db.collate a < db.collate b)

variable {J : Type}

/-- The first hundred of the tags that refreshes have seen and kept and that the text
    finds. -/
structure Answers (refreshes : List (TagsRefresh J)) (tags : List String) : Prop where
  ordered : tags.Pairwise (TagBefore db lower normalizedSearch)
  found : ∀ tag ∈ tags, Found lower normalizedSearch tag ∧ ∃ since, SeenSinceBy refreshes tag since
  complete : ∀ tag since, SeenSinceBy refreshes tag since → Found lower normalizedSearch tag →
    tag ∈ tags ∨ (tags.length = 100 ∧ ∀ t ∈ tags, TagBefore db lower normalizedSearch t tag)

end

variable {J : Type} {lower : String → String} {autoDeletePostgresData : Option Int}

/-- Tags are listed with their own lower case. -/
def Lowered (lower : String → String) (table : JobTagsTable) : Prop :=
  ∀ row ∈ table.rows, row.tagLower = lower row.tag

theorem lowered_apply {now : Int} {e : TagsRefresh J} {table : JobTagsTable} (lowered : Lowered lower table) :
    Lowered lower (e.apply lower now table) := by
  have inserted : ∀ rows : List JobTag, (∀ ex ∈ rows, ex.tagLower = lower ex.tag) → ∀ table : JobTagsTable,
      Lowered lower table → Lowered lower (table.insertOnConflict rows) := by
    intro rows proposed
    induction rows with
    | nil => exact fun table lowered => lowered
    | cons ex rows ih =>
        simp only [List.forall_mem_cons] at proposed
        intro table lowered
        refine ih proposed.2 _ fun row hrow => ?_
        rcases (UniqueIndex.mem_doUpdate table.unique).mp hrow with ⟨old, -⟩ | ⟨old, -, clash, rfl⟩ | ⟨rfl, -⟩
        · exact lowered row old
        · exact proposed.1.trans (congrArg lower (Option.some.inj clash.2).symm)
        · exact proposed.1
  have proposed : ∀ ex ∈ selectTags lower now e.createdFrom e.runs, ex.tagLower = lower ex.tag := by
    intro ex hex
    obtain ⟨group, -, rfl⟩ := List.mem_map.mp hex
    rfl
  have all := inserted _ proposed table lowered
  rw [TagsRefresh.apply]
  cases e.deleteBefore with
  | none => exact all
  | some cutoff => exact fun row hrow => all row (List.mem_filter.mp hrow).1

theorem lowered_step [DecidableEq J] {s s' : TagsSystem J} {a : TagsAction J} (lowered : Lowered lower s.tags)
    (enabled : step lower autoDeletePostgresData s a = some s') : Lowered lower s'.tags := by
  cases a with
  | upsert ctx runs =>
      obtain rfl := Option.some.inj enabled
      exact lowered
  | refresh now now' updatedAt =>
      obtain rfl := Option.some.inj enabled
      exact lowered_apply lowered

/-- What is seen on a run is not empty. -/
theorem ne_empty_of_seen {refreshes : List (TagsRefresh J)} {tag : String} {since : Int}
    (seen : SeenSinceBy refreshes tag since) : tag ≠ "" := by
  obtain ⟨_, _, _, r, _, saw, _⟩ := seen
  simpa using (List.mem_filter.mp saw.2.2).2

theorem distinct_tags (table : JobTagsTable) : table.rows.Pairwise fun a b => a.tag ≠ b.tag :=
  table.unique.imp fun apart same => apart ⟨rfl, congrArg some same⟩

/-- The place of a row in the answer. -/
def tagKey (prefixSearch : String) (t : JobTag) : Lex (Nat × κ) :=
  toLex (if like t.tagLower prefixSearch then 0 else 1, db.collate t.tag)

theorem sorted_tags (table : JobTagsTable) (wher : JobTag → Bool) (prefixSearch : String) :
    ((table.rows.filter wher).insertionSort fun a b => tagOrder db prefixSearch a b = true).Pairwise fun a b =>
      tagKey db prefixSearch a < tagKey db prefixSearch b := by
  refine SortedRows.pairwise_sort (Keyset.orderBy_cons (Keyset.orderBy_one fun t : JobTag => db.collate t.tag) _) ?_
  refine List.pairwise_map.mpr (((distinct_tags table).filter wher).imp fun apart same => apart ?_)
  exact db.collate.injective (congrArg (fun k => (ofLex k).2) same)

variable {db} {normalizedSearch : String}

theorem tagBefore_of_key (plain : PlainText normalizedSearch) {a b : JobTag} (lowered : a.tagLower = lower a.tag)
    (lowered' : b.tagLower = lower b.tag)
    (before : tagKey db (normalizedSearch ++ "%") a < tagKey db (normalizedSearch ++ "%") b) :
    TagBefore db lower normalizedSearch a.tag b.tag := by
  have begins : ∀ {t : JobTag}, t.tagLower = lower t.tag →
      (like t.tagLower (normalizedSearch ++ "%") = true ↔ BeginsWith lower normalizedSearch t.tag) := by
    intro t same
    rw [like_begins plain, same]
    rfl
  rw [TagBefore, ← begins lowered, ← begins lowered']
  rw [tagKey, tagKey, Prod.Lex.toLex_lt_toLex] at before
  generalize like a.tagLower (normalizedSearch ++ "%") = first at before
  generalize like b.tagLower (normalizedSearch ++ "%") = second at before
  cases first <;> cases second
  · simpa using before
  · simp at before
  · simp
  · simpa using before

theorem like_found (plain : PlainText normalizedSearch) {t : JobTag} (lowered : t.tagLower = lower t.tag) :
    like t.tagLower (if textLength normalizedSearch = 2 then normalizedSearch ++ "%"
      else "%" ++ normalizedSearch ++ "%") = true ↔ Found lower normalizedSearch t.tag := by
  rw [Found, lowered]
  split
  · exact like_begins plain
  · exact like_contains plain

/-- What the route answers about a table that the refreshes have made. -/
theorem getTags_answers {s : TagsSystem J} (faithful : s.Faithful) (lowered : Lowered lower s.tags)
    {toLowerCase : String → String} {search : String} (long : MIN_TAG_SEARCH_LENGTH ≤ textLength (trim search))
    (plain : PlainText (toLowerCase (trim search))) :
    Answers db lower (toLowerCase (trim search)) s.refreshes (getTags db toLowerCase s.tags (some search)) := by
  have given : truthyString (some (trim search)) = some (trim search) := by
    refine truthyString_eq_some.mpr ⟨rfl, fun empty => ?_⟩
    rw [empty] at long
    exact absurd long (by decide)
  have seen : ∀ row ∈ s.tags.rows, SeenSinceBy s.refreshes row.tag row.lastSeenAt := fun row hrow =>
    (faithful row.tag row.lastSeenAt).mp ⟨row, hrow, rfl, le_refl _⟩
  simp only [getTags, Option.map_some, given, Nat.not_lt.mpr long, if_false]
  generalize toLowerCase (trim search) = normalizedSearch at plain
  have strict := sorted_tags db s.tags (fun t => like t.tagLower
    (if textLength normalizedSearch = 2 then normalizedSearch ++ "%" else "%" ++ normalizedSearch ++ "%"))
    (normalizedSearch ++ "%")
  generalize shown : ((s.tags.rows.filter fun t => like t.tagLower
    (if textLength normalizedSearch = 2 then normalizedSearch ++ "%"
      else "%" ++ normalizedSearch ++ "%")).insertionSort fun a b =>
        tagOrder db (normalizedSearch ++ "%") a b = true) = sorted at strict
  have member : ∀ row, row ∈ sorted ↔ row ∈ s.tags.rows ∧ Found lower normalizedSearch row.tag := by
    intro row
    rw [← shown, List.mem_insertionSort, List.mem_filter]
    exact and_congr_right fun hrow => like_found plain (lowered row hrow)
  have inTable : ∀ row ∈ sorted.take 100, row ∈ s.tags.rows ∧ Found lower normalizedSearch row.tag :=
    fun row hrow => (member row).mp (List.mem_of_mem_take hrow)
  have named : ((sorted.take 100).map (·.tag)).filter (· ≠ "") = (sorted.take 100).map (·.tag) := by
    refine List.filter_eq_self.mpr fun tag htag => ?_
    obtain ⟨row, hrow, rfl⟩ := List.mem_map.mp htag
    exact decide_eq_true (ne_empty_of_seen (seen row (inTable row hrow).1))
  rw [named]
  refine ⟨?_, ?_, ?_⟩
  · refine List.pairwise_map.mpr ((strict.sublist (List.take_sublist 100 sorted)).imp_of_mem ?_)
    intro a b ha hb before
    exact tagBefore_of_key plain (lowered a (inTable a ha).1) (lowered b (inTable b hb).1) before
  · intro tag htag
    obtain ⟨row, hrow, rfl⟩ := List.mem_map.mp htag
    exact ⟨(inTable row hrow).2, _, seen row (inTable row hrow).1⟩
  · intro tag since seenBy found
    obtain ⟨row, hrow, rfl, -⟩ := (faithful tag since).mpr seenBy
    have inSorted := (member row).mpr ⟨hrow, found⟩
    cases Decidable.em (row ∈ sorted.take 100) with
    | inl kept => exact .inl (List.mem_map_of_mem kept)
    | inr out =>
        obtain ⟨full, before⟩ := SortedRows.of_not_mem_take strict inSorted out
        refine .inr ⟨by rw [List.length_map, full], fun t ht => ?_⟩
        obtain ⟨a, ha, rfl⟩ := List.mem_map.mp ht
        exact tagBefore_of_key plain (lowered a (inTable a ha).1) (lowered row hrow) (before a ha)

/-- In any history, a search answers with the tags that the refreshes so far have seen
    and kept. -/
theorem search_answers [DecidableEq J] {now : Int} {runs : JobRunsTable J}
    {ts : List (Machine.Transition (TagsSystem J) (TagsAction J))} {s : TagsSystem J}
    (run : Machine.Run (step lower autoDeletePostgresData) (start lower now runs) ts s)
    {toLowerCase : String → String} {search : String} (long : MIN_TAG_SEARCH_LENGTH ≤ textLength (trim search))
    (plain : PlainText (toLowerCase (trim search))) :
    Answers db lower (toLowerCase (trim search)) s.refreshes (getTags db toLowerCase s.tags (some search)) := by
  have faithful := run.invariant (fun _ _ _ => faithful_step) (faithful_start now runs)
  have lowered := run.invariant (I := fun s => Lowered lower s.tags) (fun _ _ _ => lowered_step)
    (lowered_apply fun row hrow => absurd hrow List.not_mem_nil)
  exact getTags_answers faithful lowered long plain

/-- The tag of a recent run. -/
theorem vip_answered : ∃ ts s, Machine.Run (step id none) (start id 0 (.empty : JobRunsTable Unit)) ts s ∧
    getTags plainDatabase id s.tags (some " vip ") = ["vip"] ∧
      Answers plainDatabase id (id (trim " vip ")) s.refreshes (getTags plainDatabase id s.tags (some " vip ")) := by
  have performed : Machine.perform (step id none) (start id 0 .empty) (taggedActs 7800000) = some _ := rfl
  have run := Machine.perform_run performed
  exact ⟨_, _, run, by decide, search_answers run (by decide) (by decide)⟩

end TagsSystem

end BetterBullBoard
