import BetterBullBoard.Lib.Wildcard
import BetterBullBoard.Queues.Ingest

/-! # Finding the queues in Redis

`scanForQueues` and what `ingestQueuesUnsafe` does with its answer. Redis changes
while it is scanned: a full iteration returns each key that is there throughout, and
may or may not return a key that comes or goes. A scan that takes too long is broken
off, and then nothing is deleted.
-/

namespace BetterBullBoard

/-- `*:*:id` -/
def idPattern : List Wildcard.Token :=
  .any :: Wildcard.literal ":" ++ .any :: Wildcard.literal ":id"

/-- `key.split(":")[1]` -/
def queueNameOf (key : String) : Option String := ((key.toList.splitOn ':')[1]?).map String.ofList

/-- BullMQ's key of a queue's counter. -/
def idKey (ns queueName : String) : String := ns ++ ":" ++ queueName ++ ":id"

/-- What one `SCAN` returns, and the clock afterwards. -/
structure ScanReply where
  cursor : String
  keys : List String
  dateNow : Int
  deriving DecidableEq

structure QueueScan where
  complete : Bool
  keys : List String
  deriving DecidableEq

def maxTime : Int := 40000

/-- The loop over the replies, if it ends with one of them. -/
def scanForQueues (startTime : Int) : List ScanReply → Option QueueScan
  | [] => none
  | reply :: replies =>
      if reply.dateNow - startTime < maxTime ∧ reply.cursor ≠ "0" then
        (scanForQueues startTime replies).map fun scan => { scan with keys := reply.keys ++ scan.keys }
      else some { complete := reply.cursor = "0", keys := reply.keys }

namespace QueueScan

def allQueuesNames (scan : QueueScan) : List String :=
  Utf16.sort ((JsMap.ofEntries ((scan.keys.filterMap queueNameOf).map fun name => (name, ()))).map (·.1))

/-- The deletion of the queues that the scan did not find. -/
def deleteMissing (scan : QueueScan) (db : QueuesDb) : QueuesDb :=
  if scan.complete then
    if scan.allQueuesNames.length > 0 then db.deleteQueues fun q => !scan.allQueuesNames.contains q.name
    else db.deleteQueues fun _ => true
  else db

end QueueScan

/-- What `SCAN` promises, where `moments` are the string keys of Redis from its start
    to its end. -/
structure ScanAnswers (moments : List (List String)) (replies : List ScanReply) : Prop where
  returned : ∀ reply ∈ replies, ∀ key ∈ reply.keys, Wildcard.Matches idPattern key ∧ ∃ keys ∈ moments, key ∈ keys
  full : ∀ before last after, replies = before ++ last :: after → last.cursor = "0" →
    ∀ key, Wildcard.Matches idPattern key → (∀ keys ∈ moments, key ∈ keys) →
      ∃ reply ∈ before ++ [last], key ∈ reply.keys

/-- Some key of Redis names the queue. -/
def NamedIn (keys : List String) (queueName : String) : Prop :=
  ∃ key ∈ keys, Wildcard.Matches idPattern key ∧ queueNameOf key = some queueName

theorem matches_idPattern {key : String} :
    Wildcard.Matches idPattern key ↔ ∃ ns queueName, key = idKey ns queueName := by
  have parts : idPattern = [.any] ++ (Wildcard.literal ":" ++ ([.any] ++ Wildcard.literal ":id")) := rfl
  simp only [parts, Wildcard.matches_append, Wildcard.matches_literal]
  constructor
  · rintro ⟨ns, _, rfl, -, _, _, rfl, rfl, queueName, _, rfl, -, rfl⟩
    exact ⟨ns, queueName, by simp only [idKey, String.append_assoc]⟩
  · rintro ⟨ns, queueName, rfl⟩
    exact ⟨ns, _, by rw [idKey, String.append_assoc, String.append_assoc], Wildcard.matches_any, ":", _, rfl, rfl,
      queueName, ":id", rfl, Wildcard.matches_any, rfl⟩

/-- Neither a prefix nor a queue of BullMQ has a colon. -/
theorem queueNameOf_idKey {ns queueName : String} (plain : ':' ∉ ns.toList ∧ ':' ∉ queueName.toList) :
    queueNameOf (idKey ns queueName) = some queueName := by
  have split : (idKey ns queueName).toList = ns.toList ++ ':' :: (queueName.toList ++ ':' :: ['i', 'd']) := by
    simp [idKey]
  rw [queueNameOf, split, List.splitOn_append_cons_self_of_not_mem plain.1,
    List.splitOn_append_cons_self_of_not_mem plain.2]
  simp

theorem mem_scannedNames {scan : QueueScan} {queueName : String} :
    queueName ∈ scan.allQueuesNames ↔ ∃ key ∈ scan.keys, queueNameOf key = some queueName := by
  rw [QueueScan.allQueuesNames, Utf16.mem_sort, JsMap.mem_keys_ofEntries, List.map_map]
  exact (List.mem_map.trans (by simp)).trans List.mem_filterMap

theorem nodup_scannedNames (scan : QueueScan) : scan.allQueuesNames.Nodup :=
  (Utf16.sort_perm _).nodup_iff.mpr (JsMap.nodup_ofEntries _)

theorem deleteMissing_eq {scan : QueueScan} (complete : scan.complete = true) (db : QueuesDb) :
    scan.deleteMissing db = db.deleteQueues fun q => !scan.allQueuesNames.contains q.name := by
  rw [QueueScan.deleteMissing, if_pos complete]
  split
  · rfl
  · rename_i empty
    have nil : scan.allQueuesNames = [] := List.length_eq_zero_iff.mp (Nat.eq_zero_of_not_pos empty)
    simp [nil]

/-- The loop ends with the first reply that ends the iteration or comes too late. -/
theorem scanForQueues_some {startTime : Int} {replies : List ScanReply} {scan : QueueScan}
    (scanned : scanForQueues startTime replies = some scan) :
    ∃ before last after, replies = before ++ last :: after ∧ scan.keys = (before ++ [last]).flatMap (·.keys) ∧
      scan.complete = decide (last.cursor = "0") := by
  induction replies generalizing scan with
  | nil => cases scanned
  | cons reply replies ih =>
      rw [scanForQueues] at scanned
      split at scanned
      · obtain ⟨rest, later, rfl⟩ := Option.map_eq_some_iff.mp scanned
        obtain ⟨before, last, after, rfl, keys, complete⟩ := ih later
        exact ⟨reply :: before, last, after, rfl, by simp [keys], complete⟩
      · obtain rfl := Option.some.inj scanned
        exact ⟨[], reply, replies, rfl, by simp, rfl⟩

section

variable {moments : List (List String)} {replies : List ScanReply} {startTime : Int} {scan : QueueScan}
  {queueName : String}

/-- A name found is the name of a key that Redis had at some moment. -/
theorem found_named (answers : ScanAnswers moments replies) (scanned : scanForQueues startTime replies = some scan)
    (found : queueName ∈ scan.allQueuesNames) : ∃ keys ∈ moments, NamedIn keys queueName := by
  obtain ⟨before, last, after, rfl, keys, -⟩ := scanForQueues_some scanned
  obtain ⟨key, member, name⟩ := mem_scannedNames.mp found
  rw [keys] at member
  obtain ⟨reply, read, returned⟩ := List.mem_flatMap.mp member
  have given : reply ∈ before ++ last :: after := by
    cases List.mem_append.mp read with
    | inl early => exact List.mem_append_left _ early
    | inr added => exact List.mem_append_right _ (List.mem_cons.mpr (.inl (List.mem_singleton.mp added)))
  obtain ⟨matched, keys, moment, there⟩ := answers.returned reply given key returned
  exact ⟨keys, moment, key, there, matched, name⟩

/-- A complete scan finds a name whose key is there throughout. -/
theorem named_found (answers : ScanAnswers moments replies) (scanned : scanForQueues startTime replies = some scan)
    (complete : scan.complete = true) {key : String} (matched : Wildcard.Matches idPattern key)
    (name : queueNameOf key = some queueName) (throughout : ∀ keys ∈ moments, key ∈ keys) :
    queueName ∈ scan.allQueuesNames := by
  obtain ⟨before, last, after, split, keys, ended⟩ := scanForQueues_some scanned
  rw [ended, decide_eq_true_iff] at complete
  obtain ⟨reply, read, returned⟩ := answers.full before last after split complete key matched throughout
  exact mem_scannedNames.mpr ⟨key, keys ▸ List.mem_flatMap.mpr ⟨reply, read, returned⟩, name⟩

/-- What a scan is good for. -/
structure Discovered (moments : List (List String)) (scan : QueueScan) (db : QueuesDb) : Prop where
  /-- A tracked queue whose key is in Redis throughout stays. -/
  stays : ∀ q ∈ db.queues, ∀ ns, ':' ∉ ns.toList → ':' ∉ q.name.toList → (∀ keys ∈ moments, idKey ns q.name ∈ keys) →
    q ∈ (scan.deleteMissing db).queues
  /-- After a complete scan no queue stays that Redis had at no moment. -/
  leaves : scan.complete = true → ∀ q ∈ (scan.deleteMissing db).queues, ∃ keys ∈ moments, NamedIn keys q.name
  incomplete : scan.complete = false → scan.deleteMissing db = db
  /-- Names are ingested once, and only if Redis had them. -/
  names : scan.allQueuesNames.Nodup ∧ ∀ queueName ∈ scan.allQueuesNames, ∃ keys ∈ moments, NamedIn keys queueName
  finds : scan.complete = true → ∀ ns queueName, ':' ∉ ns.toList → ':' ∉ queueName.toList →
    (∀ keys ∈ moments, idKey ns queueName ∈ keys) → queueName ∈ scan.allQueuesNames
  /-- While Redis does not change, a complete scan is what a pass starts from. -/
  steady : scan.complete = true → ∀ (redis : RedisQueues) keys, moments ≠ [] → (∀ moment ∈ moments, moment = keys) →
    (∀ queueName, NamedIn keys queueName ↔ queueName ∈ redis.queueNames) →
      scan.allQueuesNames = redis.allQueuesNames ∧ scan.deleteMissing db = db.deleteMissing redis

end

/-- The scan of a Redis in which queue `mail` stays and queue `old` goes between the
    two replies. -/
def twoReplies : List ScanReply :=
  [⟨"17", ["bull:mail:id"], 1000⟩, ⟨"0", ["bull:mail:id"], 2000⟩]

/-- Redis holds the first of these and not the second. -/
def mailAndGone : QueuesDb where
  queues := [{ name := "mail", id := 7, defaultJobOptions := .null, isPaused := false },
    { name := "gone", id := 8, defaultJobOptions := .null, isPaused := false }]
  jobSchedulers := []
  nextId := 9
  ids := by decide
  below := by decide
  names := by decide
  keys := List.nodup_nil
  texts := texts_nil
  references := fun _ h => absurd h List.not_mem_nil

end BetterBullBoard
