import RustHadoop.Lib.Ordered
import RustHadoop.S3.Formats

/-!
# The audit log

`AuditLogger` (`dfs/s3_server/src/audit.rs`) collects records, sorts them batch by batch, lets every record name
the hash of the one before it, and writes them to RocksDB under keys that start with a timestamp.  `verify_chain`
(`dfs/s3_server/src/bin/audit_reader.rs`) reads the records back in the order of their keys and follows the hashes.

Only the column family `logs` is kept here: the two indexes are written in the same batches, and neither the logger
nor the verification reads them.  A write batch takes effect as a whole or not at all, and the cleanup changes
`logs` by one range deletion, so flushes and cleanups are single steps.
-/

namespace RustHadoop.S3

open Texts Ordered List Option

structure AuditRecord where
  timestamp : Text
  timestampMs : UInt64
  requestId : Text
  remoteIp : Text
  userId : Text
  roleArn : Option Text
  action : Text
  resource : Text
  statusCode : UInt16
  errorCode : Option Text
  userAgent : Option Text
  durationMs : Option UInt64
  previousHash : Option Text
  recordHash : Option Text
deriving DecidableEq

/-- HMAC-SHA256, and `serde_json` for records. -/
structure AuditCrates where
  hmac : Bytes → Bytes → Bytes
  printRecord : AuditRecord → Bytes
  readRecord : Bytes → Option AuditRecord

variable (c : AuditCrates)

def AuditCrates.Lawful : Prop := ∀ record, c.readRecord (c.printRecord record) = some record

/-- The hash of a record covers all fields but the hash itself. -/
def computeHmac (record : AuditRecord) (secret : Text) : Text :=
  hexEncode (c.hmac (utf8 secret) (c.printRecord { record with recordHash := none }))

/-- By timestamp, then by the bytes of the request id. -/
def sortRecords (records : List AuditRecord) : List AuditRecord :=
  records.insertionSort fun a b =>
    a.timestampMs < b.timestampMs ∨ a.timestampMs = b.timestampMs ∧
      ByteKey.mk (utf8 a.requestId) ≤ ByteKey.mk (utf8 b.requestId)

structure ChainedBatch where
  keyedRecords : List (UInt64 × AuditRecord)
  tempHash : Option Text
  globalLastTsMs : UInt64

/-- The loop over a sorted batch: the timestamps of keys never go back, and every record gets the hash of the one
before it and its own. -/
def chainRecords (c : AuditCrates) (secret : Text) : Option Text → UInt64 → List AuditRecord → ChainedBatch
  | tempHash, globalLastTsMs, [] => ⟨[], tempHash, globalLastTsMs⟩
  | tempHash, globalLastTsMs, record :: records =>
    let keyTs := max record.timestampMs globalLastTsMs
    let linked := { record with previousHash := tempHash }
    let hash := some (computeHmac c linked secret)
    let rest := chainRecords c secret hash keyTs records
    { rest with keyedRecords := (keyTs, { linked with recordHash := hash }) :: rest.keyedRecords }

/-- `:<timestamp>:<request id>` -/
def recordKey (keyTs : UInt64) (requestId : Text) : ByteKey :=
  ⟨0x3A :: (beBytes 8 keyTs.toNat ++ 0x3A :: utf8 requestId)⟩

abbrev LogsCf := OrderedMap ByteKey Bytes

def logEntry (keyed : UInt64 × AuditRecord) : ByteKey × Bytes :=
  (recordKey keyed.1 keyed.2.requestId, c.printRecord keyed.2)

variable (db : LogsCf)

def flushBatch (records : List (UInt64 × AuditRecord)) : LogsCf :=
  db.putAll (records.map (logEntry c))

/-- The bytes of `cutoff_ms` are those of a signed number. -/
def cleanupOldLogs (cutoffMs : Int64) : LogsCf :=
  db.deleteRange ⟨[0x3A]⟩ ⟨0x3A :: beBytes 8 cutoffMs.toUInt64.toNat⟩

structure AuditConfig where
  batchSize : Nat
  hmacSecret : Text

structure AuditWorker where
  batchBuffer : List AuditRecord
  committedLastHash : Option Text
  globalLastTsMs : UInt64

structure AuditLogger where
  db : LogsCf
  worker : AuditWorker

/-- What the worker finds in the database when it starts: hash and timestamp of the last record. -/
def recoveredWorker : AuditWorker :=
  match db.entries.getLast?.bind fun e => c.readRecord e.2 with
  | some last => ⟨[], last.recordHash, last.timestampMs⟩
  | none => ⟨[], none, 0⟩

def AuditLogger.new : AuditLogger := ⟨db, recoveredWorker c db⟩

variable (config : AuditConfig)

variable (s : AuditLogger)

def AuditLogger.chained (records : List AuditRecord) : ChainedBatch :=
  chainRecords c config.hmacSecret s.worker.committedLastHash s.worker.globalLastTsMs (sortRecords records)

/-- The last hash advances only if the batch was written, the last timestamp always. -/
def AuditLogger.flush (success : Bool) (records : List AuditRecord) (s : AuditLogger) :
    AuditLogger :=
  let batch := s.chained c config records
  if success then ⟨flushBatch c s.db batch.keyedRecords, ⟨[], batch.tempHash, batch.globalLastTsMs⟩⟩
  else ⟨s.db, ⟨[], s.worker.committedLastHash, batch.globalLastTsMs⟩⟩

/-- What happens to a logger.  `attempts` says which attempts to write a batch succeed. -/
inductive AuditEvent
  | recv (record : AuditRecord) (attempts : List Bool)
  | tick (attempts : List Bool)
  /-- The channel is closed with these records left in it; another logger is made for the database. -/
  | shutdown (rest : List AuditRecord) (attempts : List Bool)
  /-- The process ends without draining; another logger is made for the database. -/
  | crash
  | cleanup (cutoffMs : Int64)

/-- A batch is tried three times, the last one of a worker once. -/
def AuditEvent.success : AuditEvent → Bool
  | .recv _ attempts => (attempts.take 3).any id
  | .tick attempts => (attempts.take 3).any id
  | .shutdown _ attempts => (attempts.take 1).any id
  | .crash => true
  | .cleanup _ => true

def AuditEvent.records : AuditEvent → List AuditRecord
  | .recv record _ => [record]
  | .shutdown rest _ => rest
  | _ => []

def AuditEvent.batch : AuditEvent → List AuditRecord
  | .recv record _ =>
    let buffer := s.worker.batchBuffer ++ [record]
    if config.batchSize ≤ buffer.length then buffer else []
  | .tick _ => s.worker.batchBuffer
  | .shutdown rest _ => s.worker.batchBuffer ++ rest
  | .crash => []
  | .cleanup _ => []

def AuditLogger.step : AuditEvent → AuditLogger
  | .recv record attempts =>
    let buffer := s.worker.batchBuffer ++ [record]
    if config.batchSize ≤ buffer.length then s.flush c config (AuditEvent.recv record attempts).success buffer
    else { s with worker := { s.worker with batchBuffer := buffer } }
  | .tick attempts =>
    if s.worker.batchBuffer ≠ [] then s.flush c config
      (AuditEvent.tick attempts).success s.worker.batchBuffer else s
  | .shutdown rest attempts =>
    let buffer := s.worker.batchBuffer ++ rest
    let final := if buffer ≠ [] then s.flush c config (AuditEvent.shutdown rest attempts).success buffer else s
    AuditLogger.new c final.db
  | .crash => AuditLogger.new c s.db
  | .cleanup cutoffMs => { s with db := cleanupOldLogs s.db cutoffMs }

def AuditLogger.run (events : List AuditEvent) : AuditLogger :=
  events.foldl (fun s e => s.step c config e) s

/-- What `verify_chain` reports: the request id, and the expected and the found hash. -/
inductive VerifyError
  | unreadable
  | broken (requestId : Text) (expected found : Option Text)
  | tampered (requestId : Text) (computed : Text) (found : Option Text)
deriving DecidableEq

/-- The loop over the values; the number of verified records is the result. -/
def verifyFrom (c : AuditCrates) (secret : Text) : Option Text → Nat → List Bytes → Except VerifyError Nat
  | _, verifiedCount, [] => .ok verifiedCount
  | lastHash, verifiedCount, val :: rest =>
    match c.readRecord val with
    | none => .error .unreadable
    | some record =>
      if 0 < verifiedCount ∧ record.previousHash ≠ lastHash then
        .error (.broken record.requestId lastHash record.previousHash)
      else
        let expected := computeHmac c record secret
        if record.recordHash ≠ some expected then .error (.tampered record.requestId expected record.recordHash)
        else verifyFrom c secret record.recordHash (verifiedCount + 1) rest

def verifyChain (secret : Text) (db : LogsCf) : Except VerifyError Nat :=
  verifyFrom c secret none 0 (db.entries.map Prod.snd)

def Sealed (secret : Text) (record : AuditRecord) : Prop := record.recordHash = some (computeHmac c record secret)

def Links (a b : AuditRecord) : Prop := b.previousHash = a.recordHash

variable {c} {config} {secret : Text}

/-- Verification accepts sealed records in which each one names the hash of the one before it. -/
theorem verifyFrom_eq_ok_iff {values : List Bytes} {lastHash : Option Text} {n m : Nat} :
    verifyFrom c secret lastHash n values = .ok m ↔
      ∃ records : List AuditRecord, values.map c.readRecord = records.map some ∧ m = n + records.length ∧
        (∀ r ∈ records, Sealed c secret r) ∧ (0 < n → ∀ r ∈ records.head?, r.previousHash = lastHash) ∧
          records.IsChain Links := by
  induction values generalizing lastHash n with
  | nil =>
    constructor
    · intro h
      cases h
      exact ⟨[], rfl, rfl, by simp, by simp, IsChain.nil⟩
    · rintro ⟨records, hrd, rfl, -⟩
      have hnil : records = [] := map_eq_nil_iff.1 hrd.symm
      subst hnil
      rfl
  | cons val rest ih =>
    -- the records on the right begin with the one that is read here
    have hf : ∀ {records : List AuditRecord}, (val :: rest).map c.readRecord = records.map some →
        ∃ r records', records = r :: records' ∧ c.readRecord val = some r ∧
          rest.map c.readRecord = records'.map some := by
      rintro (_ | ⟨r, records'⟩) hrd
      · cases hrd
      · exact ⟨r, records', rfl, cons.inj hrd⟩
    rw [verifyFrom]
    rcases hv : c.readRecord val with _ | record
    · refine iff_of_false (fun h => nomatch h) ?_
      rintro ⟨records, hrd, -⟩
      obtain ⟨r, records', rfl, hr, -⟩ := hf hrd
      cases hv.symm.trans hr
    · have hsm : ∀ {r}, c.readRecord val = some r → r = record := fun hr => some.inj (hr.symm.trans hv)
      simp only
      split_ifs with hb ht
      · refine iff_of_false (fun h => nomatch h) ?_
        rintro ⟨records, hrd, -, -, hh, -⟩
        obtain ⟨r, records', rfl, hr, -⟩ := hf hrd
        obtain rfl := hsm hr
        exact hb.2 (hh hb.1 _ rfl)
      · refine iff_of_false (fun h => nomatch h) ?_
        rintro ⟨records, hrd, -, hs, -⟩
        obtain ⟨r, records', rfl, hr, -⟩ := hf hrd
        obtain rfl := hsm hr
        exact ht (hs _ mem_cons_self)
      · rw [ih]
        constructor
        · rintro ⟨records, hrd, rfl, hs, hh, hc⟩
          refine ⟨record :: records, ?_, ?_, ?_, ?_, ?_⟩
          · rw [map_cons, map_cons, hv, hrd]
          · rw [length_cons]
            omega
          · exact forall_mem_cons.2 ⟨not_not.1 ht, hs⟩
          · intro hn r hr
            cases hr
            by_contra hne
            exact hb ⟨hn, hne⟩
          · exact isChain_cons.2 ⟨hh (Nat.succ_pos n), hc⟩
        · rintro ⟨records, hrd, rfl, hs, -, hc⟩
          obtain ⟨r, records', rfl, hr, hrs⟩ := hf hrd
          obtain rfl := hsm hr
          obtain ⟨hl, hc⟩ := isChain_cons.1 hc
          refine ⟨records', hrs, ?_, fun r hr => hs r (mem_cons_of_mem _ hr), fun _ => hl, hc⟩
          rw [length_cons]
          omega

@[simp] theorem chainRecords_nil (h : Option Text) (ts : UInt64) :
    chainRecords c secret h ts [] = ⟨[], h, ts⟩ := rfl

theorem chainRecords_spec (c : AuditCrates) (secret : Text) (h : Option Text) (ts : UInt64)
    (records : List AuditRecord) :
    let batch := chainRecords c secret h ts records
    (∀ p ∈ batch.keyedRecords, Sealed c secret p.2) ∧ (batch.keyedRecords.map Prod.snd).IsChain Links ∧
      (∀ p ∈ batch.keyedRecords.head?, p.2.previousHash = h) ∧
      batch.tempHash = (batch.keyedRecords.getLast?.map fun p => p.2.recordHash).getD h ∧
      batch.keyedRecords.map (fun p => p.2.requestId) = records.map AuditRecord.requestId := by
  induction records generalizing h ts with
  | nil => exact ⟨by simp, IsChain.nil, by simp, rfl, rfl⟩
  | cons record records ih =>
    obtain ⟨hs, hl, hh, hls, hi⟩ :=
      ih (some (computeHmac c { record with previousHash := h } secret)) (max record.timestampMs ts)
    refine ⟨?_, ?_, ?_, ?_, ?_⟩
    · exact forall_mem_cons.2 ⟨rfl, hs⟩
    · refine isChain_cons.2 ⟨fun r hr => ?_, hl⟩
      rw [head?_map] at hr
      obtain ⟨p, hp, rfl⟩ := map_eq_some_iff.1 hr
      exact hh p hp
    · intro p hp
      cases hp
      rfl
    · refine hls.trans ?_
      rw [chainRecords, getLast?_cons]
      rcases (chainRecords c secret _ _ records).keyedRecords.getLast? with _ | p <;> rfl
    · exact congrArg (record.requestId :: ·) hi

theorem requestIds_chained (c : AuditCrates) (config : AuditConfig) (s : AuditLogger)
    (records : List AuditRecord) :
    ((s.chained c config records).keyedRecords.map fun p => p.2.requestId).Perm
    (records.map AuditRecord.requestId) := by
  rw [AuditLogger.chained, (chainRecords_spec _ _ _ _ _).2.2.2.2]
  exact (perm_insertionSort _ _).map _

theorem eq_of_recordHash_eq (hl : c.Lawful) (hc : Function.Injective (c.hmac (utf8 secret))) {a b : AuditRecord}
    (ha : Sealed c secret a) (hb : Sealed c secret b) (h : a.recordHash = b.recordHash) : a = b := by
  have hh : computeHmac c a secret = computeHmac c b secret := some.inj ((ha.symm.trans h).trans hb)
  have hhm := hexEncode_injective hh
  have hp := congrArg c.readRecord (hc hhm)
  rw [hl, hl] at hp
  have hf := some.inj hp
  cases a
  cases b
  simp_all

/-! ### Crates for concrete logs

Records are printed as `serde_json` prints them, for texts without control characters, and read in that form. -/

inductive JsonValue
  | null
  | number (n : Nat)
  | text (t : Text)

def printValue : JsonValue → Text
  | .null => "null"
  | .number n => natText n
  | .text t => jsonString t

def readValue (t : Text) : Option (JsonValue × Text) :=
  if "null".toList <+: t then some (.null, t.drop 4)
  else if t.head? = some '"' then (readString t.tail).map fun s => (.text s.1, s.2)
  else (nat? (t.takeWhile Char.isDigit)).map fun n => (.number n, t.dropWhile Char.isDigit)

def printFields : List (Text × JsonValue) → Text
  | [] => ['\x7d']
  | [(k, v)] => jsonString k ++ ':' :: (printValue v ++ ['\x7d'])
  | (k, v) :: rest => jsonString k ++ ':' :: (printValue v ++ ',' :: printFields rest)

def readField : Text → Option ((Text × JsonValue) × Text)
  | '"' :: t =>
    match readString t with
    | some (k, ':' :: rest) => (readValue rest).map fun v => ((k, v.1), v.2)
    | _ => none
  | _ => none

def readFields : Nat → Text → Option (List (Text × JsonValue))
  | 0, _ => none
  | fuel + 1, t =>
    match readField t with
    | some (field, ',' :: rest) => (readFields fuel rest).map fun l => field :: l
    | some (field, ['\x7d']) => some [field]
    | _ => none

private theorem readValue_printValue (v : JsonValue) {d : Char} (hd : d.isDigit = false) (rest : Text) :
    readValue (printValue v ++ d :: rest) = some (v, d :: rest) := by
  cases v with
  | null =>
    have hn : "null".toList <+: printValue .null ++ d :: rest := prefix_append _ _
    rw [readValue, if_pos hn]
    rfl
  | text t =>
    have hq : printValue (.text t) ++ d :: rest = '"' :: (t.flatMap escaped ++ '"' :: d :: rest) := by
      simp [printValue, jsonString]
    have hn : ¬ "null".toList <+: '"' :: (t.flatMap escaped ++ '"' :: d :: rest) := fun h => by
      cases (cons_prefix_cons.1 h).1
    rw [hq, readValue, if_neg hn, if_pos head?_cons, tail_cons, readString_escaped]
    rfl
  | number n =>
    have hdg : ∀ c ∈ natText n, c.isDigit = true := fun c => isDigit_of_mem_natText
    obtain ⟨c, t, hnat⟩ : ∃ c t, natText n = c :: t := exists_cons_of_ne_nil Nat.toDigits_ne_nil
    have hc : c.isDigit = true := hdg c (hnat ▸ mem_cons_self)
    have hn : ¬ "null".toList <+: natText n ++ d :: rest := by
      rw [hnat]
      intro h
      rw [← (cons_prefix_cons.1 h).1] at hc
      cases hc
    have hq : (natText n ++ d :: rest).head? ≠ some '"' := by
      rw [hnat]
      intro h
      rw [some.inj h] at hc
      cases hc
    have ht : (natText n ++ d :: rest).takeWhile Char.isDigit = natText n := by
      rw [takeWhile_append_of_pos hdg, takeWhile_cons_of_neg (by simp [hd]), append_nil]
    have hdr : (natText n ++ d :: rest).dropWhile Char.isDigit = d :: rest := by
      rw [dropWhile_append_of_pos hdg, dropWhile_cons_of_neg (by simp [hd])]
    rw [printValue, readValue, if_neg hn, if_neg hq, ht, hdr, nat?_natText]
    rfl

private theorem readField_print (k : Text) (v : JsonValue) {d : Char} (hd : d.isDigit = false) (rest : Text) :
    readField (jsonString k ++ ':' :: (printValue v ++ d :: rest)) = some ((k, v), d :: rest) := by
  simp [jsonString, readField, readString_escaped, readValue_printValue v hd]

theorem readFields_printFields {fuel : Nat} {l : List (Text × JsonValue)} (hl : l ≠ []) (h : l.length ≤ fuel) :
    readFields fuel (printFields l) = some l := by
  induction fuel generalizing l with
  | zero => exact absurd (eq_nil_of_length_eq_zero (by omega)) hl
  | succ fuel ih =>
    rcases l with _ | ⟨⟨k, v⟩, rest⟩
    · exact absurd rfl hl
    · rcases rest with _ | ⟨e, rest⟩
      · rw [readFields, printFields, readField_print k v (by decide)]
        rfl
      · rw [readFields, printFields, readField_print k v (by decide)]
        · simp only [ih (l := e :: rest) (cons_ne_nil _ _) (by simpa using h), map_some]
        · exact fun h => nomatch h

def JsonValue.text? : JsonValue → Option Text
  | .text t => some t
  | _ => none

def JsonValue.unsigned? (bits : Nat) : JsonValue → Option Nat
  | .number n => if n < 2 ^ bits then some n else none
  | _ => none

def JsonValue.optional? (read : JsonValue → Option α) : JsonValue → Option (Option α)
  | .null => some none
  | v => (read v).map some

def optionalText : Option Text → JsonValue
  | none => .null
  | some t => .text t

def optionalNumber : Option UInt64 → JsonValue
  | none => .null
  | some n => .number n.toNat

def auditFieldNames : List Text :=
  ["timestamp", "timestamp_ms", "request_id", "remote_ip", "user_id", "role_arn", "action", "resource",
    "status_code",
    "error_code", "user_agent", "duration_ms", "previous_hash", "record_hash"]

def auditFieldValues (r : AuditRecord) : List JsonValue :=
  [.text r.timestamp, .number r.timestampMs.toNat, .text r.requestId, .text r.remoteIp, .text r.userId,
    optionalText r.roleArn,
    .text r.action, .text r.resource, .number r.statusCode.toNat, optionalText r.errorCode,
      optionalText r.userAgent,
    optionalNumber r.durationMs, optionalText r.previousHash, optionalText r.recordHash]

def auditRecord? : List JsonValue → Option AuditRecord
  | [timestamp, timestampMs, requestId, remoteIp, userId, roleArn, action, resource, statusCode, errorCode,
      userAgent, durationMs,
      previousHash, recordHash] => do
    return {
      timestamp := ← timestamp.text?
      timestampMs := UInt64.ofNat (← timestampMs.unsigned? 64)
      requestId := ← requestId.text?
      remoteIp := ← remoteIp.text?
      userId := ← userId.text?
      roleArn := ← roleArn.optional? JsonValue.text?
      action := ← action.text?
      resource := ← resource.text?
      statusCode := UInt16.ofNat (← statusCode.unsigned? 16)
      errorCode := ← errorCode.optional? JsonValue.text?
      userAgent := ← userAgent.optional? JsonValue.text?
      durationMs := (← durationMs.optional? (JsonValue.unsigned? 64)).map UInt64.ofNat
      previousHash := ← previousHash.optional? JsonValue.text?
      recordHash := ← recordHash.optional? JsonValue.text? }
  | _ => none

def printAuditRecord (r : AuditRecord) : Bytes :=
  utf8 ('\x7b' :: printFields (auditFieldNames.zip (auditFieldValues r)))

def readAuditRecord (b : Bytes) : Option AuditRecord :=
  match utf8? b with
  | some ('\x7b' :: t) =>
    (readFields 14 t).bind fun l =>
      if l.map Prod.fst = auditFieldNames then auditRecord? (l.map Prod.snd) else none
  | _ => none

theorem readAuditRecord_print (r : AuditRecord) : readAuditRecord (printAuditRecord r) = some r := by
  have ht : ∀ t : Option Text, (optionalText t).optional? JsonValue.text? = some t := by rintro (_ | t) <;> rfl
  have hnm : ∀ n : Option UInt64,
      ((optionalNumber n).optional? (JsonValue.unsigned? 64)).map (Option.map UInt64.ofNat) = some n := by
    rintro (_ | n)
    · rfl
    · simp [optionalNumber, JsonValue.optional?, JsonValue.unsigned?, n.toNat_lt]
  obtain ⟨n, hn, hof⟩ := Option.map_eq_some_iff.1 (hnm r.durationMs)
  have hv : auditRecord? (auditFieldValues r) = some r := by
    simp only [auditFieldValues, auditRecord?, ht, hn, JsonValue.text?, JsonValue.unsigned?,
      r.timestampMs.toNat_lt,
      r.statusCode.toNat_lt, if_true, Option.bind_eq_bind, Option.bind_some, Option.pure_def, UInt64.ofNat_toNat,
      UInt16.ofNat_toNat, hof]
  have hf : readFields 14 (printFields (auditFieldNames.zip (auditFieldValues r))) =
      some (auditFieldNames.zip (auditFieldValues r)) :=
    readFields_printFields (cons_ne_nil _ _) (Nat.le_refl 14)
  rw [readAuditRecord, printAuditRecord, utf8?_utf8]
  simp only [hf, bind_some]
  exact (if_pos rfl).trans hv

/-- `serde_json`, and HMAC-SHA256 at the inputs of a table. -/
def auditCrates (hmacs : List (Bytes × Bytes × Bytes)) : AuditCrates :=
  ⟨tableHmac hmacs, printAuditRecord, readAuditRecord⟩

end RustHadoop.S3
