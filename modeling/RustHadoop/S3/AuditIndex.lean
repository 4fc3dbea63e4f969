import RustHadoop.S3.AuditOrder

/-!
# The indexes of the audit log

`flush_batch` writes every record three times: under its key, and with that key as the value under its user and
under its bucket. `cleanup_old_logs` reads the records below a cutoff, deletes their index entries, and then the
records by one range deletion.  All calls are completed one after the other, so the batches in which a cleanup
deletes make no difference.

The cutoff is a signed number and the keys hold unsigned ones: a retention that reaches back before 1970 deletes
everything.
-/

namespace RustHadoop.S3

open Texts Ordered OrderedMap List

/-- The column families `logs`, `idx_user` and `idx_resource`. -/
structure AuditDb where
  logs : LogsCf
  idxUser : OrderedMap ByteKey ByteKey
  idxResource : OrderedMap ByteKey ByteKey

def extractBucketName (resource : Text) : Text :=
  let bucketId := ((resource.splitOn ':')[5]?).getD resource
  ((bucketId.splitOn '/').head?).getD bucketId

def AuditRecord.bucketName (record : AuditRecord) : Text := extractBucketName record.resource

/-- `<name>:<key>` -/
def indexKey (name : Text) (key : ByteKey) : ByteKey := ⟨utf8 name ++ 0x3A :: key.bytes⟩

def indexEntry (name : AuditRecord → Text) (keyed : UInt64 × AuditRecord) : ByteKey × ByteKey :=
  (indexKey (name keyed.2) (recordKey keyed.1 keyed.2.requestId), recordKey keyed.1 keyed.2.requestId)

def expired (c : AuditCrates) (name : AuditRecord → Text) (logs : LogsCf) (endKey : ByteKey) : List ByteKey :=
  (logs.entries.filter fun e => e.1 < endKey).filterMap fun e => (c.readRecord e.2).map fun record =>
    indexKey (name record) e.1

namespace AuditDb

def empty : AuditDb := ⟨OrderedMap.empty, OrderedMap.empty, OrderedMap.empty⟩

def flushBatch (c : AuditCrates) (db : AuditDb) (records : List (UInt64 × AuditRecord)) : AuditDb where
  logs := S3.flushBatch c db.logs records
  idxUser := db.idxUser.putAll (records.map (indexEntry AuditRecord.userId))
  idxResource := db.idxResource.putAll (records.map (indexEntry AuditRecord.bucketName))

def cleanupOldLogs (c : AuditCrates) (db : AuditDb) (cutoffMs : Int64) : AuditDb :=
  let endKey : ByteKey := ⟨0x3A :: beBytes 8 cutoffMs.toUInt64.toNat⟩
  { logs := S3.cleanupOldLogs db.logs cutoffMs
    idxUser := db.idxUser.deleteAll (expired c AuditRecord.userId db.logs endKey)
    idxResource := db.idxResource.deleteAll (expired c AuditRecord.bucketName db.logs endKey) }

end AuditDb

inductive AuditCall
  | flushBatch (records : List (UInt64 × AuditRecord))
  | cleanupOldLogs (cutoffMs : Int64)

def AuditCall.records : AuditCall → List (UInt64 × AuditRecord)
  | .flushBatch records => records
  | .cleanupOldLogs _ => []

def AuditDb.call (c : AuditCrates) (db : AuditDb) : AuditCall → AuditDb
  | .flushBatch records => db.flushBatch c records
  | .cleanupOldLogs cutoffMs => db.cleanupOldLogs c cutoffMs

def AuditDb.run (c : AuditCrates) (db : AuditDb) (calls : List AuditCall) : AuditDb := calls.foldl (call c) db

/-- The database holds these records, in the order of their keys, and one entry for each in both indexes. -/
structure AuditDb.Indexed (c : AuditCrates) (db : AuditDb) (records : List (UInt64 × AuditRecord)) : Prop where
  logs : db.logs.entries = records.map (logEntry c)
  user : db.idxUser.entries.Perm (records.map (indexEntry AuditRecord.userId))
  resource : db.idxResource.entries.Perm (records.map (indexEntry AuditRecord.bucketName))

/-- No request id occurs twice, and all have one length. -/
structure Identified (length : Nat) (records : List (UInt64 × AuditRecord)) : Prop where
  distinct : (records.map fun p => p.2.requestId).Nodup
  fixed : ∀ p ∈ records, (utf8 p.2.requestId).length = length

variable {c : AuditCrates} {db : AuditDb} {length : Nat} {records new : List (UInt64 × AuditRecord)}
  {name : AuditRecord → Text}

section

variable (h : Identified length records)
include h

private theorem Identified.of_perm (hpr : new.Perm records) : Identified length new :=
  ⟨(hpr.map _).nodup_iff.2 h.distinct, fun p hp => h.fixed p (hpr.mem_iff.1 hp)⟩

private theorem Identified.of_sublist (hsub : new.Sublist records) : Identified length new :=
  ⟨h.distinct.sublist (hsub.map _), fun p hp => h.fixed p (hsub.subset hp)⟩

theorem Identified.eq_of_indexKey {p q : UInt64 × AuditRecord} (hp : p ∈ records) (hq : q ∈ records)
    (heq : (indexEntry name p).1 = (indexEntry name q).1) : p = q := by
  have hl : ∀ p ∈ records, (0x3A :: (recordKey p.1 p.2.requestId).bytes).length = length + 11 := by
    intro p hp
    simp only [recordKey, length_cons, length_append, length_beBytes, h.fixed p hp]
    omega
  have he := append_inj_right' (congrArg ByteKey.bytes heq) ((hl p hp).trans (hl q hq).symm)
  have hk : recordKey p.1 p.2.requestId = recordKey q.1 q.2.requestId := congrArg ByteKey.mk (cons.inj he).2
  exact inj_on_of_nodup_map h.distinct hp hq (requestId_of_recordKey hk)

private theorem Identified.nodup_indexKeys : (records.map fun p => (indexEntry name p).1).Nodup :=
  Nodup.map_on (fun _ hp _ hq heq => h.eq_of_indexKey hp hq heq) (h.distinct.of_map _)

private theorem Identified.nodup_recordKeys : (records.map fun p => (logEntry c p).1).Nodup :=
  Nodup.map_on (fun _ hp _ hq heq => inj_on_of_nodup_map h.distinct hp hq (requestId_of_recordKey heq))
    (h.distinct.of_map _)

end

private theorem Indexed.empty : AuditDb.empty.Indexed c [] := ⟨rfl, Perm.refl _, Perm.refl _⟩

private theorem AuditDb.Indexed.flushBatch (h : db.Indexed c records) (hi : Identified length (records ++ new)) :
    ∃ records', records'.Perm (records ++ new) ∧ (db.flushBatch c new).Indexed c records' := by
  have hl : (S3.flushBatch c db.logs new).entries.Perm ((records ++ new).map (logEntry c)) :=
    perm_putAll_map (h.logs ▸ Perm.refl _) hi.nodup_recordKeys
  obtain ⟨records', hp, heq⟩ := exists_perm_of_perm_map hl
  refine ⟨records', hp, heq, ?_, ?_⟩
  · exact (perm_putAll_map h.user hi.nodup_indexKeys).trans (hp.map _).symm
  · exact (perm_putAll_map h.resource hi.nodup_indexKeys).trans (hp.map _).symm

theorem recordKey_lt_cutoff {t : UInt64} {i : Text} {n : Nat} (hn : n < 2 ^ 64) :
    recordKey t i < ⟨0x3A :: beBytes 8 n⟩ ↔ t.toNat < n := by
  have ht : t.toNat % 256 ^ 8 = t.toNat := Nat.mod_eq_of_lt t.toNat_lt
  have hn' : n % 256 ^ 8 = n := Nat.mod_eq_of_lt hn
  have hnm : ByteKey.numbers ⟨0x3A :: beBytes 8 n⟩ = 0x3A :: ((beBytes 8 n).map UInt8.toNat ++ []) := by
    simp [ByteKey.numbers]
  rw [ByteKey.lt_iff, numbers_recordKey, hnm, cons_lt_cons_iff, beBytes_append_lt_iff, ht, hn']
  simp

theorem toNat_toUInt64 (x : Int64) : (x.toUInt64.toNat : Int) = x.toInt % 2 ^ 64 := by
  have hlt : x.toUInt64.toNat < 2 ^ 64 := x.toUInt64.toNat_lt
  have hc :
    x.toInt = if 2 * x.toUInt64.toNat < 2 ^ 64 then
      (x.toUInt64.toNat : Int) else x.toUInt64.toNat - (2 ^ 64 : Nat) :=
    x.toBitVec.toInt_eq_toNat_cond
  rw [hc]
  split_ifs <;> omega

private theorem toNat_toUInt64_of_nonneg {x : Int64} (h : 0 ≤ x) : (x.toUInt64.toNat : Int) = x.toInt := by
  rw [toNat_toUInt64, Int.emod_eq_of_lt (Int64.le_iff_toInt_le.1 h) (x.toInt_lt.trans (by decide))]

def kept (cutoff : UInt64) (records : List (UInt64 × AuditRecord)) : List (UInt64 × AuditRecord) :=
  records.filter fun p => cutoff ≤ p.1

variable {logs : LogsCf}

private theorem entries_cleanup (h : logs.entries = records.map (logEntry c)) (cutoffMs : Int64) :
    (cleanupOldLogs logs cutoffMs).entries = (kept cutoffMs.toUInt64 records).map (logEntry c) := by
  have he : (cleanupOldLogs logs cutoffMs).entries = logs.entries.filter _ := rfl
  rw [he, h, filter_map, kept]
  congr 1
  refine filter_congr fun p _ => decide_eq_decide.2 ?_
  have hl := colon_le_recordKey p.1 p.2.requestId
  rw [show (logEntry c p).1 = recordKey p.1 p.2.requestId from rfl, recordKey_lt_cutoff (UInt64.toNat_lt _),
    not_and, not_lt,
    UInt64.le_iff_toNat_le]
  exact ⟨fun hle => hle hl, fun hle _ => hle⟩

theorem mem_expired (hl : c.Lawful) (h : logs.entries = records.map (logEntry c)) (cutoff : UInt64) {k : ByteKey} :
    k ∈ expired c name logs ⟨0x3A :: beBytes 8 cutoff.toNat⟩ ↔
      ∃ p ∈ records, p.1 < cutoff ∧ k = (indexEntry name p).1 := by
  rw [expired, h, filter_map, filterMap_map, mem_filterMap]
  constructor
  · rintro ⟨p, hp, hk⟩
    obtain ⟨hmem, hlt⟩ := mem_filter.1 hp
    have hr : c.readRecord (logEntry c p).2 = some p.2 := hl p.2
    rw [Function.comp_apply, hr] at hk
    cases hk
    exact ⟨p, hmem, UInt64.lt_iff_toNat_lt.2 ((recordKey_lt_cutoff cutoff.toNat_lt).1 (of_decide_eq_true hlt)),
      rfl⟩
  · rintro ⟨p, hp, hlt, rfl⟩
    refine ⟨p, mem_filter.2
      ⟨hp, decide_eq_true ((recordKey_lt_cutoff cutoff.toNat_lt).2 (UInt64.lt_iff_toNat_lt.1 hlt))⟩, ?_⟩
    have hr : c.readRecord (logEntry c p).2 = some p.2 := hl p.2
    rw [Function.comp_apply, hr]
    rfl

theorem perm_deleteExpired (hlaw : c.Lawful) (hi : Identified length records) {idx : OrderedMap ByteKey ByteKey}
    (hl : logs.entries = records.map (logEntry c)) (hidx : idx.entries.Perm (records.map (indexEntry name)))
    (cutoff : UInt64) :
    (idx.deleteAll (expired c name logs ⟨0x3A :: beBytes 8 cutoff.toNat⟩)).entries.Perm
      ((kept cutoff records).map (indexEntry name)) := by
  refine (hidx.filter _).trans ?_
  rw [filter_map, kept]
  refine Perm.map _ (Perm.of_eq (filter_congr fun p hp => decide_eq_decide.2 ?_))
  rw [mem_expired hlaw hl, ← UInt64.not_lt]
  refine not_congr ⟨?_, fun hlt => ⟨p, hp, hlt, rfl⟩⟩
  rintro ⟨q, hq, hlt, heq⟩
  exact hi.eq_of_indexKey hp hq heq ▸ hlt

theorem AuditDb.Indexed.cleanupOldLogs (hl : c.Lawful) (h : db.Indexed c records) (hi : Identified length records)
    (cutoffMs : Int64) : (db.cleanupOldLogs c cutoffMs).Indexed c (kept cutoffMs.toUInt64 records) :=
  ⟨entries_cleanup h.logs cutoffMs, perm_deleteExpired hl hi h.logs h.user _,
    perm_deleteExpired hl hi h.logs h.resource _⟩

private theorem AuditDb.Indexed.run (hl : c.Lawful) {calls : List AuditCall} (h : db.Indexed c records)
    (hi : Identified length (records ++ calls.flatMap AuditCall.records)) :
    ∃ records', (db.run c calls).Indexed c records' ∧ Identified length records' ∧
      records' ⊆ records ++ calls.flatMap AuditCall.records := by
  induction calls generalizing db records with
  | nil => exact ⟨records, h, hi.of_sublist (sublist_append_left _ _), subset_append_left _ _⟩
  | cons call calls ih =>
    cases call with
    | flushBatch new =>
      rw [flatMap_cons, ← append_assoc] at hi
      obtain ⟨records', hpr, h'⟩ := h.flushBatch (hi.of_sublist (sublist_append_left _ _))
      rw [flatMap_cons, ← append_assoc]
      obtain ⟨final, hf, hi', hsub⟩ := ih h' (hi.of_perm (hpr.append_right _))
      exact ⟨final, hf, hi', fun p hp => (hpr.append_right _).subset (hsub hp)⟩
    | cleanupOldLogs cutoffMs =>
      have hk : (kept cutoffMs.toUInt64 records ++ calls.flatMap AuditCall.records).Sublist _ :=
        filter_sublist.append (Sublist.refl _)
      obtain ⟨final, hf, hi', hsub⟩ :=
        ih (h.cleanupOldLogs hl (hi.of_sublist (sublist_append_left _ _)) cutoffMs) (hi.of_sublist hk)
      exact ⟨final, hf, hi', fun p hp => hk.subset (hsub hp)⟩

/-- After any calls the indexes have the records of the log, and a cleanup leaves exactly the records from its
cutoff on. -/
theorem indexes_match_log (hlaw : c.Lawful) (calls : List AuditCall)
    (hids : Identified length (calls.flatMap AuditCall.records)) :
    ∃ records, (AuditDb.empty.run c calls).Indexed c records ∧ ∀ cutoffMs : Int64, 0 ≤ cutoffMs →
      ((AuditDb.empty.run c calls).cleanupOldLogs c cutoffMs).Indexed c
        (records.filter fun p => cutoffMs.toInt ≤ p.1.toNat) := by
  obtain ⟨records, h, hids', -⟩ := Indexed.empty.run hlaw hids
  refine ⟨records, h, fun cutoffMs hpos => ?_⟩
  have hkept : kept cutoffMs.toUInt64 records = records.filter fun p => cutoffMs.toInt ≤ p.1.toNat := by
    refine filter_congr fun p _ => decide_eq_decide.2 ?_
    rw [UInt64.le_iff_toNat_le, ← toNat_toUInt64_of_nonneg hpos, Int.ofNat_le]
  exact hkept ▸ h.cleanupOldLogs hlaw hids' cutoffMs

/-- Two batches, and a cleanup between them that takes away the first one. -/
theorem indexes_match_log_two : Identified 4 [(1773396000000, firstRequest), (1773399600000, laterRequest)] ∧
    ∃ records,
      (AuditDb.empty.run loggedCrates [.flushBatch [(1773396000000, firstRequest)], .cleanupOldLogs 1773399600000,
      .flushBatch [(1773399600000, laterRequest)]]).Indexed loggedCrates records := by
  have hids : Identified 4 [(1773396000000, firstRequest), (1773399600000, laterRequest)] := ⟨by decide, by decide⟩
  refine ⟨hids, ?_⟩
  obtain ⟨records, h, -⟩ :=
    indexes_match_log (c := loggedCrates) loggedCrates_lawful [.flushBatch [(1773396000000, firstRequest)],
    .cleanupOldLogs 1773399600000, .flushBatch [(1773399600000, laterRequest)]] hids
  exact ⟨records, h⟩

/-! ### Retention

Instants are counted in nanoseconds since 1970. -/

def minUtc : Int := -8334601228800 * 10 ^ 9

def maxUtc : Int := 8210266876800 * 10 ^ 9 - 1

def retention (retentionDays : UInt32) : Int := retentionDays.toNat * (86400 * 10 ^ 9)

/-- `Utc::now() - Duration::days(..)` panics if there is no such instant. -/
def cutoff? (now : Int) (retentionDays : UInt32) : Option Int64 :=
  if minUtc ≤ now - retention retentionDays then some (.ofInt ((now - retention retentionDays) / 10 ^ 6)) else none

def AuditDb.cleanup (c : AuditCrates) (db : AuditDb) (now : Int) (retentionDays : UInt32) : Option AuditDb :=
  (cutoff? now retentionDays).map (db.cleanupOldLogs c)

def Young (now : Int) (retentionDays : UInt32) (t : UInt64) : Prop :=
  now - t.toNat * 10 ^ 6 < retention retentionDays

private theorem mem_cleanupOldLogs {cutoffMs : Int64} {t : UInt64} {i : Text} {v : Bytes}
    (h : (recordKey t i, v) ∈ logs.entries) :
    (recordKey t i, v) ∈ (cleanupOldLogs logs cutoffMs).entries ↔ cutoffMs.toInt % 2 ^ 64 ≤ t.toNat := by
  have hl := colon_le_recordKey t i
  have he : (cleanupOldLogs logs cutoffMs).entries = logs.entries.filter _ := rfl
  rw [he, mem_filter, decide_eq_true_iff, recordKey_lt_cutoff (UInt64.toNat_lt _), ← toNat_toUInt64, Int.ofNat_le]
  constructor
  · exact fun hk => not_lt.1 fun hlt => hk.2 ⟨hl, hlt⟩
  · exact fun hle => ⟨h, fun hlt => not_lt.2 hle hlt.2⟩

/-- A cleanup does not panic and keeps the young records of every log exactly if the retention does not reach back
before 1970. -/
theorem retention_keeps_young_iff (c : AuditCrates) {now : Int} (hnow : 0 ≤ now) (hmax : now ≤ maxUtc)
    (retentionDays : UInt32) :
    (∀ db : AuditDb, ∃ db', db.cleanup c now retentionDays = some db' ∧
      ∀ t i v, (recordKey t i, v) ∈ db.logs.entries →
        Young now retentionDays t → (recordKey t i, v) ∈ db'.logs.entries) ↔
      retention retentionDays ≤ now := by
  obtain ⟨cutoff, hcutoff⟩ : ∃ cutoff, cutoff = now - retention retentionDays := ⟨_, rfl⟩
  have hdays : 0 ≤ retention retentionDays := by
    unfold retention
    omega
  have hmod : minUtc ≤ cutoff → (Int64.ofInt (cutoff / 10 ^ 6)).toInt = cutoff / 10 ^ 6 := by
    intro hmin
    unfold minUtc at hmin
    unfold maxUtc at hmax
    exact Int64.toInt_ofInt_of_le (by omega) (by omega)
  unfold AuditDb.cleanup cutoff?
  rw [← hcutoff]
  constructor
  · intro h
    by_contra hlt
    -- a log with one record of 1970
    obtain ⟨db', hdb', hkeeps⟩ := h { AuditDb.empty with logs := OrderedMap.empty.put (recordKey 0 [], []) }
    split_ifs at hdb' with hmin
    · cases hdb'
      have hyoung : Young now retentionDays 0 := by
        show now - (0 : Nat) * 10 ^ 6 < _
        omega
      have hkept := (mem_cleanupOldLogs (mem_singleton_self _)).1 (hkeeps 0 [] [] (mem_singleton_self _) hyoung)
      rw [hmod hmin] at hkept
      unfold minUtc at hmin
      have hzero : ((0 : UInt64).toNat : Int) = 0 := rfl
      omega
    · cases hdb'
  · intro hle db
    have hmin : minUtc ≤ cutoff := by
      unfold minUtc
      omega
    rw [if_pos hmin]
    refine ⟨_, rfl, fun t i v hmem hyoung => (mem_cleanupOldLogs hmem).2 ?_⟩
    unfold Young at hyoung
    rw [hmod hmin, Int.emod_eq_of_lt (by omega) (by unfold maxUtc at hmax; omega)]
    omega

def cleanupTime : Int := 1773396000000 * 10 ^ 6

theorem retention_keeps_young_ninety : retention 90 ≤ cleanupTime ∧
    ∀ db : AuditDb, ∃ db', db.cleanup loggedCrates cleanupTime 90 = some db' ∧
      ∀ t i v, (recordKey t i, v) ∈ db.logs.entries → Young cleanupTime 90 t →
        (recordKey t i, v) ∈ db'.logs.entries :=
  ⟨by decide, (retention_keeps_young_iff loggedCrates (by decide) (by decide) 90).2 (by decide)⟩

/-- A record of this moment is deleted when records are to be kept for a hundred years, and a larger number of days
panics. -/
theorem young_record_deleted : Young cleanupTime 36500 1773396000000 ∧
    ((AuditDb.empty.flushBatch loggedCrates [(1773396000000, firstRequest)]).cleanup loggedCrates
      cleanupTime 36500).map
      (fun db => db.logs.entries) = some [] ∧
    AuditDb.empty.cleanup loggedCrates cleanupTime 4294967295 = none := by
  refine ⟨show _ < _ by decide, ?_, ?_⟩
  · decide +kernel
  · rw [AuditDb.cleanup, cutoff?, if_neg (by decide)]
    rfl

end RustHadoop.S3
