import RustHadoop.S3.AuditOrder

/-!
# Tampering with the audit log

Every record that a logger seals is chained to the record sealed before it: the one before it in its batch, the
last one of the batch written before, or, after a restart, the last one in the database.  If a database with
whatever contents verifies, and nobody but the logger can seal records, then each of its records was chained to the
one before it.
-/

namespace RustHadoop.S3

open Texts Ordered AuditLogger OrderedMap AuditRecord AuditEvent List

variable {p : Option AuditRecord × AuditRecord} {c : AuditCrates} {secret : Text} {config : AuditConfig}

/-- The records that are sealed at the event, in the order of the batch, whether they are written or lost. -/
def AuditEvent.sealedRecords (c : AuditCrates) (config : AuditConfig) (s : AuditLogger) (e : AuditEvent) :
    List AuditRecord :=
  (s.chained c config (e.batch config s)).keyedRecords.map Prod.snd

/-- Every record with the one it is chained to. -/
def chainedTo : Option AuditRecord → List AuditRecord → List (Option AuditRecord × AuditRecord)
  | _, [] => []
  | before, r :: rest => (before, r) :: chainedTo (some r) rest

def lastRecord? (c : AuditCrates) (db : LogsCf) : Option AuditRecord :=
  db.entries.getLast?.bind fun e => c.readRecord e.2

def lastWritten (success : Bool) (sealed : List AuditRecord) (last : Option AuditRecord) : Option AuditRecord :=
  if success then sealed.getLast?.or last else last

/-- The record whose hash the worker keeps after the event. -/
def AuditEvent.lastSealed (c : AuditCrates) (config : AuditConfig) (s : AuditLogger) (last : Option AuditRecord)
    (e : AuditEvent) : Option AuditRecord :=
  match e with
  | .recv _ _ => lastWritten e.success (e.sealedRecords c config s) last
  | .tick _ => lastWritten e.success (e.sealedRecords c config s) last
  | .shutdown _ _ => lastRecord? c (s.step c config e).db
  | .crash => lastRecord? c s.db
  | .cleanup _ => last

/-- Everything that the logger sealed in a run, each record with the one it was chained to. -/
def loggerChain (c : AuditCrates) (config : AuditConfig) :
    AuditLogger → Option AuditRecord → List AuditEvent → List (Option AuditRecord × AuditRecord)
  | _, _, [] => []
  | s, last, e :: events =>
    chainedTo last (e.sealedRecords c config s) ++
      loggerChain c config (s.step c config e) (e.lastSealed c config s last) events

/-- The worker's hash is that of the last sealed record, and the database holds sealed records. -/
structure Faithful (c : AuditCrates) (secret : Text) (s : AuditLogger) (last : Option AuditRecord) : Prop where
  hash : s.worker.committedLastHash = last.bind recordHash
  last : ∀ r ∈ last, Sealed c secret r
  stored : ∀ e ∈ s.db.entries, ∃ r, e.2 = c.printRecord r ∧ Sealed c secret r

variable {s : AuditLogger} {last : Option AuditRecord}

theorem mem_chainedTo {before : Option AuditRecord} {l : List AuditRecord} (hs : ∀ r ∈ l, Sealed c secret r)
    (hl : l.IsChain Links) (hb : ∀ r ∈ before, Sealed c secret r)
    (hf : ∀ r ∈ l.head?, r.previousHash = before.bind recordHash)
    (hp : p ∈ chainedTo before l) : p.2.previousHash = p.1.bind recordHash ∧ ∀ r ∈ p.1, Sealed c secret r := by
  induction l generalizing before with
  | nil => cases hp
  | cons r rest ih =>
    obtain ⟨hr, hrs⟩ := forall_mem_cons.1 hs
    obtain ⟨hln, hl⟩ := isChain_cons.1 hl
    rcases mem_cons.1 hp with rfl | hp
    · exact ⟨hf r rfl, hb⟩
    · have ho : ∀ a ∈ some r, Sealed c secret a := by
        intro a ha
        cases ha
        exact hr
      exact ih hrs hl ho hln hp

private theorem mem_sealedRecords {e : AuditEvent} (h : Faithful c config.hmacSecret s last)
    (hp : p ∈ chainedTo last (e.sealedRecords c config s)) :
    p.2.previousHash = p.1.bind recordHash ∧ ∀ r ∈ p.1, Sealed c config.hmacSecret r := by
  obtain ⟨hs, hl, hh, -, -⟩ := chainRecords_spec c config.hmacSecret s.worker.committedLastHash
    s.worker.globalLastTsMs (sortRecords (e.batch config s))
  refine mem_chainedTo (fun r hr => ?_) hl h.last (fun r hr => ?_) hp
  · obtain ⟨q, hq, rfl⟩ := mem_map.1 hr
    exact hs q hq
  · rw [head?_map] at hr
    obtain ⟨q, hq, rfl⟩ := Option.map_eq_some_iff.1 hr
    rw [← h.hash]
    exact hh q hq

theorem sealedRecords_nil {e : AuditEvent} (h : e.batch config s = []) : e.sealedRecords c config s = [] := by
  rw [sealedRecords, h]
  rfl

theorem faithful_flush (h : Faithful c config.hmacSecret s last) (success : Bool) (records : List AuditRecord) :
    Faithful c config.hmacSecret (s.flush c config success records)
      (lastWritten success ((s.chained c config records).keyedRecords.map Prod.snd) last) := by
  cases success with
  | false => exact ⟨h.hash, h.last, h.stored⟩
  | true =>
    obtain ⟨hs, -, -, hl, -⟩ := chainRecords_spec c config.hmacSecret s.worker.committedLastHash
      s.worker.globalLastTsMs (sortRecords records)
    have hmem : ∀ p ∈ (s.chained c config records).keyedRecords, Sealed c config.hmacSecret p.2 := hs
    have ht : (s.chained c config records).tempHash =
        ((s.chained c config records).keyedRecords.getLast?.map fun p => p.2.recordHash).getD
          s.worker.committedLastHash := hl
    rw [lastWritten, if_pos rfl, getLast?_map]
    rcases hg : (s.chained c config records).keyedRecords.getLast? with _ | q
    · refine ⟨?_, h.last, ?_⟩
      · rw [hg] at ht
        exact ht.trans h.hash
      · rw [getLast?_eq_none_iff] at hg
        intro e he
        rcases mem_or_mem_of_mem_putAll he with he | he
        · exact h.stored e he
        · rw [hg] at he
          cases he
    · refine ⟨?_, ?_, ?_⟩
      · rw [hg] at ht
        exact ht
      · intro r hr
        cases hr
        exact hmem q (mem_of_mem_getLast? hg)
      · intro e he
        rcases mem_or_mem_of_mem_putAll he with he | he
        · exact h.stored e he
        · obtain ⟨p, hp, rfl⟩ := mem_map.1 he
          exact ⟨p.2, rfl, hmem p hp⟩

private theorem faithful_new (hlaw : c.Lawful) {db : LogsCf}
    (h : ∀ e ∈ db.entries, ∃ r, e.2 = c.printRecord r ∧ Sealed c secret r) :
    Faithful c secret (new c db) (lastRecord? c db) := by
  refine ⟨?_, ?_, h⟩
  · rw [new, recoveredWorker, lastRecord?]
    split
    · rename_i last hl
      rw [hl]
      rfl
    · rename_i hn
      rw [hn]
      rfl
  · intro r hr
    obtain ⟨e, he, hrd⟩ := Option.bind_eq_some_iff.1 hr
    obtain ⟨r', hp, hs⟩ := h e (mem_of_mem_getLast? he)
    rw [hp, hlaw] at hrd
    cases hrd
    exact hs

section

variable (hlaw : c.Lawful) (h : Faithful c config.hmacSecret s last)
include hlaw h

private theorem faithful_step (e : AuditEvent) :
    Faithful c config.hmacSecret (s.step c config e) (e.lastSealed c config s last) := by
  -- without a batch the last sealed record stays
  have hs : e.batch config s = [] → lastWritten e.success (e.sealedRecords c config s) last = last := by
    intro hnil
    rw [sealedRecords_nil hnil, lastWritten]
    split <;> rfl
  cases e with
  | recv record attempts =>
    rw [lastSealed, step]
    by_cases hf : config.batchSize ≤ (s.worker.batchBuffer ++ [record]).length
    · have hbt : (recv record attempts).batch config s = s.worker.batchBuffer ++ [record] := if_pos hf
      rw [if_pos hf, sealedRecords, hbt]
      exact faithful_flush h _ _
    · rw [if_neg hf, hs (if_neg hf)]
      exact ⟨h.hash, h.last, h.stored⟩
  | tick attempts =>
    rw [lastSealed, step]
    by_cases hb : s.worker.batchBuffer = []
    · rw [if_neg (not_not.2 hb), hs hb]
      exact h
    · rw [if_pos hb]
      exact faithful_flush h _ _
  | shutdown rest attempts =>
    refine faithful_new hlaw ?_
    split_ifs
    · exact (faithful_flush h _ _).stored
    · exact h.stored
  | crash => exact faithful_new hlaw h.stored
  | cleanup cutoffMs => exact ⟨h.hash, h.last, fun e he => h.stored e (mem_of_mem_filter he)⟩

private theorem mem_loggerChain {events : List AuditEvent} (hp : p ∈ loggerChain c config s last events) :
    p.2.previousHash = p.1.bind recordHash ∧ ∀ r ∈ p.1, Sealed c config.hmacSecret r := by
  induction events generalizing s last with
  | nil => cases hp
  | cons e events ih =>
    rcases mem_append.1 hp with hp | hp
    · exact mem_sealedRecords h hp
    · exact ih (faithful_step hlaw h e) hp

end

/-- Without collisions, if every sealed record of a database comes from the logger, then a database that verifies
is a run of the logger's chain: each record was chained to the one before it. -/
theorem tampering_evident (hlaw : c.Lawful) (hcollision : Function.Injective (c.hmac (utf8 config.hmacSecret)))
    (events : List AuditEvent) (db : LogsCf)
    (hunforged : ∀ e ∈ db.entries, ∀ r, c.readRecord e.2 = some r → Sealed c config.hmacSecret r →
      ∃ before, (before, r) ∈ loggerChain c config (new c empty) none events) {n : Nat}
    (hverified : verifyChain c config.hmacSecret db = .ok n) :
    ∃ records : List AuditRecord, db.entries.map (fun e => c.readRecord e.2) = records.map some ∧
      records.length = n ∧
      (∀ r ∈ records, ∃ before, (before, r) ∈ loggerChain c config (new c empty) none events) ∧
      records.IsChain fun a b => (some a, b) ∈ loggerChain c config (new c empty) none events := by
  have hstart : Faithful c config.hmacSecret (new c empty) none :=
    ⟨rfl, (fun r hr => nomatch hr), fun e he => nomatch he⟩
  rw [verifyChain, verifyFrom_eq_ok_iff, map_map] at hverified
  obtain ⟨records, hread, hn, hsealed, -, hlinked⟩ := hverified
  have hmade : ∀ r ∈ records, ∃ before, (before, r) ∈ loggerChain c config (new c empty) none events := by
    intro r hr
    have hsome : some r ∈ db.entries.map (c.readRecord ∘ Prod.snd) := hread ▸ mem_map_of_mem hr
    obtain ⟨e, he, her⟩ := mem_map.1 hsome
    exact hunforged e he r her (hsealed r hr)
  refine ⟨records, hread, by omega, hmade, ?_⟩
  refine hlinked.imp_of_mem_imp fun a b ha hb hlink => ?_
  obtain ⟨before, hbefore⟩ := hmade b hb
  obtain ⟨hprevious, hbeforeSealed⟩ := mem_loggerChain hlaw hstart hbefore
  -- `b` names the hash of the record it was chained to, and that of `a`
  have hhash : before.bind recordHash = a.recordHash := hprevious.symm.trans hlink
  rcases before with _ | p
  · rw [hsealed a ha] at hhash
    cases hhash
  · rwa [eq_of_recordHash_eq hlaw hcollision (hbeforeSealed p rfl) (hsealed a ha) hhash] at hbefore

def twoRequests : List AuditEvent := [.recv firstRequest [true], .recv laterRequest [true]]

def sealedFirst : AuditRecord :=
  { firstRequest with recordHash := some (computeHmac loggedCrates firstRequest "secret") }

def linkedLater : AuditRecord := { laterRequest with previousHash := sealedFirst.recordHash }

def sealedLater : AuditRecord :=
  { linkedLater with recordHash := some (computeHmac loggedCrates linkedLater "secret") }

def rekeyedLogs : LogsCf :=
  ⟨[(⟨[1]⟩, loggedCrates.printRecord sealedFirst), (⟨[2]⟩, loggedCrates.printRecord sealedLater)],
    pairwise_pair.2 (by decide : (⟨[1]⟩ : ByteKey) < ⟨[2]⟩)⟩

theorem tampering_evident_rekeyed : verifyChain loggedCrates singleBatches.hmacSecret rekeyedLogs = .ok 2 ∧
    ∃ records : List AuditRecord, rekeyedLogs.entries.map
      (fun e => loggedCrates.readRecord e.2) = records.map some ∧
      records.length = 2 ∧
      (∀ r ∈ records, ∃ before,
        (before, r) ∈ loggerChain loggedCrates singleBatches (new loggedCrates empty) none twoRequests) ∧
      records.IsChain fun a b =>
        (some a, b) ∈ loggerChain loggedCrates singleBatches (new loggedCrates empty) none twoRequests := by
  have hchain : loggerChain loggedCrates singleBatches (new loggedCrates empty) none twoRequests =
      [(none, sealedFirst), (some sealedFirst, sealedLater)] := rfl
  have hread :
      rekeyedLogs.entries.map (fun e => loggedCrates.readRecord e.2) = [sealedFirst, sealedLater].map some := by
    simp only [rekeyedLogs, map_cons, map_nil, loggedCrates_lawful sealedFirst, loggedCrates_lawful sealedLater]
  have hverified : verifyChain loggedCrates singleBatches.hmacSecret rekeyedLogs = .ok 2 := by
    rw [verifyChain, verifyFrom_eq_ok_iff, map_map]
    refine ⟨[sealedFirst, sealedLater], hread, rfl, ?_, fun h => absurd h (Nat.lt_irrefl 0), ?_⟩
    · exact forall_mem_cons.2 ⟨rfl, forall_mem_singleton.2 rfl⟩
    · exact isChain_pair.2 rfl
  refine ⟨hverified, tampering_evident loggedCrates_lawful loggedCrates_collision twoRequests rekeyedLogs
    ?_ hverified⟩
  intro e he r hr _
  have hmem : some r ∈ [sealedFirst, sealedLater].map some := hread ▸ hr ▸ mem_map_of_mem he
  rw [hchain]
  obtain rfl | rfl : r = sealedFirst ∨ r = sealedLater := by simpa using hmem
  · exact ⟨none, mem_cons_self⟩
  · exact ⟨some sealedFirst, mem_cons_of_mem _ mem_cons_self⟩

end RustHadoop.S3
