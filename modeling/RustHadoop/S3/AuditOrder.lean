import RustHadoop.S3.Audit

/-!
# Verification of an untampered audit log

The chain of a log is in the order of flushes, and sorted inside of every batch; verification reads the records in
the order of their keys.  A log verifies at every moment of a run exactly if the two orders agree: at every flush
the keys of the batch, in the order of the chain, ascend above all keys that are in the database.

Timestamps of keys do not go back while a logger runs, but they can stand still, and then the request ids decide.
A restarted logger takes the last record's own timestamp, which may be below that of its key.
-/

namespace RustHadoop.S3

open Texts Ordered AuditLogger OrderedMap AuditEvent AuditRecord List

variable {c : AuditCrates} {secret : Text} {config : AuditConfig}

theorem numbers_recordKey (t : UInt64) (i : Text) :
    (recordKey t i).numbers = 0x3A ::
    ((beBytes 8 t.toNat).map UInt8.toNat ++ 0x3A :: (ByteKey.mk (utf8 i)).numbers) := by
  simp [recordKey, ByteKey.numbers]

private theorem recordKey_lt_iff {t t' : UInt64} {i i' : Text} :
    recordKey t i < recordKey t' i' ↔ t < t' ∨ t = t' ∧ ByteKey.mk (utf8 i) < ByteKey.mk (utf8 i') := by
  have ht : t.toNat % 256 ^ 8 = t.toNat := Nat.mod_eq_of_lt t.toNat_lt
  have ht' : t'.toNat % 256 ^ 8 = t'.toNat := Nat.mod_eq_of_lt t'.toNat_lt
  rw [ByteKey.lt_iff, numbers_recordKey, numbers_recordKey, cons_lt_cons_iff, beBytes_append_lt_iff, ht, ht',
    cons_lt_cons_iff, UInt64.toNat_inj, ← UInt64.lt_iff_toNat_lt]
  simp [ByteKey.lt_iff]

theorem requestId_of_recordKey {t t' : UInt64} {i i' : Text} (h : recordKey t i = recordKey t' i') : i = i' := by
  have hb := (cons.inj (congrArg ByteKey.bytes h)).2
  have hr := append_inj_right hb (by rw [length_beBytes, length_beBytes])
  have hid := congrArg utf8? (cons.inj hr).2
  rw [utf8?_utf8, utf8?_utf8] at hid
  exact Option.some.inj hid

theorem colon_le_recordKey (t : UInt64) (i : Text) : (⟨[0x3A]⟩ : ByteKey) ≤ recordKey t i := by
  refine not_lt.1 fun h => ?_
  rw [ByteKey.lt_iff, numbers_recordKey] at h
  rcases cons_lt_cons_iff.1 h with h | ⟨-, h⟩
  · exact lt_irrefl _ h
  · exact not_lt_nil _ h

/-! ### The chain of a log

`gone` are the records that a cleanup has deleted, `stored` those of the database, both in the order of the chain.
-/

def Known (gone : List (UInt64 × AuditRecord)) (hash : Option Text) : Prop :=
  hash = none ∨ ∃ p ∈ gone, hash = p.2.recordHash

private theorem Known.append {gone : List (UInt64 × AuditRecord)} {hash : Option Text} (h : Known gone hash)
    (more : List (UInt64 × AuditRecord)) : Known (gone ++ more) hash := by
  rcases h with h | ⟨p, hp, h⟩
  · exact .inl h
  · exact .inr ⟨p, mem_append_left _ hp, h⟩

structure LogChain (c : AuditCrates) (secret : Text) (gone stored : List (UInt64 × AuditRecord))
    (lastHash : Option Text) :
    Prop where
  sealed : ∀ p ∈ gone ++ stored, Sealed c secret p.2
  linked : (stored.map Prod.snd).IsChain Links
  first : ∀ p ∈ stored.head?, Known gone p.2.previousHash
  last : ∀ p ∈ stored.getLast?, lastHash = p.2.recordHash
  start : stored = [] → Known gone lastHash

variable {gone stored : List (UInt64 × AuditRecord)} {lastHash : Option Text}

theorem LogChain.flushed (h : LogChain c secret gone stored lastHash) (ts : UInt64) (records : List AuditRecord) :
    LogChain c secret gone (stored ++ (chainRecords c secret lastHash ts records).keyedRecords)
      (chainRecords c secret lastHash ts records).tempHash := by
  obtain ⟨hsl, hl, hh, hls, -⟩ := chainRecords_spec c secret lastHash ts records
  constructor
  · intro p hp
    rw [← append_assoc] at hp
    exact (mem_append.1 hp).elim (h.sealed p) (hsl p)
  · rw [map_append]
    refine isChain_append.2 ⟨h.linked, hl, fun a ha b hb => ?_⟩
    rw [getLast?_map] at ha
    rw [head?_map] at hb
    obtain ⟨p, hp, rfl⟩ := Option.map_eq_some_iff.1 ha
    obtain ⟨q, hq, rfl⟩ := Option.map_eq_some_iff.1 hb
    exact (hh q hq).trans (h.last p hp)
  · intro p hp
    rcases hs : stored with _ | ⟨q, rest⟩
    · rw [hs, nil_append] at hp
      rw [hh p hp]
      exact h.start hs
    · rw [hs] at hp
      exact h.first p (by rw [hs]; exact hp)
  · intro p hp
    rw [hls]
    rw [getLast?_append] at hp
    rcases hbt : (chainRecords c secret lastHash ts records).keyedRecords.getLast? with _ | q
    · rw [hbt, Option.none_or] at hp
      exact h.last p hp
    · rw [hbt] at hp
      cases hp
      rfl
  · intro hnil
    obtain ⟨hs, hbt⟩ := append_eq_nil_iff.1 hnil
    rw [hls, hbt]
    exact h.start hs

private theorem LogChain.cleaned {old kept : List (UInt64 × AuditRecord)}
    (h : LogChain c secret gone (old ++ kept) lastHash) : LogChain c secret (gone ++ old) kept lastHash := by
  have hc := h.linked
  rw [map_append, isChain_append] at hc
  obtain ⟨-, hk, hl⟩ := hc
  -- the last of the old records, which is the one before those that are kept
  have hb : ∀ p ∈ old.getLast?, Known (gone ++ old) p.2.recordHash := fun p hp =>
    .inr ⟨p, mem_append_right _ (mem_of_mem_getLast? hp), rfl⟩
  constructor
  · rw [append_assoc]
    exact h.sealed
  · exact hk
  · intro p hp
    rcases ho : old.getLast? with _ | q
    · rw [getLast?_eq_none_iff] at ho
      subst ho
      exact (h.first p hp).append []
    · have hpq : p.2.previousHash = q.2.recordHash :=
        hl q.2 (by rw [getLast?_map, ho]; rfl) p.2 (by rw [head?_map, Option.mem_def.1 hp]; rfl)
      rw [hpq]
      exact hb q ho
  · intro p hp
    exact h.last p (by rw [getLast?_append, Option.mem_def.1 hp]; rfl)
  · rintro rfl
    rw [append_nil] at h
    rcases ho : old.getLast? with _ | q
    · rw [getLast?_eq_none_iff] at ho
      exact (h.start ho).append old
    · rw [h.last q ho]
      exact hb q ho

private theorem LogChain.recovered (hlaw : c.Lawful) (h : LogChain c secret gone stored lastHash) {db : LogsCf}
    (hdb : db.entries = stored.map (logEntry c)) :
    LogChain c secret gone stored (recoveredWorker c db).committedLastHash := by
  have hl : db.entries.getLast?.bind (fun e => c.readRecord e.2) = stored.getLast?.map Prod.snd := by
    rw [hdb, getLast?_map]
    rcases stored.getLast? with _ | p
    · rfl
    · exact hlaw p.2
  refine ⟨h.sealed, h.linked, h.first, fun p hp => ?_, fun hnil => ?_⟩
  · rw [recoveredWorker, hl, Option.mem_def.1 hp]
    rfl
  · rw [recoveredWorker, hl, hnil]
    exact .inl rfl

/-- The keys of the batch, in the order of the chain, ascend above all keys of the database. -/
def AuditLogger.Ascends (c : AuditCrates) (config : AuditConfig) (s : AuditLogger) (records : List AuditRecord) :
    Prop :=
  Ascending (s.db.entries ++ (s.chained c config records).keyedRecords.map (logEntry c))

instance (s : AuditLogger) (records : List AuditRecord) : Decidable (s.Ascends c config records) :=
  inferInstanceAs (Decidable (Ascending _))

def RunAscends (c : AuditCrates) (config : AuditConfig) : AuditLogger → List AuditEvent → Prop
  | _, [] => True
  | s, e :: events => s.Ascends c config (e.batch config s) ∧ RunAscends c config (s.step c config e) events

/-- What holds between two events: the database is the chain in the order of keys.  `later` are the records still
to come. -/
structure Recorded (c : AuditCrates) (config : AuditConfig) (s : AuditLogger)
    (gone stored : List (UInt64 × AuditRecord)) (later : List AuditRecord) : Prop where
  entries : s.db.entries = stored.map (logEntry c)
  chain : LogChain c config.hmacSecret gone stored s.worker.committedLastHash
  distinct : ((gone ++ stored).map (fun p => p.2.requestId) ++ (s.worker.batchBuffer ++ later).map requestId).Nodup

variable {s : AuditLogger} {later : List AuditRecord}

private theorem ascends_nil (s : AuditLogger) : s.Ascends c config [] := by
  rw [Ascends, chained]
  have hnil :
    (chainRecords c config.hmacSecret s.worker.committedLastHash s.worker.globalLastTsMs
      (sortRecords [])).keyedRecords =
    [] := rfl
  rw [hnil, map_nil, append_nil]
  exact s.db.ascending

section

variable {records rest : List AuditRecord} (h : Recorded c config s gone stored later)
  (hrecords : s.worker.batchBuffer ++ later = records ++ rest)
include h hrecords

private theorem distinct_chained :
    ((gone ++ (stored ++ (s.chained c config records).keyedRecords)).map (fun p => p.2.requestId) ++
      rest.map requestId).Nodup := by
  have hi := requestIds_chained c config s records
  have hds := h.distinct
  rw [hrecords, map_append (f := requestId), ← append_assoc] at hds
  rw [← append_assoc, map_append]
  exact (((hi.append_left _).append_right _).nodup_iff).2 hds

private theorem recorded_flush (ha : s.Ascends c config records) :
    Recorded c config (s.flush c config true records) gone
      (stored ++ (s.chained c config records).keyedRecords) rest where
  entries := by
    rw [map_append, ← h.entries]
    exact entries_putAll_of_ascending ha
  chain := h.chain.flushed _ _
  distinct := distinct_chained h hrecords

end

theorem recorded_new (hlaw : c.Lawful) {rest : List AuditRecord} (h : Recorded c config s gone stored later)
    (hr : rest.Sublist (s.worker.batchBuffer ++ later)) : Recorded c config (new c s.db) gone stored rest where
  entries := h.entries
  chain := h.chain.recovered hlaw h.entries
  distinct := by
    have hb : (new c s.db).worker.batchBuffer = [] := by
      rw [new, recoveredWorker]
      split <;> rfl
    rw [hb, nil_append]
    exact h.distinct.sublist ((Sublist.refl _).append (hr.map _))

private theorem recorded_cleanup (h : Recorded c config s gone stored later) (cutoffMs : Int64) :
    ∃ gone' stored', Recorded c config { s with db := cleanupOldLogs s.db cutoffMs } gone' stored' later := by
  have hl : ∀ e ∈ s.db.entries, (⟨[0x3A]⟩ : ByteKey) ≤ e.1 := by
    intro e he
    rw [h.entries] at he
    obtain ⟨p, -, rfl⟩ := mem_map.1 he
    exact colon_le_recordKey _ _
  obtain ⟨front, hf⟩ := entries_eq_append_deleteRange hl ⟨0x3A :: beBytes 8 cutoffMs.toUInt64.toNat⟩
  rw [h.entries] at hf
  obtain ⟨old, kept, rfl, -, hk⟩ := map_eq_append_iff.1 hf
  refine ⟨gone ++ old, kept, hk.symm, h.chain.cleaned, ?_⟩
  rw [append_assoc]
  exact h.distinct

theorem recorded_step (hlaw : c.Lawful) {e : AuditEvent} (h : Recorded c config s gone stored (e.records ++ later))
    (hs : e.success = true) (ha : s.Ascends c config (e.batch config s)) :
    ∃ gone' stored', Recorded c config (s.step c config e) gone' stored' later := by
  cases e with
  | recv record attempts =>
    have hsp : s.worker.batchBuffer ++ ([record] ++ later) = (s.worker.batchBuffer ++ [record]) ++ later :=
      (append_assoc ..).symm
    simp only [batch] at ha
    simp only [step, hs]
    split_ifs with hfl
    · rw [if_pos hfl] at ha
      exact ⟨_, _, recorded_flush h hsp ha⟩
    · refine ⟨gone, stored, h.entries, h.chain, ?_⟩
      have hds := h.distinct
      rwa [records, hsp] at hds
  | tick attempts =>
    simp only [step, hs]
    split_ifs with hb
    · exact ⟨_, _, recorded_flush h rfl ha⟩
    · exact ⟨gone, stored, h⟩
  | shutdown rest attempts =>
    simp only [step, hs]
    split_ifs with hb
    · have hf := recorded_flush h (append_assoc ..).symm ha
      exact ⟨_, _, recorded_new hlaw hf (Sublist.refl _)⟩
    · refine ⟨_, _, recorded_new hlaw h ?_⟩
      exact ((sublist_append_right _ _).trans (sublist_append_right _ _))
  | crash => exact ⟨_, _, recorded_new hlaw h (sublist_append_right _ _)⟩
  | cleanup cutoffMs => exact recorded_cleanup h cutoffMs

theorem values_logEntry (hlaw : c.Lawful) (l : List (UInt64 × AuditRecord)) :
    ((l.map (logEntry c)).map Prod.snd).map c.readRecord = (l.map Prod.snd).map some := by
  simp only [map_map]
  exact map_congr_left fun p _ => hlaw p.2

private theorem verifies_of_recorded (hlaw : c.Lawful) (h : Recorded c config s gone stored later) :
    verifyChain c config.hmacSecret s.db = .ok stored.length := by
  rw [verifyChain, verifyFrom_eq_ok_iff, h.entries]
  refine ⟨stored.map Prod.snd, values_logEntry hlaw stored, by simp, ?_, by simp, h.chain.linked⟩
  intro r hr
  obtain ⟨p, hp, rfl⟩ := mem_map.1 hr
  exact h.chain.sealed p (mem_append_right _ hp)

section

variable (hlaw : c.Lawful) (hcollision : Function.Injective (c.hmac (utf8 config.hmacSecret)))
include hlaw hcollision

/-- If the database verifies after a flush, its keys are in the order of the chain: there is only one order in
which every record names the one before it. -/
theorem ascends_of_verifies {records rest : List AuditRecord} (h : Recorded c config s gone stored later)
    (hrecords : s.worker.batchBuffer ++ later = records ++ rest) {n : Nat}
    (hv : verifyChain c config.hmacSecret (flushBatch c s.db (s.chained c config records).keyedRecords) = .ok n) :
    s.Ascends c config records := by
  obtain ⟨all, ha⟩ : ∃ all, all = stored ++ (s.chained c config records).keyedRecords := ⟨_, rfl⟩
  have hc : LogChain c config.hmacSecret gone all (s.chained c config records).tempHash := ha ▸ h.chain.flushed _ _
  have hi : ((gone ++ all).map fun p => p.2.requestId).Nodup := by
    rw [ha]
    exact (distinct_chained h hrecords).sublist (sublist_append_left _ _)
  have hsm : ∀ p ∈ gone ++ all, ∀ q ∈ gone ++ all, p.2.recordHash = q.2.recordHash → p = q := fun p hp q hq heq =>
    inj_on_of_nodup_map hi hp hq
      (congrArg requestId (eq_of_recordHash_eq hlaw hcollision (hc.sealed p hp) (hc.sealed q hq) heq))
  have hin : ∀ {p}, p ∈ all → p ∈ gone ++ all := fun hp => mem_append_right _ hp
  have hn : all.Nodup := by
    rw [map_append] at hi
    exact (nodup_append.1 hi).2.1.of_map _
  have he : s.db.entries ++ (s.chained c config records).keyedRecords.map (logEntry c) = all.map (logEntry c) := by
    rw [ha, map_append, h.entries]
  -- different request ids have different keys, so the database holds all records in some order
  have hk : ((all.map (logEntry c)).map Prod.fst).Nodup := by
    rw [map_map]
    refine Nodup.map_on (fun p hp q hq heq => ?_) hn
    exact inj_on_of_nodup_map hi (hin hp) (hin hq) (requestId_of_recordKey heq)
  have hpm :
      (flushBatch c s.db (s.chained c config records).keyedRecords).entries.Perm (all.map (logEntry c)) := by
    rw [← he] at hk ⊢
    exact perm_putAll hk
  obtain ⟨read, hrd, hdb⟩ := exists_perm_of_perm_map hpm
  -- verification finds the links of a chain in that order
  rw [verifyChain, verifyFrom_eq_ok_iff, hdb, values_logEntry hlaw] at hv
  obtain ⟨found, hf, -, -, -, hl⟩ := hv
  obtain rfl : read.map Prod.snd = found := map_injective_iff.2 (Option.some_injective _) hf
  have hu : read = all := by
    refine eq_of_perm_of_isChain (R := fun p q => Links p.2 q.2) hrd hn ?_ ?_ ?_ ?_
    · intro p hp q hq r _ hpr hqr
      exact hsm p (hin hp) q (hin hq) (hpr.symm.trans hqr)
    · intro p hp q hq hqp
      have hs : q.2.recordHash = some (computeHmac c q.2 config.hmacSecret) := hc.sealed q (hin hq)
      rcases hc.first p hp with hnn | ⟨r, hr, heq⟩
      · rw [hqp, hs] at hnn
        cases hnn
      · -- the record before the first one is deleted
        have hqr := hsm q (hin hq) r (mem_append_left _ hr) (hqp.symm.trans heq)
        rw [map_append] at hi
        exact (nodup_append.1 hi).2.2 _ (mem_map_of_mem hr) _ (mem_map_of_mem hq) (by rw [hqr])
    · exact (isChain_map _).1 hc.linked
    · exact (isChain_map _).1 hl
  rw [Ascends, he, ← hu, ← hdb]
  exact ascending _

private theorem ascends_of_step
    {e : AuditEvent} (h : Recorded c config s gone stored (e.records ++ later)) (hs : e.success = true) {n : Nat}
    (hv : verifyChain c config.hmacSecret (s.step c config e).db = .ok n) :
    s.Ascends c config (e.batch config s) := by
  cases e with
  | recv record attempts =>
    simp only [step, hs] at hv
    simp only [batch]
    split_ifs at hv ⊢ with hf
    · exact ascends_of_verifies hlaw hcollision h (append_assoc ..).symm hv
    · exact ascends_nil s
  | tick attempts =>
    simp only [step, hs] at hv
    split_ifs at hv with hb
    · exact ascends_of_verifies hlaw hcollision h rfl hv
    · rw [batch, not_not.1 hb]
      exact ascends_nil s
  | shutdown rest attempts =>
    simp only [step, hs] at hv
    split_ifs at hv with hb
    · exact ascends_of_verifies hlaw hcollision h (append_assoc ..).symm hv
    · rw [batch, not_not.1 hb]
      exact ascends_nil s
  | crash | cleanup cutoffMs => exact ascends_nil s

private theorem verifies_iff_of_recorded {events : List AuditEvent}
    (h : Recorded c config s gone stored (events.flatMap records)) (hs : ∀ e ∈ events, e.success = true) :
    (∀ past, past <+: events → ∃ n, verifyChain c config.hmacSecret (s.run c config past).db = .ok n) ↔
      RunAscends c config s events := by
  induction events generalizing s gone stored with
  | nil =>
    refine iff_of_true (fun past hp => ?_) trivial
    rw [prefix_nil.1 hp]
    exact ⟨_, verifies_of_recorded hlaw h⟩
  | cons e events ih =>
    have he := hs e mem_cons_self
    have hr : ∀ d ∈ events, d.success = true := fun d hd => hs d (mem_cons_of_mem _ hd)
    rw [flatMap_cons] at h
    constructor
    · intro hv
      obtain ⟨n, hn⟩ := hv [e] (prefix_append [e] events)
      have ha := ascends_of_step hlaw hcollision h he hn
      obtain ⟨gone', stored', h'⟩ := recorded_step hlaw h he ha
      exact ⟨ha, (ih h' hr).1 fun past hp => hv (e :: past) (cons_prefix_cons.2 ⟨rfl, hp⟩)⟩
    · rintro ⟨ha, hrun⟩ past hp
      obtain ⟨gone', stored', h'⟩ := recorded_step hlaw h he ha
      rcases past with _ | ⟨d, past⟩
      · exact ⟨_, verifies_of_recorded hlaw h⟩
      · obtain ⟨rfl, ht⟩ := cons_prefix_cons.1 hp
        exact (ih h' hr).2 hrun past ht

end

/-- A log that nobody tampers with verifies at every moment of a run exactly if every flush keeps the keys in the
order of the chain. -/
theorem log_verifies_iff (hlaw : c.Lawful) (hcollision : Function.Injective (c.hmac (utf8 config.hmacSecret)))
    (events : List AuditEvent) (hdistinct : ((events.flatMap records).map requestId).Nodup)
    (hsuccess : ∀ e ∈ events, e.success = true) :
    (∀ past, past <+: events → ∃ n, verifyChain c config.hmacSecret ((new c empty).run c config past).db = .ok n) ↔
      RunAscends c config (new c empty) events := by
  have hstart : Recorded c config (new c empty) [] [] (events.flatMap records) :=
    ⟨rfl, ⟨by simp, IsChain.nil, by simp, by simp, fun _ => .inl rfl⟩, hdistinct⟩
  exact verifies_iff_of_recorded hlaw hcollision hstart hsuccess

def getRequest (timestamp : Text) (timestampMs : UInt64) (requestId : Text) : AuditRecord :=
  ⟨timestamp, timestampMs, requestId, "127.0.0.1", "user-a", none, "s3:GetObject",
    "arn:dfs:s3:::test-bucket/key", 200, none,
    some "test-agent", some 10, none, none⟩

def firstRequest : AuditRecord := getRequest "2026-03-13T10:00:00+00:00" 1773396000000 "req1"

def secondRequest : AuditRecord := getRequest "2026-03-13T10:00:00+00:00" 1773396000000 "req2"

def laterRequest : AuditRecord := getRequest "2026-03-13T11:00:00+00:00" 1773399600000 "req2"

def singleBatches : AuditConfig := ⟨1, "secret"⟩

def loggedHmacs : List (Bytes × Bytes × Bytes) :=
  [(utf8 "secret", printAuditRecord secondRequest,
    digest "212c513358c1bbab6c53cc5ff238d2c45290caea0ed075be92a1ae75d68e15dc"),
    (utf8 "secret", printAuditRecord { firstRequest with
        previousHash := some "212c513358c1bbab6c53cc5ff238d2c45290caea0ed075be92a1ae75d68e15dc" },
      digest "9c75a8b850b541e69f69179e38bc3d1da88d993fbcdf614ae59d6310513d7530"),
    (utf8 "secret", printAuditRecord firstRequest,
      digest "50e2da113fe09f9b25ba09b573d9af9934ab1e106a42e0b97277d70738a4b9f6"),
    (utf8 "secret", printAuditRecord { laterRequest with
        previousHash := some "50e2da113fe09f9b25ba09b573d9af9934ab1e106a42e0b97277d70738a4b9f6" },
      digest "91fb8b13debf9a0cb0858c4923b212d128b8aa779e767129fa59a94abd51886c")]

def loggedCrates : AuditCrates := auditCrates loggedHmacs

theorem loggedCrates_lawful : loggedCrates.Lawful := readAuditRecord_print

theorem loggedCrates_collision : Function.Injective (loggedCrates.hmac (utf8 "secret")) := by
  intro m m' h
  have hv : (loggedHmacs.map fun e => e.2.2).Nodup := by decide +kernel
  have hl : ∀ e ∈ loggedHmacs, e.2.2.length = 32 := by decide +kernel
  exact (tableHmac_injective hv hl h).2

/-- An hour lies between the two requests, a restart and a cleanup follow. -/
def orderedEvents : List AuditEvent :=
  [.recv firstRequest [true], .recv laterRequest [false, true], .shutdown [] [true], .cleanup 1773399600000]

theorem log_verifies_ordered : RunAscends loggedCrates singleBatches (new loggedCrates empty) orderedEvents ∧
    ∀ past, past <+: orderedEvents → ∃ n, verifyChain loggedCrates singleBatches.hmacSecret
      ((new loggedCrates empty).run loggedCrates singleBatches past).db = .ok n := by
  have hsuccess : ∀ e ∈ orderedEvents, e.success = true := by decide
  have hrun : RunAscends loggedCrates singleBatches (new loggedCrates empty) orderedEvents := by
    refine ⟨?_, ?_, ?_, ?_, trivial⟩
    all_goals decide +kernel
  exact ⟨hrun,
    (log_verifies_iff loggedCrates_lawful loggedCrates_collision orderedEvents (by decide) hsuccess).2 hrun⟩

/-- Two requests of one millisecond are flushed one after the other, the one with the greater id first: its key is
above the key of the other, which names its hash. -/
theorem same_millisecond_broken : loggedCrates.Lawful ∧ [secondRequest.requestId, firstRequest.requestId].Nodup ∧
      verifyChain loggedCrates singleBatches.hmacSecret ((new loggedCrates empty).run loggedCrates singleBatches
            [.recv secondRequest [true], .recv firstRequest [true]]).db =
        .error (.broken "req2" (some (computeHmac loggedCrates
            { firstRequest with previousHash := some (computeHmac loggedCrates secondRequest "secret") }
              "secret")) none) := by
  refine ⟨loggedCrates_lawful, by decide, ?_⟩
  -- what is stored, in the order of the keys
  obtain ⟨second, hsecond⟩ :
    ∃ r, r = { secondRequest with recordHash := some (computeHmac loggedCrates secondRequest "secret") } :=
    ⟨_, rfl⟩
  obtain ⟨linked, hlinked⟩ : ∃ r, r = { firstRequest with previousHash := second.recordHash } := ⟨_, rfl⟩
  obtain ⟨first, hfirst⟩ :
    ∃ r, r = { linked with recordHash := some (computeHmac loggedCrates linked "secret") } := ⟨_, rfl⟩
  have hbelow :
      (logEntry loggedCrates (1773396000000, first)).1 < (logEntry loggedCrates (1773396000000, second)).1 := by
    subst hfirst hlinked hsecond
    refine recordKey_lt_iff.2 (.inr ⟨rfl, ?_⟩)
    decide +kernel
  have hentries : ((new loggedCrates empty).run loggedCrates singleBatches
      [.recv secondRequest [true], .recv firstRequest [true]]).db.entries =
        [logEntry loggedCrates (1773396000000, first), logEntry loggedCrates (1773396000000, second)] := by
    have hput :
      insertEntry (logEntry loggedCrates (1773396000000, first)) [logEntry loggedCrates (1773396000000, second)] =
        [logEntry loggedCrates (1773396000000, first), logEntry loggedCrates (1773396000000, second)] := by
      rw [insertEntry, if_pos hbelow]
    rw [← hput]
    subst hfirst hlinked hsecond
    rfl
  have hreadFirst : loggedCrates.readRecord (loggedCrates.printRecord first) = some first :=
    loggedCrates_lawful first
  have hreadSecond : loggedCrates.readRecord (loggedCrates.printRecord second) = some second :=
    loggedCrates_lawful second
  have hsealed : first.recordHash = some (computeHmac loggedCrates first "secret") := by
    subst hfirst
    rfl
  have hnamed : second.previousHash ≠ first.recordHash := by
    subst hfirst hsecond
    intro h
    cases h
  rw [verifyChain, hentries]
  simp only [map_cons, logEntry, verifyFrom, hreadFirst, hreadSecond, Nat.lt_irrefl, false_and, if_false,
    singleBatches]
  rw [if_neg (not_not.2 hsealed), if_pos ⟨Nat.one_pos, hnamed⟩]
  subst hfirst hlinked hsecond
  rfl

end RustHadoop.S3
