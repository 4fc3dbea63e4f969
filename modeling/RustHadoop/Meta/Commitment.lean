import RustHadoop.Lib.Rules
import RustHadoop.Meta.Transactions

/-!
# Rules for the handlers of a transaction

Whatever is to be shown about cross-shard transactions, the handlers are run through in the same way.  A set of
rules says when a transaction is done; a record is committed, and a commit reported, only then.  This module goes
through the handlers once for all such rules, and leaves open which records may be created, which operations
carried out and which records removed.
-/

namespace RustHadoop

open Process (Proc Rules)

variable {sv : Process.Service String MasterState MasterCommand TxRequest TxResponse Surroundings} {W : Type}
  [Preorder W]

/-- Rules under which a transaction is committed only when it is done. -/
structure Commitment (K : Rules sv W) (Done : String → W → Prop) : Prop where
  mono : ∀ {t w w'}, w ≤ w' → Done t w → Done t w'
  known : ∀ {n t w s r}, K.known n w s → s.transactionRecords.lookup t = some r → r.state = .committed → Done t w
  update : ∀ {n t w st}, st ≠ .pending → (st = .committed → Done t w) →
    K.command n w (.updateTransactionState t st)
  ack : ∀ {n t w}, K.command n w (.setParticipantAcked t)
  inquired : ∀ {n t w}, K.command n w (.incrementInquiryCount t)
  reply : ∀ {t w r}, K.response w (.commitTransaction t) (.reply r) ↔ (r.success = true → Done t w)
  status : ∀ {t w s}, K.response w (.inquireTransaction t) (.status s) ↔ (s = .committed → Done t w)

variable {y : String × TransactionRecord} {request : TxRequest} {peer : String}

namespace Commitment

def Reaches (K : Rules sv W) (w : W) (peers : List String) (request : TxRequest) : Prop :=
  ∀ peer ∈ peers, ∀ address, address = peer ∨ address = "http://" ++ peer → ∀ m, sv.route address = some m →
    K.request m w request

abbrev Keeps (K : Rules sv W) {α : Type} (n : String) (w : W) (p : Handler α) : Prop :=
  p.Obeys K n w fun _ _ => True

def Answers (K : Rules sv W) (request : TxRequest) (w : W) (a : Option TxResponse) : Prop :=
  ∀ y, a = some y → K.response w request y

/-- The rename is reported as successful only if the transaction is done. -/
def Reports (Done : String → W → Prop) (t : String) (w : W) (a : Option TxResponse) : Prop :=
  ∀ r, a = some (.renamed r) → r.success = true → Done t w

variable {K : Rules sv W} {Done : String → W → Prop} {n t : String} {w w' : W} {peers : List String}

theorem Reaches.mono (hw : w ≤ w') (h : Reaches K w peers request) : Reaches K w' peers request :=
  fun peer hp address ha m hm => K.request_mono hw (h peer hp address ha m hm)

theorem Reaches.tail (h : Reaches K w (peer :: peers) request) : Reaches K w peers request :=
  fun p hp => h p (List.mem_cons_of_mem _ hp)

private theorem Reaches.head (h : Reaches K w (peer :: peers) request) (m : String)
    (hm : sv.route (peerAddress peer) = some m) : K.request m w request := by
  refine h peer (List.mem_cons_self ..) _ ?_ m hm
  unfold peerAddress
  split <;> simp

private theorem sendToDestShard_obeys (h : Reaches K w peers request) : (sendToDestShard request peers).Obeys K n w
      fun v ok => ok = true → ∃ r : TxReply, r.success = true ∧ K.response v request (.reply r) := by
  induction peers generalizing w with
  | nil => exact fun h => nomatch h
  | cons peer peers ih =>
    have hr := fun v (hv : w ≤ v) => ih (h.tail.mono hv)
    refine .ask (h peer (List.mem_cons_self ..) _ (by split <;> simp)) fun v hv a ha => ?_
    split
    · rename_i r
      split
      · rename_i hs
        exact fun _ => ⟨r, hs, ha _ rfl⟩
      · split
        · exact fun h => nomatch h
        · exact hr v hv
    · exact hr v hv

theorem viaRaft_obeys {c : MasterCommand} (hc : K.command n w c) : Keeps K n w (viaRaft c) :=
  Proc.Obeys.submit hc fun _ _ _ _ => trivial

private theorem when_obeys {b : Bool} {p : Handler Unit} (h : b = true → Keeps K n w p) :
    Keeps K n w (if b then p else return ()) := by
  split
  · rename_i hb
    exact h hb
  · trivial

def preparedRecord (shardId txId path : String) (metadata : Option FileMetadata) (coordinatorShard : String)
    (now : Nat) :
    TransactionRecord where
  txId := txId
  txType := .rename "" path
  state := .prepared
  timestamp := now
  participants := [coordinatorShard, shardId]
  operations := [⟨shardId, .create path (metadata.getD .default)⟩]
  coordinatorShard := coordinatorShard
  participantAcked := false
  inquiryCount := 0

theorem prepareTransaction_obeys {path coordinator : String} {m : Option FileMetadata}
    (hc : ∀ now, K.command n w (.createTransactionRecord (preparedRecord n t path m coordinator now))) :
    Keeps K n w (prepareTransaction n t path m coordinator) := by
  refine .state fun v1 h1 s _ => ?_
  split
  · trivial
  refine .around fun v2 h2 e _ => ?_
  split
  · refine .state fun v3 h3 s _ => ?_
    split
    · trivial
    · refine .around fun v4 h4 e _ => ?_
      have hw : w ≤ v4 := h1.trans (h2.trans (h3.trans h4))
      exact .submit (K.command_mono hw (hc e.now)) fun _ _ _ _ => trivial
  · trivial

theorem rename_obeys {Q : W → Option TxResponse → Prop} {source dest : String} (hn : ∀ v, Q v none)
    (hf : ∀ v e h, Q v (renameFailed e h))
    (h : ∀ v e, w ≤ v → K.seen n v e → ∀ v', v ≤ v' → ∀ s m, K.known n v' s → s.files.lookup source = some m →
      Proc.Obeys K n v' (if (e.shardMap.getShard source).getD n = (e.shardMap.getShard dest).getD n then
          renameInShard source dest
        else renameAcrossShards n t source dest ((e.shardMap.getShard source).getD n)
          ((e.shardMap.getShard dest).getD n) m
            ((e.shardMap.getPeers ((e.shardMap.getShard dest).getD n)).getD [])) Q) :
    (rename n t source dest).Obeys K n w Q := by
  refine .around fun v1 h1 e _ => ?_
  split
  · refine .around fun v2 h2 e _ => ?_
    split
    · exact hn _
    · refine .around fun v3 h3 e he => .state fun v4 h4 s hs => ?_
      split
      · exact hf _ _ _
      · rename_i m hm
        exact h v3 e (h1.trans (h2.trans h3)) he v4 h4 s m hs hm
  · exact hn _

omit [Preorder W] in
private theorem reports_failed (e h : String) : Reports Done t w (renameFailed e h) := by
  rintro r ⟨⟩ ⟨⟩

section

variable (P : Commitment K Done)

include P

theorem abort : K.command n w (.updateTransactionState t .aborted) :=
  P.update (fun h => nomatch h) fun h => nomatch h

theorem commit (h : Done t w) : K.command n w (.updateTransactionState t .committed) :=
  P.update (fun h => nomatch h) fun _ => h

private theorem commitRename_obeys {source shard : String} (hreq : Reaches K w peers (.commitTransaction t))
    (hdl : ∀ v, w ≤ v → Done t v → K.command n v (.applyTransactionOperation t ⟨shard, .delete source⟩)) :
    (commitRename t source shard peers).Obeys K n w (Reports Done t) := by
  refine .bind ((sendToDestShard_obeys hreq).imp fun v ok hv hok => ?_)
  split
  · rename_i hc
    obtain ⟨r, hr, ha⟩ := hok hc
    have hdn : Done t v := P.reply.1 ha hr
    refine .submit (hdl v hv hdn) fun v1 h1 _ _ => ?_
    refine .submit (P.commit (P.mono h1 hdn)) fun v2 h2 _ _ => ?_
    exact .submit P.ack fun v3 h3 _ _ _ _ _ => P.mono (h1.trans (h2.trans h3)) hdn
  · exact reports_failed _ _

theorem renameAcrossShards_obeys {source dest sourceShard destShard : String} {m : FileMetadata}
    (hc : ∀ now, K.command n w
      (.createTransactionRecord (.newRename t source dest sourceShard destShard { m with path := dest } now)))
    (hp : Reaches K w peers (.prepareTransaction t "CREATE" dest (some { m with path := dest }) n []))
    (hcm : Reaches K w peers (.commitTransaction t)) (ha : Reaches K w peers (.abortTransaction t))
    (hdl : ∀ v, w ≤ v → Done t v → K.command n v (.applyTransactionOperation t ⟨sourceShard, .delete source⟩)) :
    (renameAcrossShards n t source dest sourceShard destShard m peers).Obeys K n w (Reports Done t) := by
  have hs : ∀ v, w ≤ v → Keeps K n v (sendAbortToDestShard t peers) :=
    fun v hv => (sendToDestShard_obeys (ha.mono hv)).imp fun _ _ _ _ => trivial
  refine .around fun v1 h1 e _ => ?_
  refine .submit (K.command_mono h1 (hc e.now)) fun v2 h2 o _ => ?_
  split
  · refine .submit (P.update (fun h => nomatch h) fun h => nomatch h) fun v3 h3 o _ => ?_
    have h3 : w ≤ v3 := h1.trans (h2.trans h3)
    split
    · refine .bind ((sendToDestShard_obeys (hp.mono h3)).imp fun v4 ok h4 _ => ?_)
      split
      · exact P.commitRename_obeys (hcm.mono (h3.trans h4)) fun v hv => hdl v (h3.trans (h4.trans hv))
      · refine .bind ((hs v4 (h3.trans h4)).imp fun _ _ _ _ => ?_)
        exact .submit P.abort fun _ _ _ _ => reports_failed _ _
    all_goals exact .bind ((hs v3 h3).imp fun _ _ _ _ => reports_failed _ _)
  all_goals exact reports_failed _ _

theorem commitTransaction_obeys (hop : ∀ v s r op, w ≤ v → K.known n v s → s.transactionRecords.lookup t = some r →
      r.operations.head? = some op →
      K.command n v (.applyTransactionOperation t op) ∧
        ∀ v', K.applied n v' (.applyTransactionOperation t op) → Done t v') :
    (commitTransaction t).Obeys K n w (Answers K (.commitTransaction t)) := by
  refine .state fun v1 h1 s hs => ?_
  split
  · rename_i hc
    obtain ⟨record, hr, hst⟩ := (Option.any_eq_true _ _).1 hc
    rintro y ⟨⟩
    exact P.reply.2 fun _ => P.known hs hr (by simpa using hst)
  refine .state fun v2 h2 s hs => ?_
  split
  · rename_i op hf
    obtain ⟨record, hr, hf⟩ := Option.bind_eq_some_iff.1 hf
    obtain ⟨hm, hdn⟩ := hop v2 s record op (h1.trans h2) hs hr hf
    refine .submit hm fun v3 _ o ho => ?_
    split
    · have hdn : Done t v3 := hdn v3 (ho rfl)
      refine .submit (P.commit hdn) fun v4 h4 _ _ => ?_
      rintro y ⟨⟩
      exact P.reply.2 fun _ => P.mono h4 hdn
    · rintro y ⟨⟩
      exact P.reply.2 fun h => nomatch h
    · rintro y ⟨⟩
    · rintro y ⟨⟩
  · rintro y ⟨⟩
    exact P.reply.2 fun h => nomatch h

theorem inquireTransaction_obeys : (inquireTransaction t).Obeys K n w (Answers K (.inquireTransaction t)) := by
  refine .around fun v _ e _ => ?_
  split
  · refine .state fun v _ s hs => ?_
    rintro y ⟨⟩
    refine P.status.2 fun hst => ?_
    cases hr : s.transactionRecords.lookup t with
    | none =>
      rw [hr] at hst
      cases hst
    | some record =>
      refine P.known hs hr ?_
      rw [hr] at hst
      simp only [Option.map_some, Option.getD_some, TransactionRecord.inquiryStatus] at hst
      split at hst <;> simp_all
  · rintro y ⟨⟩

private theorem inquireCoordinator_obeys (h : Reaches K w peers (.inquireTransaction t)) :
    (inquireCoordinator t peers).Obeys K n w fun v s => s = some .committed → Done t v := by
  induction peers generalizing w with
  | nil => exact fun h => nomatch h
  | cons peer peers ih =>
    refine .ask h.head fun v hv a ha => ?_
    split
    · rintro ⟨⟩
      exact P.status.1 (ha _ rfl) rfl
    · exact ih (h.tail.mono hv)

private theorem retryCommit_obeys (h : Reaches K w peers (.commitTransaction t)) :
    (retryCommit t peers).Obeys K n w fun v ok => ok = true → Done t v := by
  induction peers generalizing w with
  | nil => exact fun h => nomatch h
  | cons peer peers ih =>
    refine .ask h.head fun v hv a ha => ?_
    split
    · split
      · rename_i hs
        exact fun _ => P.reply.1 (ha _ rfl) hs
      · exact ih (h.tail.mono hv)
    · exact ih (h.tail.mono hv)

theorem resolveOutcome_obeys {r : TransactionRecord} (hr : ∀ v e, w ≤ v → K.seen n v e →
      Reaches K v ((e.shardMap.getPeers r.coordinatorShard).getD []) (.inquireTransaction t))
    (hop : ∀ op, r.operations.head? = some op → K.command n w (.applyTransactionOperation t op)) :
    Keeps K n w (resolveOutcome t r) := by
  refine .around fun v1 h1 e he => ?_
  refine .bind ((P.inquireCoordinator_obeys (hr v1 e h1 he)).imp fun v2 s h2 hs => ?_)
  have ha : ∀ v, Keeps K n v (abortViaRaft t) := fun v => viaRaft_obeys P.abort
  split
  · split
    · rename_i op hf
      have hap : Keeps K n v2 (applyOperationViaRaft t op) :=
        viaRaft_obeys (K.command_mono (h1.trans h2) (hop op hf))
      exact .bind (hap.imp fun v3 _ h3 _ => viaRaft_obeys (P.commit (P.mono h3 (hs rfl))))
    · trivial
  · exact ha v2
  · have hc : Keeps K n v2 (incrementInquiryCountViaRaft t) := viaRaft_obeys P.inquired
    refine .bind (hc.imp fun v3 _ _ _ => ?_)
    split
    · exact ha v3
    · trivial
  · trivial

theorem cleanupRecord_obeys (hdl : ∀ v e, w ≤ v → K.seen n v e → y.2.state = .committed ∨ y.2.state = .aborted →
      y.2.isStale e.now = true → K.command n v (.deleteTransactionRecord y.1))
    (hrs : y.2.coordinatorShard ≠ n → ∀ v, w ≤ v → Keeps K n v (resolveOutcome y.1 y.2)) :
    Keeps K n w (cleanupRecord n y) := by
  refine .around fun v1 h1 e _ => .around fun v2 h2 e' he' => ?_
  have ha : Keeps K n v2 (abortViaRaft y.1) := viaRaft_obeys P.abort
  have hr : y.2.state = .committed ∨ y.2.state = .aborted → y.2.isStale e'.now = true →
      Keeps K n v2 (deleteViaRaft y.1) :=
    fun hst ho => viaRaft_obeys (hdl v2 e' (h1.trans h2) he' hst ho)
  beta_reduce
  split
  · -- a record without a coordinator
    split
    · exact when_obeys fun _ => ha
    · exact when_obeys fun _ => ha
    · rename_i hst
      exact when_obeys (hr (.inl hst))
    · rename_i hst
      exact when_obeys (hr (.inr hst))
  · split
    · exact when_obeys fun _ => ha
    · trivial
    · rename_i _ hc
      exact when_obeys fun _ => hrs (by simpa using hc) v2 (h1.trans h2)
    · rename_i hst _
      exact when_obeys fun ho => hr (.inl hst) ((Bool.and_eq_true _ _).mp ho).2
    · rename_i hst _
      exact when_obeys (hr (.inl hst))
    · rename_i hst
      exact when_obeys (hr (.inr hst))

theorem recoverRecord_obeys (hr : ∀ v e, w ≤ v → K.seen n v e → Reaches K v
      ((e.shardMap.getPeers ((y.2.participants.find? fun p => p ≠ n).getD "")).getD []) (.commitTransaction y.1))
    (hdl : ∀ v op, w ≤ v → Done y.1 v → (y.2.operations.find? fun op => op.opType.isDelete) = some op →
      K.command n v (.applyTransactionOperation y.1 op)) :
    Keeps K n w (recoverRecord n y) := by
  refine .around fun v1 h1 e he => ?_
  refine .bind ((P.retryCommit_obeys (hr v1 e h1 he)).imp fun v2 ok h2 hok => ?_)
  split
  · rename_i hc
    have ha : ∀ v, Keeps K n v (viaRaft (.setParticipantAcked y.1)) := fun v => viaRaft_obeys P.ack
    split
    · exact ha v2
    · have hs : Keeps K n v2 (applyDeleteViaRaft y.1 y.2) := by
        unfold applyDeleteViaRaft
        split
        · rename_i op hop
          exact viaRaft_obeys (hdl v2 op (h1.trans h2) (hok hc) hop)
        · trivial
      have hcm : ∀ v, v2 ≤ v → Keeps K n v (commitViaRaft y.1) :=
        fun v hv => viaRaft_obeys (P.commit (P.mono hv (hok hc)))
      refine .bind (hs.imp fun v3 _ h3 _ => ?_)
      exact .bind ((hcm v3 h3).imp fun v4 _ _ _ => ha v4)
    · trivial
    · trivial
  · trivial

end

private theorem lookup_of_mem_records {s : MasterState} (hy : y ∈ s.records) :
    s.transactionRecords.lookup y.1 = some y.2 := by
  obtain ⟨z, hz, rfl⟩ := List.mem_map.1 hy
  exact AList.mem_lookup_iff.2 hz

theorem runTransactionCleanup_obeys
    (h : ∀ v s y, K.known n v s → s.transactionRecords.lookup y.1 = some y.2 → Keeps K n v (cleanupRecord n y)) :
    (runTransactionCleanup n).Obeys K n w fun _ a => a = none := by
  refine Proc.Obeys.state fun v1 _ s hs => ?_
  refine Proc.Obeys.bind ((Proc.Obeys.select (fun _ => True) _ ?_).imp fun v2 records h2 hr => ?_)
  · exact fun _ _ _ _ => Proc.Obeys.around fun _ _ _ _ => Proc.Obeys.around fun _ _ _ _ _ => trivial
  · refine Proc.Obeys.bind ((Proc.Obeys.each records fun y hy v3 h3 => ?_).imp fun _ _ _ _ => rfl)
    exact h v3 s y (K.known_mono (h2.trans h3) hs) (lookup_of_mem_records (hr y hy).1)

theorem runTransactionRecovery_obeys
    (h : ∀ v s y, K.known n v s → s.transactionRecords.lookup y.1 = some y.2 → y.2.coordinatorShard = n →
      Keeps K n v (recoverRecord n y)) :
    (runTransactionRecovery n).Obeys K n w fun _ a => a = none := by
  refine .state fun v1 _ s hs => ?_
  refine Proc.Obeys.bind
    ((Proc.Obeys.select (fun y => y.2.coordinatorShard = n) _ ?_).imp fun v2 records h2 hr => ?_)
  · intro y _ _ _
    refine Proc.Obeys.around fun _ _ e _ hk => ?_
    rw [Bool.and_eq_true] at hk
    simpa using hk.1
  · refine Proc.Obeys.bind ((Proc.Obeys.each records fun y hy v3 h3 => ?_).imp fun _ _ _ _ => rfl)
    exact h v3 s y (K.known_mono (h2.trans h3) hs) (lookup_of_mem_records (hr y hy).1) (hr y hy).2

end Commitment

end RustHadoop
