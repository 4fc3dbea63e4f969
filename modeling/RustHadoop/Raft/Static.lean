import RustHadoop.Raft.Actions

/-!
# Runs that keep the configuration

If clients propose only commands satisfying `C`, every entry of every log, stored or sent, satisfies `C`.  If
moreover no such command replaces the cluster configuration and nobody asks for a membership change, each node
keeps the configuration it was started with; if there is no membership command at all, also its peers.  This holds
in every run, with crashes at any point.
-/

namespace RustHadoop

open List

def RaftNodeConfig.Target (conf : RaftNodeConfig) (db : Db) (addr : String) : Prop :=
  ∃ j, j ≠ conf.id ∧ (conf.clusterConfig db).allMembers.lookup j = some addr

/-- The effect keeps the configuration and brings only entries with `C`; requests are sent, those of a leader to
the addresses `A`, and answers returned. -/
def EffectOk (A : String → Prop) (C : Command → Prop) : Effect → Prop
  | .write (.putLog _ e) => C e.command
  | .write (.batchLog es) => ∀ e ∈ es, C e.2.command
  | .write (.putClusterConfig _) => False
  | .write (.putConfigChangeState _) => False
  | .send _ (.requestVote _) => True
  | .send addr (.appendEntries a) => A addr ∧ ∀ e ∈ a.entries, C e.command
  | .send addr msg => A addr ∧ msg.isRequest = true
  | .respond _ msg => msg.isRequest = false
  | _ => True

structure DbStatic (db0 : Db) (C : Command → Prop) (db : Db) : Prop where
  config : db.clusterConfig = db0.clusterConfig
  state : db.configChangeState = db0.configChangeState
  log : ∀ k e, db.log.lookup k = some e → C e.command

structure NodeStatic (conf : RaftNodeConfig) (db0 : Db) (C : Command → Prop) (n : RaftNode) : Prop where
  id : n.id = conf.id
  config : n.clusterConfig = conf.clusterConfig db0
  inactive : n.configChangeState.active = false
  others : n.nonVotingMembers = ∅
  log : ∀ e ∈ n.log, C e.command
  db : DbStatic db0 C n.db
  peers : (∀ c, C c → c.isMembership = false) → n.peers = conf.peers

variable {es : List Effect}

section Db

variable {db0 db : Db} {A : String → Prop} {C : Command → Prop}

theorem lookup_foldl_erase {V : Type} (is : List Nat) (l : AList fun _ : Nat => V) (k : Nat) :
    (is.foldl (fun l i => l.erase i) l).lookup k = if k ∈ is then none else l.lookup k := by
  induction is generalizing l with
  | nil => simp
  | cons i is ih =>
    rw [foldl_cons, ih]
    by_cases hk : k = i
    · subst hk; simp
    · simp [hk, AList.lookup_erase_ne hk]

theorem lookup_foldl_insert {V : Type} {es : List (Nat × V)} {l : AList fun _ : Nat => V} {k : Nat} {v : V}
    (h : (es.foldl (fun l e => l.insert e.1 e.2) l).lookup k = some v) : (k, v) ∈ es ∨ l.lookup k = some v := by
  induction es generalizing l with
  | nil => exact .inr h
  | cons e es ih =>
    rcases ih h with h | h
    · exact .inl (mem_cons_of_mem _ h)
    · by_cases hk : k = e.1
      · subst hk
        simp only [AList.lookup_insert, Option.some.injEq] at h
        exact .inl (by rw [← h]; exact mem_cons_self ..)
      · rw [AList.lookup_insert_ne hk] at h
        exact .inr h

private theorem DbStatic.write (h : DbStatic db0 C db) {w : DbWrite} (hw : EffectOk A C (.write w)) :
    DbStatic db0 C (w.apply db) := by
  cases w with
  | putTerm | putVote | deleteVote | putSnapshotMeta | putSnapshotData => exact ⟨h.config, h.state, h.log⟩
  | putLog i e =>
    refine ⟨h.config, h.state, ?_⟩
    intro k x hx
    rcases (lookup_foldl_insert hx : (k, x) ∈ [(i, e)] ∨ _) with hm | hm
    · simp only [mem_singleton, Prod.mk.injEq] at hm
      rw [hm.2]
      exact hw
    · exact h.log k x hm
  | batchLog es =>
    refine ⟨h.config, h.state, ?_⟩
    intro k x hx
    rcases lookup_foldl_insert hx with hm | hm
    · exact hw _ hm
    · exact h.log k x hm
  | deleteLog i =>
    refine ⟨h.config, h.state, ?_⟩
    intro k x hx
    have := lookup_foldl_erase [i] db.log k
    simp only [foldl_cons, foldl_nil] at this
    simp only [DbWrite.apply, this] at hx
    split at hx
    · cases hx
    · exact h.log k x hx
  | putClusterConfig | putConfigChangeState => exact hw.elim

theorem DbStatic.replay (h : DbStatic db0 C db) (hes : ∀ e ∈ es, EffectOk A C e) :
    DbStatic db0 C (replay db es) := by
  induction es generalizing db with
  | nil => exact h
  | cons e es ih =>
    have hr := fun x hx => hes x (mem_cons_of_mem _ hx)
    have hh := hes e (mem_cons_self ..)
    cases e with
    | write w => exact ih (h.write hh) hr
    | _ => exact ih h hr

private theorem loadLog_mem {fuel k : Nat} {e : LogEntry} (he : e ∈ loadLog db fuel k) :
    ∃ j, db.log.lookup j = some e := by
  induction fuel generalizing k with
  | zero => simp [loadLog] at he
  | succ fuel ih =>
    unfold loadLog at he
    split at he
    · rename_i x hx
      rcases mem_cons.1 he with rfl | he
      · exact ⟨k, hx⟩
      · exact ih he
    · simp at he

theorem NodeStatic.boot {conf : RaftNodeConfig} (h : DbStatic db0 C db) (hn : C .noOp)
    (hin : (loadConfig db0).2.active = false) : NodeStatic conf db0 C (RaftNode.boot conf db) where
  id := rfl
  config := by
    show conf.clusterConfig db = conf.clusterConfig db0
    simp only [RaftNodeConfig.clusterConfig, loadConfig, h.config]
  inactive := by
    show (loadConfig db).2.active = false
    rw [← hin]
    simp only [loadConfig, h.state]
  others := rfl
  log := by
    intro e he
    rcases mem_cons.1 he with rfl | he
    · exact hn
    · obtain ⟨j, hj⟩ := loadLog_mem he
      exact h.log j e hj
  db := h
  peers := fun _ => rfl

end Db

variable {a : AppendEntriesArgs} {e : Effect}

namespace RaftNode

structure StaticCall (conf : RaftNodeConfig) (db0 : Db) (C : Command → Prop) (n : RaftNode) : Prop where
  node : NodeStatic conf db0 C n
  out : ∀ e ∈ n.out, EffectOk (conf.Target db0) C e

section Acts

variable {D : RaftNode → Option Event → Prop} {conf : RaftNodeConfig} {db0 : Db} {C : Command → Prop}
  {n n' : RaftNode}

private theorem or_of_mem_append {α : Type} {P : α → Prop} {l es : List α} (h : ∀ e ∈ es, P e) :
    ∀ e ∈ l ++ es, e ∈ l ∨ P e :=
  fun e he => (mem_append.1 he).imp_right (h e)

section

variable (h : StaticCall conf db0 C n)
include h

private theorem StaticCall.frame (hl : Logged n n') (hid : n'.id = n.id)
    (hc : n'.clusterConfig = n.clusterConfig) (hs : n'.configChangeState.active = n.configChangeState.active)
    (hoh : n'.nonVotingMembers = n.nonVotingMembers)
    (hp : (∀ c, C c → c.isMembership = false) → n'.peers = n.peers) (hlog : ∀ e ∈ n'.log, e ∈ n.log ∨ C e.command)
    (hout : ∀ e ∈ n'.out, e ∈ n.out ∨ EffectOk (conf.Target db0) C e) : StaticCall conf db0 C n' := by
  have ho' : ∀ e ∈ n'.out, EffectOk (conf.Target db0) C e := fun e he => (hout e he).elim (h.out e) fun h => h
  refine ⟨⟨hid.trans h.node.id, hc.trans h.node.config, hs.trans h.node.inactive, hoh.trans h.node.others, ?_,
    ?_, ?_⟩, ho'⟩
  · exact fun e he => (hlog e he).elim (h.node.log e) fun h => h
  · obtain ⟨es, ho, hd⟩ := hl
    rw [hd]
    exact h.node.db.replay fun e he => ho' e (by rw [ho]; exact mem_append_right _ he)
  · exact fun hC => (hp hC).trans (h.node.peers hC)

private theorem StaticCall.emit (hl : Logged n (n.emit e))
    (he : EffectOk (conf.Target db0) C e) : StaticCall conf db0 C (n.emit e) := by
  refine h.frame hl rfl rfl rfl rfl (fun _ => rfl) (fun _ => .inl) (or_of_mem_append ?_)
  simpa using he

private theorem StaticCall.target {peer : Nat × String × Bool}
    (hp : peer ∈ n.combinedPeers) : conf.Target db0 peer.2.1 := by
  simp only [combinedPeers, h.node.others, AList.empty_entries, map_nil, append_nil, mem_map,
    mem_filter, decide_eq_true_eq] at hp
  obtain ⟨m, ⟨hm, hne⟩, rfl⟩ := hp
  refine ⟨m.1, by rwa [← h.node.id], ?_⟩
  rw [← h.node.config]
  exact AList.mem_lookup_iff.2 hm

private theorem StaticCall.stepDown (t : Nat) (hint : Option String) :
    StaticCall conf db0 C (n.stepDownToFollower t hint) := by
  refine stepDownToFollower_induction n t hint (fun _ => ?_) (fun _ => ?_) fun m _ _ _ es hm hes => ?_
  · refine h.frame ⟨_, rfl, rfl⟩ rfl rfl rfl rfl (fun _ => rfl) (fun _ => .inl) (or_of_mem_append ?_)
    simp [EffectOk]
  · exact h.frame (.of_eq rfl rfl) rfl rfl rfl rfl (fun _ => rfl) (fun _ => .inl) fun e he => .inl he
  · refine hm.frame (.append rfl rfl fun e he w => ?_) rfl rfl rfl rfl (fun _ => rfl) (fun _ => .inl)
      (or_of_mem_append fun e he => ?_)
    · cases hes e he <;> simp
    · cases hes e he <;> trivial

end

private theorem snapshotWrites_ok (i t : Nat) (data : SnapshotData) (is : List Nat) :
    ∀ e ∈ [.write (.putSnapshotMeta i t), .write (.putSnapshotData data)] ++ is.map fun i => .write (.deleteLog i),
      EffectOk (conf.Target db0) C e := by
  simp only [mem_append, mem_cons, not_mem_nil, or_false, mem_map]
  rintro e ((rfl | rfl) | ⟨i, -, rfl⟩) <;> trivial

private theorem LogWrite.ok {P : LogEntry → Prop} (hP : ∀ e, P e → C e.command) (he : LogWrite P e) :
    EffectOk (conf.Target db0) C e := by
  cases he with
  | delete i => trivial
  | batch es hes => exact fun x hx => hP _ (hes x hx)

private theorem StaticCall.replicate (h : StaticCall conf db0 C n)
    (ha : ∀ e ∈ a.entries, C e.command) {l : List LogEntry} {s : AList fun _ : Nat => LogEntry}
    (hn : n' = n.withLog l s (es ++ [n.replicatedMark a])) (hl : Logged n n')
    (hes : ∀ e ∈ es, LogWrite (· ∈ a.entries) e)
    (hlog : ∀ e ∈ l, e ∈ n.log ∨ e ∈ a.entries) : StaticCall conf db0 C n' := by
  subst hn
  refine h.frame hl rfl rfl rfl rfl (fun _ => rfl) (fun e he => (hlog e he).imp_right (ha e)) fun e he => ?_
  simp only [withLog, mem_append, mem_singleton] at he
  rcases he with he | he | rfl
  · exact .inl he
  · exact .inr ((hes e he).ok ha)
  · exact .inr trivial

private theorem StaticCall.applyNext (hrec : ∀ c, C c → c.reconfigures = false) (h : StaticCall conf db0 C n) :
    StaticCall conf db0 C n.applyNext := by
  have hl := Logged.applyNext n
  obtain ⟨t, s, clock, reads, es, hn, hes, hc, hp, -⟩ := applyNext_eq n
  have hen : ∀ e, n.log[n.lastApplied + 1 - n.lastIncludedIndex]? = some e → C e.command :=
    fun e he => h.node.log e (mem_of_getElem? he)
  obtain ⟨h1, h2, -, -⟩ := hc fun e he => hrec _ (hen e he)
  rw [hn] at hl ⊢
  refine h.frame hl rfl h1 (congrArg ConfigChangeState.active h2) rfl (fun hC => ?_) (fun _ => .inl) fun e he => ?_
  · show t.peers = n.peers
    rw [hp fun e he => hC _ (hen e he)]
    rfl
  · rcases mem_append.1 he with he | he
    · exact .inl he
    · cases hes e he with
      | config c e he' hr | changeState c e he' hr => rw [hrec _ (hen e he')] at hr; cases hr
      | applied | read | reply => exact .inr trivial

private theorem StaticCall.act (hnp : C .noOp) (hrec : ∀ c, C c → c.reconfigures = false)
    (hD : ∀ m a tx, D m (some (.rpc (.appendEntries a) tx)) → ∀ e ∈ a.entries, C e.command)
    (h : StaticCall conf db0 C n) (ha : Act D False n n') : StaticCall conf db0 C n' := by
  have hl := ha.logged
  cases ha with
  | note | countVote | commitFollowing | commitMajority | commitAlone | matchAppend | matchSnapshot | ackAppend
  | ackSnapshot => exact h.frame hl rfl rfl rfl rfl (fun _ => rfl) (fun _ => .inl) fun _ => .inl
  | info e he => exact h.emit hl (by cases e <;> trivial)
  | stepDown t hint => exact h.stepDown t hint
  | stand =>
    rw [standForElection_eq] at hl ⊢
    exact h.frame hl rfl rfl rfl rfl (fun _ => rfl) (fun _ => .inl) (or_of_mem_append (by simp [EffectOk]))
  | grant a =>
    rw [grantVote_eq] at hl ⊢
    exact h.frame hl rfl rfl rfl rfl (fun _ => rfl) (fun _ => .inl) (or_of_mem_append (by simp [EffectOk]))
  | lead =>
    obtain ⟨next, hn⟩ := takeLeadership_eq n
    rw [hn] at hl ⊢
    refine h.frame hl rfl rfl rfl rfl (fun _ => rfl) (or_of_mem_append ?_) (or_of_mem_append ?_)
    · simpa using hnp
    · simpa [EffectOk] using hnp
  | askVote => exact h.emit hl trivial
  | sendSnapshot peer hp => exact h.emit hl ⟨h.target hp, rfl⟩
  | sendTimeout target addr hr hne hlk =>
    refine h.emit hl ⟨⟨target, ?_, ?_⟩, rfl⟩
    · rwa [← h.node.id]
    · rwa [← h.node.config]
  | respond msg tx m hm resp hans =>
    refine h.emit hl ?_
    cases hans with
    | vote | append | snapshot | timeout => rfl
    | echo msg hmsg => exact hmsg
  | sendAppend peer hp prev e hr he =>
    exact h.emit hl ⟨h.target hp, fun x hx => h.node.log x (mem_of_mem_drop hx)⟩
  | replicateAt a m tx hm =>
    obtain ⟨l, s, es, hn, hes, hlog⟩ := appendAtSnapshot_eq n a
    exact h.replicate (hD m a tx hm) hn hl hes hlog
  | replicateAfter a m tx hm =>
    obtain ⟨l, s, es, hn, hes, hlog⟩ := appendAfterSnapshot_eq n a
    exact h.replicate (hD m a tx hm) hn hl hes hlog
  | apply => exact h.applyNext hrec
  | checkReads =>
    obtain ⟨r, es, hn, hes⟩ := checkReadIndices_eq n
    rw [hn] at hl ⊢
    refine h.frame hl rfl rfl rfl rfl (fun _ => rfl) (fun _ => .inl) (or_of_mem_append fun e he => ?_)
    obtain ⟨x, -, -, -, rfl⟩ := hes e he
    trivial
  | compact =>
    rw [createSnapshot_eq] at hl ⊢
    refine h.frame hl rfl rfl rfl rfl (fun _ => rfl) ?_ ?_
    · rintro e he
      rcases mem_cons.1 he with rfl | he
      · exact .inr hnp
      · exact .inl (mem_of_mem_drop he)
    · rw [append_assoc]
      exact or_of_mem_append (snapshotWrites_ok _ _ _ _)
  | install a =>
    rw [installSnapshot_eq] at hl ⊢
    refine h.frame hl rfl rfl rfl rfl (fun _ => rfl) ?_ ?_
    · rintro e he
      rw [mem_singleton.1 he]
      exact .inr hnp
    · rw [append_assoc]
      exact or_of_mem_append (snapshotWrites_ok _ _ _ _)
  | propose c s o p hr hact =>
    rw [h.node.inactive] at hact
    simp at hact
  | transfer t ids => exact h.frame hl rfl rfl h.node.inactive.symm rfl (fun _ => rfl) (fun _ => .inl) fun _ =>
      .inl
  | addServers s hM => exact hM.elim

section

variable (h : StaticCall conf db0 C n)
include h

private theorem StaticCall.registerRead (tx : Nat) : StaticCall conf db0 C (n.registerRead tx) := by
  have hl : Logged n (n.registerRead tx) := .append rfl rfl (by simp)
  exact h.frame hl rfl rfl rfl rfl (fun _ => rfl) (fun _ => .inl) (or_of_mem_append (by simp [EffectOk]))

private theorem StaticCall.acceptRequests {requests : List (Command × Nat)} (hne : requests ≠ [])
    (hC : ∀ r ∈ requests, C r.1) : StaticCall conf db0 C (n.acceptRequests requests) := by
  have hl := Logged.acceptRequests n requests hne
  have hb : ∀ e ∈ n.batchEntries requests, C e.2.command := by
    intro e he
    obtain ⟨r, hr, rfl⟩ := mem_map.1 he
    exact hC r.1 (fst_mem_of_mem_zipIdx hr)
  rw [acceptRequests_eq n requests hne] at hl ⊢
  refine h.frame hl rfl rfl rfl rfl (fun _ => rfl) (or_of_mem_append ?_) ?_
  · intro e he
    obtain ⟨b, hb', rfl⟩ := mem_map.1 he
    exact hb b hb'
  · rw [append_assoc]
    refine or_of_mem_append ?_
    simp only [singleton_append, mem_cons, mem_map, forall_eq_or_imp]
    exact ⟨hb, by rintro e ⟨r, -, rfl⟩; trivial⟩

private theorem StaticCall.rejectRequests (requests : List (Command × Nat)) :
    StaticCall conf db0 C (n.rejectRequests requests) := by
  have hl : Logged n (n.rejectRequests requests) := by
    refine .append rfl rfl fun e he w => ?_
    obtain ⟨r, -, rfl⟩ := mem_map.1 he
    simp
  refine h.frame hl rfl rfl rfl rfl (fun _ => rfl) (fun _ => .inl) (or_of_mem_append fun e he => ?_)
  obtain ⟨r, -, rfl⟩ := mem_map.1 he
  trivial

end

end Acts

end RaftNode

structure StaticRun (d : Deployment) (C : Command → Prop) (c : Cluster) : Prop where
  node : ∀ i ∈ d.ids, NodeStatic (d.config i) (d.db i) C (c.node i)
  trace : ∀ x ∈ c.trace, EffectOk ((d.config x.1).Target (d.db x.1)) C x.2

/-- The databases hold no entry and no change of the configuration is going on. -/
structure Deployment.Quiet (d : Deployment) : Prop where
  id : ∀ i, (d.config i).id = i
  log : ∀ i ∈ d.ids, (d.db i).log = ∅
  inactive : ∀ i ∈ d.ids, (loadConfig (d.db i)).2.active = false

/-- Clients propose only commands with `C`, and nobody asks for a membership change. -/
def Label.Keeps (C : Command → Prop) (l : Label) : Prop :=
  ∀ i inv clock, l.call? = some (i, inv, clock) → ¬ inv.ChangesMembers i ∧ inv.Proposes C

variable {i : Nat}

section Runs

variable {d : Deployment} {C : Command → Prop} {ok : Cluster → Label → Prop} {c : Cluster} {tx : Option ReplyTx}

private theorem StaticRun.entries_ok (h : StaticRun d C c)
    (hd : Delivered d c i (.appendEntries a) tx) : ∀ e ∈ a.entries, C e.command := by
  cases tx with
  | some tx =>
    obtain ⟨addr, hs, -⟩ := hd
    exact (h.trace _ (mem_of_getElem? hs)).2
  | none =>
    obtain ⟨j, tx, hr, -⟩ := hd
    exact absurd (h.trace _ hr) (by simp [EffectOk, RpcMessage.isRequest])

/-- Requests are sent, and answers returned. -/
def Effect.Routed : Effect → Prop
  | .send _ msg => msg.isRequest = true
  | .respond _ msg => msg.isRequest = false
  | _ => True

def Trace.Routed (tr : Trace) : Prop := ∀ x ∈ tr, x.2.Routed

variable {msg : RpcMessage}

theorem Trace.Routed.isRequest (h : c.trace.Routed) {tx : ReplyTx}
    (hd : Delivered d c i msg (some tx)) : msg.isRequest = true := by
  obtain ⟨addr, hs, -⟩ := hd
  exact h _ (mem_of_getElem? hs)

theorem Trace.Routed.response (h : c.trace.Routed) (hd : Delivered d c i msg tx)
    (hm : msg.isRequest = false) : ∃ j tx, (j, Effect.respond tx msg) ∈ c.trace ∧ tx.requester = i := by
  cases tx with
  | some tx =>
    rw [h.isRequest hd] at hm
    cases hm
  | none => exact hd

theorem StaticRun.request (h : StaticRun d C c) (hd : Delivered d c i msg tx) (hm : msg.isRequest = true) :
    ∃ (k j : Nat) (addr : String), c.trace[k]? = some (j, Effect.send addr msg) ∧ d.resolve addr = some i := by
  cases tx with
  | some tx =>
    obtain ⟨addr, hs, hr⟩ := hd
    exact ⟨_, _, addr, hs, hr⟩
  | none =>
    obtain ⟨j, tx, hr, -⟩ := hd
    have := h.trace _ hr
    simp [EffectOk, hm] at this

theorem StaticRun.routed (h : StaticRun d C c) : c.trace.Routed := by
  rintro ⟨i, e⟩ hx
  have he := h.trace _ hx
  cases e with
  | send addr msg => cases msg <;> simp_all [EffectOk, Effect.Routed, RpcMessage.isRequest]
  | respond tx msg => exact he
  | _ => trivial

private theorem StaticRun.crashed (hq : d.Quiet) (hn : C .noOp) (h : StaticRun d C c) (hi : i ∈ d.ids)
    (hes : ∀ e ∈ es, EffectOk ((d.config i).Target (d.db i)) C e) : StaticRun d C (c.crashed d i es) where
  node := forall_update (Q := fun j => NodeStatic (d.config j) (d.db j) C)
    (fun _ => NodeStatic.boot ((h.node i hi).db.replay hes) hn (hq.inactive i hi)) fun j hj _ => h.node j hj
  trace := forall_mem_append.2 ⟨h.trace, forall_mem_map.2 hes⟩

private theorem StaticRun.during (h : StaticRun d C c) {n : RaftNode}
    (hn : n.StaticCall (d.config i) (d.db i) C) : StaticRun d C (c.during i n) where
  node := forall_update (Q := fun j => NodeStatic (d.config j) (d.db j) C) (fun _ => hn.node) fun j hj _ =>
    h.node j hj
  trace := forall_mem_append.2 ⟨h.trace, forall_mem_map.2 hn.out⟩

private theorem StaticRun.init (hq : d.Quiet) (hn : C .noOp) : StaticRun d C (Cluster.init d) where
  node := fun i hi => NodeStatic.boot ⟨rfl, rfl, by simp [hq.log i hi]⟩ hn (hq.inactive i hi)
  trace := by simp [Cluster.init]

theorem StaticRun.ready (h : StaticRun d C c) (hi : i ∈ d.ids) (clock : List Nat) :
    (c.ready i clock).StaticCall (d.config i) (d.db i) C :=
  have hn := h.node i hi
  ⟨{ hn with }, by simp [Cluster.ready]⟩

theorem StaticRun.call (hnp : C .noOp) (hrec : ∀ c, C c → c.reconfigures = false) (h : StaticRun d C c)
    {inv : Invocation} (n : RaftNode) (hen : inv.Enabled d c i) (hM : ¬ inv.ChangesMembers i)
    (hC : inv.Proposes C) :
    RaftNode.Preserves (RaftNode.TurnsTo n inv) (inv.ChangesMembers i)
      fun _ n => n.StaticCall (d.config i) (d.db i) C where
  mono := fun _ h => h
  act := by
    intro T n n' hn ha
    rw [eq_false hM] at ha
    exact hn.act hnp hrec (fun m a tx hm => h.entries_ok (hen.rpc _ _ hm.mem)) ha
  read := fun _ _ _ hn => hn.registerRead _
  accept := fun _ hne _ hr hn => hn.acceptRequests hne fun r hr' => hC _ _ (hr r hr').1.mem
  reject := fun _ _ _ hn => hn.rejectRequests _

/-- A run in which clients propose only commands with `C`, none of which replaces the configuration, and nobody
asks for a membership change. -/
theorem Reachable.static (hq : d.Quiet) (hnp : C .noOp) (hr : ∀ c, C c → c.reconfigures = false)
    (hok : ∀ c l, ok c l → Enabled d c l ∧ l.Keeps C) (h : Reachable d ok c) : StaticRun d C c := by
  refine h.invariant (fun _ i _ _ n => n.StaticCall (d.config i) (d.db i) C) (StaticRun.init hq hnp)
    (fun c l h => (hok c l h).1) (fun c i _ h hi => (h.node i hi).id.trans (hq.id i)) ?_ ?_ ?_ ?_ ?_
  · rintro c i inv clock - h hi -
    exact h.ready hi clock
  · intro c l i inv clock _ h hl hc hi hen
    obtain ⟨hM, hC⟩ := (hok c l hl).2 i inv clock hc
    exact h.call hnp hr _ hen hM hC
  · intro c i inv clock n _ _ h hi hn
    exact ⟨(h.during hn).node, (h.during hn).trace⟩
  · intro c i inv clock k n _ _ h hi hn
    have hes : ∀ e ∈ n.out.take k, EffectOk ((d.config i).Target (d.db i)) C e :=
      fun e he => hn.out e (mem_of_mem_take he)
    exact ⟨(h.crashed hq hnp hi hes).node, (h.crashed hq hnp hi hes).trace⟩
  · intro c i _ _ h hi
    exact h.crashed hq hnp hi (by simp)

end Runs

end RustHadoop
