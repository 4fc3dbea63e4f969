import Mathlib.Data.Finset.Option
import RustHadoop.Raft.Frames

/-!
# The elementary actions of a node

Every call of a node is a sequence of elementary actions (`Act`), each with the condition under which the code
takes it: standing for election, granting a vote, sending the entries after some position, taking over a leader's
entries, advancing the commit index, applying the next entry, and so on.  Two more kinds of action use up the reply
channel of a client: registering a read request and accepting or rejecting a batch of commands.

`Preserves` collects what has to be shown about an invariant, one condition per kind of action, and
`Preserves.invocation` concludes that it survives a whole call.
-/

namespace RustHadoop

open RaftNode List Event Prod

/-- The message asks for a response. -/
def RpcMessage.isRequest : RpcMessage → Bool
  | .requestVote _ | .appendEntries _ | .installSnapshot _ | .timeoutNow _ => true
  | _ => false

/-- A reply that tells a client nothing about the log. -/
def Effect.isInfo : Effect → Bool
  | .replyLeader _ _ | .replyInfo _ _ | .replyRead _ (.error _) _ => true
  | _ => false

/-- Servers are being added, or the configuration is joint. -/
def ConfigChangeState.active : ConfigChangeState → Bool
  | .addingServers _ _ | .inJointConsensus _ _ => true
  | _ => false

namespace RaftNode

/-- What is true of a response when it is sent. -/
inductive Answers (n : RaftNode) : RpcMessage → RpcMessage → Prop
  | vote (a : RequestVoteArgs) (granted : Bool) (h : granted = true → .voted n.currentTerm a.candidateId ∈ n.out) :
      Answers n (.requestVote a) (.requestVoteResponse ⟨n.currentTerm, granted, n.id⟩)
  | append (a : AppendEntriesArgs) (success : Bool) (index : Nat)
      (h : success = true → a.term = n.currentTerm ∧ .replicated n.currentTerm index ∈ n.out) :
      Answers n (.appendEntries a) (.appendEntriesResponse ⟨n.currentTerm, success, index, n.id⟩)
  | snapshot (a : InstallSnapshotArgs) :
      Answers n (.installSnapshot a) (.installSnapshotResponse ⟨n.currentTerm, n.lastIncludedIndex, n.id⟩)
  | timeout (a : TimeoutNowArgs) (r : TimeoutNowReply) : Answers n (.timeoutNow a) (.timeoutNowResponse r)
  | echo (msg : RpcMessage) (h : msg.isRequest = false) : Answers n msg msg

/-- The same node in a state with the same members and peers. -/
def SameMembers (n m : RaftNode) : Prop := n.id = m.id ∧ n.peers = m.peers ∧ n.clusterConfig = m.clusterConfig

/-- A configuration entry that a leader appends, and the state of the change afterwards: either a change begins, or
a tick finds the joint configuration of the change in progress committed.  `m` is the leader at the beginning of
that tick. -/
inductive Proposal (D : RaftNode → Option Event → Prop) (n : RaftNode) :
    MembershipCommand → ConfigChangeState → Prop
  | join (oldMembers newMembers : Members)
      (hs : n.configChangeState = .none ∨
        ∃ servers startTime, n.configChangeState = .addingServers servers startTime) :
      Proposal D n (.beginJointConsensus oldMembers newMembers (n.clusterConfig.version + 1))
        (.inJointConsensus (n.appendMembership
          (.beginJointConsensus oldMembers newMembers (n.clusterConfig.version + 1))).lastLogIndex newMembers)
  | finalize (m : RaftNode) (hD : D m none) (index : Nat) (target : Members)
      (hs : n.configChangeState = .inJointConsensus index target) (hi : index ≤ n.commitIndex)
      (hc : n.commitIndex = m.commitIndex) (hl : n.lastLogIndex = m.lastLogIndex ∨ n.lastLogIndex = index) :
      Proposal D n (.finalizeConfiguration target (n.clusterConfig.version + 1)) n.configChangeState

def indices (n : RaftNode) : Nat × Nat := (n.commitIndex, n.lastApplied)

/-- One elementary action of a node.  `D m e` says that the node, being `m`, turned to the event `e`, or to a tick;
`M` says whether it was asked for a membership change. -/
inductive Act (D : RaftNode → Option Event → Prop) (M : Prop) : RaftNode → RaftNode → Prop
  /-- changing fields on which nothing here depends -/
  | note (n : RaftNode) (leader : Option Nat) (address : Option String) (time votes : Nat) (next : List Nat)
      (progress : AList fun _ : Nat => CatchUpProgress) :
      Act D M n { n with
        currentLeader := leader, currentLeaderAddress := address, monotonicTime := time, votesReceived := votes
        nextIndex := next, catchUpProgress := progress }
  | info (n : RaftNode) (e : Effect) (he : e.isInfo = true) : Act D M n (n.emit e)
  | stepDown (n : RaftNode) (t : Nat) (hint : Option String) : Act D M n (n.stepDownToFollower t hint)
  | stand (n : RaftNode) (m : RaftNode) (event : Option Event) (hD : D m event) (hi : n.indices = m.indices)
      (h : n.role ≠ .leader ∨ ∃ m a tx, D m (some (.rpc (.timeoutNow a) tx)) ∧ a.term = n.currentTerm) :
      Act D M n n.standForElection
  | grant (n : RaftNode) (a : RequestVoteArgs) (m : RaftNode) (tx : Option ReplyTx)
      (hD : D m (some (.rpc (.requestVote a) tx)))
      (ht : a.term = n.currentTerm) (hv : n.votedFor = none ∨ n.votedFor = some a.candidateId)
      (hup : n.logIsUpToDate a = true) : Act D M n (n.grantVote a.candidateId)
  | countVote (n : RaftNode) (r : RequestVoteReply) (m : RaftNode) (tx : Option ReplyTx)
      (hD : D m (some (.rpc (.requestVoteResponse r) tx)))
      (hrole : n.role = .candidate) (ht : n.currentTerm = r.term) (hg : r.voteGranted = true) :
      Act D M n { n with votesReceived := n.votesReceived + 1, voters := insert r.peerId n.voters }
  | lead (n : RaftNode) (hrole : n.role = .candidate)
      (hm : n.clusterConfig.hasJointMajority n.voters = true ∨ n.clusterConfig.allMembers.entries.length = 1) :
      Act D M n n.takeLeadership
  | askVote (n : RaftNode) (addr : String) (hp : addr ∈ n.peers) (hrole : n.role = .candidate) :
      Act D M n (n.emit (.send addr (.requestVote n.voteRequest)))
  | sendAppend (n : RaftNode) (peer : Nat × String × Bool) (hp : peer ∈ n.combinedPeers) (prev : Nat)
      (e : LogEntry)
      (hrole : n.role = .leader) (he : n.log[prev]? = some e) :
      Act D M n (n.emit (.send peer.2.1 (.appendEntries (n.appendMessage prev e))))
  | sendSnapshot (n : RaftNode) (peer : Nat × String × Bool) (hp : peer ∈ n.combinedPeers)
      (hrole : n.role = .leader) :
      Act D M n (n.emit (.send peer.2.1 (.installSnapshot n.snapshotMessage)))
  | sendTimeout (n : RaftNode) (target : Nat) (addr : String) (hrole : n.role = .leader) (hne : target ≠ n.id)
      (ha : n.clusterConfig.allMembers.lookup target = some addr) :
      Act D M n (n.emit (.send addr (.timeoutNow ⟨n.currentTerm, n.id⟩)))
  | replicateAt (n : RaftNode) (a : AppendEntriesArgs) (m : RaftNode) (tx : Option ReplyTx)
      (hD : D m (some (.rpc (.appendEntries a) tx)))
      (hrole : n.role = .follower) (ht : a.term = n.currentTerm) (hi : a.prevLogIndex = n.lastIncludedIndex)
      (hp : a.prevLogTerm = n.lastIncludedTerm) : Act D M n (n.appendAtSnapshot a)
  | replicateAfter (n : RaftNode) (a : AppendEntriesArgs) (m : RaftNode) (tx : Option ReplyTx)
      (hD : D m (some (.rpc (.appendEntries a) tx)))
      (hrole : n.role = .follower) (ht : a.term = n.currentTerm) (hi : n.lastIncludedIndex < a.prevLogIndex)
      (e : LogEntry) (he : n.log[a.prevLogIndex - n.lastIncludedIndex]? = some e) (hp : e.term = a.prevLogTerm) :
      Act D M n (n.appendAfterSnapshot a)
  | commitFollowing (n : RaftNode) (a : AppendEntriesArgs) (m : RaftNode) (tx : Option ReplyTx)
      (hD : D m (some (.rpc (.appendEntries a) tx)))
      (hrole : n.role = .follower) (ht : a.term = n.currentTerm) (hr : n.replicatedMark a ∈ n.out)
      (hc : n.commitIndex < a.leaderCommit) :
      Act D M n { n with commitIndex := min a.leaderCommit n.lastLogIndex }
  | commitMajority (n : RaftNode) (index : Nat) (hrole : n.role = .leader) (hc : n.commitIndex < index)
      (hm : n.clusterConfig.hasJointMajority (n.acksFor index) = true) (e : LogEntry)
      (he : n.log[index - n.lastIncludedIndex]? = some e) (ht : e.term = n.currentTerm) :
      Act D M n { n with commitIndex := index }
  | commitAlone (n : RaftNode) (m : RaftNode) (event : Option Event) (hD : D m event) (hm : n.SameMembers m)
      (hrole : n.role = .leader) (hp : n.peers = []) (hc : n.commitIndex < n.lastLogIndex) :
      Act D M n { n with commitIndex := n.lastLogIndex }
  | apply (n : RaftNode) (h : n.lastApplied < n.commitIndex) : Act D M n n.applyNext
  | matchAppend (n : RaftNode) (r : AppendEntriesReply) (m : RaftNode) (tx : Option ReplyTx)
      (hD : D m (some (.rpc (.appendEntriesResponse r) tx)))
      (hrole : n.role = .leader) (ht : r.term = n.currentTerm) (hs : r.success = true) (i : Nat)
      (hi : n.peerIndex r.peerId = some i) : Act D M n (n.recordMatch i r.matchIndex)
  | matchSnapshot (n : RaftNode) (r : InstallSnapshotReply) (m : RaftNode) (tx : Option ReplyTx)
      (hD : D m (some (.rpc (.installSnapshotResponse r) tx))) (hrole : n.role = .leader)
        (ht : r.term = n.currentTerm)
      (i : Nat) :
      Act D M n (n.recordMatch i r.lastIncludedIndex)
  | ackAppend (n : RaftNode) (r : AppendEntriesReply) (m : RaftNode) (tx : Option ReplyTx)
      (hD : D m (some (.rpc (.appendEntriesResponse r) tx)))
      (hrole : n.role = .leader) (ht : r.term = n.currentTerm) (hs : r.success = true)
      (hm : n.pendingReadIndices = m.pendingReadIndices) : Act D M n (n.ackReads r.peerId)
  | ackSnapshot (n : RaftNode) (r : InstallSnapshotReply) (m : RaftNode) (tx : Option ReplyTx)
      (hD : D m (some (.rpc (.installSnapshotResponse r) tx))) (hrole : n.role = .leader)
        (ht : r.term = n.currentTerm)
      (hm : n.pendingReadIndices = m.pendingReadIndices) : Act D M n (n.ackReads r.peerId)
  | checkReads (n : RaftNode) : Act D M n n.checkReadIndices
  | compact (n : RaftNode) (h : n.lastIncludedIndex < n.lastApplied) : Act D M n n.createSnapshot
  | install (n : RaftNode) (a : InstallSnapshotArgs) (m : RaftNode) (tx : Option ReplyTx)
      (hD : D m (some (.rpc (.installSnapshot a) tx)))
      (hrole : n.role = .follower) (ht : a.term = n.currentTerm) (hi : n.lastIncludedIndex < a.lastIncludedIndex)
      (hm : n = { m.stepDownToFollower a.term none with currentLeader := some a.leaderId }) :
      Act D M n (n.installSnapshot a.lastIncludedIndex a.lastIncludedTerm a.data)
  | respond (n : RaftNode) (msg : RpcMessage) (tx : ReplyTx) (m : RaftNode)
      (hD : D m (some (.rpc msg (some tx)))) (resp : RpcMessage)
      (h : n.Answers msg resp) : Act D M n (n.emit (.respond tx resp))
  | propose (n : RaftNode) (command : MembershipCommand) (state : ConfigChangeState) (others : Members)
      (progress : AList fun _ : Nat => CatchUpProgress) (hrole : n.role = .leader)
      (h : n.configChangeState.active = true ∨ M) (hp : n.Proposal D command state) :
      Act D M n { n.appendMembership command with
        configChangeState := state, nonVotingMembers := others, catchUpProgress := progress }
  | transfer (n : RaftNode) (target : Nat) (serverIds : List Nat) (hs : n.configChangeState = .none) :
      Act D M n { n with configChangeState := .transferringLeadership target serverIds }
  | addServers (n : RaftNode) (servers : Members) (h : M) : Act D M n (n.handleAddServersRequest servers).1

abbrev Acts (D : RaftNode → Option Event → Prop) (M : Prop) : RaftNode → RaftNode → Prop :=
  Relation.ReflTransGen (Act D M)

variable {D : RaftNode → Option Event → Prop}

theorem Act.logged {M : Prop} {n n' : RaftNode} (h : Act D M n n') : Logged n n' := by
  cases h with
  | note | countVote | commitFollowing | commitMajority | commitAlone | matchAppend | matchSnapshot | ackAppend
  | ackSnapshot | transfer => exact .of_eq rfl rfl
  | info e he => exact .emit n e (by rintro w rfl; cases he)
  | stepDown t hint => exact .stepDownToFollower n t hint
  | stand => rw [standForElection_eq]; exact ⟨_, rfl, rfl⟩
  | grant a => rw [grantVote_eq]; exact ⟨_, rfl, rfl⟩
  | lead => obtain ⟨next, h⟩ := takeLeadership_eq n; rw [h]; exact ⟨_, rfl, rfl⟩
  | askVote | sendAppend | sendSnapshot | sendTimeout | respond => exact .emit n _ (by simp)
  | replicateAt a => exact .appendAtSnapshot n a
  | replicateAfter a => exact .appendAfterSnapshot n a
  | apply => exact .applyNext n
  | checkReads =>
    obtain ⟨r, es, h, hes⟩ := checkReadIndices_eq n
    rw [h]
    refine .append rfl rfl fun e he w => ?_
    obtain ⟨x, -, -, -, rfl⟩ := hes e he
    simp
  | compact => exact .createSnapshot n
  | install a => exact .installSnapshot n _ _ _
  | propose c s o p =>
      exact (Logged.of_eq rfl rfl).trans ((Logged.put { n with log := _ } _).trans (.of_eq rfl rfl))
  | addServers servers =>
    unfold handleAddServersRequest
    repeat' split
    all_goals exact .of_eq rfl rfl

/-- Exactly what is committed is applied. -/
def Settled (n : RaftNode) : Prop := n.commitIndex = n.lastApplied

theorem Settled.of_indices {n n' : RaftNode} (h : n.Settled) (hi : n'.indices = n.indices) : n'.Settled :=
  (congrArg fst hi).trans (h.trans (congrArg snd hi).symm)

/-- Everything committed is applied. -/
def Drained (n : RaftNode) : Prop := n.commitIndex ≤ n.lastApplied

theorem Drained.of_indices {n n' : RaftNode} (h : n.Drained) (hi : n'.indices = n.indices) : n'.Drained :=
  (congrArg fst hi).trans_le (h.trans_eq (congrArg snd hi).symm)

/-- Actions after which everything committed is applied, if it was before. -/
structure Steps (D : RaftNode → Option Event → Prop) (M : Prop) (n n' : RaftNode) : Prop where
  acts : Acts D M n n'
  drained : n.Drained → n'.Drained

structure Moves (D : RaftNode → Option Event → Prop) (M : Prop) (n n' : RaftNode) :
    Prop extends Steps D M n n' where
  settled : n.Settled → n'.Settled

section Calls

variable {D : RaftNode → Option Event → Prop} {M : Prop} {n m n' : RaftNode}

namespace Moves

theorem refl : Moves D M n n := ⟨⟨.refl, fun hd => hd⟩, fun hs => hs⟩

theorem trans (h : Moves D M n m) (h' : Moves D M m n') : Moves D M n n' :=
  ⟨⟨h.acts.trans h'.acts, fun hd => h'.drained (h.drained hd)⟩, fun hs => h'.settled (h.settled hs)⟩

theorem act (h : Act D M n n') (hi : n'.indices = n.indices) : Moves D M n n' :=
  ⟨⟨.single h, fun hd => hd.of_indices hi⟩, fun hs => hs.of_indices hi⟩

theorem head (h : Act D M n m) (hi : m.indices = n.indices) (h' : Moves D M m n') : Moves D M n n' :=
  (act h hi).trans h'

theorem tail (h : Moves D M n m) (h' : Act D M m n') (hi : n'.indices = m.indices) : Moves D M n n' :=
  h.trans (act h' hi)

end Moves

theorem iterate_applyNext_indices (k : Nat) (n : RaftNode) :
    (applyNext^[k] n).commitIndex = n.commitIndex ∧ (applyNext^[k] n).lastApplied = n.lastApplied + k := by
  induction k with
  | zero => exact ⟨rfl, rfl⟩
  | succ k ih =>
    obtain ⟨-, -, ha, -, hc⟩ := applyNext_fields (applyNext^[k] n)
    rw [Function.iterate_succ_apply', ha, hc]
    exact ⟨ih.1, congrArg (· + 1) ih.2⟩

private theorem Acts.iterate (k : Nat) (n : RaftNode) (h : n.lastApplied + k ≤ n.commitIndex) :
    Acts D M n (applyNext^[k] n) := by
  induction k with
  | zero => exact .refl
  | succ k ih =>
    obtain ⟨hc, ha⟩ := iterate_applyNext_indices k n
    rw [Function.iterate_succ_apply']
    exact .tail (ih (by omega)) (.apply _ (by omega))

theorem Acts.applyLogs (n : RaftNode) : Acts D M n n.applyLogs := by
  rcases Nat.le_total n.commitIndex n.lastApplied with h | h
  · unfold RaftNode.applyLogs
    rw [Nat.sub_eq_zero_of_le h]
    exact .refl
  · exact Acts.iterate _ n (by omega)

theorem drained_applyLogs (n : RaftNode) : n.applyLogs.Drained := by
  obtain ⟨h₁, h₂⟩ := iterate_applyNext_indices (n.commitIndex - n.lastApplied) n
  rw [Drained, applyLogs, h₁, h₂]
  omega

theorem settled_applyLogs (h : n.lastApplied ≤ n.commitIndex) : n.applyLogs.Settled := by
  obtain ⟨h₁, h₂⟩ := iterate_applyNext_indices (n.commitIndex - n.lastApplied) n
  rw [Settled, applyLogs, h₁, h₂]
  omega

theorem Moves.commit (h : Act D M n m) (hle : n.Settled → m.lastApplied ≤ m.commitIndex) :
    Moves D M n m.applyLogs :=
  ⟨⟨.head h (Acts.applyLogs m), fun _ => drained_applyLogs m⟩, fun hs => settled_applyLogs (hle hs)⟩

variable (n)

theorem stepDownToFollower_indices (t : Nat) (hint : Option String) :
    (n.stepDownToFollower t hint).indices = n.indices := by
  have hl := stepDownToFollower_log n t hint
  rw [indices, hl.2.2.1, hl.2.2.2]
  rfl

theorem Moves.stepDown (t : Nat) (hint : Option String) : Moves D M n (n.stepDownToFollower t hint) :=
  .act (.stepDown n t hint) (stepDownToFollower_indices n t hint)

private theorem Moves.applyLogs : Moves D M n n.applyLogs :=
  ⟨⟨Acts.applyLogs n, fun _ => drained_applyLogs n⟩, fun hs => settled_applyLogs hs.ge⟩

private theorem commitAlone_role : n.commitAlone.role = n.role := by
  unfold commitAlone
  split
  · exact (applyLogs_frame _).2.1
  · rfl

theorem Moves.commitAlone (m : RaftNode) (event : Option Event) (hD : D m event) (hm : n.SameMembers m)
    (hr : n.role = .leader) : Moves D M n n.commitAlone := by
  unfold RaftNode.commitAlone
  split
  · rename_i h
    exact .commit (.commitAlone n m event hD hm hr (by simpa using h.1) h.2) fun hs => hs.ge.trans h.2.le
  · exact .refl

theorem Moves.becomeLeader (m : RaftNode) (event : Option Event) (hD : D m event) (hs : n.SameMembers m)
    (hr : n.role = .candidate)
    (hm : n.clusterConfig.hasJointMajority n.voters = true ∨ n.clusterConfig.allMembers.entries.length = 1) :
    Moves D M n n.becomeLeader := by
  have hl :
      n.takeLeadership.role = .leader ∧ n.takeLeadership.SameMembers m ∧ n.takeLeadership.indices = n.indices := by
    obtain ⟨next, h⟩ := takeLeadership_eq n
    rw [h]
    exact ⟨rfl, hs, rfl⟩
  exact .head (.lead n hr hm) hl.2.2 (.commitAlone _ m event hD hl.2.1 hl.1)

private theorem Moves.askVotes (peers : List String) (n : RaftNode) (args : RequestVoteArgs)
    (hp : ∀ p ∈ peers, p ∈ n.peers) (hr : n.role = .candidate) (ha : n.voteRequest = args) :
    Moves D M n (peers.foldl (fun n peer => n.emit (.send peer (.requestVote args))) n) := by
  induction peers generalizing n with
  | nil => exact .refl
  | cons p ps ih =>
    subst ha
    refine .head (.askVote n p (hp p (mem_cons_self ..)) hr) rfl ?_
    exact ih (n.emit (.send p (.requestVote n.voteRequest))) (fun q hq => hp q (mem_cons_of_mem _ hq)) hr rfl

private theorem Moves.startElection (m : RaftNode) (event : Option Event) (hD : D m event) (hs : n.SameMembers m)
    (hi : n.indices = m.indices) (hr : n.role ≠ .leader) : Moves D M n n.startElection := by
  have hc : n.standForElection.role = .candidate := by rw [standForElection_eq]
  have hs' : n.standForElection.SameMembers m := by rw [standForElection_eq]; exact hs
  refine .head (.stand n m event hD hi (.inl hr)) rfl ?_
  unfold RaftNode.startElection
  dsimp only
  split
  · rename_i h
    exact .becomeLeader _ m event hD hs' hc (.inr h)
  · exact .askVotes _ _ _ (fun _ h => h) hc rfl

private theorem Moves.replicateTo (i : Nat) (peer : Nat × String × Bool) (hp : peer ∈ n.combinedPeers)
    (hr : n.role = .leader) : Moves D M n (n.replicateTo i peer.2.1) := by
  unfold RaftNode.replicateTo
  split
  · exact .refl
  · split
    · exact .act (.sendSnapshot n peer hp hr) rfl
    · dsimp only
      split
      · exact .act (.note n _ _ _ _ _ _) rfl
      · rename_i e he
        exact .act (.sendAppend n peer hp _ e hr he) rfl

private theorem Moves.heartbeatPeer (rank : Nat) (peer : Nat × String × Bool)
    (hp : peer ∈ n.combinedPeers) (hr : n.role = .leader) : Moves D M n (n.heartbeatPeer rank peer) := by
  unfold RaftNode.heartbeatPeer
  split
  · exact .refl
  · exact .replicateTo n _ _ hp hr

theorem Moves.sendHeartbeats (hr : n.role = .leader) : Moves D M n n.sendHeartbeats := by
  unfold RaftNode.sendHeartbeats
  have hps : ∀ p ∈ n.combinedPeers.zipIdx, p.1 ∈ n.combinedPeers := fun p hp => fst_mem_of_mem_zipIdx hp
  generalize n.combinedPeers.zipIdx = ps at hps
  induction ps generalizing n with
  | nil => exact .refl
  | cons p ps ih =>
    obtain ⟨next, es, h⟩ := heartbeatPeer_eq n p.2 p.1
    have hl :
        (n.heartbeatPeer p.2 p.1).role = .leader ∧ (n.heartbeatPeer p.2 p.1).combinedPeers = n.combinedPeers := by
      rw [h]
      exact ⟨hr, rfl⟩
    refine .trans (.heartbeatPeer n p.2 p.1 (hps p (mem_cons_self ..)) hr) (ih _ hl.1 ?_)
    rw [hl.2]
    exact fun q hq => hps q (mem_cons_of_mem _ hq)

theorem Moves.stepDownForgetting (t : Nat) : Moves D M n (n.stepDownForgetting t) :=
  .tail (.stepDown n t none) (.note (n.stepDownToFollower t none) none none _ _ _ _) rfl

private theorem handleRequestVote_moves (a : RequestVoteArgs) (tx : Option ReplyTx)
    (hD : D n (some (.rpc (.requestVote a) tx))) :
    Moves D M n (n.handleRequestVote a).1 ∧
      (n.handleRequestVote a).1.Answers (.requestVote a) (n.handleRequestVote a).2 := by
  unfold handleRequestVote
  split
  · rename_i hle
    dsimp only
    have hs : ∃ m, (if n.currentTerm < a.term then n.stepDownForgetting a.term else n) = m ∧ Moves D M n m ∧
        a.term = m.currentTerm := by
      refine ⟨_, rfl, ?_⟩
      split
      · rename_i hlt
        exact ⟨Moves.stepDownForgetting n a.term, (stepDownToFollower_currentTerm n a.term none (by omega)).symm⟩
      · exact ⟨.refl, by omega⟩
    obtain ⟨m, hm, hmv, ht⟩ := hs
    rw [hm]
    split
    · rename_i hg
      refine ⟨.tail hmv (.grant m a n tx hD ht hg.1 hg.2) rfl, .vote a true fun _ => ?_⟩
      rw [grantVote_eq]
      simp
    · exact ⟨hmv, .vote a false (by simp)⟩
  · exact ⟨.refl, .vote a false (by simp)⟩

private theorem handleRequestVoteResponse_moves (r : RequestVoteReply) (tx : Option ReplyTx)
    (hD : D n (some (.rpc (.requestVoteResponse r) tx))) : Moves D M n (n.handleRequestVoteResponse r) := by
  unfold handleRequestVoteResponse
  split
  · rename_i h
    refine .head (.countVote n r n tx hD h.1 h.2.1 h.2.2) rfl ?_
    dsimp only
    split
    · rename_i hm
      exact .becomeLeader _ n _ hD ⟨rfl, rfl, rfl⟩ h.1 (.inl hm)
    · exact .refl
  · split
    · exact .stepDownForgetting n r.term
    · exact .refl

private theorem replicateEntries_acts (m : RaftNode) (a : AppendEntriesArgs) (tx : Option ReplyTx)
    (hD : D m (some (.rpc (.appendEntries a) tx))) (hr : n.role = .follower) (ht : a.term = n.currentTerm) :
    Acts D M n (n.replicateEntries a).1 ∧ ((n.replicateEntries a).1.role = .follower) ∧
      a.term = (n.replicateEntries a).1.currentTerm ∧
      ((n.replicateEntries a).2.1 = true →
        (n.replicateEntries a).1.replicatedMark a ∈ (n.replicateEntries a).1.out ∧
        (n.replicateEntries a).2.2 = a.prevLogIndex + a.entries.length) := by
  unfold replicateEntries
  split
  · exact ⟨.refl, hr, ht, by simp⟩
  · split
    · split
      · rename_i hi hp
        obtain ⟨l, d, es, h, -⟩ := appendAtSnapshot_eq n a
        refine ⟨.single (.replicateAt n a m tx hD hr ht hi hp), ?_⟩
        dsimp only
        rw [h]
        exact ⟨hr, ht, fun _ => ⟨by simp [withLog, replicatedMark], rfl⟩⟩
      · exact ⟨.refl, hr, ht, by simp⟩
    · split
      · rename_i h1 h2 e he
        split
        · rename_i hp
          obtain ⟨l, d, es, h, -⟩ := appendAfterSnapshot_eq n a
          refine ⟨.single (.replicateAfter n a m tx hD hr ht (by omega) e he hp), ?_⟩
          dsimp only
          rw [h]
          exact ⟨hr, ht, fun _ => ⟨by simp [withLog, replicatedMark], rfl⟩⟩
        · exact ⟨.refl, hr, ht, by simp⟩
      · exact ⟨.refl, hr, ht, by simp⟩

theorem replicateEntries_indices (a : AppendEntriesArgs) : (n.replicateEntries a).1.indices = n.indices := by
  obtain ⟨l, d, es, h, -⟩ := appendAtSnapshot_eq n a
  obtain ⟨l', d', es', h', -⟩ := appendAfterSnapshot_eq n a
  unfold replicateEntries
  repeat' split
  all_goals first | rfl | (dsimp only; rw [h]; rfl) | (dsimp only; rw [h']; rfl)

private theorem handleAppendEntries_steps (a : AppendEntriesArgs) (tx : Option ReplyTx)
    (hD : D n (some (.rpc (.appendEntries a) tx))) :
    Steps D M n (n.handleAppendEntries a).1 ∧
      (n.handleAppendEntries a).1.Answers (.appendEntries a) (n.handleAppendEntries a).2 := by
  unfold handleAppendEntries
  split
  · rename_i hle
    dsimp only
    set m : RaftNode :=
      { n.stepDownToFollower a.term (some a.leaderAddress) with currentLeader := some a.leaderId }
      with hm
    have hst : Acts D M n m := .tail (.single (.stepDown n a.term (some a.leaderAddress))) (.note _ _ _ _ _ _ _)
    have hr : m.role = .follower := stepDownToFollower_role n a.term _
    have htr : a.term = m.currentTerm := (stepDownToFollower_currentTerm n a.term _ hle).symm
    obtain ⟨ha, hr', ht', hmr⟩ := replicateEntries_acts (M := M) m n a tx hD hr htr
    have hi : (m.replicateEntries a).1.indices = n.indices :=
      (replicateEntries_indices m a).trans (stepDownToFollower_indices n a.term (some a.leaderAddress))
    cases hs : (m.replicateEntries a).2.1 with
    | false =>
      simp only [Bool.false_eq_true, if_false]
      exact ⟨⟨hst.trans ha, fun hd => hd.of_indices hi⟩, .append a false _ (by simp)⟩
    | true =>
      obtain ⟨hin, hidx⟩ := hmr hs
      simp only [if_true]
      unfold followCommit
      split
      · rename_i hc
        obtain ⟨-, -, ht, es, ho⟩ :=
          applyLogs_frame { (m.replicateEntries a).1 with
            commitIndex := min a.leaderCommit (m.replicateEntries a).1.lastLogIndex }
        refine ⟨⟨hst.trans (ha.trans (.head (.commitFollowing _ a n tx hD hr' ht' hin hc) (Acts.applyLogs _))),
          fun _ => drained_applyLogs _⟩, .append a true _ fun _ => ⟨by rw [ht]; exact ht', ?_⟩⟩
        rw [ho, ht, hidx]
        exact mem_append_left _ hin
      · exact ⟨⟨hst.trans ha, fun hd => hd.of_indices hi⟩,
          .append a true _ fun _ => ⟨ht', by rw [hidx]; exact hin⟩⟩
  · exact ⟨⟨.refl, fun hd => hd⟩, .append a false 0 (by simp)⟩

private theorem Moves.advanceCommit (hr : n.role = .leader) : Moves D M n n.advanceCommit := by
  unfold RaftNode.advanceCommit
  dsimp only
  split
  · rename_i hc
    have hm : n.clusterConfig.hasJointMajority (n.acksFor n.majorityMatchIndex) = true := by
      unfold majorityMatchIndex at hc ⊢
      cases hf : ((n.serverMatchIndices.map snd).insertionSort (· ≥ ·)).find? fun index =>
          n.clusterConfig.hasJointMajority (n.acksFor index) with
      | none =>
        rw [hf] at hc
        exact absurd hc (Nat.lt_irrefl _)
      | some index =>
        have := find?_some hf
        simpa using this
    split
    · rename_i e he
      split
      · rename_i ht
        exact .commit (.commitMajority n _ hr hc hm e he ht) fun hs => hs.ge.trans hc.le
      · exact .refl
    · exact .refl
  · exact .refl

section

variable (r : AppendEntriesReply) (tx : Option ReplyTx) (hD : D n (some (.rpc (.appendEntriesResponse r) tx)))
include r tx hD

private theorem recordAppendResponse_moves (hr : n.role = .leader) (ht : r.term = n.currentTerm) :
    Moves D M n (n.recordAppendResponse r) ∧ (n.recordAppendResponse r).role = .leader := by
  unfold recordAppendResponse
  split
  · rename_i i hi
    split
    · rename_i hs
      have hp : ∃ progress, (n.recordMatch i r.matchIndex).recordProgress r.peerId r.matchIndex =
          { n.recordMatch i r.matchIndex with catchUpProgress := progress } := by
        unfold recordProgress
        split
        · exact ⟨_, rfl⟩
        · exact ⟨_, rfl⟩
      obtain ⟨progress, hp⟩ := hp
      rw [hp]
      refine ⟨?_, hr⟩
      refine .head (.matchAppend n r n tx hD hr ht hs i hi) rfl ?_
      refine .head (.note _ n.currentLeader n.currentLeaderAddress n.monotonicTime n.votesReceived
        (n.nextIndex.set i (r.matchIndex + 1)) progress) rfl ?_
      refine .head (.ackAppend _ r n tx hD hr ht hs rfl) rfl ?_
      exact .act (.checkReads _) rfl
    · split
      · exact ⟨.act (.note n _ _ _ _ _ _) rfl, hr⟩
      · exact ⟨.refl, hr⟩
  · exact ⟨.refl, hr⟩

private theorem handleAppendEntriesResponse_moves : Moves D M n (n.handleAppendEntriesResponse r) := by
  unfold handleAppendEntriesResponse
  split
  · rename_i h
    obtain ⟨hm, hr⟩ := recordAppendResponse_moves (M := M) n r tx hD h.1 h.2
    exact hm.trans (.advanceCommit _ hr)
  · split
    · exact .stepDownForgetting n r.term
    · exact .refl

end

private theorem handleInstallSnapshot_moves (a : InstallSnapshotArgs) (tx : Option ReplyTx)
    (hD : D n (some (.rpc (.installSnapshot a) tx))) :
    Moves D M n (n.handleInstallSnapshot a).1 ∧
      (n.handleInstallSnapshot a).1.Answers (.installSnapshot a) (n.handleInstallSnapshot a).2 := by
  refine ⟨?_, .snapshot a⟩
  unfold handleInstallSnapshot
  dsimp only
  split
  · rename_i hle
    have hs : Moves D M n { n.stepDownToFollower a.term none with currentLeader := some a.leaderId } :=
      .tail (.stepDown n a.term none) (.note _ _ _ _ _ _ _) rfl
    split
    · rename_i hi
      have hst (m : RaftNode) : (m.installSnapshot a.lastIncludedIndex a.lastIncludedTerm a.data).Settled := by
        rw [installSnapshot_eq]
        rfl
      refine hs.trans ⟨⟨.single (.install _ a n tx hD ?_ ?_ hi rfl), fun _ => (hst _).le⟩, fun _ => hst _⟩
      · exact stepDownToFollower_role n a.term none
      · exact (stepDownToFollower_currentTerm n a.term none hle).symm
    · exact hs
  · exact .refl

private theorem handleInstallSnapshotResponse_moves (r : InstallSnapshotReply) (tx : Option ReplyTx)
    (hD : D n (some (.rpc (.installSnapshotResponse r) tx))) :
    Moves D M n (n.handleInstallSnapshotResponse r) := by
  unfold handleInstallSnapshotResponse
  split
  · rename_i h
    split
    · rename_i i hi
      refine .head (.matchSnapshot n r n tx hD h.1 h.2 i) rfl ?_
      refine .head (.ackSnapshot _ r n tx hD h.1 h.2 rfl) rfl ?_
      exact .act (.checkReads _) rfl
    · exact .refl
  · split
    · exact .stepDownForgetting n r.term
    · exact .refl

private theorem handleTimeoutNow_moves (a : TimeoutNowArgs) (tx : Option ReplyTx)
    (hD : D n (some (.rpc (.timeoutNow a) tx))) :
    Moves D M n (n.handleTimeoutNow a).1 ∧
      (n.handleTimeoutNow a).1.Answers (.timeoutNow a) (n.handleTimeoutNow a).2 := by
  unfold handleTimeoutNow
  split
  · exact ⟨.refl, .timeout a _⟩
  · rename_i hle
    refine ⟨?_, .timeout a _⟩
    dsimp only
    split
    · exact .tail (.stepDown n a.term none)
        (.stand _ n _ hD (stepDownToFollower_indices n a.term none) (.inl (by simp))) rfl
    · rename_i hlt
      exact .act (.stand n n _ hD rfl (.inr ⟨n, a, tx, hD, by omega⟩)) rfl

section

variable (msg : RpcMessage) (tx : Option ReplyTx) (hD : D n (some (.rpc msg tx)))
include msg tx hD

/-- Only `AppendEntries` can leave committed entries behind that are not applied: a leader may say that more is
committed than the log holds. -/
theorem handleRpc_steps : Steps D M n (n.handleRpc msg).1 ∧ (n.handleRpc msg).1.Answers msg (n.handleRpc msg).2 ∧
      ((∀ a, msg ≠ .appendEntries a) → n.Settled → (n.handleRpc msg).1.Settled) := by
  have hm : ∀ {n' : RaftNode} {resp : RpcMessage}, Moves D M n n' ∧ n'.Answers msg resp →
      Steps D M n n' ∧ n'.Answers msg resp ∧ ((∀ a, msg ≠ .appendEntries a) → n.Settled → n'.Settled) :=
    fun h => ⟨h.1.toSteps, h.2, fun _ => h.1.settled⟩
  cases msg with
  | requestVote a => exact hm (handleRequestVote_moves n a tx hD)
  | requestVoteResponse r => exact hm ⟨handleRequestVoteResponse_moves n r tx hD, .echo _ rfl⟩
  | appendEntries a =>
    obtain ⟨hs, ha⟩ := handleAppendEntries_steps (M := M) n a tx hD
    exact ⟨hs, ha, fun hne => absurd rfl (hne a)⟩
  | appendEntriesResponse r => exact hm ⟨handleAppendEntriesResponse_moves n r tx hD, .echo _ rfl⟩
  | installSnapshot a => exact hm (handleInstallSnapshot_moves n a tx hD)
  | installSnapshotResponse r => exact hm ⟨handleInstallSnapshotResponse_moves n r tx hD, .echo _ rfl⟩
  | timeoutNow a => exact hm (handleTimeoutNow_moves n a tx hD)
  | timeoutNowResponse r => exact hm ⟨.refl, .echo _ rfl⟩

theorem handleRpcEvent_steps : Steps D M n (n.handleEvent (.rpc msg tx)) ∧
      ((∀ a, msg ≠ .appendEntries a) → n.Settled → (n.handleEvent (.rpc msg tx)).Settled) := by
  obtain ⟨hs, ha, hst⟩ := handleRpc_steps (M := M) n msg tx hD
  cases tx with
  | none => exact ⟨hs, hst⟩
  | some tx => exact ⟨⟨.tail hs.acts (.respond _ msg tx n hD _ ha), hs.drained⟩, hst⟩

end

theorem handleGetReadIndex_moves (tx : Nat) :
    n.role = .leader ∧ Moves D M (n.registerRead tx) (n.handleGetReadIndex tx) ∨
      Moves D M n (n.handleGetReadIndex tx) := by
  have hc : Moves D M (n.registerRead tx) (n.registerRead tx).checkReadIndices := .act (.checkReads _) rfl
  unfold handleGetReadIndex
  dsimp only
  split
  · rename_i hr
    refine .inl ⟨hr, ?_⟩
    repeat' split
    · exact hc
    · exact hc.trans (.sendHeartbeats _ hr)
    · exact .refl
    · exact .sendHeartbeats _ hr
  · exact .inr (.act (.info n _ rfl) rfl)

theorem handleClientRequests_moves (requests : List (Command × Nat)) (hD : requests ≠ [] → ∃ event, D n event) :
    n.handleClientRequests requests = n ∨
      n.role = .leader ∧ requests ≠ [] ∧ Moves D M (n.acceptRequests requests) (n.handleClientRequests requests) ∨
      n.role ≠ .leader ∧ n.handleClientRequests requests = n.rejectRequests requests := by
  unfold handleClientRequests
  split
  · exact .inl rfl
  · rename_i he
    have hne : requests ≠ [] := by simpa using he
    split
    · rename_i hr
      have hl : (n.acceptRequests requests).role = .leader ∧ (n.acceptRequests requests).SameMembers n := by
        rw [acceptRequests_eq n requests hne]
        exact ⟨hr, rfl, rfl, rfl⟩
      obtain ⟨event, hev⟩ := hD hne
      exact .inr (.inl ⟨hr, hne, (Moves.commitAlone _ n event hev hl.2 hl.1).trans
        (.sendHeartbeats _ ((commitAlone_role _).trans hl.1))⟩)
    · rename_i hr
      exact .inr (.inr ⟨hr, rfl⟩)

private theorem Moves.applyAndCompact : Moves D M n n.applyAndCompact := by
  unfold RaftNode.applyAndCompact
  dsimp only
  split
  · rename_i h
    exact .tail (.applyLogs n) (.compact _ h.2) (by rw [createSnapshot_eq]; rfl)
  · exact .applyLogs n

private theorem Act.enterJoint (old new : Members) (others : Members)
    (progress : AList fun _ : Nat => CatchUpProgress) (hr : n.role = .leader)
    (h : n.configChangeState.active = true ∨ M) (hs : n.configChangeState = .none ∨
      ∃ servers startTime, n.configChangeState = .addingServers servers startTime) :
    Act D M n { n.enterJointConsensus old new with nonVotingMembers := others, catchUpProgress := progress } :=
  .propose n (.beginJointConsensus old new (n.clusterConfig.version + 1)) _ others progress hr h (.join old new hs)

theorem Moves.checkPromote (m : RaftNode) (hr : n.role = .leader) (h : n.checkPromoteNonVotingMembers = .ok m) :
    Moves D M n m ∧ m.role = .leader ∧ m.commitIndex = n.commitIndex ∧
      (m.lastLogIndex = n.lastLogIndex ∨
        ∃ target, m.configChangeState = .inJointConsensus m.lastLogIndex target) := by
  unfold checkPromoteNonVotingMembers at h
  split at h
  · rename_i servers started hs
    split at h
    · unfold promoteNonVotingMembers at h
      rw [hs] at h
      dsimp only at h
      split at h
      · cases h
        exact ⟨.act (Act.enterJoint n _ _ ∅ ∅ hr (.inl (by rw [hs]; rfl)) (.inr ⟨_, _, hs⟩)) rfl, hr, rfl,
          .inr ⟨_, rfl⟩⟩
      · cases h
    · cases h
      exact ⟨.refl, hr, rfl, .inl rfl⟩
  · cases h
    exact ⟨.refl, hr, rfl, .inl rfl⟩

private theorem Moves.checkFinalize (m : RaftNode) (hr : n.role = .leader) (hD : D m none)
    (hc : n.commitIndex = m.commitIndex) (hl : n.lastLogIndex = m.lastLogIndex ∨
      ∃ target, n.configChangeState = .inJointConsensus n.lastLogIndex target) :
    Moves D M n n.checkFinalizeJointConsensus := by
  unfold checkFinalizeJointConsensus
  split
  · rename_i k target hs
    split
    · rename_i hk
      refine .act (.propose n _ n.configChangeState n.nonVotingMembers n.catchUpProgress hr
        (.inl (by rw [hs]; rfl)) (.finalize m hD k target hs hk hc (hl.imp_right fun ⟨target', hs'⟩ => ?_))) rfl
      rw [hs] at hs'
      exact (ConfigChangeState.inJointConsensus.inj hs').1.symm
    · exact .refl
  · exact .refl

theorem Moves.tick (elapsed : Bool) (hD : D n none) : Moves D M n (n.tick elapsed) := by
  refine .head (.note n n.currentLeader n.currentLeaderAddress (n.monotonicTime + 1) n.votesReceived n.nextIndex
    n.catchUpProgress) rfl ?_
  unfold RaftNode.tick
  have hs : SameMembers { n with monotonicTime := n.monotonicTime + 1 } n := ⟨rfl, rfl, rfl⟩
  have hi : { n with monotonicTime := n.monotonicTime + 1 }.indices = n.indices := rfl
  have hlog : { n with monotonicTime := n.monotonicTime + 1 }.commitIndex = n.commitIndex ∧
      { n with monotonicTime := n.monotonicTime + 1 }.lastLogIndex = n.lastLogIndex := ⟨rfl, rfl⟩
  generalize { n with monotonicTime := n.monotonicTime + 1 } = m at hs hi hlog ⊢
  dsimp only
  split
  · rename_i hr
    have hh : m.sendHeartbeats.role = .leader ∧ m.sendHeartbeats.commitIndex = n.commitIndex ∧
        m.sendHeartbeats.lastLogIndex = n.lastLogIndex := by
      obtain ⟨next, es, h⟩ := sendHeartbeats_eq m
      rw [h]
      exact ⟨hr, hlog⟩
    refine .trans (Moves.sendHeartbeats m hr) ?_
    split
    · rename_i promoted hp
      obtain ⟨hm, hl, hc, hls⟩ := Moves.checkPromote (D := D) (M := M) _ promoted hh.1 hp
      refine hm.trans ((Moves.checkFinalize promoted n hl hD (hc.trans hh.2.1) ?_).trans (Moves.applyAndCompact _))
      exact hls.imp_left fun h => h.trans hh.2.2
    · exact .refl
  · rename_i hr
    split
    · exact .trans (.startElection m n none hD hs hi hr) (.applyAndCompact _)
    · exact .applyAndCompact _

private theorem Moves.waitForCatchUp (k : Nat) (n : RaftNode) (i : Nat) (hr : n.role = .leader) :
    Moves D M n (waitForCatchUp k n i).1 ∧ (waitForCatchUp k n i).1.role = .leader ∧
      (waitForCatchUp k n i).1.clusterConfig = n.clusterConfig ∧
      (waitForCatchUp k n i).1.id = n.id := by
  induction k generalizing n with
  | zero => exact ⟨.refl, hr, rfl, rfl⟩
  | succ k ih =>
    unfold RaftNode.waitForCatchUp
    split
    · exact ⟨.refl, hr, rfl, rfl⟩
    · obtain ⟨next, es, h⟩ := sendHeartbeats_eq n
      obtain ⟨h₁, h₂, h3, h4⟩ := ih n.sendHeartbeats (by rw [h]; exact hr)
      refine ⟨(Moves.sendHeartbeats n hr).trans h₁, h₂, h3.trans ?_, h4.trans ?_⟩ <;> rw [h]

private theorem Moves.initiateLeaderTransfer (target : Nat) (hr : n.role = .leader) (hne : target ≠ n.id) :
    Moves D M n (n.initiateLeaderTransfer target).1 := by
  unfold RaftNode.initiateLeaderTransfer
  split
  · exact .refl
  · rename_i addr ha
    split
    · exact .refl
    · rename_i i hi
      dsimp only
      obtain ⟨hw, hwr, hwc, hwi⟩ := Moves.waitForCatchUp (D := D) (M := M) 50 n i hr
      split
      · refine hw.trans
          (.head (.sendTimeout _ target addr hwr (by rw [hwi]; exact hne) (by rw [hwc]; exact ha)) rfl ?_)
        exact .stepDownForgetting _ _
      · exact hw

theorem Moves.handleRemoveServersRequest (serverIds : List Nat) (hM : n.id ∉ serverIds → M) :
    Moves D M n (n.handleRemoveServersRequest serverIds).1 := by
  unfold RaftNode.handleRemoveServersRequest
  split
  · exact .refl
  · rename_i hr
    have hr : n.role = .leader := by simpa using hr
    split
    · rename_i hs
      split
      · exact .refl
      · split
        · exact .refl
        · rename_i members version hc
          split
          · exact .refl
          · split
            · split
              · rename_i target ht
                have := find?_some ht
                simp only [decide_eq_true_eq] at this
                exact .head (.transfer n target serverIds hs) rfl (.initiateLeaderTransfer _ target hr this.2)
              · exact .refl
            · rename_i hin
              unfold beginRemoveServersJointConsensus
              split
              · exact .act
                  (Act.enterJoint n _ _ n.nonVotingMembers n.catchUpProgress hr (.inr (hM hin)) (.inl hs)) rfl
              · exact .refl
    · exact .refl

end Calls

/-- Running `inv` on `n`, the node turns to the event `e`, or to a tick, when it is `m`: the events other than
client requests come in their order, the client requests together after them. -/
inductive TurnsTo (n : RaftNode) : Invocation → RaftNode → Option Event → Prop
  | tick (elapsed : Bool) : TurnsTo n (.tick elapsed) n none
  | event {es before after : List Event} {e : Event}
      (h : (es.filter fun e => e.clientRequest?.isNone) = before ++ e :: after) :
      TurnsTo n (.events es) (before.foldl handleEvent n) (some e)
  | client {es : List Event} {command : Command} {tx : Nat} (h : .clientRequest command tx ∈ es) :
      TurnsTo n (.events es) ((es.filter fun e => e.clientRequest?.isNone).foldl handleEvent n)
        (some (.clientRequest command tx))

/-- What an invariant has to satisfy.  It may depend on the reply channels of the call that are still unused. -/
structure Preserves (D : RaftNode → Option Event → Prop) (M : Prop) (I : Finset Nat → RaftNode → Prop) : Prop where
  mono : ∀ {T T' : Finset Nat} {n : RaftNode}, T' ⊆ T → I T n → I T' n
  act : ∀ {T : Finset Nat} {n n' : RaftNode}, I T n → Act D M n n' → I T n'
  read : ∀ {T : Finset Nat} {n : RaftNode} {tx : Nat}, n.role = .leader → D n (some (.getReadIndex tx)) → tx ∈ T →
    I T n → I (T.erase tx) (n.registerRead tx)
  accept : ∀ {T : Finset Nat} {n : RaftNode} {requests : List (Command × Nat)}, n.role = .leader → requests ≠ [] →
    (requests.map snd).Nodup → (∀ r ∈ requests, D n (some (.clientRequest r.1 r.2)) ∧ r.2 ∈ T) → I T n →
    I ∅ (n.acceptRequests requests)
  reject : ∀ {T : Finset Nat} {n : RaftNode} {requests : List (Command × Nat)}, n.role ≠ .leader →
    (requests.map snd).Nodup → (∀ r ∈ requests, r.2 ∈ T) → I T n → I ∅ (n.rejectRequests requests)

theorem channels_of_clients (es : List Event) : (es.filterMap clientRequest?).map snd =
      (es.filter fun e => !e.clientRequest?.isNone).filterMap channel? := by
  induction es with
  | nil => rfl
  | cons e es ih => cases e <;> simp_all [clientRequest?, channel?, filterMap_cons]

namespace Preserves

variable {D : RaftNode → Option Event → Prop} {M : Prop} {I : Finset Nat → RaftNode → Prop} (hp : Preserves D M I)

include hp

variable {n : RaftNode} {T : Finset Nat}

theorem acts {n' : RaftNode} (hI : I T n) (h : Acts D M n n') : I T n' := by
  induction h with
  | refl => exact hI
  | tail _ ha ih => exact hp.act ih ha

private theorem getReadIndex {tx : Nat} (hD : D n (some (.getReadIndex tx))) (htx : tx ∈ T) (hI : I T n) :
    I (T.erase tx) (n.handleGetReadIndex tx) := by
  rcases handleGetReadIndex_moves (D := D) (M := M) n tx with ⟨hr, h⟩ | h
  · exact hp.acts (hp.read hr hD htx hI) h.acts
  · exact hp.mono (Finset.erase_subset ..) (hp.acts hI h.acts)

private theorem event {e : Event} (hc : e.clientRequest? = none) (hD : D n (some e))
    (hch : ∀ tx, e.channel? = some tx → tx ∈ T) (hI : I T n) : I (T \ e.channel?.toFinset) (n.handleEvent e) := by
  cases e with
  | rpc msg tx => exact hp.mono Finset.sdiff_subset (hp.acts hI (handleRpcEvent_steps n msg tx hD).1.acts)
  | clientRequest command tx => cases hc
  | getLeaderInfo tx | getClusterInfo tx => exact hp.mono Finset.sdiff_subset (hp.act hI (.info n _ rfl))
  | getReadIndex tx =>
    have := hp.getReadIndex hD (hch tx rfl) hI
    rwa [← Finset.sdiff_singleton_eq_erase] at this

private theorem events (es : List Event) (hc : ∀ e ∈ es, e.clientRequest? = none)
    (hD : ∀ before e after, es = before ++ e :: after → D (before.foldl handleEvent n) (some e))
    (hnd : (es.filterMap channel?).Nodup) (hT : ∀ tx ∈ es.filterMap channel?, tx ∈ T) (hI : I T n) :
    I (T \ (es.filterMap channel?).toFinset) (es.foldl handleEvent n) := by
  induction es generalizing T n with
  | nil => simpa using hI
  | cons e es ih =>
    have hs := hp.event (hc e (mem_cons_self ..)) (hD [] e es rfl) (fun tx h => hT tx (by simp [h])) hI
    have hnd' : (es.filterMap channel?).Nodup := by
      cases h : e.channel? <;> simp [h] at hnd
      · exact hnd
      · exact hnd.2
    have hr := ih (fun x hx => hc x (mem_cons_of_mem _ hx))
      (fun before x after h => hD (e :: before) x after (by rw [h]; rfl)) hnd' ?_ hs
    · refine hp.mono ?_ hr
      intro tx htx
      simp only [Finset.mem_sdiff, mem_toFinset, mem_filterMap, Option.mem_toFinset, Option.mem_def] at htx ⊢
      obtain ⟨h1, h2⟩ := htx
      refine ⟨⟨h1, fun h => h2 ⟨e, mem_cons_self .., h⟩⟩, ?_⟩
      rintro ⟨x, hx, h⟩
      exact h2 ⟨x, mem_cons_of_mem _ hx, h⟩
    · intro tx htx
      have hin := hT tx (by rw [filterMap_cons]; split <;> simp_all)
      simp only [Finset.mem_sdiff, Option.mem_toFinset, Option.mem_def]
      refine ⟨hin, fun h => ?_⟩
      rw [filterMap_cons, h] at hnd
      exact (nodup_cons.1 hnd).1 htx

private theorem clients {requests : List (Command × Nat)} (hnd : (requests.map snd).Nodup)
    (hT : ∀ r ∈ requests, D n (some (.clientRequest r.1 r.2)) ∧ r.2 ∈ T) (hI : I T n) :
    I ∅ (n.handleClientRequests requests) := by
  have ht : requests ≠ [] → ∃ event, D n event := fun hne =>
    have ⟨r, hr⟩ := exists_mem_of_ne_nil requests hne
    ⟨_, (hT r hr).1⟩
  rcases handleClientRequests_moves (M := M) n requests ht with h | ⟨hrl, hne, h⟩ | ⟨hrl, h⟩
  · rw [h]
    exact hp.mono (Finset.empty_subset _) hI
  · exact hp.acts (hp.accept hrl hne hnd hT hI) h.acts
  · rw [h]
    exact hp.reject hrl hnd (fun r hr => (hT r hr).2) hI

private theorem batch (es : List Event) (hD : ∀ m e, TurnsTo n (.events es) m e → D m e)
    (hnd : (es.filterMap channel?).Nodup) (hI : I (es.filterMap channel?).toFinset n) :
    I ∅ (n.handleEventBatch es) := by
  -- split the channels into those of the client requests and the others
  have hpr := (filter_append_perm (fun e : Event => e.clientRequest?.isNone) es).filterMap channel?
  have hn := hpr.nodup_iff.2 hnd
  rw [filterMap_append, nodup_append] at hn
  obtain ⟨hno, hnc, hds⟩ := hn
  have ho := hp.events (es.filter fun e => e.clientRequest?.isNone) (T := (es.filterMap channel?).toFinset)
    (n := n) (fun e he => by simpa using (mem_filter.1 he).2) (fun before e after h => hD _ _ (.event h)) hno
    (fun tx h => by
      rw [mem_toFinset, ← hpr.mem_iff, filterMap_append]
      exact mem_append_left _ h) hI
  refine hp.clients ?_ ?_ ho
  · rw [channels_of_clients]
    exact hnc
  · intro r hr
    have hch : r.2 ∈ (es.filter fun e => !e.clientRequest?.isNone).filterMap channel? := by
      rw [← channels_of_clients]
      exact mem_map_of_mem hr
    refine ⟨?_, ?_⟩
    · obtain ⟨e, he, hr⟩ := mem_filterMap.1 hr
      cases e <;> simp only [clientRequest?, Option.some.injEq, reduceCtorEq] at hr
      subst hr
      exact hD _ _ (.client he)
    · simp only [Finset.mem_sdiff, mem_toFinset]
      refine ⟨?_, fun h => hds _ h _ hch rfl⟩
      rw [← hpr.mem_iff, filterMap_append]
      exact mem_append_right _ hch

/-- An invariant that every action preserves survives a call. -/
theorem invocation (inv : Invocation) (hD : ∀ m e, TurnsTo n inv m e → D m e)
    (hnd : inv.channels.Nodup) (hM : inv.ChangesMembers n.id → M) (hI : I inv.channels.toFinset n) :
    I ∅ (inv.run n) := by
  cases inv with
  | tick elapsed =>
      exact hp.mono (Finset.empty_subset _) (hp.acts hI (Moves.tick n elapsed (hD n none (.tick elapsed))).acts)
  | events es => exact hp.batch es hD hnd hI
  | addServers servers => exact hp.mono (Finset.empty_subset _) (hp.act hI (.addServers n servers (hM trivial)))
  | removeServers serverIds =>
    exact hp.mono (Finset.empty_subset _) (hp.acts hI (Moves.handleRemoveServersRequest n serverIds hM).acts)

end Preserves

section Drained

variable {n m : RaftNode} (h : n.Drained)
include h

private theorem Drained.event {e : Event} (hc : e.clientRequest? = none) : (n.handleEvent e).Drained := by
  cases e with
  | rpc msg tx => exact (handleRpcEvent_steps (D := fun _ _ => True) (M := True) n msg tx trivial).1.drained h
  | clientRequest => cases hc
  | getLeaderInfo | getClusterInfo => exact h
  | getReadIndex tx =>
    rcases handleGetReadIndex_moves (D := fun _ _ => True)
      (M := True) n tx with ⟨-, hm⟩ | hm <;> exact hm.drained h

private theorem Drained.events {es : List Event} (hc : ∀ e ∈ es, e.clientRequest? = none) :
    (es.foldl handleEvent n).Drained := by
  induction es generalizing n with
  | nil => exact h
  | cons e es ih => exact ih (h.event (hc e (mem_cons_self ..))) fun x hx => hc x (mem_cons_of_mem _ hx)

theorem TurnsTo.drained {inv : Invocation} {e : Option Event} (ht : TurnsTo n inv m e) : m.Drained := by
  cases ht with
  | tick => exact h
  | @event es before after e hes =>
    refine h.events fun x hx => ?_
    have hmem : x ∈ es.filter fun e => e.clientRequest?.isNone := by rw [hes]; exact mem_append_left _ hx
    simpa using (mem_filter.1 hmem).2
  | client => exact h.events fun x hx => by simpa using (mem_filter.1 hx).2

private theorem Drained.run (inv : Invocation) : (inv.run n).Drained := by
  cases inv with
  | tick elapsed => exact (Moves.tick (D := fun _ _ => True) (M := True) n elapsed trivial).drained h
  | events es =>
    set m := (es.filter fun e => e.clientRequest?.isNone).foldl handleEvent n with hm
    have hdr : m.Drained := h.events fun x hx => by simpa using (mem_filter.1 hx).2
    show (m.handleClientRequests (es.filterMap clientRequest?)).Drained
    rcases handleClientRequests_moves (D := fun _ _ => True) (M := True) m _ (fun _ => ⟨none, trivial⟩) with
      heq | ⟨-, hne, hmv⟩ | ⟨-, heq⟩
    · rw [heq]
      exact hdr
    · refine hmv.drained ?_
      rw [acceptRequests_eq m _ hne]
      exact hdr
    · rw [heq]
      exact hdr
  | addServers servers =>
    show (n.handleAddServersRequest servers).1.Drained
    unfold handleAddServersRequest
    repeat' split
    all_goals exact h
  | removeServers serverIds =>
    exact (Moves.handleRemoveServersRequest (D := fun _ _ => True) (M := True) n serverIds fun _ =>
      trivial).drained h

end Drained

theorem TurnsTo.mem {n m : RaftNode} {inv : Invocation} {e : Event} (h : TurnsTo n inv m (some e)) :
    e ∈ inv.eventList := by
  cases h with
  | @event es before after _ h =>
    have hin : e ∈ es.filter fun e => e.clientRequest?.isNone := by rw [h]; simp
    exact (mem_filter.1 hin).1
  | client h => exact h

theorem TurnsTo.single {n m : RaftNode} {e e' : Event} (h : TurnsTo n (.events [e]) m (some e')) :
    e' = e ∧ m = n := by
  have he : e' = e := by simpa [Invocation.eventList] using h.mem
  subst he
  cases h with
  | @event _ before after _ h =>
    cases before with
    | nil => exact ⟨rfl, rfl⟩
    | cons b bs =>
      have hlen := congrArg length h
      have := length_filter_le (fun e : Event => e.clientRequest?.isNone) [e']
      simp only [length_append, length_cons, length_nil] at hlen this
      omega
  | client h => exact ⟨rfl, by simp [clientRequest?]⟩

/-- Two invariants together, where keeping the second may use the first. -/
theorem Preserves.and {M : Prop} {I J : Finset Nat → RaftNode → Prop}
    (hp : Preserves D M I) (mono : ∀ {T T' : Finset Nat} {n : RaftNode}, T' ⊆ T → J T n → J T' n)
    (act : ∀ {T : Finset Nat} {n n' : RaftNode}, I T n → J T n → Act D M n n' → J T n')
    (read : ∀ {T : Finset Nat} {n : RaftNode} {tx : Nat}, n.role = .leader →
      D n (some (.getReadIndex tx)) → tx ∈ T →
      I T n → J T n → J (T.erase tx) (n.registerRead tx))
    (accept : ∀ {T : Finset Nat} {n : RaftNode} {requests : List (Command × Nat)}, n.role = .leader →
      requests ≠ [] →
      (requests.map snd).Nodup → (∀ r ∈ requests, D n (some (.clientRequest r.1 r.2)) ∧ r.2 ∈ T) → I T n →
      J T n → J ∅ (n.acceptRequests requests))
    (reject : ∀ {T : Finset Nat} {n : RaftNode} {requests : List (Command × Nat)}, n.role ≠ .leader →
      (requests.map snd).Nodup → (∀ r ∈ requests, r.2 ∈ T) → I T n → J T n → J ∅ (n.rejectRequests requests)) :
    Preserves D M fun T n => I T n ∧ J T n where
  mono := fun hT h => ⟨hp.mono hT h.1, mono hT h.2⟩
  act := fun h ha => ⟨hp.act h.1 ha, act h.1 h.2 ha⟩
  read := fun hl hD hT h => ⟨hp.read hl hD hT h.1, read hl hD hT h.1 h.2⟩
  accept := fun hl hne hnd hT h => ⟨hp.accept hl hne hnd hT h.1, accept hl hne hnd hT h.1 h.2⟩
  reject := fun hl hnd hT h => ⟨hp.reject hl hnd hT h.1, reject hl hnd hT h.1 h.2⟩

end RaftNode

def Trace.of (tr : Trace) (i : Nat) : List Effect := tr.filterMap fun x => if x.1 = i then some x.2 else none

def Deployment.stored (d : Deployment) (tr : Trace) (i : Nat) : Db := replay (d.db i) (tr.of i)

theorem replay_append (db : Db) (es es' : List Effect) : replay db (es ++ es') = replay (replay db es) es' := by
  simp [replay]

@[simp] theorem Trace.of_append_same (tr : Trace) (i : Nat) (es : List Effect) :
    Trace.of (tr ++ es.map (Prod.mk i)) i = tr.of i ++ es := by
  simp [Trace.of, filterMap_map]

@[simp] theorem Trace.of_append_of_ne (tr : Trace) {i j : Nat} (es : List Effect) (h : i ≠ j) :
    Trace.of (tr ++ es.map (Prod.mk i)) j = tr.of j := by
  simp [Trace.of, h]

theorem Deployment.stored_append_same (d : Deployment) (tr : Trace) (i : Nat) (es : List Effect) :
    d.stored (tr ++ es.map (Prod.mk i)) i = replay (d.stored tr i) es := by
  simp only [Deployment.stored, Trace.of_append_same, replay_append]

theorem Deployment.stored_append_of_ne (d : Deployment) (tr : Trace) {i j : Nat} (es : List Effect) (h : i ≠ j) :
    d.stored (tr ++ es.map (Prod.mk i)) j = d.stored tr j := by
  simp only [Deployment.stored, Trace.of_append_of_ne tr es h]

section Runs

variable {d : Deployment} {ok : Cluster → Label → Prop} {P : Cluster → Prop}

theorem Reachable.drained {c : Cluster} (h : Reachable d ok c) (i : Nat) : (c.node i).Drained := by
  induction h generalizing i with
  | init => exact le_rfl
  | @step c l _ _ ih =>
    have hnd : ∀ j (n : RaftNode), n.Drained → (Function.update c.node j n i).Drained := by
      intro j n hn
      by_cases hij : i = j
      · rw [hij, Function.update_self]
        exact hn
      · rw [Function.update_of_ne hij]
        exact ih i
    cases l with
    | invoke j inv clock => exact hnd j _ (Drained.run (n := c.ready j clock) (ih j) inv)
    | crash | restart => exact hnd _ _ le_rfl

/-- How an invariant of the cluster follows from an invariant `I c i` of the calls of node `i` in state `c`: the
latter holds at the beginning of a call, every action preserves it, and it gives back the former at the end of the
call, or after the effects before a crash. -/
theorem Reachable.invariant (I : Cluster → Nat → Invocation → Finset Nat → RaftNode → Prop)
    (init : P (Cluster.init d))
    (enabled : ∀ c l, ok c l → Enabled d c l) (id : ∀ c i, Reachable d ok c → P c → i ∈ d.ids → (c.node i).id = i)
    (start : ∀ c i (inv : Invocation) clock, Reachable d ok c → P c → i ∈ d.ids → inv.Enabled d c i →
      I c i inv inv.channels.toFinset (c.ready i clock))
    (preserves : ∀ c (l : Label) i inv clock, Reachable d ok c → P c → ok c l → l.call? = some (i, inv, clock) →
      i ∈ d.ids → inv.Enabled d c i →
      Preserves (TurnsTo (c.ready i clock) inv) (inv.ChangesMembers i) (I c i inv))
    (finish : ∀ c i inv clock n, ok c (.invoke i inv clock) → Reachable d ok c → P c → i ∈ d.ids → I c i inv ∅ n →
      P ((c.during i n).issue inv.channels))
    (crash : ∀ c i inv clock k n, ok c (.crash i inv clock k) → Reachable d ok c → P c → i ∈ d.ids →
      I c i inv ∅ n →
      P ((c.crashed d i (n.out.take k)).issue inv.channels))
    (restart : ∀ c i, ok c (.restart i) → Reachable d ok c → P c → i ∈ d.ids → P (c.crashed d i []))
    {c : Cluster} (h : Reachable d ok c) : P c := by
  induction h with
  | init => exact init
  | @step c l hr hok ih =>
    have hc : ∀ i inv clock, l.call? = some (i, inv, clock) → i ∈ d.ids → inv.Enabled d c i →
        I c i inv ∅ (inv.run (c.ready i clock)) := by
      intro i inv clock hl hi hen
      refine (preserves c l i inv clock hr ih hok hl hi hen).invocation inv (fun _ _ h => h) hen.nodup ?_
        (start c i inv clock hr ih hi hen)
      exact fun h => by rwa [← id c i hr ih hi]
    have hen := enabled c l hok
    cases l with
    | invoke i inv clock => exact finish c i inv clock _ hok hr ih hen.1 (hc i inv clock rfl hen.1 hen.2)
    | crash i inv clock k => exact crash c i inv clock k _ hok hr ih hen.1 (hc i inv clock rfl hen.1 hen.2)
    | restart i => exact restart c i hok hr ih hen

end Runs

end RustHadoop
