import RustHadoop.Raft.Completeness
import RustHadoop.Raft.Joint

/-!
# Changes of the configuration on a leader

When a leader applies `BeginJointConsensus` or `FinalizeConfiguration`, `update_peer_tracking` writes its list of
peers anew, in the order in which the map of the members is iterated, while `next_index` and `match_index` are only
cut off or filled up at the end.  The indices follow the peers exactly if every peer that stays keeps its position
(`peer_tracking_follows_iff`); without the first of two peers the second one gets the indices of the first
(`removed_peer_shifts`).
-/

namespace RustHadoop

open List

/-- The configuration that a command puts in place. -/
def MembershipCommand.configuration? : MembershipCommand → Option ClusterConfiguration
  | .beginJointConsensus oldMembers newMembers version => some (.joint oldMembers newMembers version)
  | .finalizeConfiguration newMembers version => some (.simple newMembers version)
  | _ => none

namespace RaftNode

variable (order : List (Sigma fun _ : Nat => String)) (n : RaftNode)

/-- The other members, in the order in which the map of all members is iterated. -/
def otherMembers : List String := (order.filter fun m => m.1 ≠ n.id).map fun m => m.2

/-- `update_peer_tracking` if the map of all members is iterated in this order. -/
def updatePeerTrackingIn : RaftNode :=
  let peers := otherMembers order n
  { n with
    peers := peers
    nextIndex := resize n.nextIndex peers.length (n.log.length + n.lastIncludedIndex)
    matchIndex := resize n.matchIndex peers.length n.lastIncludedIndex }

/-- `apply_membership_command` if the map of all members is iterated in this order. -/
def applyMembershipCommandIn : MembershipCommand → RaftNode
  | .beginJointConsensus oldMembers newMembers version =>
      ({ n with clusterConfig := .joint oldMembers newMembers version }.updatePeerTrackingIn order).saveConfig
  | .finalizeConfiguration newMembers version =>
      { ({ n with clusterConfig := .simple newMembers version }).updatePeerTrackingIn order with
        configChangeState := .none }.saveConfig
  | c => n.applyMembershipCommand c

/-- Whoever is a peer before and after has the same indices before and after, at its position. -/
def FollowsPeers (n n' : RaftNode) : Prop :=
  ∀ addr ∈ n.peers, addr ∈ n'.peers → n'.nextIndex[n'.peers.idxOf addr]? = n.nextIndex[n.peers.idxOf addr]? ∧
      n'.matchIndex[n'.peers.idxOf addr]? = n.matchIndex[n.peers.idxOf addr]?

private theorem getElem?_resize (l : List Nat) {size i : Nat} (value : Nat) (hi : i < size) :
    (resize l size value)[i]? = some (l[i]?.getD value) := by
  unfold resize
  rcases Nat.lt_or_ge i l.length with hlt | hge
  · have ht : i < (l.take size).length := by simp; omega
    rw [getElem?_append_left ht, getElem?_take_of_lt hi, getElem?_eq_getElem hlt, Option.getD_some]
  · rw [getElem?_append_right (by simp; omega), getElem?_eq_none hge, Option.getD_none,
      getElem?_replicate, if_pos (by simp; omega)]

theorem applyMembershipCommandIn_tracking {c : MembershipCommand} {config : ClusterConfiguration}
    (hc : c.configuration? = some config) :
    (n.applyMembershipCommandIn order c).peers = otherMembers order n ∧
      (n.applyMembershipCommandIn order c).nextIndex =
        resize n.nextIndex (otherMembers order n).length (n.log.length + n.lastIncludedIndex) ∧
      (n.applyMembershipCommandIn order c).matchIndex =
        resize n.matchIndex (otherMembers order n).length n.lastIncludedIndex := by
  cases c with
  | beginJointConsensus | finalizeConfiguration => exact ⟨rfl, rfl, rfl⟩
  | _ => cases hc

/-- The indices follow the peers, whatever they are, exactly if every peer that is among the other members has the
same position there. -/
theorem peer_tracking_follows_iff (n : RaftNode) {c : MembershipCommand} {config : ClusterConfiguration}
    (hc : c.configuration? = some config) (order : List (Sigma fun _ : Nat => String)) :
    (∀ next acked, n.peers.length ≤ next.length → n.peers.length ≤ acked.length →
      FollowsPeers { n with nextIndex := next, matchIndex := acked }
        ({ n with nextIndex := next, matchIndex := acked }.applyMembershipCommandIn order c)) ↔
      ∀ addr ∈ n.peers, addr ∈ otherMembers order n → (otherMembers order n).idxOf addr = n.peers.idxOf addr := by
  have htracking := fun next acked =>
    applyMembershipCommandIn_tracking order { n with nextIndex := next, matchIndex := acked } hc
  have hother : ∀ next acked, otherMembers order { n with nextIndex := next, matchIndex := acked } =
      otherMembers order n := fun _ _ => rfl
  constructor
  · intro h addr haddr haddr'
    -- indices that are all different, and different from those that a new peer gets
    obtain ⟨next, hnext⟩ : ∃ next, next =
        (range n.peers.length).map fun i => i + (n.log.length + n.lastIncludedIndex + 1) :=
      ⟨_, rfl⟩
    have hlen : n.peers.length ≤ next.length := by simp [hnext]
    obtain ⟨hpeers, hindex, -⟩ := htracking next next
    have hfollow := (h next next hlen hlen addr haddr (by rw [hpeers]; exact haddr')).1
    rw [hindex, hpeers, hother, getElem?_resize _ _ (idxOf_lt_length_iff.2 haddr')] at hfollow
    have hold :
        next[n.peers.idxOf addr]? = some (n.peers.idxOf addr + (n.log.length + n.lastIncludedIndex + 1)) := by
      simp [hnext, idxOf_lt_length_iff.2 haddr]
    rw [hold, Option.some.injEq] at hfollow
    rcases Nat.lt_or_ge ((otherMembers order n).idxOf addr) n.peers.length with hlt | hge
    · have hnew : next[(otherMembers order n).idxOf addr]? =
          some ((otherMembers order n).idxOf addr + (n.log.length + n.lastIncludedIndex + 1)) := by
        simp [hnext, hlt]
      rw [hnew, Option.getD_some] at hfollow
      omega
    · have hnew : next[(otherMembers order n).idxOf addr]? = none := by
        simp [hnext, hge]
      rw [hnew, Option.getD_none] at hfollow
      dsimp only at hfollow
      omega
  · intro h next acked hn ha addr haddr haddr'
    obtain ⟨hpeers, hnext, hacked⟩ := htracking next acked
    rw [hpeers] at haddr'
    have hlt : n.peers.idxOf addr < n.peers.length := idxOf_lt_length_iff.2 haddr
    have hpos := h addr haddr haddr'
    have hlt' : n.peers.idxOf addr < (otherMembers order n).length := by
      rw [← hpos]
      exact idxOf_lt_length_iff.2 haddr'
    rw [hnext, hacked, hpeers, hother, hpos, getElem?_resize _ _ hlt', getElem?_resize _ _ hlt',
      getElem?_eq_getElem (show n.peers.idxOf addr < next.length by omega),
      getElem?_eq_getElem (show n.peers.idxOf addr < acked.length by omega)]
    exact ⟨rfl, rfl⟩

end RaftNode

def withoutSecond : Members := ⟨[⟨1, "a"⟩, ⟨3, "c"⟩], by simp [NodupKeys, keys]⟩

def withFourth : Members := ⟨[⟨1, "a"⟩, ⟨2, "b"⟩, ⟨3, "c"⟩, ⟨4, "d"⟩], by simp [NodupKeys, keys]⟩

/-- A new third peer at the end of the list changes nothing for the others. -/
theorem peer_tracking_follows_iff_added : (trioCommitted.node 1).peers = ["b", "c"] ∧
    (trioCommitted.node 1).FollowsPeers ((trioCommitted.node 1).applyMembershipCommandIn
      [⟨1, "a"⟩, ⟨2, "b"⟩, ⟨3, "c"⟩, ⟨4, "d"⟩] (.finalizeConfiguration withFourth 2)) := by
  refine ⟨rfl, ?_⟩
  exact (RaftNode.peer_tracking_follows_iff (trioCommitted.node 1) rfl _).2 (by decide +kernel)
    (trioCommitted.node 1).nextIndex (trioCommitted.node 1).matchIndex (by decide +kernel) (by decide +kernel)

/-- The leader has heard of node 2 that it has two entries, and nothing of node 3.  When node 2 is removed, in
whatever order the members come, the leader takes node 3 for the one with two entries. -/
theorem removed_peer_shifts : (trioCommitted.node 1).role = .leader ∧ (trioCommitted.node 1).peers = ["b", "c"] ∧
    (trioCommitted.node 1).matchIndex = [2, 0] ∧
    ∀ order, order.Perm withoutSecond.entries →
      ((trioCommitted.node 1).applyMembershipCommandIn order (.finalizeConfiguration withoutSecond 2)).peers =
        ["c"] ∧
      ((trioCommitted.node 1).applyMembershipCommandIn order (.finalizeConfiguration withoutSecond 2)).matchIndex =
        [2] ∧
      ¬ (trioCommitted.node 1).FollowsPeers
        ((trioCommitted.node 1).applyMembershipCommandIn order (.finalizeConfiguration withoutSecond 2)) := by
  refine ⟨rfl, rfl, rfl, fun order horder => ?_⟩
  have hfilter : (order.filter fun m => m.1 ≠ (trioCommitted.node 1).id) = [⟨3, "c"⟩] := by
    rw [← perm_singleton]
    exact horder.filter _
  obtain ⟨hpeers, -, hacked⟩ := RaftNode.applyMembershipCommandIn_tracking order (trioCommitted.node 1)
    (c := .finalizeConfiguration withoutSecond 2) rfl
  rw [RaftNode.otherMembers, hfilter] at hpeers hacked
  refine ⟨hpeers, hacked, fun h => ?_⟩
  have hc := (h "c" (by decide +kernel) (by rw [hpeers]; simp)).2
  rw [hpeers, hacked] at hc
  exact absurd hc (by decide +kernel)

end RustHadoop
