import RustHadoop.Raft.CrashPoints
import RustHadoop.Raft.Faithful

/-!
# Replicas that applied the same commands

A replica applies the commands of the log one after another, writes a snapshot of its state from time to time, and
after a restart goes on from the snapshot, applying the commands after it once more.  Two commands of the config
server, `RegisterMaster` and `ShardHeartbeat`, store the wall-clock time of the replica at the moment they are
applied, so two replicas end up with different states, and so does one replica that applies such a command again
after a restart.

`replicas_converge_iff`: for every start state and every sequence of commands, all replicas that applied it hold
the same serialized state exactly if no command of it stores the clock.
-/

namespace RustHadoop

open List AppState Effect

def AppState.applyCommand (now : Nat) : AppState → Command → AppState
  | .master s, .master c => .master (s.applyCommand c)
  | .config s, .config c => .config (s.applyCommand now c)
  | s, _ => s

def AppState.applyAll (s : AppState) (timed : List (Command × Nat)) : AppState :=
  timed.foldl (fun s c => s.applyCommand c.2 c.1) s

/-- The command stores the clock when it is applied to the state, or to one that it leads to. -/
def AppState.storesClock : AppState → Command → Bool
  | .config _, .config (.registerMaster _ _) => true
  | .config s, .config (.shardHeartbeat address _) => address ∈ s.masters
  | _, _ => false

/-- A state with the serialized form of one that the commands, applied at some times, make of `s0`. -/
def AppState.Reaches (s0 : AppState) (cs : List Command) (s : AppState) : Prop :=
  ∃ timed : List (Command × Nat), timed.map Prod.fst = cs ∧ s.serialize = (s0.applyAll timed).serialize

section States

variable {s t s0 : AppState} {c : Command} {cs : List Command}

private theorem MasterState.image_applyCommand {s t : MasterState} (h : s.image = t.image) (c : MasterCommand) :
    (s.applyCommand c).image = (t.applyCommand c).image := by
  obtain ⟨files, records, shuffling, safe⟩ := s
  obtain ⟨files', records', shuffling', safe'⟩ := t
  obtain ⟨rfl, rfl, rfl⟩ : files = files' ∧ records = records' ∧ shuffling = shuffling' := by
    simpa [MasterState.image] using h
  cases c with
  | renameFile =>
    simp only [MasterState.applyCommand]
    split <;> rfl
  | applyTransactionOperation id op =>
    simp only [MasterState.applyCommand, MasterState.applyTransactionOperation]
    cases op.opType with
    | delete => rfl
    | create =>
      dsimp only
      split <;> rfl
  | _ => rfl

private theorem AppState.serialize_applyCommand (h : s.serialize = t.serialize) (now : Nat) (c : Command) :
    (s.applyCommand now c).serialize = (t.applyCommand now c).serialize := by
  cases s with
  | master s =>
    cases t with
    | master t =>
      have hi : s.image = t.image := by simpa [serialize] using h
      cases c with
      | master c => exact congrArg SnapshotData.master (MasterState.image_applyCommand hi c)
      | _ => exact h
    | config t => cases h
  | config s =>
    cases t with
    | master t => cases h
    | config t =>
      obtain rfl : s = t := by simpa [serialize] using h
      rfl

theorem AppState.Reaches.nil (h : s.serialize = s0.serialize) : s0.Reaches [] s := ⟨[], rfl, h⟩

theorem AppState.Reaches.congr (h : s0.Reaches cs s) (hs : t.serialize = s.serialize) : s0.Reaches cs t := by
  obtain ⟨timed, hcs, hser⟩ := h
  exact ⟨timed, hcs, hs.trans hser⟩

private theorem AppState.Reaches.concat (h : s0.Reaches cs s) (now : Nat) (c : Command) :
    s0.Reaches (cs ++ [c]) (s.applyCommand now c) := by
  obtain ⟨timed, rfl, hs⟩ := h
  refine ⟨timed ++ [(c, now)], by simp, ?_⟩
  rw [applyAll, foldl_append]
  exact serialize_applyCommand hs now c

private theorem AppState.applyCommand_of_not_storesClock (h : s.storesClock c = false) (now now' : Nat) :
    s.applyCommand now c = s.applyCommand now' c ∧
      ∀ c', (s.applyCommand now c).storesClock c' = s.storesClock c' := by
  cases s with
  | master s => cases c <;> exact ⟨rfl, fun _ => rfl⟩
  | config s =>
    cases c with
    | config c =>
      cases c with
      | registerMaster => cases h
      | shardHeartbeat address rps =>
        have hn : s.masters.lookup address = none := by
          simpa [storesClock, AList.lookup_eq_none] using h
        simp only [applyCommand, ConfigStateInner.applyCommand, StringMap.modify, hn]
        exact ⟨trivial, fun _ => trivial⟩
      | _ =>
        refine ⟨rfl, fun c' => ?_⟩
        cases c' with
        | config c' => cases c' <;> rfl
        | _ => rfl
    | _ => exact ⟨rfl, fun _ => rfl⟩

private theorem AppState.applyAll_unique (timed timed' : List (Command × Nat))
    (h : timed.map Prod.fst = timed'.map Prod.fst)
    (hs : ∀ c ∈ timed.map Prod.fst, s.storesClock c = false) : s.applyAll timed = s.applyAll timed' := by
  induction timed generalizing s timed' with
  | nil =>
    obtain rfl : timed' = [] := by simpa using h.symm
    rfl
  | cons x timed ih =>
    cases timed' with
    | nil => simp at h
    | cons y timed' =>
      obtain ⟨hxy, ht⟩ := cons.inj h
      obtain ⟨hsm, hk⟩ := applyCommand_of_not_storesClock (hs x.1 (by simp)) x.2 y.2
      change (s.applyCommand x.2 x.1).applyAll timed = (s.applyCommand y.2 y.1).applyAll timed'
      have hxy' : x.1 = y.1 := hxy
      rw [← hxy', ← hsm]
      refine ih timed' ht fun c hc => ?_
      rw [hk]
      exact hs c (by simp only [map_cons, mem_cons]; exact .inr hc)

private theorem AppState.Reaches.unique (h : s0.Reaches cs s) (h' : s0.Reaches cs t)
    (hs : ∀ c ∈ cs, s0.storesClock c = false) : s.serialize = t.serialize := by
  obtain ⟨timed, rfl, hser⟩ := h
  obtain ⟨timed', hm, hs'⟩ := h'
  rw [hser, hs', applyAll_unique timed timed' hm.symm hs]

end States

/-- The master that a command of the config server is about. -/
def Command.reporter : Command → String
  | .config (.registerMaster address _) => address
  | .config (.shardHeartbeat address _) => address
  | _ => ""

/-- The last sign of life of the master is of time `now`. -/
def AppState.SeenAt (address : String) (now : Nat) : AppState → Prop
  | .config s => ∃ info, s.masters.lookup address = some info ∧ info.lastHeartbeat = now
  | .master _ => False

section Clock

variable {s t : AppState} {c : Command} {now : Nat}

theorem ConfigStateInner.lookup_heartbeat (s : ConfigStateInner) (now : Nat) (address k : String)
    (rps : StringMap UInt64) :
    (s.applyCommand now (.shardHeartbeat address rps)).masters.lookup k =
      if k = address then (s.masters.lookup address).map fun info =>
        { info with lastHeartbeat := now, rpsPerPrefix := rps }
      else s.masters.lookup k := StringMap.lookup_modify _ _ _ _

variable {address : String}

theorem AppState.SeenAt.unique {now' : Nat} (h : s.SeenAt address now) (h' : t.SeenAt address now')
    (hs : s.serialize = t.serialize) : now = now' := by
  cases s with
  | master s => exact h.elim
  | config s =>
    cases t with
    | master t => exact h'.elim
    | config t =>
      obtain rfl : s = t := by simpa [serialize] using hs
      obtain ⟨info, hi, rfl⟩ := h
      obtain ⟨info', hi', rfl⟩ := h'
      rw [Option.some.inj (hi.symm.trans hi')]

private theorem AppState.SeenAt.applyCommand (h : s.SeenAt address now) (c : Command) :
    (s.applyCommand now c).SeenAt address now := by
  cases s with
  | master s => exact h.elim
  | config s =>
    obtain ⟨info, hi, hb⟩ := h
    cases c with
    | config c =>
      cases c with
      | registerMaster address' shardId =>
        by_cases ha : address = address'
        · subst ha
          exact ⟨_, AList.lookup_insert _, rfl⟩
        · exact ⟨info, (AList.lookup_insert_ne ha).trans hi, hb⟩
      | shardHeartbeat address' rps =>
        by_cases ha : address = address'
        · subst ha
          refine ⟨{ info with lastHeartbeat := now, rpsPerPrefix := rps }, ?_, rfl⟩
          rw [ConfigStateInner.lookup_heartbeat, if_pos rfl, hi, Option.map_some]
        · refine ⟨info, ?_, hb⟩
          rwa [ConfigStateInner.lookup_heartbeat, if_neg ha]
      | _ => exact ⟨info, hi, hb⟩
    | _ => exact ⟨info, hi, hb⟩

private theorem AppState.seenAt_of_storesClock (h : s.storesClock c = true) :
    (s.applyCommand now c).SeenAt c.reporter now := by
  cases s with
  | master s => cases h
  | config s =>
    cases c with
    | config c =>
      cases c with
      | registerMaster address shardId => exact ⟨_, AList.lookup_insert _, rfl⟩
      | shardHeartbeat address rps =>
        have hmem : address ∈ s.masters := by simpa [storesClock] using h
        obtain ⟨info, hi⟩ := Option.isSome_iff_exists.1 (AList.lookup_isSome.2 hmem)
        refine ⟨{ info with lastHeartbeat := now, rpsPerPrefix := rps }, ?_, rfl⟩
        rw [Command.reporter, ConfigStateInner.lookup_heartbeat, if_pos rfl, hi, Option.map_some]
      | _ => cases h
    | _ => cases h

private theorem AppState.storesClock_applyCommand (h : s.storesClock c = true) (c' : Command) :
    (s.applyCommand now c').storesClock c = true := by
  cases s with
  | master s => cases h
  | config s =>
    cases c with
    | config c =>
      cases c with
      | registerMaster => cases c' <;> rfl
      | shardHeartbeat address rps =>
        have hmem : address ∈ s.masters := by simpa [storesClock] using h
        cases c' with
        | config c' =>
          cases c' with
          | registerMaster => exact decide_eq_true ((AList.mem_insert _).2 (.inr hmem))
          | shardHeartbeat address' rps' =>
            refine decide_eq_true (AList.lookup_isSome.1 ?_)
            rw [ConfigStateInner.lookup_heartbeat]
            split
            · subst_vars
              rw [Option.isSome_map, AList.lookup_isSome]
              exact hmem
            · exact AList.lookup_isSome.2 hmem
          | _ => exact h
        | _ => exact h
      | _ => cases h
    | _ => cases h

private theorem AppState.SeenAt.applyAll (cs : List Command) (h : s.SeenAt address now) :
    (s.applyAll (cs.map fun c => (c, now))).SeenAt address now := by
  induction cs generalizing s with
  | nil => exact h
  | cons c cs ih => exact ih (h.applyCommand c)

private theorem AppState.seenAt_applyAll (cs : List Command) (hc : c ∈ cs) (h : s.storesClock c = true) :
    (s.applyAll (cs.map fun c => (c, now))).SeenAt c.reporter now := by
  induction cs generalizing s with
  | nil => cases hc
  | cons c' cs ih =>
    rcases mem_cons.1 hc with rfl | hc
    · exact (seenAt_of_storesClock h).applyAll cs
    · exact ih hc (storesClock_applyCommand h c')

end Clock

def Effect.appliedCommand? : Effect → Option Command
  | .applied _ entry => some entry.command
  | _ => none

variable {D : RaftNode → Option Event → Prop} {M : Prop} {entry : LogEntry}

namespace RaftNode

def commands (n : RaftNode) : List Command := n.out.filterMap appliedCommand?

section Commands

variable {n n' : RaftNode}

theorem commands_append {es : List Effect} (ho : n'.out = n.out ++ es) (hes : ∀ e ∈ es, e.appliedCommand? = none) :
    n'.commands = n.commands := by
  rw [commands, ho, filterMap_append, filterMap_eq_nil_iff.2 hes, append_nil]
  rfl

private theorem stepDownToFollower_commands (n : RaftNode) (t : Nat) (hint : Option String) :
    (n.stepDownToFollower t hint).commands = n.commands := by
  refine stepDownToFollower_induction (P := fun m => m.commands = n.commands) n t hint
    (fun _ => commands_append rfl (by simp [appliedCommand?])) (fun _ => rfl) fun m _ _ _ es hm hes => ?_
  rw [← hm]
  exact commands_append rfl fun e he => by cases hes e he <;> rfl

private theorem Upkeep.appliedCommand? {e : Effect} (h : Upkeep e) : e.appliedCommand? = none := by
  rcases h with ⟨_ | _⟩ | _ | _ | _ | _ <;> rfl

private theorem createSnapshot_commands (n : RaftNode) : n.createSnapshot.commands = n.commands := by
  rw [createSnapshot_eq]
  exact commands_append (append_assoc ..) fun e he => (Upkeep.snapshot _ _ _ _ e he).appliedCommand?

private theorem Act.commands (h : Act D M n n') : n'.commands = n.commands ∨ n' = n.applyNext := by
  cases h with
  | apply => exact .inr rfl
  | stepDown t hint => exact .inl (stepDownToFollower_commands n t hint)
  | compact => exact .inl (createSnapshot_commands n)
  | install a =>
    left
    rw [installSnapshot_eq]
    exact commands_append (append_assoc ..) fun e he => (Upkeep.snapshot _ _ _ _ e he).appliedCommand?
  | stand => rw [standForElection_eq]; exact .inl (commands_append rfl (by simp [appliedCommand?]))
  | grant a => rw [grantVote_eq]; exact .inl (commands_append rfl (by simp [appliedCommand?]))
  | lead =>
    obtain ⟨next, heq⟩ := takeLeadership_eq n
    rw [heq]
    exact .inl (commands_append rfl (by simp [appliedCommand?]))
  | replicateAt a =>
    obtain ⟨l, st, es, heq, hes, -⟩ := appendAtSnapshot_eq n a
    rw [heq]
    exact .inl (commands_append rfl fun e he => (Upkeep.replicate hes e he).appliedCommand?)
  | replicateAfter a =>
    obtain ⟨l, st, es, heq, hes, -⟩ := appendAfterSnapshot_eq n a
    rw [heq]
    exact .inl (commands_append rfl fun e he => (Upkeep.replicate hes e he).appliedCommand?)
  | checkReads =>
    obtain ⟨r, es, heq, hes⟩ := Upkeep.checkReads n
    rw [heq]
    exact .inl (commands_append rfl fun e he => (hes e he).appliedCommand?)
  | info e he =>
    refine .inl (commands_append rfl fun e' he' => ?_)
    rw [mem_singleton.1 he']
    unfold isInfo at he
    split at he <;> trivial
  | addServers servers =>
    unfold handleAddServersRequest
    repeat' split
    all_goals exact .inl rfl
  | askVote | sendAppend | sendSnapshot | sendTimeout | respond | propose =>
    exact .inl (commands_append rfl (by simp [appliedCommand?]))
  | note | countVote | commitFollowing | commitMajority | commitAlone | matchAppend | matchSnapshot | ackAppend
  | ackSnapshot | transfer => exact .inl rfl

private theorem applyEntry_appState (n : RaftNode) (entry : LogEntry) :
    (n.applyEntry entry).appState = n.appState.applyCommand (n.clock.headD 0) entry.command ∧
      ((n.applyEntry entry).clock = n.clock ∨ (n.applyEntry entry).clock = n.clock.tail) := by
  obtain ⟨term, command⟩ := entry
  cases command with
  | membership c =>
    obtain ⟨t, es, h, -⟩ := applyMembershipCommand_eq n c
    simp only [applyEntry, h]
    cases hs : n.appState <;> exact ⟨hs, .inl rfl⟩
  | master c | config c =>
    cases hs : n.appState <;> simp [applyEntry, applyCommand, hs, AppState.applyCommand]
  | noOp => cases hs : n.appState <;> exact ⟨hs, .inl rfl⟩

theorem applyNext_entry (n : RaftNode) (he : n.log[n.lastApplied + 1 - n.lastIncludedIndex]? = some entry) :
    n.applyNext.appState = n.appState.applyCommand (n.clock.headD 0) entry.command ∧
      (n.applyNext.clock = n.clock ∨ n.applyNext.clock = n.clock.tail) ∧
      n.applyNext.commands = n.commands ++ [entry.command] := by
  refine applyNext_induction (P := fun m => m.appState = n.appState.applyCommand (n.clock.headD 0) entry.command ∧
    (m.clock = n.clock ∨ m.clock = n.clock.tail) ∧ m.commands = n.commands ++
      [entry.command]) n (by simp [he]) ?_ ?_
  · intro entry' he'
    obtain rfl := Option.some.inj (he.symm.trans he')
    obtain ⟨ha, hc⟩ := applyEntry_appState { n with lastApplied := n.lastApplied + 1 } entry
    refine ⟨ha, hc, ?_⟩
    obtain ⟨t, s, clock, es, h, -, -, hes⟩ := applyEntry_eq { n with lastApplied := n.lastApplied + 1 } entry
    have hcom : ({ n with lastApplied := n.lastApplied + 1 }.applyEntry entry).commands = n.commands := by
      rw [h]
      refine commands_append rfl fun e hin => ?_
      rcases hes e hin with ⟨c, rfl⟩ | ⟨c, rfl⟩ <;> rfl
    rw [← hcom, commands, emit, filterMap_append]
    rfl
  · rintro m reads replies es ⟨ha, hc, hcom⟩ hes
    exact ⟨ha, hc, (commands_append rfl fun e hin => by cases hes e hin <;> rfl).trans hcom⟩

private theorem applyNext_none (n : RaftNode) (he : n.log[n.lastApplied + 1 - n.lastIncludedIndex]? = none) :
    n.applyNext.commands = n.commands := by
  refine applyNext_induction (P := fun m => m.commands = n.commands) n (fun _ => rfl) (by simp [he]) ?_
  exact fun m reads replies es hm hes => (commands_append rfl fun e hin => by cases hes e hin <;> rfl).trans hm

end Commands

/-- The state is the one after the commands, and the stored snapshot is one of the state after the first of
them. -/
structure HoldsAfter (s0 : AppState) (cs : List Command) (n : RaftNode) : Prop where
  state : s0.Reaches cs n.appState
  included : n.lastIncludedIndex ≤ cs.length
  stored : n.db.snapshotMeta = none ∨ ∃ term s, n.db.snapshotMeta = some (n.lastIncludedIndex, term) ∧
    n.db.snapshotData = some s.serialize ∧ s0.Reaches (cs.take n.lastIncludedIndex) s

/-- In a call: if no index was passed over, the state is the one after the earlier commands and those of the
call. -/
structure Replays (s0 : AppState) (before : List Command) (n : RaftNode) : Prop where
  le : (before ++ n.commands).length ≤ n.lastApplied
  holds : (before ++ n.commands).length = n.lastApplied → HoldsAfter s0 (before ++ n.commands) n

/-- A node from its first start on, with any calls and restarts: what it has applied are commands of `cs`, in their
order, and it has installed no snapshot.  Every request has a reply channel of its own. -/
inductive Replica (conf : RaftNodeConfig) (cs : List Command) : RaftNode → Prop
  | start : Replica conf cs (boot conf .empty)
  | call {n : RaftNode} (inv : Invocation) (clock : List Nat) : Replica conf cs n → inv.channels.Nodup →
      (∀ a tx, .rpc (.installSnapshot a) tx ∉ inv.eventList) →
      (inv.run (n.ready clock)).lastApplied ≤ cs.length →
      (inv.run (n.ready clock)).commands = (cs.take (inv.run (n.ready clock)).lastApplied).drop n.lastApplied →
      Replica conf cs (inv.run (n.ready clock))
  | restart {n : RaftNode} : Replica conf cs n → Replica conf cs (boot conf n.db)

section Replicas

variable {conf : RaftNodeConfig} {s0 : AppState} {cs before : List Command} {n n' : RaftNode}

theorem HoldsAfter.sameState (h : HoldsAfter s0 cs n) (hs : SameState n n') : HoldsAfter s0 cs n' where
  state := by rw [hs.appState]; exact h.state
  included := by rw [hs.lastIncludedIndex]; exact h.included
  stored := by rw [hs.snapshotMeta, hs.snapshotData, hs.lastIncludedIndex]; exact h.stored

theorem HoldsAfter.createSnapshot (h : HoldsAfter s0 cs n) (hle : cs.length = n.lastApplied) :
    HoldsAfter s0 cs n.createSnapshot := by
  rw [createSnapshot_eq]
  refine ⟨h.state, hle.ge, .inr ⟨_, n.appState, rfl, rfl, ?_⟩⟩
  have ht : cs.take n.lastApplied = cs := by rw [← hle, take_length]
  rw [ht]
  exact h.state

theorem HoldsAfter.applyNext (h : HoldsAfter s0 cs n)
    (he : n.log[n.lastApplied + 1 - n.lastIncludedIndex]? = some entry) :
    HoldsAfter s0 (cs ++ [entry.command]) n.applyNext := by
  have hs := h.state.concat (n.clock.headD 0) entry.command
  rw [← (applyNext_entry n he).1] at hs
  obtain ⟨t, s, clock, reads, es, heq, -⟩ := applyNext_eq n
  rw [heq] at hs ⊢
  refine ⟨hs, ?_, ?_⟩
  · exact h.included.trans (by simp)
  · rw [show (n.withApplied t s clock reads _ es).lastIncludedIndex = n.lastIncludedIndex from rfl,
      take_append_of_le_length h.included]
    exact h.stored

private theorem Replays.act (hD : ∀ m a tx, ¬ D m (some (.rpc (.installSnapshot a) tx)))
    (h : Replays s0 before n) (ha : Act D M n n') : Replays s0 before n' := by
  by_cases hap : n' = n.applyNext
  · subst hap
    have hl := (applyNext_fields n).2.2.1
    cases he : n.log[n.lastApplied + 1 - n.lastIncludedIndex]? with
    | some entry =>
      have hc : before ++ n.applyNext.commands = before ++ n.commands ++ [entry.command] := by
        rw [(applyNext_entry n he).2.2, append_assoc]
      have hlen : (before ++ n.applyNext.commands).length = (before ++ n.commands).length + 1 := by
        rw [hc, length_append, length_singleton]
      have hle := h.le
      refine ⟨by omega, fun heq => ?_⟩
      rw [hc]
      exact (h.holds (by omega)).applyNext he
    | none =>
      have hle := h.le
      rw [← applyNext_none n he] at hle
      exact ⟨by omega, fun heq => by omega⟩
  · have hc : n'.commands = n.commands := ha.commands.resolve_right hap
    rcases ha.sameState with hs | ⟨h', -⟩ | rfl | ⟨m, a, tx, hDa, -⟩
    · refine ⟨by rw [hc, hs.lastApplied]; exact h.le, fun heq => ?_⟩
      rw [hc, hs.lastApplied] at heq
      rw [hc]
      exact (h.holds heq).sameState hs
    · exact absurd h' hap
    · have hl : n.createSnapshot.lastApplied = n.lastApplied := by rw [createSnapshot_eq]
      refine ⟨by rw [hc, hl]; exact h.le, fun heq => ?_⟩
      rw [hc, hl] at heq
      rw [hc]
      exact (h.holds heq).createSnapshot heq
    · exact absurd hDa (hD m a tx)

private theorem Replays.frame (h : Replays s0 before n) (hc : n'.commands = n.commands) (hs : SameState n n') :
    Replays s0 before n' where
  le := by rw [hc, hs.lastApplied]; exact h.le
  holds heq := by
    rw [hc, hs.lastApplied] at heq
    rw [hc]
    exact (h.holds heq).sameState hs

private theorem Replays.preserves (hD : ∀ m a tx, ¬ D m (some (.rpc (.installSnapshot a) tx))) :
    Preserves D M fun _ n => Replays s0 before n where
  mono := fun _ h => h
  act := fun h ha => h.act hD ha
  read := fun _ _ _ h => h.frame (commands_append rfl (by simp [appliedCommand?])) ⟨rfl, rfl, rfl, rfl, rfl⟩
  accept := by
    intro T n requests _ hne _ _ h
    rw [acceptRequests_eq n requests hne]
    refine h.frame (commands_append (append_assoc ..) fun e he => ?_) ⟨rfl, rfl, rfl, rfl, rfl⟩
    simp only [mem_append, mem_cons, mem_map, not_mem_nil, or_false] at he
    rcases he with rfl | ⟨x, -, rfl⟩ <;> rfl
  reject := by
    intro T n requests _ _ _ h
    refine h.frame (commands_append rfl fun e he => ?_) ⟨rfl, rfl, rfl, rfl, rfl⟩
    obtain ⟨x, -, rfl⟩ := mem_map.1 he
    rfl

theorem HoldsAfter.restarted (h : HoldsAfter conf.appState (cs.take n.lastApplied) n)
    (hle : n.lastApplied ≤ cs.length) :
    (boot conf n.db).lastApplied ≤ cs.length ∧
      HoldsAfter conf.appState (cs.take (boot conf n.db).lastApplied) (boot conf n.db) := by
  rcases h.stored with hn | ⟨term, s, hm, hdt, hs⟩
  · have hst : (boot conf n.db).appState = conf.appState ∧ (boot conf n.db).lastApplied = 0 ∧
        (boot conf n.db).lastIncludedIndex = 0 := by
      simp [boot, new, loadState, hn]
    rw [hst.2.1, take_zero]
    exact ⟨Nat.zero_le _, .nil (by rw [hst.1]), by rw [hst.2.2]; exact Nat.zero_le _, .inl hn⟩
  · have hst : (boot conf n.db).appState = s.serialize.restore conf.appState ∧
        (boot conf n.db).lastApplied = n.lastIncludedIndex ∧
          (boot conf n.db).lastIncludedIndex = n.lastIncludedIndex := by
      simp [boot, new, loadState, hm, hdt]
    have hi := h.included
    rw [length_take] at hi
    rw [take_take, Nat.min_eq_left (by omega)] at hs
    rw [hst.2.1]
    refine ⟨by omega, ?_, ?_, .inr ⟨term, s, by rw [hst.2.2]; exact hm, hdt, ?_⟩⟩
    · rw [hst.1]
      exact hs.congr (serialize_restore s conf.appState)
    · rw [hst.2.2, length_take]
      omega
    · rwa [hst.2.2, take_take, Nat.min_self]

private theorem Replica.holds (h : Replica conf cs n) :
    n.lastApplied ≤ cs.length ∧ HoldsAfter conf.appState (cs.take n.lastApplied) n := by
  induction h with
  | start => exact ⟨Nat.zero_le _, .nil rfl, Nat.zero_le _, .inl rfl⟩
  | @call n inv clock _ hnd hno hle hc ih =>
    obtain ⟨hn, hh⟩ := ih
    have hb : (cs.take n.lastApplied).length = n.lastApplied := by rw [length_take, Nat.min_eq_left hn]
    have hs : Replays conf.appState (cs.take n.lastApplied) (n.ready clock) := by
      have hnn : (n.ready clock).commands = [] := rfl
      refine ⟨?_, fun _ => ?_⟩
      · rw [hnn, append_nil, hb]
        exact le_rfl
      · rw [hnn, append_nil]
        exact hh.sameState ⟨rfl, rfl, rfl, rfl, rfl⟩
    have hp : Preserves (TurnsTo (n.ready clock) inv) (inv.ChangesMembers (n.ready clock).id)
        fun _ m => Replays conf.appState (cs.take n.lastApplied) m :=
      Replays.preserves fun m a tx ht => hno a tx ht.mem
    have he := hp.invocation inv (fun _ _ h => h) hnd (fun h => h) hs
    generalize inv.run (n.ready clock) = n' at hle hc he
    have hg : n.lastApplied ≤ n'.lastApplied := by
      have := he.le
      rw [length_append, hb] at this
      omega
    have ha : cs.take n.lastApplied ++ n'.commands = cs.take n'.lastApplied := by
      rw [hc]
      conv_lhs => rw [← Nat.min_eq_left hg, ← take_take]
      rw [Nat.min_eq_left hg, take_append_drop]
    have hhl := he.holds (by rw [ha, length_take, Nat.min_eq_left hle])
    rw [ha] at hhl
    exact ⟨hle, hhl⟩
  | restart _ ih => exact ih.2.restarted ih.1

end Replicas

section Timed

variable {n : RaftNode} {now : Nat}

private theorem iterate_applyNext_timed (es : List LogEntry) {j : Nat} (hc : n.clock = replicate j now)
    (hj : es.length ≤ j)
    (hle : n.lastIncludedIndex ≤ n.lastApplied) (hl : n.log.drop (n.lastApplied + 1 - n.lastIncludedIndex) = es) :
    (applyNext^[es.length] n).appState = n.appState.applyAll (es.map fun e => (e.command, now)) ∧
      (applyNext^[es.length] n).commands = n.commands ++ es.map LogEntry.command ∧
      (applyNext^[es.length] n).lastApplied = n.lastApplied + es.length := by
  induction es generalizing n j with
  | nil => exact ⟨rfl, (append_nil _).symm, rfl⟩
  | cons e es ih =>
    have he : n.log[n.lastApplied + 1 - n.lastIncludedIndex]? = some e := by
      rw [← head?_drop, hl, head?_cons]
    obtain ⟨hs, hc', hcom⟩ := applyNext_entry n he
    have hf := applyNext_fields n
    obtain ⟨j, rfl⟩ : ∃ i, j = i + 1 := ⟨j - 1, by simp only [length_cons] at hj; omega⟩
    have hh : n.clock.headD 0 = now := by rw [hc]; rfl
    rw [hh] at hs
    have hn : ∃ i, n.applyNext.clock = replicate i now ∧ es.length ≤ i := by
      rcases hc' with h | h
      · exact ⟨j + 1, h.trans hc, by simp only [length_cons] at hj; omega⟩
      · exact ⟨j, by rw [h, hc]; rfl, by simpa using hj⟩
    obtain ⟨i, hi, hlen⟩ := hn
    have hdr : n.applyNext.log.drop (n.applyNext.lastApplied + 1 - n.applyNext.lastIncludedIndex) = es := by
      rw [hf.1, hf.2.1, hf.2.2.1,
        show n.lastApplied + 1 + 1 - n.lastIncludedIndex = n.lastApplied + 1 - n.lastIncludedIndex + 1 by omega,
        ← tail_drop, hl, tail_cons]
    obtain ⟨h1, h2, h3⟩ := ih hi hlen (by omega) hdr
    rw [length_cons, Function.iterate_succ_apply, h1, h2, h3, hs, hcom, hf.2.2.1]
    refine ⟨rfl, ?_, by omega⟩
    rw [append_assoc]
    rfl

theorem appendAtSnapshot_first (n : RaftNode) {a : AppendEntriesArgs} {first : LogEntry} (hl : n.log = [first])
    (hi : a.prevLogIndex = n.lastIncludedIndex) (ht : a.prevLogTerm = first.term) :
    (n.appendAtSnapshot a).log = n.log ++ a.entries ∧ (n.appendAtSnapshot a).commands = n.commands ∧
      (n.appendAtSnapshot a).clock = n.clock ∧ (n.appendAtSnapshot a).commitIndex = n.commitIndex ∧
      SameState n (n.appendAtSnapshot a) := by
  have hs : n.truncateAtSnapshot a.prevLogTerm = n := by
    simp [truncateAtSnapshot, hl, ht]
  have hm := mergeEntries_at_end a.entries n [] (a.prevLogIndex + 1) (by omega)
    (by rw [hl, length_singleton]; omega)
  have hl' : (n.appendAtSnapshot a).log = n.log ++ a.entries := by
    rw [appendAtSnapshot, hs, hm]
    exact saveLogEntriesBatch_log _ _
  obtain ⟨l, d, es, heq, hes, -⟩ := appendAtSnapshot_eq n a
  rw [heq] at hl' ⊢
  exact ⟨hl', commands_append rfl fun e he =>
    (Upkeep.replicate hes e he).appliedCommand?, rfl, rfl, rfl, rfl, rfl, rfl, rfl⟩

theorem firstEntries_run (conf : RaftNodeConfig) (cs : List Command) (now : Nat) (hne : cs ≠ []) {n' : RaftNode}
    (h : (firstEntries cs).run ((boot conf .empty).ready (replicate cs.length now)) = n') :
    n'.appState = conf.appState.applyAll (cs.map fun c => (c, now)) ∧ n'.commands = cs ∧
      n'.lastApplied = cs.length := by
  have hlen : 0 < cs.length := length_pos_of_ne_nil hne
  obtain ⟨a, ha⟩ : ∃ a : AppendEntriesArgs, a = ⟨1, 1, 0, 0, cs.map fun c => ⟨1, c⟩, cs.length, "a"⟩ := ⟨_, rfl⟩
  obtain ⟨m, hm⟩ : ∃ m, { ((boot conf .empty).ready (replicate cs.length now)).stepDownToFollower 1 (some "a") with
    currentLeader := some 1 } = m := ⟨_, rfl⟩
  obtain ⟨hlog, hi, ht, hls, hcm, hs, hc, hcom⟩ : m.log = [⟨0, .noOp⟩] ∧ m.lastIncludedIndex = 0 ∧
      m.lastIncludedTerm = 0 ∧ m.lastApplied = 0 ∧ m.commitIndex = 0 ∧ m.appState = conf.appState ∧
      m.clock = replicate cs.length now ∧ m.commands = [] := by
    subst hm
    exact ⟨rfl, rfl, rfl, rfl, rfl, rfl, rfl, rfl⟩
  obtain ⟨q, hq⟩ : ∃ q, m.appendAtSnapshot a = q := ⟨_, rfl⟩
  -- the message goes to the branch for the snapshot point, and its commit index is taken over
  have hr : n' = q.followCommit cs.length := by
    rw [← h, ← hq]
    change (((boot conf .empty).ready (replicate cs.length now)).handleAppendEntries
      ⟨1, 1, 0, 0, cs.map fun c => ⟨1, c⟩, cs.length, "a"⟩).1 = _
    have hle : ((boot conf .empty).ready (replicate cs.length now)).currentTerm ≤ 1 := Nat.zero_le 1
    have hrep : m.replicateEntries ⟨1, 1, 0, 0, cs.map fun c => ⟨1, c⟩, cs.length, "a"⟩ =
        (m.appendAtSnapshot a, true, 0 + (cs.map fun c => (⟨1, c⟩ : LogEntry)).length) := by
      rw [ha]
      simp only [replicateEntries, hi, ht, lt_irrefl, if_false, if_true]
    simp only [handleAppendEntries, if_pos hle, hm, hrep, if_true]
  obtain ⟨hl', hcom', hc', hcm', hsm⟩ :=
    appendAtSnapshot_first m hlog (a := a) (by rw [ha, hi]) (by rw [ha])
  rw [hq, show a.entries = cs.map fun c => (⟨1, c⟩ : LogEntry) by rw [ha]] at hl'
  rw [hq] at hcom' hc' hcm' hsm
  have hl : q.lastLogIndex = cs.length := by
    rw [lastLogIndex, hl', hsm.lastIncludedIndex, hlog, hi]
    simp
  have hap :
      n' = applyNext^[(cs.map fun c => (⟨1, c⟩ : LogEntry)).length] { q with commitIndex := cs.length } := by
    rw [hr, followCommit, if_pos (by omega), hl, Nat.min_self, applyLogs, length_map]
    simp only [hsm.lastApplied, hls, Nat.sub_zero]
  obtain ⟨h1, h2, h3⟩ := iterate_applyNext_timed (n := { q with commitIndex := cs.length })
    (cs.map fun c => (⟨1, c⟩ : LogEntry)) (hc'.trans hc) (by simp)
    (by simp only [hsm.lastIncludedIndex, hi]; exact Nat.zero_le _)
    (by simp only [hl', hlog, hsm.lastApplied, hls, hsm.lastIncludedIndex, hi]; rfl)
  rw [← hap] at h1 h2 h3
  refine ⟨?_, ?_, ?_⟩
  · rw [h1, map_map]
    simp only [hsm.appState, hs]
    rfl
  · rw [h2]
    change q.commands ++ _ = _
    rw [hcom', hcom, nil_append, map_map]
    exact map_id cs
  · rw [h3]
    simp [hsm.lastApplied, hls]

theorem exists_replica (conf : RaftNodeConfig) {cs : List Command} (hne : cs ≠ []) (now : Nat) :
    ∃ n, Replica conf cs n ∧ n.lastApplied = cs.length ∧
      n.appState = conf.appState.applyAll (cs.map fun c => (c, now)) := by
  obtain ⟨hs, hc, hl⟩ := firstEntries_run conf cs now hne rfl
  refine ⟨_, .call (firstEntries cs) (replicate cs.length now) .start nodup_nil ?_ hl.le ?_, hl, hs⟩
  · simp [firstEntries, Invocation.eventList]
  · rw [hc, hl, take_length]
    rfl

end Timed

end RaftNode

open RaftNode

/-- All replicas that applied the commands hold the same serialized state exactly if no command stores the
clock. -/
theorem replicas_converge_iff (conf : RaftNodeConfig) (cs : List Command) :
    (∀ n n', Replica conf cs n → Replica conf cs n' → n.lastApplied = cs.length → n'.lastApplied = cs.length →
      n.appState.serialize = n'.appState.serialize) ↔ ∀ c ∈ cs, conf.appState.storesClock c = false := by
  constructor
  · intro h c hc
    by_contra hstores
    have hstores : conf.appState.storesClock c = true := by simpa using hstores
    obtain ⟨n, hn, hlast, hstate⟩ := exists_replica conf (ne_nil_of_mem hc) 0
    obtain ⟨n', hn', hlast', hstate'⟩ := exists_replica conf (ne_nil_of_mem hc) 1
    have hseen : n.appState.SeenAt c.reporter 0 := hstate ▸ seenAt_applyAll cs hc hstores
    have hseen' : n'.appState.SeenAt c.reporter 1 := hstate' ▸ seenAt_applyAll cs hc hstores
    exact absurd (hseen.unique hseen' (h n n' hn hn' hlast hlast')) (by decide)
  · intro h n n' hn hn' hlast hlast'
    have hs := hn.holds.2.state
    have hs' := hn'.holds.2.state
    rw [hlast, take_length] at hs
    rw [hlast', take_length] at hs'
    exact hs.unique hs' h

def configServer : RaftNodeConfig := ⟨1, ["b", "c"], "a", .config ⟨.newRange, ∅⟩⟩

/-- Two replicas that apply the registration of one master a second apart. -/
theorem replicas_diverge : ∃ n n', Replica configServer [.config (.registerMaster "m" "s")] n ∧
    Replica configServer [.config (.registerMaster "m" "s")] n' ∧ n.lastApplied = 1 ∧ n'.lastApplied = 1 ∧
    n.appState.serialize ≠ n'.appState.serialize := by
  obtain ⟨n, hn, hlast, hstate⟩ :=
    exists_replica configServer (cons_ne_nil (.config (.registerMaster "m" "s")) []) 0
  obtain ⟨n', hn', hlast', hstate'⟩ :=
    exists_replica configServer (cons_ne_nil (.config (.registerMaster "m" "s")) []) 1
  refine ⟨n, n', hn, hn', hlast, hlast', fun heq => ?_⟩
  have hseen : n.appState.SeenAt "m" 0 := by
    rw [hstate]
    exact ⟨_, rfl, rfl⟩
  have hseen' : n'.appState.SeenAt "m" 1 := by
    rw [hstate']
    exact ⟨_, rfl, rfl⟩
  exact absurd (hseen.unique hseen' heq) (by decide)

end RustHadoop
