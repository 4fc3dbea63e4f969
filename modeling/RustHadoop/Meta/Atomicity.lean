import RustHadoop.Meta.Ledger

/-!
# Atomic commitment

A transaction is decided once, and in one way, in every run in which its two decisions do not meet: an abort and an
operation of the transaction are not both applied, and on a shard neither its creation nor its preparation is
applied after a decision.  Nothing in the code keeps the runs to that.
-/

namespace RustHadoop

open Process List TransactionRecord

open Process (Proc Rules Guard Run GuardedStep)

namespace Shards

/-- The decisions about a transaction do not meet. -/
def agreement (k : String) : Guard String MasterState MasterCommand TxRequest TxResponse Surroundings where
  look _ _ _ := True
  apply x p :=
    match p.command with
    | .createTransactionRecord r => r.txId = k → ¬ Ledger.Decided k p.node x.commands
    | .updateTransactionState t .prepared => t = k → ¬ Ledger.Decided k p.node x.commands
    | .updateTransactionState t .aborted => t = k → ¬ Ledger.Carried k x.commands
    | .applyTransactionOperation t _ => t = k → ∀ n, (n, .updateTransactionState k .aborted) ∉ x.commands
    | _ => True

structure Agreed (k : String) (w : Ledger × Prop) (x : World) : Prop extends Linked k w x where
  ended : w.2
  decided : ∀ n r, record k x n = some r → w.1.Decided k n → r.decided
  oneSided : w.1.Carried k → ∀ n, (n, .updateTransactionState k .aborted) ∉ w.1

variable {d : Shards} {k : String} {w : Ledger × Prop} {x y : World}

private theorem Agreed.apply {i : Nat} {p : Proposal String MasterCommand} (h : Agreed k w x)
    (hi : x.proposals[i]? = some p) (hp : p.applied = false) (hc : w.1.Allows k w.2 p.command)
    (hg : (agreement k).apply x p) : Agreed k (insert (p.node, p.command) w.1, w.2) (x.applyAt d.service i p) := by
  obtain ⟨m, c, _⟩ := p
  simp only [agreement, ← h.commands] at hg
  refine ⟨h.toLinked.apply hi hp hc, h.ended, fun n r hr hdec => ?_, fun hcr n hn => ?_⟩
  · have hdec := hdec.of_insert
    rcases record_applyAt hr with ⟨rfl, rfl, hk⟩ | ⟨r', hr', ⟨hst, hne⟩ | ⟨rfl, rfl⟩⟩
    · rcases hdec with hdec | ⟨-, h | h⟩
      · exact absurd hdec (hg hk)
      · cases h
      · cases h
    · rcases hdec with hdec | ⟨hn, hc⟩
      · exact (h.decided n r' hr' hdec).imp (hst.trans ·) (hst.trans ·)
      · exact absurd hc (not_or.2 ⟨hne _ hn, hne _ hn⟩)
    · rcases hdec with hdec | ⟨-, h | h⟩
      · cases hs : r.state with
        | pending => exact absurd hs hc.1
        | prepared =>
          rw [hs] at hg
          exact absurd hdec (hg rfl)
        | committed => exact .inl hs
        | aborted => exact .inr hs
      · exact .inl (MasterCommand.updateTransactionState.inj h).2
      · exact .inr (MasterCommand.updateTransactionState.inj h).2
  · rcases hcr.of_insert with ho | ⟨op, rfl⟩
    · rcases hn with hn | hn
      · obtain rfl := (Prod.mk.inj hn).2
        exact hg rfl ho
      · exact h.oneSided ho n hn
    · rcases hn with hn | hn
      · cases (Prod.mk.inj hn).2
      · exact hg rfl n hn

private theorem agreement_sound : (d.ledger k).Sound (agreement k) (Agreed k) where
  state h n r hr := h.records n r hr
  quiet hs h := by
    refine ⟨h.toLinked.quiet hs, h.ended, ?_, h.oneSided⟩
    rw [record_of_same hs]
    exact h.decided
  look h _ _ := ⟨_, le_rfl, h, fun _ => h.ended⟩
  other h hc := by
    refine ⟨_, le_rfl, h.toLinked.other hc, h.ended, ?_, h.oneSided⟩
    rw [record_enter hc]
    exact h.decided
  apply {w x i p} h hi hp hc hg :=
    ⟨(insert (p.node, p.command) w.1, w.2), ⟨Set.subset_insert _ _, le_rfl⟩, h.apply hi hp hc hg,
      Set.mem_insert _ _⟩

theorem Agreed.run (h : Agreed k w x) (hx : x.Obeys (d.ledger k) w) (hr : Run d.service (agreement k) x y) :
    ∃ w', w ≤ w' ∧ Agreed k w' y ∧ y.Obeys (d.ledger k) w' :=
  Run.obeys agreement_sound (fun _ _ r _ => serve_obeys r)
    (fun _ _ _ hp => (starts_obeys hp).imp fun _ _ _ _ _ _ => trivial) h hx hr

private theorem Agreed.init {state : String → MasterState} (hf : ∀ n, k ∉ (state n).transactionRecords) :
    Agreed k (∅, True) (.init state) where
  toLinked := Linked.init hf
  ended := trivial
  decided _ _ _ hdec := hdec.elim (False.elim ·) (False.elim ·)
  oneSided _ _ h := h

/-- Atomic commitment, in a run in which the decisions do not meet: once a record of the transaction is committed
or aborted its state does not change any more, and no other shard decides otherwise, at that time or later. -/
theorem atomic_commitment (d : Shards) (k : String) (state : String → MasterState)
    (hfresh : ∀ n, k ∉ (state n).transactionRecords) {x y : World}
    (hx : Run d.service (agreement k) (.init state) x)
    (hy : Run d.service (agreement k) x y) {n : String} {r : TransactionRecord} (hr : record k x n = some r)
    (hdec : r.decided) :
    (∀ r', record k y n = some r' → r'.state = r.state) ∧
      ∀ m r', record k y m = some r' → r'.decided → r'.state = r.state := by
  obtain ⟨w, -, hwx, hobeys⟩ := (Agreed.init hfresh).run (.init state) hx
  obtain ⟨v, hv, hvy, -⟩ := hwx.run hobeys hy
  have hbefore := (hwx.records n r hr).mono hv.1
  have hsame : ∀ m r', record k y m = some r' → r'.decided → r'.state = r.state := by
    intro m r' hr' hdec'
    have hafter := hvy.records m r' hr'
    rcases hdec with hc | ha <;> rcases hdec' with hc' | ha'
    · rw [hc, hc']
    · exact absurd (hafter.aborted ha') (hvy.oneSided (hbefore.committed hc).1 m)
    · exact absurd (hbefore.aborted ha) (hvy.oneSided (hafter.committed hc').1 n)
    · rw [ha, ha']
  refine ⟨fun r' hr' => hsame n r' hr' ?_, hsame⟩
  exact hvy.decided n r' hr' (hbefore.decided hdec)

def agrees (k : String) (x : World) :
    Move String MasterState MasterCommand TxRequest TxResponse Surroundings → Bool
  | .apply i => (x.proposals[i]?).all fun p =>
    let undecided :=
      untouched x fun n c => n = p.node && (c.setsState k = some .committed || c.setsState k = some .aborted)
    match p.command with
    | .createTransactionRecord r => r.txId ≠ k || undecided
    | .updateTransactionState t .prepared => t ≠ k || undecided
    | .updateTransactionState t .aborted => t ≠ k || untouched x fun _ c => c.carriesOut k
    | .applyTransactionOperation t _ => t ≠ k || untouched x fun _ c => c.setsState k = some .aborted
    | _ => true
  | _ => true

private theorem agrees_sound (x : World) (m) (h : agrees k x m = true) : m.Guarded (agreement k) x := by
  cases m with
  | start | deliver => trivial
  | go => exact fun _ => trivial
  | apply i =>
    intro p hp
    have hun : (untouched x fun n c => n = p.node &&
        (c.setsState k = some .committed || c.setsState k = some .aborted)) = true →
        ¬ Ledger.Decided k p.node x.commands := by
      rintro hu (hd | hd) <;> simpa [MasterCommand.setsState] using of_untouched hu hd
    simp only [agrees, hp, Option.all_some] at h
    simp only [agreement]
    split at h
    · rintro rfl
      exact hun (by simpa using h)
    · rintro rfl
      exact hun (by simpa using h)
    · rintro rfl ⟨n, op, hc⟩
      have hu := of_untouched (by simpa using h) hc
      simp [MasterCommand.carriesOut] at hu
    · rintro rfl n hc
      have hu := of_untouched (by simpa using h) hc
      simp [MasterCommand.setsState] at hu
    · trivial

open CrossShardRename in
def pairShards : Shards := ⟨pair.route, fun _ => pair.Placed⟩

open CrossShardRename in
def pairAt (now : Nat) : Surroundings := ⟨now, pairMap, false, true⟩

open CrossShardRename in
theorem pairAt_placed (now : Nat) : pair.Placed (pairAt now) :=
  ⟨pair_placed.source, pair_placed.dest, pair_placed.peers⟩

abbrev Script := List (Move String MasterState MasterCommand TxRequest TxResponse Surroundings)

/-- The rename up to the point where its record on the coordinator is about to become prepared. -/
def renameBegun : Script :=
  [.start "a" (rename "a" "t" "/a" "/z")] ++ replicate 6 (.go 0 (pairAt 0)) ++ [.apply 0] ++
    replicate 2 (.go 0 (pairAt 0))

/-- The coordinator's cleanup task finds the record pending for too long. -/
def cleanupAborts : Script :=
  [.start "a" (runTransactionCleanup "a")] ++ replicate 6 (.go 1 (pairAt 10001))

/-- The rename goes on until the participant has committed; the handlers of the participant run at position `i`,
and `j` is the next proposal. -/
def renameCommits (i j : Nat) : Script :=
  replicate 2 (.go 0 (pairAt 0)) ++ [.deliver 0] ++ replicate 5 (.go i (pairAt 0)) ++ [.apply j] ++
    replicate 2 (.go i (pairAt 0)) ++ replicate 2 (.go 0 (pairAt 0)) ++ [.deliver 1] ++
    replicate 3 (.go i (pairAt 0)) ++ [.apply (j + 1)] ++ replicate 2 (.go i (pairAt 0)) ++ [.apply (j + 2)]

/-- The coordinator deletes the source and closes its record. -/
def renameCloses (i j : Nat) : Script :=
  replicate 2 (.go i (pairAt 0)) ++ replicate 2 (.go 0 (pairAt 0)) ++ [.apply (j + 3)] ++
    replicate 2 (.go 0 (pairAt 0)) ++ [.apply (j + 4)]

theorem sees_pairAt (n : String) (now : Nat) : pairShards.service.surroundings n (pairAt now) := pairAt_placed now

theorem starts_rename (n txId source dest : String) : pairShards.service.starts n (rename n txId source dest) :=
  .inl ⟨txId, source, dest, rfl⟩

theorem starts_cleanup (n : String) : pairShards.service.starts n (runTransactionCleanup n) := .inr (.inl rfl)

theorem fresh_pairState (n : String) : "t" ∉ (CrossShardRename.pairState n).transactionRecords := by
  unfold CrossShardRename.pairState
  split <;> simp [MasterState.default]

def pairCommitted : World :=
  (World.init CrossShardRename.pairState).play pairShards.service (renameBegun ++ [.apply 1] ++ renameCommits 1 2)

def pairClosed : World := pairCommitted.play pairShards.service (renameCloses 1 2)

theorem atomic_commitment_pair : (record "t" pairCommitted "b").map state = some .committed ∧
      (record "t" pairClosed "a").map state = some .committed ∧
      ∀ m r, record "t" pairClosed m = some r → r.decided → r.state = .committed := by
  have hrun : ((World.init CrossShardRename.pairState).check pairShards.service (agrees "t")
        (renameBegun ++ [.apply 1] ++ renameCommits 1 2) = true ∧
      pairCommitted.check pairShards.service (agrees "t") (renameCloses 1 2) = true) ∧
      (record "t" pairCommitted "b").map state = some .committed ∧
      (record "t" pairClosed "a").map state = some .committed := by decide +kernel
  obtain ⟨⟨hcx, hcy⟩, hb, ha⟩ := hrun
  have hx : Run pairShards.service (agreement "t") (.init CrossShardRename.pairState) pairCommitted := by
    refine Run.play _ ?_ (.of_check agrees_sound _ hcx)
    simp [renameBegun, renameCommits, or_imp, forall_and, Move.Allowed, sees_pairAt, starts_rename]
  have hy : Run pairShards.service (agreement "t") pairCommitted pairClosed := by
    refine Run.play _ ?_ (.of_check agrees_sound _ hcy)
    simp [renameCloses, or_imp, forall_and, Move.Allowed, sees_pairAt]
  obtain ⟨r, hr, hst⟩ := Option.map_eq_some_iff.1 hb
  refine ⟨hb, ha, fun m r' hr' hdec => ?_⟩
  rw [← hst]
  exact (atomic_commitment pairShards "t" _ fresh_pairState hx hy hr (.inl hst)).2 m r' hr' hdec

/-- The coordinator's cleanup task aborts the pending record while the update to prepared waits in the log; the
rename goes on.  The record of the coordinator is then aborted and that of the participant committed, and later the
coordinator's is committed as well. -/
theorem decisions_meet :
    ∃ x y : World, Run pairShards.service .any (.init CrossShardRename.pairState) x ∧
      Run pairShards.service .any x y ∧
      (record "t" x "a").map state = some .aborted ∧
      (record "t" x "b").map state = some .committed ∧
      (record "t" y "a").map state = some .committed := by
  refine ⟨(World.init CrossShardRename.pairState).play pairShards.service
    (renameBegun ++ cleanupAborts ++ [.apply 1, .apply 2] ++ renameCommits 2 3), _,
    Run.play _ ?_ (.any _ _), Run.play (renameCloses 2 3) ?_ (.any _ _), ?_⟩
  · simp [renameBegun, cleanupAborts, renameCommits, or_imp, forall_and, Move.Allowed, sees_pairAt,
      starts_rename, starts_cleanup]
  · simp [renameCloses, or_imp, forall_and, Move.Allowed, sees_pairAt]
  · decide +kernel

end Shards

end RustHadoop
