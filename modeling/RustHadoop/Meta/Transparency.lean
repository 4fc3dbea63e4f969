import RustHadoop.Meta.Promise

/-!
# Renaming on one shard and on two

A rename that runs alone is compared for two placements of the same files, one with both paths on one shard and one
with the paths on different shards.
-/

namespace RustHadoop

open CrossShardRename Function MasterState AList

open Process (Proc Alone Outcome)

/-- How files are placed: the shard map that every master sees, and where addresses lead. -/
structure Placement where
  map : ShardMap
  route : String → Option String

namespace Placement

variable (P : Placement)

def shards : Shards := ⟨P.route, fun _ e => e.shardMap = P.map ∧ e.safeMode = false⟩

abbrev RunsAlone {α : Type} (σ : String → MasterState) (n : String) (p : Handler α)
    (σ' : String → MasterState) (a : α) : Prop :=
  Alone P.shards.service (fun _ => False) σ n p σ' a

/-- The logical map from paths to metadata: each path is looked up on the shard that is responsible for it. -/
def logical (σ : String → MasterState) (path : String) : Option FileMetadata :=
  (P.map.getShard path).bind fun shard => (σ shard).files.lookup path

/-- The shard has a peer that can be reached, and none that leads elsewhere. -/
structure Reaches (shard : String) (peers : List String) : Prop where
  leads : ∀ peer ∈ peers, ∀ n, P.route (if peer.startsWith "http://" then peer else "http://" ++ peer) = some n →
    n = shard
  reached : ∃ peer ∈ peers, P.route (if peer.startsWith "http://" then peer else "http://" ++ peer) = some shard

def succeeded : Option TxResponse → Bool
  | some (.renamed r) => r.success
  | _ => false

variable {P} {σ σ' : String → MasterState} {n b t source dest : String} {m : FileMetadata} {y : Option TxResponse}

theorem submit_alone {c : MasterCommand} {α : Type} {f : Outcome → Handler α} {a : α}
    (h : P.RunsAlone σ n (Proc.submit c >>= f) σ' a) :
    P.RunsAlone (update σ n ((σ n).applyCommand c)) n (f .applied) σ' a :=
  (Alone.submit_iff.1 h).resolve_right fun ⟨_, ho, _⟩ => ho

theorem around_alone {α : Type} {f : Surroundings → Handler α} {a : α}
    (h : P.RunsAlone σ n (Proc.around >>= f) σ' a) :
    ∃ e : Surroundings, e.shardMap = P.map ∧ e.safeMode = false ∧ P.RunsAlone σ n (f e) σ' a := by
  obtain ⟨e, he, h⟩ := Alone.around_iff.1 h
  exact ⟨e, he.1, he.2, h⟩

variable {peers : List String}

theorem sendToDestShard_alone {request : TxRequest} {ok : Bool} (hpr : P.Reaches b peers)
    (ha : ∀ σ₁ y, P.RunsAlone σ b (serve b request) σ₁ y → ∃ r : TxReply, y = some (.reply r) ∧ r.leaderHint = "")
    (h : P.RunsAlone σ n (sendToDestShard request peers) σ' ok) :
    ∃ r : TxReply, P.RunsAlone σ b (serve b request) σ' (some (.reply r)) ∧ ok = r.success := by
  induction peers with
  | nil =>
    obtain ⟨_, hmem, -⟩ := hpr.reached
    cases hmem
  | cons peer peers ih =>
    rcases Alone.ask_iff.1 h with ⟨m, σ₁, y, hm, hs, h⟩ | ⟨hm, h⟩
    · obtain rfl := hpr.leads peer (List.mem_cons_self ..) m hm
      obtain ⟨r, rfl, hh⟩ := ha σ₁ y hs
      simp only [hh, if_true] at h
      split at h
      · rename_i hsc
        obtain ⟨rfl, rfl⟩ := Alone.ret_iff.1 h
        exact ⟨r, hs, hsc.symm⟩
      · rename_i hf
        obtain ⟨rfl, rfl⟩ := Alone.ret_iff.1 h
        exact ⟨r, hs, by simpa using hf⟩
    · refine ih ⟨fun p hp => hpr.leads p (List.mem_cons_of_mem _ hp), ?_⟩ h
      obtain ⟨p, hp, hr⟩ := hpr.reached
      rcases List.mem_cons.1 hp with rfl | hp
      · have hn : P.route _ = none := hm
        rw [hn] at hr
        cases hr
      · exact ⟨p, hp, hr⟩

private theorem prepareTransaction_alone {coordinatorShard : String} (hown : P.map.getShard dest = some b)
    (hf : t ∉ (σ b).transactionRecords)
    (h : P.RunsAlone σ b (prepareTransaction b t dest (some m) coordinatorShard) σ' y) :
    (dest ∈ (σ b).files ∧ σ' = σ ∧ ∃ message, y = some (.reply ⟨false, message, ""⟩)) ∨
      dest ∉ (σ b).files ∧ y = some (.reply ⟨true, "", ""⟩) ∧ ∃ record : TransactionRecord, record.txId = t ∧
        record.state = .prepared ∧ record.operations = [⟨b, .create dest m⟩] ∧
        σ' = update σ b ((σ b).applyCommand (.createTransactionRecord record)) := by
  unfold prepareTransaction at h
  rw [RunsAlone, Alone.state_iff, if_neg hf] at h
  obtain ⟨e, he, -, h⟩ := around_alone h
  have ho : e.shardMap.owns b dest = true := by simp [he, ShardMap.owns, hown]
  rw [if_pos ho, RunsAlone, Alone.state_iff] at h
  split at h
  · rename_i hin
    obtain ⟨rfl, rfl⟩ := Alone.ret_iff.1 h
    exact .inl ⟨hin, rfl, _, rfl⟩
  · rename_i hout
    obtain ⟨e', -, -, h⟩ := around_alone h
    have h := submit_alone h
    obtain ⟨rfl, rfl⟩ := Alone.ret_iff.1 h
    exact .inr ⟨hout, rfl, _, rfl, rfl, rfl, rfl⟩

variable {record : TransactionRecord}

private theorem commitTransaction_alone (hr : (σ b).transactionRecords.lookup t = some record)
    (hst : record.state = .prepared) (ho : record.operations = [⟨b, .create dest m⟩]) (hout : dest ∉ (σ b).files)
    (h : P.RunsAlone σ b (commitTransaction t) σ' y) :
    y = some (.reply ⟨true, "", ""⟩) ∧ ∃ s, s.files = (σ b).files.insert dest m ∧ σ' = update σ b s := by
  unfold commitTransaction at h
  rw [RunsAlone, Alone.state_iff] at h
  simp only [hr, Option.any_some, hst, reduceCtorEq, decide_false, Bool.false_eq_true, if_false] at h
  rw [Alone.state_iff] at h
  simp only [hr, Option.bind_some, ho, List.head?_cons] at h
  have h := submit_alone h
  have h := submit_alone h
  obtain ⟨rfl, rfl⟩ := Alone.ret_iff.1 h
  refine ⟨rfl, _, ?_, by rw [update_idem]⟩
  simp [applyCommand, applyTransactionOperation, hout]

/-- What a rename to another shard leaves behind. -/
structure Moved (σ σ' : String → MasterState) (a b source dest : String) (m : FileMetadata) : Prop where
  source : (σ' a).files = (σ a).files.erase source
  dest : (σ' b).files = (σ b).files.insert dest m
  others : ∀ s, s ≠ a → s ≠ b → (σ' s).files = (σ s).files

private theorem commitRename_alone (hne : n ≠ b) (hp : P.Reaches b peers)
    (hr : (σ b).transactionRecords.lookup t = some record) (hst : record.state = .prepared)
    (ho : record.operations = [⟨b, .create dest m⟩]) (hout : dest ∉ (σ b).files)
    (h : P.RunsAlone σ n (commitRename t source n peers) σ' y) :
    y = renameDone ∧ Moved σ σ' n b source dest m := by
  obtain ⟨σ₁, ok, hsn, h⟩ := Alone.bind_iff.1 h
  obtain ⟨r, hc, rfl⟩ := sendToDestShard_alone hp
    (fun _ _ h => ⟨_, (commitTransaction_alone hr hst ho hout h).1, rfl⟩) hsn
  obtain ⟨hy, s, hs, rfl⟩ := commitTransaction_alone hr hst ho hout hc
  obtain rfl : r = ⟨true, "", ""⟩ := by simpa using hy
  simp only [if_true] at h
  have h := submit_alone h
  have h := submit_alone h
  have h := submit_alone h
  obtain ⟨rfl, rfl⟩ := Alone.ret_iff.1 h
  refine ⟨rfl, ?_, ?_, fun s' ha hb => ?_⟩
  · simp [applyCommand, applyTransactionOperation, update_of_ne hne]
  · simp [update_of_ne (Ne.symm hne), hs]
  · simp [update_of_ne ha, update_of_ne hb]

private theorem prepareRename_alone (hne : n ≠ b) (hp : P.Reaches b peers)
    (hown : P.map.getShard dest = some b) (hf : t ∉ (σ b).transactionRecords)
    (h : P.RunsAlone σ n (prepareRename n t source dest n m peers) σ' y) :
    (dest ∈ (σ b).files ∧ succeeded y = false) ∨
      dest ∉ (σ b).files ∧ succeeded y = true ∧ Moved σ σ' n b source dest m := by
  have h := submit_alone h
  obtain ⟨σ₁, ok, hsn, h⟩ := Alone.bind_iff.1 h
  set σ₀ := update σ n ((σ n).applyCommand (.updateTransactionState t .prepared)) with hσ₀
  have hb : σ₀ b = σ b := update_of_ne (Ne.symm hne) ..
  have hpr := fun σ₁ y (h : P.RunsAlone σ₀ b (prepareTransaction b t dest (some m) n) σ₁ y) =>
    prepareTransaction_alone hown (by rw [hb]; exact hf) h
  obtain ⟨r, hs, rfl⟩ := sendToDestShard_alone hp (fun σ₁ y h => by
    rcases hpr σ₁ y h with ⟨-, -, message, rfl⟩ | ⟨-, rfl, -⟩
    · exact ⟨_, rfl, rfl⟩
    · exact ⟨_, rfl, rfl⟩) hsn
  rcases hpr _ _ hs with ⟨hin, -, message, hy⟩ | ⟨ho, hy, record, rfl, hst, hops, rfl⟩
  · obtain rfl : r = ⟨false, message, ""⟩ := by simpa using hy
    simp only [Bool.false_eq_true, if_false] at h
    obtain ⟨σ₂, ok, -, h⟩ := Alone.bind_iff.1 h
    have h := submit_alone h
    obtain ⟨-, rfl⟩ := Alone.ret_iff.1 h
    exact .inl ⟨hb ▸ hin, rfl⟩
  · obtain rfl : r = ⟨true, "", ""⟩ := by simpa using hy
    simp only [if_true] at h
    have hl : (update σ₀ b ((σ₀ b).applyCommand (.createTransactionRecord record)) b).transactionRecords.lookup
        record.txId = some record := by
      rw [update_self]
      exact lookup_insert _
    have ho' : dest ∉ (update σ₀ b ((σ₀ b).applyCommand (.createTransactionRecord record)) b).files := by
      rw [update_self]
      exact ho
    obtain ⟨rfl, hm⟩ := commitRename_alone hne hp hl hst hops ho' h
    refine .inr ⟨hb ▸ ho, rfl, ?_, ?_, fun s ha hb' => ?_⟩
    · rw [hm.source, update_of_ne hne, hσ₀, update_self]
      rfl
    · rw [hm.dest, update_self, hb]
      rfl
    · rw [hm.others s ha hb', update_of_ne hb', hσ₀, update_of_ne ha]

private theorem renameInShard_alone (h : P.RunsAlone σ n (renameInShard source dest) σ' y) :
    y = renameDone ∧ σ' = update σ n ((σ n).applyCommand (.renameFile source dest)) := by
  have h := submit_alone h
  obtain ⟨rfl, rfl⟩ := Alone.ret_iff.1 h
  exact ⟨rfl, rfl⟩

theorem rename_alone (hs : P.map.getShard source = some n) (hds : P.map.getShard dest = some b)
    (h : P.RunsAlone σ n (rename n t source dest) σ' y) :
    ((σ n).files.lookup source = none ∧ succeeded y = false ∧ σ' = σ) ∨ ∃ m, (σ n).files.lookup source = some m ∧
        P.RunsAlone σ n (if n = b then renameInShard source dest
          else renameAcrossShards n t source dest n b m ((P.map.getPeers b).getD [])) σ' y := by
  unfold rename at h
  obtain ⟨e, he, -, h⟩ := around_alone h
  have ho : e.shardMap.owns n source = true := by simp [he, ShardMap.owns, hs]
  rw [if_pos ho] at h
  obtain ⟨e, -, hsf, h⟩ := around_alone h
  simp only [hsf, Bool.false_eq_true, if_false] at h
  obtain ⟨e, he, -, h⟩ := around_alone h
  rw [he, RunsAlone, Alone.state_iff] at h
  simp only [hs, hds, Option.getD_some] at h
  split at h
  · rename_i hn
    obtain ⟨rfl, rfl⟩ := Alone.ret_iff.1 h
    exact .inl ⟨hn, rfl, rfl⟩
  · rename_i m hm
    exact .inr ⟨m, hm, h⟩

def renamed (files : String → Option FileMetadata) (source dest : String) (m : FileMetadata) (p : String) :
    Option FileMetadata :=
  if p = dest then some { m with path := dest } else if p = source then none else files p

private theorem rename_alone_within (hsr : P.map.getShard source = some n) (hds : P.map.getShard dest = some n)
    (h : P.RunsAlone σ n (rename n t source dest) σ' y) :
    (P.logical σ source = none ∧ succeeded y = false ∧ P.logical σ' = P.logical σ) ∨
      ∃ m, P.logical σ source = some m ∧ succeeded y = true ∧
        P.logical σ' = renamed (P.logical σ) source dest m := by
  rcases rename_alone hsr hds h with ⟨hn, hy, rfl⟩ | ⟨m, hm, h⟩
  · exact .inl ⟨by simp [logical, hsr, hn], hy, rfl⟩
  rw [if_pos rfl] at h
  obtain ⟨rfl, rfl⟩ := renameInShard_alone h
  refine .inr ⟨m, by simp [logical, hsr, hm], rfl, funext fun p => ?_⟩
  unfold renamed
  by_cases hpd : p = dest
  · rw [hpd, if_pos rfl]
    simp [logical, hds, applyCommand, hm]
  rw [if_neg hpd]
  by_cases hps : p = source
  · rw [if_pos hps]
    rw [hps] at hpd ⊢
    simp [logical, hsr, applyCommand, hm, lookup_insert_ne hpd]
  rw [if_neg hps]
  unfold logical
  cases hp : P.map.getShard p with
  | none => rfl
  | some shard =>
    by_cases hs : shard = n
    · rw [hs]
      simp [applyCommand, hm, lookup_insert_ne hpd, lookup_erase_ne hps]
    · simp [update_of_ne hs]

private theorem rename_alone_across (hne : n ≠ b) (hs : P.map.getShard source = some n)
    (hds : P.map.getShard dest = some b) (hpr : P.Reaches b ((P.map.getPeers b).getD []))
    (hf : t ∉ (σ b).transactionRecords) (h : P.RunsAlone σ n (rename n t source dest) σ' y) :
    (P.logical σ source = none ∧ succeeded y = false ∧ P.logical σ' = P.logical σ) ∨
      ∃ m, P.logical σ source = some m ∧ ((P.logical σ dest ≠ none ∧ succeeded y = false) ∨
          P.logical σ dest = none ∧ succeeded y = true ∧ P.logical σ' = renamed (P.logical σ) source dest m) := by
  rcases rename_alone hs hds h with ⟨hn, hy, rfl⟩ | ⟨m, hm, h⟩
  · exact .inl ⟨by simp [logical, hs, hn], hy, rfl⟩
  rw [if_neg hne] at h
  obtain ⟨e, -, -, h⟩ := around_alone h
  have h := submit_alone h
  refine .inr ⟨m, by simp [logical, hs, hm], ?_⟩
  have hdl : P.logical σ dest = (σ b).files.lookup dest := by simp [logical, hds]
  have hb : ∀ s, update σ n s b = σ b := fun s => update_of_ne (Ne.symm hne) ..
  rcases prepareRename_alone hne hpr hds (by rw [hb]; exact hf) h with ⟨hin, hy⟩ | ⟨ho, hy, hmv⟩
  · rw [hb] at hin
    refine .inl ⟨?_, hy⟩
    rw [hdl, ← Option.isSome_iff_ne_none]
    exact lookup_isSome.2 hin
  rw [hb] at ho
  refine .inr ⟨hdl.trans (lookup_eq_none.2 ho), hy, funext fun p => ?_⟩
  have hs' := hmv.source
  have hd' := hmv.dest
  rw [update_self] at hs'
  rw [hb] at hd'
  unfold renamed
  by_cases hpd : p = dest
  · rw [hpd, if_pos rfl]
    simp [logical, hds, hd']
  rw [if_neg hpd]
  by_cases hps : p = source
  · rw [if_pos hps, hps]
    simp [logical, hs, hs']
  rw [if_neg hps]
  unfold logical
  cases hp : P.map.getShard p with
  | none => rfl
  | some shard =>
    simp only [Option.bind_some]
    by_cases hsn : shard = n
    · rw [hsn, hs', lookup_erase_ne hps]
      rfl
    · by_cases hsb : shard = b
      · rw [hsb, hd', lookup_insert_ne hpd]
      · rw [hmv.others shard hsn hsb, update_of_ne hsn]

private theorem serve_callFree (n : String) (r : TxRequest) : (serve n r).CallFree := by
  cases r with
  | prepareTransaction t op path metadata coordinator peers =>
    refine .state fun s => ?_
    split
    · trivial
    refine .around fun e => ?_
    split
    · refine .state fun s => ?_
      split
      · trivial
      · exact .around fun _ => .submit fun _ => trivial
    · trivial
  | commitTransaction t =>
    refine .state fun s => ?_
    split
    · trivial
    refine .state fun s => ?_
    split
    · refine .submit fun o => ?_
      cases o with
      | applied => exact .submit fun _ => trivial
      | notLeader | closed | dropped => trivial
    · trivial
  | abortTransaction t => exact .submit fun _ => trivial
  | inquireTransaction t =>
    refine .around fun e => ?_
    split
    · exact .state fun _ => trivial
    · trivial

private theorem exists_alone (P : Placement) (σ : String → MasterState) (n : String) {α : Type} (p : Handler α) :
    ∃ σ' a, P.RunsAlone σ n p σ' a := by
  have hs : ∀ n, ∃ e, P.shards.service.surroundings n e := fun _ => ⟨⟨0, P.map, false, true⟩, rfl, rfl⟩
  exact Alone.exists_of_serve hs serve_callFree p σ n

/-- A rename that runs alone has the same outcome and leaves the same logical map, whether the two paths are placed
on one shard or on two, exactly if the source does not exist or the destination does not. -/
theorem rename_transparent_iff (P Q : Placement) (source dest s t a b u : String)
    (hPs : P.map.getShard source = some s) (hPd : P.map.getShard dest = some s)
    (hQs : Q.map.getShard source = some a) (hQd : Q.map.getShard dest = some b) (hne : a ≠ b)
    (hpeers : Q.Reaches b ((Q.map.getPeers b).getD [])) (σ τ : String → MasterState)
    (hfresh : u ∉ (τ b).transactionRecords) (hsame : P.logical σ = Q.logical τ) :
    (∃ σ' y, P.RunsAlone σ s (rename s t source dest) σ' y) ∧
    (∃ τ' z, Q.RunsAlone τ a (rename a u source dest) τ' z) ∧
      ∀ σ' y τ' z, P.RunsAlone σ s (rename s t source dest) σ' y → Q.RunsAlone τ a (rename a u source dest) τ' z →
        ((succeeded y = succeeded z ∧ P.logical σ' = Q.logical τ') ↔
          (P.logical σ source = none ∨ P.logical σ dest = none)) := by
  refine ⟨exists_alone .., exists_alone .., fun σ' y τ' z hone htwo => ?_⟩
  have hwithin := rename_alone_within hPs hPd hone
  have hacross := rename_alone_across hne hQs hQd hpeers hfresh htwo
  rw [← hsame] at hacross
  rcases hwithin with ⟨hnone, hy, hσ⟩ | ⟨m, hm, hy, hσ⟩
  · rcases hacross with ⟨-, hz, hτ⟩ | ⟨m, hm, -⟩
    · exact ⟨fun _ => .inl hnone, fun _ => ⟨hy.trans hz.symm, hσ.trans hτ.symm⟩⟩
    · rw [hnone] at hm
      cases hm
  · rcases hacross with ⟨hnone, -⟩ | ⟨m', hm', ⟨hin, hz⟩ | ⟨hout, hz, hτ⟩⟩
    · rw [hnone] at hm
      cases hm
    · rw [hy, hz]
      refine ⟨fun h => absurd h.1 (by decide), ?_⟩
      rintro (h | h)
      · rw [h] at hm
        cases hm
      · exact absurd h hin
    · obtain rfl := Option.some.inj (hm.symm.trans hm')
      exact ⟨fun _ => .inr hout, fun _ => ⟨hy.trans hz.symm, hσ.trans hτ.symm⟩⟩

def single : Placement where
  map := ShardMap.newRange.addShard "a" ["ma"]
  route address := if address = "http://ma" then some "a" else none

def double : Placement := ⟨pairMap, pair.route⟩

private theorem double_reaches : double.Reaches "b" ((double.map.getPeers "b").getD []) := by
  have hp : (double.map.getPeers "b").getD [] = ["mb"] := by decide
  have hr : double.route (if "mb".startsWith "http://" then "mb" else "http://" ++ "mb") = some "b" := by
    decide +kernel
  rw [hp]
  refine ⟨fun peer hpr n hn => ?_, "mb", List.mem_singleton_self _, hr⟩
  rw [List.mem_singleton.1 hpr, hr, Option.some.injEq] at hn
  exact hn.symm

theorem logical_of_absent {p : String} (h : ∀ s, (σ s).files.lookup p = none) : P.logical σ p = none := by
  unfold logical
  cases P.map.getShard p with
  | none => rfl
  | some shard => exact h shard

private theorem pair_same : single.logical pairState = double.logical pairState := by
  funext p
  by_cases ha : p = "/a"
  · subst ha
    decide +kernel
  · have hab : ∀ s, (pairState s).files.lookup p = none := by
      intro s
      unfold pairState
      split
      · exact lookup_insert_ne ha
      · rfl
    rw [logical_of_absent hab, logical_of_absent hab]

theorem rename_transparent_iff_pair : ∃ σ' y τ' z, single.RunsAlone pairState "a" (rename "a" "t" "/a" "/z") σ' y ∧
      double.RunsAlone pairState "a" (rename "a" "t" "/a" "/z") τ' z ∧
      succeeded y = succeeded z ∧ single.logical σ' = double.logical τ' := by
  have hfresh : "t" ∉ (pairState "b").transactionRecords := Shards.fresh_pairState "b"
  obtain ⟨⟨σ', y, hone⟩, ⟨τ', z, htwo⟩, hiff⟩ := rename_transparent_iff single double "/a" "/z" "a" "t" "a" "b" "t"
    (by decide) (by decide) (by decide) (by decide) (by decide) double_reaches _ _ hfresh pair_same
  have hnone : single.logical pairState "/z" = none := by decide +kernel
  exact ⟨σ', y, τ', z, hone, htwo, (hiff σ' y τ' z hone htwo).2 (.inr hnone)⟩

def bothOnOne (n : String) : MasterState :=
  if n = "a" then
    { default with
      files := ((∅ : StringMap FileMetadata).insert "/a" pairFile).insert "/z" (.created "/z" 0 0) }
  else .default

def bothOnTwo (n : String) : MasterState :=
  if n = "b" then
    { default with files := (∅ : StringMap FileMetadata).insert "/z" (.created "/z" 0 0) }
  else pairState n

private theorem both_same : single.logical bothOnOne = double.logical bothOnTwo := by
  funext p
  by_cases ha : p = "/a"
  · subst ha
    decide +kernel
  by_cases hz : p = "/z"
  · subst hz
    decide +kernel
  · rw [logical_of_absent fun s => ?_, logical_of_absent fun s => ?_]
    · unfold bothOnTwo pairState
      split
      · exact lookup_insert_ne hz
      · split
        · exact lookup_insert_ne ha
        · rfl
    · unfold bothOnOne
      split
      · exact (lookup_insert_ne hz).trans (lookup_insert_ne ha)
      · rfl

/-- The destination exists: on one shard it is replaced, on two the rename fails. -/
theorem rename_onto_existing : single.logical bothOnOne = double.logical bothOnTwo ∧
      ∃ σ' y τ' z, single.RunsAlone bothOnOne "a" (rename "a" "t" "/a" "/z") σ' y ∧
        double.RunsAlone bothOnTwo "a" (rename "a" "t" "/a" "/z") τ' z ∧
        succeeded y = true ∧ single.logical σ' "/a" = none ∧
        succeeded z = false ∧ double.logical τ' "/a" = some pairFile := by
  refine ⟨both_same, ?_⟩
  have hone :
    ∃ σ' y, Process.runAlone single.shards.service (fun _ => ⟨0, single.map, false, true⟩) 1 bothOnOne "a"
      (rename "a" "t" "/a" "/z") = some (σ', y) ∧ succeeded y = true ∧ single.logical σ' "/a" = none :=
    ⟨_, _, rfl, by decide +kernel, by decide +kernel⟩
  have htwo :
    ∃ τ' z, Process.runAlone double.shards.service (fun _ => ⟨0, double.map, false, true⟩) 1 bothOnTwo "a"
      (rename "a" "t" "/a" "/z") = some (τ', z) ∧ succeeded z = false ∧ double.logical τ' "/a" = some pairFile :=
    ⟨_, _, rfl, by decide +kernel, by decide +kernel⟩
  obtain ⟨σ', y, hrun, hy, hσ⟩ := hone
  obtain ⟨τ', z, hrun', hz, hτ⟩ := htwo
  have hsees : ∀ (P : Placement) n, P.shards.service.surroundings n ⟨0, P.map, false, true⟩ :=
    fun _ _ => ⟨rfl, rfl⟩
  exact ⟨σ', y, τ', z, .of_runAlone (hsees single) 1 hrun, .of_runAlone (hsees double) 1 hrun', hy, hσ, hz, hτ⟩

end Placement

end RustHadoop
