import RustHadoop.Lib.ReplicatedLog

/-!
# The steps of a replicated log and leader completeness

`Step` is one action of one replica: seeing a term, standing for one, granting a vote, being elected, appending to
its own log as leader, taking over a prefix of the leader's log.  Every step only adds to the history (`Extends`),
so whatever was said about votes, ballots, leaders' logs and acknowledgements stays true.

`Inv` is kept by every step (`Step.inv`), and from it `leader_completeness` follows by induction on the term of the
later leader.  Two committed prefixes therefore lie on one log (`Committed.agree`), and a replica keeps a prefix it
knows to be committed (`Settled`).
-/

namespace ReplicatedLog

open Function List Nat

variable {N E : Type*}

def set₂ [DecidableEq N] {α : Type*} (f : N → Nat → α) (v : N) (t : Nat) (a : α) : N → Nat → α :=
  update f v (update (f v) t a)

variable {v : N}

section

variable [DecidableEq N] {α : Type*}

@[simp] theorem set₂_same (f : N → Nat → α) (v : N) (t : Nat) (a : α) : set₂ f v t a v t = a := by
  simp [set₂]

theorem set₂_of_ne (f : N → Nat → α) {w : N} {t s : Nat} (a : α) (h : w ≠ v ∨ s ≠ t) :
    set₂ f v t a w s = f w s := by
  unfold set₂
  by_cases hw : w = v
  · subst hw
    rcases h with h | h
    · exact absurd rfl h
    · simp [h]
  · simp [hw]

theorem forall_set₂ {f : N → Nat → α} {t : Nat} {a : α} {P : N → Nat → α → Prop}
    (hn : P v t a) (ho : ∀ w s, P w s (f w s)) (w : N) (s : Nat) : P w s (set₂ f v t a w s) := by
  by_cases hw : w = v ∧ s = t
  · obtain ⟨rfl, rfl⟩ := hw
    simpa using hn
  · rw [set₂_of_ne _ _ (by tauto)]
    exact ho w s

section

variable {f : N → Nat → Option α} {v w : N} {t s : Nat} {a x : α}

theorem set₂_cases : set₂ f v t (some a) w s = some x → (w = v ∧ s = t ∧ a = x) ∨ f w s = some x :=
  forall_set₂ (P := fun w s y => y = some x → (w = v ∧ s = t ∧ a = x) ∨ f w s = some x)
    (fun hx => .inl ⟨rfl, rfl, Option.some.inj hx⟩) (fun _ _ => .inr) w s

theorem set₂_keeps (hf : f v t = none ∨ f v t = some a) : f w s = some x → set₂ f v t (some a) w s = some x :=
  forall_set₂ (P := fun w s y => f w s = some x → y = some x) (fun hx => by simpa [hx, eq_comm] using hf)
    (fun _ _ => id) w s

end

end

variable (tm : E → Nat) (Q : Finset N → Prop)

inductive Step [DecidableEq N] : History N E → History N E → Prop
  | observe (h : History N E) (v : N) (t : Nat) (ht : h.term v ≤ t) : Step h { h with term := update h.term v t }
  | stand (h : History N E) (c : N) (t : Nat) (ht : h.term c < t) : Step h { h with
        term := update h.term c t
        vote := set₂ h.vote c t (some c)
        ballot := set₂ h.ballot c t (some (h.log c)) }
  | grant (h : History N E) (v c : N) (b : List E) (hv : h.vote v (h.term v) = none ∨ h.vote v (h.term v) = some c)
      (hb : h.ballot c (h.term v) = some b) (hup : UpToDate tm b (h.log v)) :
      Step h { h with vote := set₂ h.vote v (h.term v) (some c) }
  | elect (h : History N E) (c : N) (e : E) (A : Finset N) (hl : h.lead (h.term c) = none)
      (hb : h.ballot c (h.term c) = some (h.log c)) (hA : Q A) (hv : ∀ v ∈ A, h.vote v (h.term c) = some c)
      (he : tm e = h.term c) :
      Step h { h with
        lead := update h.lead (h.term c) (some c)
        base := update h.base (h.term c) (h.log c)
        leaderLog := update h.leaderLog (h.term c) (h.log c ++ [e])
        log := update h.log c (h.log c ++ [e])
        ack := set₂ h.ack c (h.term c) ((h.log c).length + 1) }
  | append (h : History N E) (c : N) (e : E) (hl : h.lead (h.term c) = some c)
      (hlog : h.log c = h.leaderLog (h.term c)) (he : tm e = h.term c) :
      Step h { h with
        leaderLog := update h.leaderLog (h.term c) (h.log c ++ [e])
        log := update h.log c (h.log c ++ [e])
        ack := set₂ h.ack c (h.term c) ((h.log c).length + 1) }
  | accept (h : History N E) (v : N) (m : Nat) (hl : h.lead (h.term v) ≠ none)
      (hm : m ≤ (h.leaderLog (h.term v)).length) :
      Step h { h with
        log := update h.log v (overwrite ((h.leaderLog (h.term v)).take m) (h.log v))
        ack := set₂ h.ack v (h.term v) (max (h.ack v (h.term v)) m) }

/-- `h'` adds to what `h` has fixed. -/
structure Extends (h h' : History N E) : Prop where
  term : ∀ v, h.term v ≤ h'.term v
  vote : ∀ v t c, h.vote v t = some c → h'.vote v t = some c
  ballot : ∀ c t b, h.ballot c t = some b → h'.ballot c t = some b
  lead : ∀ t c, h.lead t = some c → h'.lead t = some c
  base : ∀ t, h.lead t ≠ none → h'.base t = h.base t
  leaderLog : ∀ t, h.leaderLog t <+: h'.leaderLog t
  ack : ∀ v t, h.ack v t ≤ h'.ack v t

theorem Extends.refl (h : History N E) : Extends h h where
  term _ := le_refl _
  vote _ _ _ := id
  ballot _ _ _ := id
  lead _ _ := id
  base _ _ := rfl
  leaderLog _ := prefix_rfl
  ack _ _ := le_refl _

theorem Extends.led {h h' : History N E} (hx : Extends h h') {t : Nat} (ht : h.lead t ≠ none) :
    h'.lead t ≠ none := by
  obtain ⟨c, hc⟩ := Option.ne_none_iff_exists'.1 ht
  rw [hx.lead t c hc]
  simp

theorem Extends.trans {h h' h'' : History N E} (hx : Extends h h') (hy : Extends h' h'') : Extends h h'' where
  term v := le_trans (hx.term v) (hy.term v)
  vote v t c hc := hy.vote v t c (hx.vote v t c hc)
  ballot c t b hb := hy.ballot c t b (hx.ballot c t b hb)
  lead t c hc := hy.lead t c (hx.lead t c hc)
  base t ht := (hy.base t (hx.led ht)).trans (hx.base t ht)
  leaderLog t := (hx.leaderLog t).trans (hy.leaderLog t)
  ack v t := le_trans (hx.ack v t) (hy.ack v t)

structure Inv (h : History N E) : Prop where
  logConforms : ∀ v, Conforms tm h (h.log v)
  leaderConforms : ∀ t, Conforms tm h (h.leaderLog t)
  ballotConforms : ∀ c t b, h.ballot c t = some b → Conforms tm h b
  logTerm : ∀ v, ∀ e ∈ h.log v, tm e ≤ h.term v
  leaderTerm : ∀ t, ∀ e ∈ h.leaderLog t, tm e ≤ t
  ballotTerm : ∀ c t b, h.ballot c t = some b → t ≤ h.term c ∧ ∀ e ∈ b, tm e < t
  unled : ∀ t, h.lead t = none → h.leaderLog t = [] ∧ h.base t = []
  basePrefix : ∀ t, h.base t <+: h.leaderLog t
  baseTerm : ∀ t, ∀ e ∈ h.base t, tm e < t
  ownTerm : ∀ t k e, (h.leaderLog t)[k]? = some e → (h.base t).length ≤ k → tm e = t
  voteTerm : ∀ v t c, h.vote v t = some c → t ≤ h.term v
  leadTerm : ∀ t c, h.lead t = some c → t ≤ h.term c
  leadVote : ∀ t c, h.lead t = some c → ∃ A, Q A ∧ ∀ v ∈ A, h.vote v t = some c
  ackLe : ∀ v t, h.ack v t ≤ (h.leaderLog t).length
  ackTerm : ∀ v t, 0 < h.ack v t → t ≤ h.term v
  /-- What a replica acknowledged it still has, if every later leader it may have followed has it. -/
  held : ∀ v T k, k ≤ h.ack v T → AllCarry h T k (h.term v + 1) → (h.log v).take k = (h.leaderLog T).take k
  /-- A candidate of an undecided term has what its voters acknowledged before. -/
  voted : ∀ v t c, h.vote v t = some c → h.lead t = none → ∀ T k, T < t → k ≤ h.ack v T → OwnEntry tm h T k →
    AllCarry h T k t → ∃ b, h.ballot c t = some b ∧ b.take k = (h.leaderLog T).take k
  /-- A leader was elected with what a quorum, its voters, had acknowledged before. -/
  elected : ∀ t, h.lead t ≠ none → ∃ A, Q A ∧ ∀ v ∈ A, t ≤ h.term v ∧ ∀ T k, T < t → k ≤ h.ack v T →
    OwnEntry tm h T k → AllCarry h T k t → (h.base t).take k = (h.leaderLog T).take k

def History.init : History N E where
  term _ := 0
  log _ := []
  vote _ _ := none
  ballot _ _ := none
  lead _ := none
  base _ := []
  leaderLog _ := []
  ack _ _ := 0

variable {tm Q}

theorem Inv.init : Inv tm Q (History.init : History N E) := by
  constructor <;> simp [History.init, Conforms, AllCarry]

variable {L : List E} {k : Nat}

theorem le_length_of_take_eq {L' : List E} (h : L.take k = L'.take k) (hk : k ≤ L'.length) : k ≤ L.length := by
  have := congrArg length h
  simp only [length_take] at this
  omega

private theorem getElem?_concat {e x : E} (hk : (L ++ [e])[k]? = some x) :
    (k < L.length ∧ L[k]? = some x) ∨ (k = L.length ∧ e = x) := by
  rcases lt_or_ge k L.length with hlt | hge
  · rw [getElem?_append_left hlt] at hk
    exact .inl ⟨hlt, hk⟩
  · have hkl := (List.getElem?_eq_some_iff.1 hk).1
    have hkk : k = L.length := by simp at hkl; omega
    subst hkk
    exact .inr ⟨rfl, by simpa using hk⟩

/-! ### What only grows -/

section Grow

variable {h h' : History N E} {L : List E} {T k b : Nat}

section

variable (hx : Extends h h')
include hx

theorem Conforms.mono (hL : Conforms tm h L) : Conforms tm h' L :=
  fun j e he => (hL j e he).trans (hx.leaderLog (tm e))

theorem Extends.take_leaderLog (hk : k ≤ (h.leaderLog T).length) :
    (h'.leaderLog T).take k = (h.leaderLog T).take k :=
  take_of_prefix_of_le (hx.leaderLog T) hk

theorem OwnEntry.mono (ho : OwnEntry tm h T k) : OwnEntry tm h' T k := by
  obtain ⟨hpos, e, he, ht⟩ := ho
  refine ⟨hpos, e, ?_, ht⟩
  obtain ⟨R, hR⟩ := hx.leaderLog T
  rw [← hR, List.getElem?_append_left (List.getElem?_eq_some_iff.1 he).1, he]

theorem OwnEntry.of_extends (hk : k ≤ (h.leaderLog T).length) (ho : OwnEntry tm h' T k) : OwnEntry tm h T k := by
  obtain ⟨hpos, e, he, ht⟩ := ho
  refine ⟨hpos, e, ?_, ht⟩
  obtain ⟨R, hR⟩ := hx.leaderLog T
  rwa [← hR, List.getElem?_append_left (by omega)] at he

end

theorem OwnEntry.le_length (ho : OwnEntry tm h T k) : k ≤ (h.leaderLog T).length := by
  obtain ⟨hpos, e, he, -⟩ := ho
  have := (List.getElem?_eq_some_iff.1 he).1
  omega

theorem AllCarry.of_extends (hx : Extends h h') (hk : k ≤ (h.leaderLog T).length) {b' : Nat} (hb : b ≤ b')
    (hc : AllCarry h' T k b') : AllCarry h T k b := by
  intro t h1 h2 hl
  have := hc t h1 (by omega) (hx.led hl)
  rwa [hx.base t hl, hx.take_leaderLog hk] at this

theorem Committed.mono (hx : Extends h h') (hc : Committed tm Q h T k) : Committed tm Q h' T k := by
  obtain ⟨ho, A, hA, hk⟩ := hc
  exact ⟨ho.mono hx, A, hA, fun v hv => le_trans (hk v hv) (hx.ack v T)⟩

section

variable (hi : Inv tm Q h) (hx : Extends h h') (hack : ∀ v T, T < h.term v → h'.ack v T = h.ack v T)
include hi hx hack

private theorem Inv.voted_of_extends {c : N} {t : Nat} (hv : h.vote v t = some c)
    (hl : h'.lead t = none) (hT : T < t) (hk : k ≤ h'.ack v T) (ho : OwnEntry tm h' T k)
    (hc : AllCarry h' T k t) : ∃ b, h'.ballot c t = some b ∧ b.take k = (h'.leaderLog T).take k := by
  have ht := hi.voteTerm v t c hv
  rw [hack v T (by omega)] at hk
  have hlen := le_trans hk (hi.ackLe v T)
  have hl' : h.lead t = none := by
    by_contra hne
    exact hx.led hne hl
  obtain ⟨b, hb, hbk⟩ := hi.voted v t c hv hl' T k hT hk (ho.of_extends hx hlen) (hc.of_extends hx hlen le_rfl)
  exact ⟨b, hx.ballot c t b hb, by rw [hbk, hx.take_leaderLog hlen]⟩

private theorem Inv.elected_of_extends {t : Nat} (hl : h.lead t ≠ none) :
    ∃ A, Q A ∧ ∀ v ∈ A, t ≤ h'.term v ∧ ∀ T k, T < t → k ≤ h'.ack v T → OwnEntry tm h' T k →
      AllCarry h' T k t → (h'.base t).take k = (h'.leaderLog T).take k := by
  obtain ⟨A, hA, hel⟩ := hi.elected t hl
  refine ⟨A, hA, fun v hv => ⟨le_trans (hel v hv).1 (hx.term v), ?_⟩⟩
  intro T k hT hk ho hc
  rw [hack v T (lt_of_lt_of_le hT (hel v hv).1)] at hk
  have hlen := le_trans hk (hi.ackLe v T)
  rw [hx.base t hl, hx.take_leaderLog hlen]
  exact (hel v hv).2 T k hT hk (ho.of_extends hx hlen) (hc.of_extends hx hlen le_rfl)

end

private theorem Inv.held_of_extends (hi : Inv tm Q h) (hx : Extends h h') (hl : h'.log v = h.log v)
    (hack : h'.ack v T = h.ack v T) (hk : k ≤ h'.ack v T) (hc : AllCarry h' T k (h'.term v + 1)) :
    (h'.log v).take k = (h'.leaderLog T).take k := by
  rw [hack] at hk
  have hlen := le_trans hk (hi.ackLe v T)
  rw [hl, hx.take_leaderLog hlen]
  exact hi.held v T k hk (hc.of_extends hx hlen (succ_le_succ (hx.term v)))

end Grow

/-! ### The election restriction -/

variable {b : List E}

section Restriction

variable {h : History N E}

private theorem Inv.base_prefix_of_last (hi : Inv tm Q h) (hb : Conforms tm h b) (hne : b ≠ []) :
    h.base (termAt tm b b.length) <+: b := by
  set τ := termAt tm b b.length with hτ
  have hpos : 0 < b.length := length_pos_iff.2 hne
  have hp := hb.prefix_last hne
  have hbs := hi.basePrefix τ
  refine prefix_of_prefix_length_le hbs hp ?_
  by_contra hlt
  -- otherwise the last entry of `b`, of term `τ`, would be in `base τ`
  have hl : b[b.length - 1]? = some b[b.length - 1] := getElem?_eq_getElem (by omega)
  have ht := termAt_succ tm hl
  rw [Nat.sub_add_cancel hpos, ← hτ] at ht
  have hin : (h.base τ)[b.length - 1]? = some b[b.length - 1] := by
    have h1 : (h.leaderLog τ)[b.length - 1]? = some b[b.length - 1] := by
      obtain ⟨R, hR⟩ := hp
      rw [← hR, getElem?_append_left (by omega), hl]
    obtain ⟨R, hR⟩ := hbs
    rwa [← hR, getElem?_append_left (by omega)] at h1
  have := hi.baseTerm τ _ (mem_of_getElem? hin)
  omega

private theorem conforms_append {e : E} (hL : Conforms tm h L)
    (he : h.leaderLog (tm e) = L ++ [e]) : Conforms tm h (L ++ [e]) := by
  intro k x hk
  rcases getElem?_concat hk with ⟨hlt, hk⟩ | ⟨rfl, rfl⟩
  · rw [take_append_of_le_length (by omega)]
    exact hL k x hk
  · rw [he]
    exact take_prefix _ _

/-- The election restriction: a candidate at least as up to date as a voter has what the voter holds of a term
whose later leaders all have it. -/
theorem Inv.upToDate_carries (hi : Inv tm Q h) (hb : Conforms tm h b) (hL : Conforms tm h L)
    {T t : Nat} (hbt : ∀ e ∈ b, tm e < t) (ho : OwnEntry tm h T k) (hLk : L.take k = (h.leaderLog T).take k)
    (hc : AllCarry h T k t) (hup : UpToDate tm b L) : b.take k = (h.leaderLog T).take k := by
  obtain ⟨hpos, e, he, hte⟩ := ho
  have hown : OwnEntry tm h T k := ⟨hpos, e, he, hte⟩
  have hk : k ≤ (h.leaderLog T).length := hown.le_length
  have hlen : k ≤ L.length := le_length_of_take_eq hLk hk
  have hLe : L[k - 1]? = some e := (getElem?_eq_of_take_eq hLk (by omega)).trans he
  have hLne : L ≠ [] := by rintro rfl; simp at hlen; omega
  have hLp := hL.prefix_last hLne
  have hTle : T ≤ termAt tm L L.length := by
    have : e ∈ h.leaderLog (termAt tm L L.length) := hLp.subset (mem_of_getElem? hLe)
    have := hi.leaderTerm _ e this
    omega
  rcases hup with hlt | ⟨heq, hle⟩
  · -- the candidate's last term is that of a later leader, which has the prefix
    have hbne : b ≠ [] := by rintro rfl; simp at hlt
    have hbs : 0 < b.length := length_pos_iff.2 hbne
    have hl : b[b.length - 1]? = some b[b.length - 1] := getElem?_eq_getElem (by omega)
    have ht := termAt_succ tm hl
    rw [Nat.sub_add_cancel hbs] at ht
    have hltt := hbt _ (mem_of_getElem? hl)
    have hled : h.lead (termAt tm b b.length) ≠ none := by
      intro hn
      have := (hi.unled _ hn).1
      have hp := hb.prefix_last hbne
      rw [this] at hp
      exact hbne (prefix_nil.1 hp)
    have hcar := hc _ (by omega) (by omega) hled
    have hbp := hi.base_prefix_of_last hb hbne
    rw [take_of_prefix_of_le hbp (le_length_of_take_eq hcar hk), hcar]
  · -- both logs end in one term, so the longer one contains the shorter
    have hbne : b ≠ [] := by rintro rfl; exact hLne (by simpa using hle)
    have hbp := hb.prefix_last hbne
    rw [heq] at hbp
    have := prefix_of_prefix_length_le hLp hbp hle
    rw [take_of_prefix_of_le this hlen, hLk]

end Restriction

/-! ### One step -/

section OneStep

variable [DecidableEq N] {h h' : History N E}

private theorem forall_update {α β : Type*} [DecidableEq α] {f : α → β} {x : α} {b : β} {P : α → β → Prop}
    (hn : P x b) (ho : ∀ y, P y (f y)) : ∀ y, P y (update f x b y) :=
  (forall_update_iff f P).2 ⟨hn, fun y _ => ho y⟩

private theorem le_update {f : N → Nat} {t : Nat} (ht : f v ≤ t) : ∀ w, f w ≤ update f v t w :=
  forall_update (P := fun w x => f w ≤ x) ht fun _ => le_rfl

private theorem prefix_update {f : Nat → List E} {t : Nat} (hL : f t <+: L) : ∀ s, f s <+: update f t L s :=
  forall_update (P := fun s L => f s <+: L) hL fun _ => prefix_rfl

private theorem le_set2 {f : N → Nat → Nat} {t a : Nat} (ha : f v t ≤ a) : ∀ w s, f w s ≤ set₂ f v t a w s :=
  forall_set₂ (P := fun w s x => f w s ≤ x) ha fun _ _ => le_rfl

theorem Step.extends (hi : Inv tm Q h) (hs : Step tm Q h h') : Extends h h' := by
  cases hs with
  | observe v t ht => exact { Extends.refl h with term := le_update ht }
  | stand c t ht =>
    have hvt : h.vote c t = none :=
      Option.eq_none_iff_forall_ne_some.2 fun x hx => absurd (hi.voteTerm c t x hx) (by omega)
    have hbl : h.ballot c t = none :=
      Option.eq_none_iff_forall_ne_some.2 fun b hb => absurd (hi.ballotTerm c t b hb).1 (by omega)
    exact { Extends.refl h with
      term := le_update (le_of_lt ht)
      vote := fun _ _ _ => set₂_keeps (.inl hvt)
      ballot := fun _ _ _ => set₂_keeps (.inl hbl) }
  | grant v c b hv hb hup => exact { Extends.refl h with vote := fun _ _ _ => set₂_keeps hv }
  | elect c e A hl hb hA hv he =>
    have hnil := (hi.unled _ hl).1
    refine { Extends.refl h with lead := ?_, base := ?_, leaderLog := ?_, ack := ?_ }
    · intro t x hx
      have : t ≠ h.term c := by rintro rfl; rw [hl] at hx; cases hx
      simpa [this] using hx
    · intro t ht
      have : t ≠ h.term c := by rintro rfl; exact ht hl
      simp [this]
    · exact prefix_update (by rw [hnil]; exact nil_prefix)
    · refine le_set2 ?_
      have := hi.ackLe c (h.term c)
      rw [hnil] at this
      simp at this
      omega
  | append c e hl hlog he =>
    refine { Extends.refl h with leaderLog := ?_, ack := ?_ }
    · exact prefix_update (by rw [← hlog]; exact prefix_append _ _)
    · refine le_set2 ?_
      have := hi.ackLe c (h.term c)
      rw [← hlog] at this
      omega
  | accept v m hl hm =>
    exact { Extends.refl h with ack := le_set2 (le_max_left _ _) }

private theorem Step.ack_past (hs : Step tm Q h h') (v : N) (T : Nat) (hT : T < h.term v) :
    h'.ack v T = h.ack v T := by
  have hn : ∀ (c : N) (a : Nat), set₂ h.ack c (h.term c) a v T = h.ack v T := by
    intro c a
    refine set₂_of_ne _ _ ?_
    by_cases hw : v = c
    · subst hw; right; omega
    · exact .inl hw
  cases hs with
  | observe | stand | grant => rfl
  | elect c | append c | accept c => exact hn c _

section

variable (hi : Inv tm Q h)
include hi

private theorem Inv.observe (v : N) (t : Nat) (ht : h.term v ≤ t) :
    Inv tm Q { h with term := update h.term v t } := by
  have hs : Step tm Q h _ := Step.observe h v t ht
  have hx := hs.extends hi
  exact
    { hi with
      logTerm := fun w e he => le_trans (hi.logTerm w e he) (hx.term w)
      ballotTerm := fun c s b hb =>
        ⟨le_trans (hi.ballotTerm c s b hb).1 (hx.term c), (hi.ballotTerm c s b hb).2⟩
      voteTerm := fun w s c hc => le_trans (hi.voteTerm w s c hc) (hx.term w)
      leadTerm := fun s c hc => le_trans (hi.leadTerm s c hc) (hx.term c)
      ackTerm := fun w s hw => le_trans (hi.ackTerm w s hw) (hx.term w)
      held := fun w T k hk hc => hi.held_of_extends hx rfl rfl hk hc
      elected := fun s hl => hi.elected_of_extends hx hs.ack_past hl }

private theorem Inv.stand (c : N) (t : Nat) (ht : h.term c < t) : Inv tm Q { h with
      term := update h.term c t
      vote := set₂ h.vote c t (some c)
      ballot := set₂ h.ballot c t (some (h.log c)) } := by
  have hs : Step tm Q h _ := Step.stand h c t ht
  have hx := hs.extends hi
  have hsn := hi.observe c t (le_of_lt ht)
  refine { hsn with ballotConforms := ?_, ballotTerm := ?_, voteTerm := ?_, leadVote := ?_, voted := ?_ }
  · intro d s b hb
    rcases set₂_cases hb with ⟨rfl, rfl, rfl⟩ | hb
    · exact hi.logConforms d
    · exact hi.ballotConforms d s b hb
  · intro d s b hb
    rcases set₂_cases hb with ⟨rfl, rfl, rfl⟩ | hb
    · refine ⟨by simp, fun e he => ?_⟩
      have := hi.logTerm d e he
      omega
    · exact hsn.ballotTerm d s b hb
  · intro w s x hw
    rcases set₂_cases hw with ⟨rfl, rfl, -⟩ | hw
    · simp
    · exact hsn.voteTerm w s x hw
  · intro s x hl
    obtain ⟨A, hA, hv⟩ := hi.leadVote s x hl
    exact ⟨A, hA, fun v hvA => hx.vote v s x (hv v hvA)⟩
  · intro w s x hw hl T k hT hk ho hac
    rcases set₂_cases hw with ⟨rfl, rfl, rfl⟩ | hw
    · have hlen := le_trans hk (hi.ackLe w T)
      exact ⟨h.log w, by simp, hi.held w T k hk (hac.of_extends hx hlen (by omega))⟩
    · exact hi.voted_of_extends hx hs.ack_past hw hl hT hk ho hac

private theorem Inv.grant (v c : N) (b : List E) (hv : h.vote v (h.term v) = none ∨ h.vote v (h.term v) = some c)
    (hb : h.ballot c (h.term v) = some b) (hup : UpToDate tm b (h.log v)) :
    Inv tm Q { h with vote := set₂ h.vote v (h.term v) (some c) } := by
  have hs : Step tm Q h _ := Step.grant h v c b hv hb hup
  have hx := hs.extends hi
  refine { hi with voteTerm := ?_, leadVote := ?_, voted := ?_ }
  · intro w s x hw
    rcases set₂_cases hw with ⟨rfl, rfl, -⟩ | hw
    · exact le_refl _
    · exact hi.voteTerm w s x hw
  · intro s x hl
    obtain ⟨A, hA, hvA⟩ := hi.leadVote s x hl
    exact ⟨A, hA, fun w hw => hx.vote w s x (hvA w hw)⟩
  · intro w s x hw hl T k hT hk ho hac
    rcases set₂_cases hw with ⟨rfl, rfl, rfl⟩ | hw
    · refine ⟨b, hb, ?_⟩
      -- the term is undecided, so the voter has followed no leader of it
      have hh : (h.log w).take k = (h.leaderLog T).take k := by
        refine hi.held w T k hk fun t h1 h2 ht => ?_
        rcases lt_or_ge t (h.term w) with hlt | hge
        · exact hac t h1 hlt ht
        · have : t = h.term w := by omega
          subst this
          exact absurd hl ht
      exact hi.upToDate_carries (hi.ballotConforms _ _ b hb) (hi.logConforms w) (hi.ballotTerm _ _ b hb).2 ho hh
        hac hup
    · exact hi.voted w s x hw hl T k hT hk ho hac

/-- One more entry in the log of a replica, which becomes the log of the leader of its term.  What there is to show
is about the leaders and what they were elected with. -/
private theorem Inv.lengthen (c : N) (e : E) (he : tm e = h.term c) {lead : Nat → Option N} {base : Nat → List E}
    (hh' : h' = { h with
      lead := lead
      base := base
      leaderLog := update h.leaderLog (h.term c) (h.log c ++ [e])
      log := update h.log c (h.log c ++ [e])
      ack := set₂ h.ack c (h.term c) ((h.log c).length + 1) })
    (hs : Step tm Q h h') (unled : ∀ s, h'.lead s = none → h'.leaderLog s = [] ∧ h'.base s = [])
    (basePrefix : ∀ s, h'.base s <+: h'.leaderLog s) (baseTerm : ∀ s, ∀ x ∈ h'.base s, tm x < s)
    (ownTerm : ∀ s k x, (h'.leaderLog s)[k]? = some x → (h'.base s).length ≤ k → tm x = s)
    (leadTerm : ∀ s x, h'.lead s = some x → s ≤ h.term x)
    (leadVote : ∀ s x, h'.lead s = some x → ∃ A, Q A ∧ ∀ v ∈ A, h.vote v s = some x)
    (elected : ∀ s, h'.lead s ≠ none → ∃ A, Q A ∧ ∀ v ∈ A, s ≤ h.term v ∧ ∀ T k, T < s → k ≤ h'.ack v T →
      OwnEntry tm h' T k → AllCarry h' T k s → (h'.base s).take k = (h'.leaderLog T).take k) : Inv tm Q h' := by
  have hx := hs.extends hi
  have ht : h'.term = h.term := by rw [hh']
  have hlog : h'.log = update h.log c (h.log c ++ [e]) := by rw [hh']
  have hl : h'.leaderLog = update h.leaderLog (h.term c) (h.log c ++ [e]) := by rw [hh']
  have hown : h'.leaderLog (tm e) = h.log c ++ [e] := by rw [hl, he, update_self]
  have hcn : Conforms tm h' (h.log c ++ [e]) := conforms_append ((hi.logConforms c).mono hx) hown
  have hnew : ∀ x ∈ h.log c ++ [e], tm x ≤ h.term c := by
    intro x hx
    rcases mem_append.1 hx with hx | hx
    · exact hi.logTerm c x hx
    · rw [mem_singleton.1 hx, he]
  have hset : h'.ack = set₂ h.ack c (h.term c) ((h.log c).length + 1) := by rw [hh']
  refine
    { logConforms := ?_, leaderConforms := ?_
      ballotConforms := fun d s b hd => (hi.ballotConforms d s b (by rwa [hh'] at hd)).mono hx
      logTerm := ?_, leaderTerm := ?_, ballotTerm := by rw [hh']; exact hi.ballotTerm
      unled := unled, basePrefix := basePrefix, baseTerm := baseTerm, ownTerm := ownTerm
      voteTerm := by rw [hh']; exact hi.voteTerm
      leadTerm := by rw [ht]; exact leadTerm
      leadVote := by rw [show h'.vote = h.vote by rw [hh']]; exact leadVote
      ackLe := ?_, ackTerm := ?_, held := ?_
      voted := fun w s x hw hn T k hT hk ho hac =>
        hi.voted_of_extends hx hs.ack_past (by rwa [hh'] at hw) hn hT hk ho hac
      elected := by rw [ht]; exact elected }
  · rw [hlog]
    exact forall_update (P := fun _ => Conforms tm h') hcn fun w => (hi.logConforms w).mono hx
  · rw [hl]
    exact forall_update (P := fun _ => Conforms tm h') hcn fun s => (hi.leaderConforms s).mono hx
  · rw [hlog, ht]
    exact forall_update (P := fun w L => ∀ x ∈ L, tm x ≤ h.term w) hnew hi.logTerm
  · rw [hl]
    exact forall_update (P := fun s L => ∀ x ∈ L, tm x ≤ s) hnew hi.leaderTerm
  · rw [hset]
    refine forall_set₂ (P := fun _ s k => k ≤ (h'.leaderLog s).length) ?_ fun w s =>
      le_trans (hi.ackLe w s) (hx.leaderLog s).length_le
    rw [hl, update_self, length_append, length_singleton]
  · rw [hset, ht]
    exact forall_set₂ (P := fun w s k => 0 < k → s ≤ h.term w) (fun _ => le_rfl) hi.ackTerm
  · intro w T k hk hac
    by_cases hw : w = c
    · subst hw
      by_cases hT : T = h.term w
      · subst hT; simp [hh']
      · rw [hset, set₂_of_ne _ _ (.inr hT)] at hk
        have hlen := le_trans hk (hi.ackLe w T)
        have hold := hi.held w T k hk (hac.of_extends hx hlen (by rw [ht]))
        rw [hx.take_leaderLog hlen, ← hold, hlog, update_self, take_append_of_le_length
          (le_length_of_take_eq hold hlen)]
    · exact hi.held_of_extends hx (by simp [hlog, hw]) (by rw [hset, set₂_of_ne _ _ (.inl hw)]) hk hac

private theorem Inv.elect (c : N) (e : E) (A : Finset N) (hl : h.lead (h.term c) = none)
    (hb : h.ballot c (h.term c) = some (h.log c)) (hA : Q A) (hv : ∀ v ∈ A, h.vote v (h.term c) = some c)
    (he : tm e = h.term c) :
    Inv tm Q { h with
      lead := update h.lead (h.term c) (some c)
      base := update h.base (h.term c) (h.log c)
      leaderLog := update h.leaderLog (h.term c) (h.log c ++ [e])
      log := update h.log c (h.log c ++ [e])
      ack := set₂ h.ack c (h.term c) ((h.log c).length + 1) } := by
  have hs : Step tm Q h _ := Step.elect h c e A hl hb hA hv he
  have hx := hs.extends hi
  have hbt := (hi.ballotTerm _ _ _ hb).2
  refine hi.lengthen c e he rfl hs ?_ ?_ ?_ ?_ ?_ ?_ ?_
  · intro s hn
    by_cases hw : s = h.term c
    · subst hw; simp at hn
    · simp only [ne_eq, hw, not_false_eq_true, update_of_ne] at hn ⊢
      exact hi.unled s hn
  · intro s
    by_cases hw : s = h.term c
    · subst hw; simp
    · simpa [hw] using hi.basePrefix s
  · exact forall_update (P := fun s L => ∀ x ∈ L, tm x < s) hbt hi.baseTerm
  · intro s k x hk hle
    by_cases hw : s = h.term c
    · subst hw
      simp only [update_self] at hk hle
      rcases getElem?_concat hk with ⟨hlt, -⟩ | ⟨-, rfl⟩
      · omega
      · exact he
    · simp only [ne_eq, hw, not_false_eq_true, update_of_ne] at hk hle
      exact hi.ownTerm s k x hk hle
  · refine forall_update (P := fun s o => ∀ x, o = some x → s ≤ h.term x) ?_ hi.leadTerm
    rintro _ ⟨⟩
    exact le_refl _
  · refine forall_update (P := fun s o => ∀ x, o = some x → ∃ A, Q A ∧ ∀ v ∈ A, h.vote v s = some x) ?_ hi.leadVote
    rintro _ ⟨⟩
    exact ⟨A, hA, hv⟩
  · intro s hs'
    by_cases hw : s = h.term c
    · subst hw
      refine ⟨A, hA, fun v hvA => ⟨hi.voteTerm v _ c (hv v hvA), ?_⟩⟩
      intro T k hT hk ho hac
      have hvt := hi.voteTerm v _ c (hv v hvA)
      rw [hs.ack_past v T (by omega)] at hk
      have hlen := le_trans hk (hi.ackLe v T)
      obtain ⟨b, hb', hbk⟩ := hi.voted v _ c (hv v hvA) hl T k hT hk (ho.of_extends hx hlen)
        (hac.of_extends hx hlen le_rfl)
      rw [hb] at hb'
      cases hb'
      rw [hx.take_leaderLog hlen]
      simpa using hbk
    · refine hi.elected_of_extends hx hs.ack_past ?_
      simpa [hw] using hs'

private theorem Inv.append (c : N) (e : E) (hl : h.lead (h.term c) = some c)
    (hlog : h.log c = h.leaderLog (h.term c)) (he : tm e = h.term c) :
    Inv tm Q { h with
      leaderLog := update h.leaderLog (h.term c) (h.log c ++ [e])
      log := update h.log c (h.log c ++ [e])
      ack := set₂ h.ack c (h.term c) ((h.log c).length + 1) } := by
  have hs : Step tm Q h _ := Step.append h c e hl hlog he
  have hx := hs.extends hi
  refine hi.lengthen c e he rfl hs ?_ (fun s => (hi.basePrefix s).trans (hx.leaderLog s)) hi.baseTerm
    ?_ hi.leadTerm
    hi.leadVote fun s hs' => hi.elected_of_extends hx hs.ack_past hs'
  · intro s hn
    have hw : s ≠ h.term c := by
      rintro rfl
      rw [show h.lead (h.term c) = none from hn] at hl
      cases hl
    simpa [hw] using hi.unled s hn
  · intro s k x hk hle
    by_cases hw : s = h.term c
    · subst hw
      simp only [update_self] at hk hle
      rcases getElem?_concat hk with ⟨-, hk⟩ | ⟨-, rfl⟩
      · exact hi.ownTerm _ k x (hlog ▸ hk) hle
      · exact he
    · simp only [ne_eq, hw, not_false_eq_true, update_of_ne] at hk hle
      exact hi.ownTerm s k x hk hle

private theorem Inv.accept (v : N) (m : Nat) (hl : h.lead (h.term v) ≠ none)
    (hm : m ≤ (h.leaderLog (h.term v)).length) :
    Inv tm Q { h with
      log := update h.log v (overwrite ((h.leaderLog (h.term v)).take m) (h.log v))
      ack := set₂ h.ack v (h.term v) (max (h.ack v (h.term v)) m) } := by
  have hs : Step tm Q h _ := Step.accept h v m hl hm
  have hx := hs.extends hi
  have hcs : ∀ P : List E → Prop, P (h.log v) → P ((h.leaderLog (h.term v)).take m) →
      P (overwrite ((h.leaderLog (h.term v)).take m) (h.log v)) := by
    intro P h1 h2
    unfold overwrite
    split <;> assumption
  refine
    { hi with
      logConforms := ?_, logTerm := ?_, ackLe := ?_, ackTerm := ?_, held := ?_
      voted := fun w s x hw hn T k hT hk ho hac => hi.voted_of_extends hx hs.ack_past hw hn hT hk ho hac
      elected := fun s hs' => hi.elected_of_extends hx hs.ack_past hs' }
  · exact forall_update (P := fun _ => Conforms tm _)
      (hcs _ ((hi.logConforms v).mono hx) (((hi.leaderConforms _).take m).mono hx)) fun w =>
        (hi.logConforms w).mono hx
  · exact forall_update (P := fun w L => ∀ e ∈ L, tm e ≤ h.term w)
      (hcs (fun L => ∀ e ∈ L, tm e ≤ h.term v) (hi.logTerm v) fun e he => hi.leaderTerm _ e (mem_of_mem_take he))
        hi.logTerm
  · exact forall_set₂ (P := fun _ s k => k ≤ (h.leaderLog s).length) (Nat.max_le.2 ⟨hi.ackLe v _, hm⟩) hi.ackLe
  · exact forall_set₂ (P := fun w s k => 0 < k → s ≤ h.term w) (fun _ => le_rfl) hi.ackTerm
  · intro w T k hk hac
    by_cases hw : w = v
    · subst hw
      show (update h.log w _ w).take k = (h.leaderLog T).take k
      rw [update_self]
      -- the leader's first `k` entries are those of leader `T`, and the replica held them before or gets them now
      by_cases hT : T = h.term w
      · subst hT
        simp only [set₂_same] at hk
        rcases lt_or_ge m k with hkm | hkm
        · have hold := hi.held w (h.term w) k (by omega) hac
          rw [take_overwrite_take hold, hold]
        · have hp := prefix_overwrite ((h.leaderLog (h.term w)).take m) (h.log w)
          rw [take_of_prefix_of_le hp (by simp; omega), take_take, min_eq_left hkm]
      · have hk : k ≤ h.ack w T := hk.trans_eq (set₂_of_ne _ _ (.inr hT))
        have hlen := le_trans hk (hi.ackLe w T)
        have hold := hi.held w T k hk hac
        rcases Nat.eq_zero_or_pos k with rfl | hpos
        · simp
        have hTt := hi.ackTerm w T (by omega)
        have hb := hac (h.term w) (by omega) (lt_succ_self _) hl
        have hld : (h.leaderLog (h.term w)).take k = (h.leaderLog T).take k := by
          rw [take_of_prefix_of_le (hi.basePrefix _) (le_length_of_take_eq hb hlen), hb]
        rw [take_overwrite_take (hold.trans hld.symm), hold]
    · exact hi.held_of_extends hx (by simp [hw]) (set₂_of_ne _ _ (.inl hw)) hk hac

theorem Step.inv (hs : Step tm Q h h') : Inv tm Q h' := by
  cases hs with
  | observe v t ht => exact hi.observe v t ht
  | stand c t ht => exact hi.stand c t ht
  | grant v c b hv hb hup => exact hi.grant v c b hv hb hup
  | elect c e A hl hb hA hv he => exact hi.elect c e A hl hb hA hv he
  | append c e hl hlog he => exact hi.append c e hl hlog he
  | accept v m hl hm => exact hi.accept v m hl hm

end

end OneStep

/-! ### Leader completeness -/

section Completeness

variable {h : History N E}

theorem Committed.led {T : Nat} (hi : Inv tm Q h) (hc : Committed tm Q h T k) : h.lead T ≠ none := by
  intro hn
  have := hc.1.le_length
  rw [(hi.unled T hn).1] at this
  have := hc.1.1
  simp at *
  omega

variable (hQ : ∀ A B, Q A → Q B → ∃ v, v ∈ A ∧ v ∈ B)

include hQ

section

variable (hi : Inv tm Q h)
include hi

theorem Inv.leader_unique {t : Nat} {c d : N} (hc : h.lead t = some c) {A : Finset N} (hA : Q A)
    (hd : ∀ v ∈ A, h.vote v t = some d) : c = d := by
  obtain ⟨B, hB, hv⟩ := hi.leadVote t c hc
  obtain ⟨v, h1, h2⟩ := hQ A B hA hB
  have := (hd v h1).symm.trans (hv v h2)
  simpa using this.symm

section

variable {T k : Nat} (hc : Committed tm Q h T k)
include hc

/-- What is committed in a term is in the log with which any leader of a later term was elected. -/
theorem leader_completeness : ∀ t, T < t → h.lead t ≠ none → (h.base t).take k = (h.leaderLog T).take k := by
  intro t
  -- the terms between `T` and `t` are covered by the induction hypothesis
  induction t using Nat.strong_induction_on with
  | _ t ih =>
    intro hT hl
    obtain ⟨ho, A, hA, hack⟩ := hc
    obtain ⟨B, hB, hel⟩ := hi.elected t hl
    obtain ⟨v, hvA, hvB⟩ := hQ A B hA hB
    exact (hel v hvB).2 T k hT (hack v hvA) ho fun s h1 h2 hs => ih s h2 h1 hs

theorem Committed.leaderLog_take {t : Nat} (hT : T ≤ t)
    (hl : h.lead t ≠ none) : (h.leaderLog t).take k = (h.leaderLog T).take k := by
  rcases eq_or_lt_of_le hT with rfl | hlt
  · rfl
  · have hb := leader_completeness hQ hi hc t hlt hl
    rw [take_of_prefix_of_le (hi.basePrefix t) (le_length_of_take_eq hb hc.1.le_length), hb]

theorem Committed.agree {T' k' : Nat} (hc' : Committed tm Q h T' k') :
    (h.leaderLog T).take (min k k') = (h.leaderLog T').take (min k k') := by
  rcases le_total T T' with hle | hle
  · exact (take_eq_of_le (hc.leaderLog_take hQ hi hle (hc'.led hi)) (min_le_left k k')).symm
  · exact take_eq_of_le (hc'.leaderLog_take hQ hi hle (hc.led hi)) (Nat.min_le_right k k')

theorem Committed.quorum_holds : ∃ A, Q A ∧ ∀ v ∈ A, (h.log v).take k = (h.leaderLog T).take k := by
  obtain ⟨-, A, hA, hack⟩ := id hc
  exact ⟨A, hA, fun v hv => hi.held v T k (hack v hv) fun t ht _ hl => leader_completeness hQ hi hc t ht hl⟩

theorem Committed.entry_agree {T' k' j : Nat} {e e' : E}
    (hc' : Committed tm Q h T' k') (hj : j < k) (hj' : j < k') (he : (h.leaderLog T)[j]? = some e)
    (he' : (h.leaderLog T')[j]? = some e') : e = e' := by
  have := getElem?_eq_of_take_eq (hc.agree hQ hi hc') (Nat.lt_min.2 ⟨hj, hj'⟩)
  rw [he, he'] at this
  exact Option.some.inj this

end

end

end Completeness

/-! ### Settled prefixes -/

variable (tm Q) in
/-- The first `c` entries of the replica's log are committed, in a term it has reached. -/
def Settled (h : History N E) (v : N) (c : Nat) : Prop :=
  c = 0 ∨ ∃ T k, Committed tm Q h T k ∧ T ≤ h.term v ∧ c ≤ k ∧ (h.log v).take c = (h.leaderLog T).take c

variable (tm Q) in
/-- Some commitment made in a term up to `t` covers the first `c` positions. -/
def Reached (h : History N E) (t c : Nat) : Prop :=
  c = 0 ∨ ∃ T k, Committed tm Q h T k ∧ T ≤ t ∧ c ≤ k

section Settling

variable {h h' : History N E} {v : N} {c d t : Nat}

theorem Reached.mono (hx : Extends h h') (hr : Reached tm Q h t c) {t' : Nat} (ht : t ≤ t') (hd : d ≤ c) :
    Reached tm Q h' t' d := by
  rcases hr with rfl | ⟨T, k, hc, hT, hk⟩
  · exact .inl (by omega)
  · exact .inr ⟨T, k, hc.mono hx, by omega, by omega⟩

theorem Settled.reached (hs : Settled tm Q h v c) : Reached tm Q h (h.term v) c := by
  rcases hs with rfl | ⟨T, k, hc, hT, hk, -⟩
  · exact .inl rfl
  · exact .inr ⟨T, k, hc, hT, hk⟩

theorem Settled.le (hs : Settled tm Q h v c) (hd : d ≤ c) : Settled tm Q h v d := by
  rcases hs with rfl | ⟨T, k, hc, hT, hk, hl⟩
  · exact .inl (by omega)
  · exact .inr ⟨T, k, hc, hT, by omega, take_eq_of_le hl hd⟩

theorem Settled.le_length (hs : Settled tm Q h v c) : c ≤ (h.log v).length := by
  rcases hs with rfl | ⟨T, k, hc, hT, hk, hl⟩
  · omega
  · exact le_length_of_take_eq hl (hk.trans hc.1.le_length)

theorem Settled.of_extends (hx : Extends h h') (hs : Settled tm Q h v c)
    (hlog : (h'.log v).take c = (h.log v).take c) : Settled tm Q h' v c := by
  rcases hs with rfl | ⟨T, k, hc, hT, hk, hl⟩
  · exact .inl rfl
  · refine .inr ⟨T, k, hc.mono hx, le_trans hT (hx.term v), hk, ?_⟩
    rw [hlog, hl, hx.take_leaderLog (le_trans hk hc.1.le_length)]

theorem Settled.entry (hs : Settled tm Q h v c) {j : Nat} {e : E} (hj : j < c) (he : (h.log v)[j]? = some e) :
    ∃ T k, Committed tm Q h T k ∧ j < k ∧ (h.leaderLog T)[j]? = some e := by
  rcases hs with rfl | ⟨T, k, hc, hT, hk, hl⟩
  · omega
  · exact ⟨T, k, hc, by omega, (getElem?_eq_of_take_eq hl hj).symm.trans he⟩

variable (hQ : ∀ A B, Q A → Q B → ∃ v, v ∈ A ∧ v ∈ B)

include hQ

theorem Reached.settled (hi : Inv tm Q h) (hr : Reached tm Q h (h.term v) c) (hl : h.lead (h.term v) ≠ none)
    (hlog : (h.log v).take c = (h.leaderLog (h.term v)).take c) : Settled tm Q h v c := by
  rcases hr with rfl | ⟨T, k, hc, hT, hk⟩
  · exact .inl rfl
  · exact .inr ⟨T, k, hc, hT, hk, hlog.trans (take_eq_of_le (hc.leaderLog_take hQ hi hT hl) hk)⟩

theorem Settled.take_extends (hx : Extends h h') (hi : Inv tm Q h') (hs : Settled tm Q h v c)
    (hs' : Settled tm Q h' v d) (hk : k ≤ c) (hk' : k ≤ d) : (h'.log v).take k = (h.log v).take k := by
  rcases hs.le hk with rfl | ⟨T, m, hc, -, hm, hl⟩
  · simp
  rcases hs'.le hk' with rfl | ⟨T', m', hc', -, hm', hl'⟩
  · simp
  have ha := take_eq_of_le ((hc.mono hx).agree hQ hi hc') (Nat.le_min.2 ⟨hm, hm'⟩)
  rw [hl, hl', ← ha, hx.take_leaderLog (hm.trans hc.1.le_length)]

theorem Settled.step [DecidableEq N] (hi : Inv tm Q h) (hst : Step tm Q h h') (hs : Settled tm Q h v c) :
    Settled tm Q h' v c := by
  have hx := hst.extends hi
  have hlen := hs.le_length
  refine hs.of_extends hx ?_
  cases hst with
  | observe | stand | grant => rfl
  | elect w e | append w e =>
    by_cases hw : v = w
    · subst hw
      simp [take_append_of_le_length hlen]
    · simp [hw]
  | accept w m hl hm =>
    by_cases hw : v = w
    · subst hw
      simp only [update_self]
      rcases hs with rfl | ⟨T, k, hc, hT, hk, hlog⟩
      · simp
      · -- the leader has the settled prefix too, so what it sends agrees with it
        have hld := take_eq_of_le (hc.leaderLog_take hQ hi hT hl) hk
        exact take_overwrite_take (hlog.trans hld.symm) m
    · simp [hw]

end Settling

/-! ### One replica at a time -/

/-- `h'` follows `h` by steps of replica `v`: the others are left alone, and what `v` has settled stays. -/
structure Moves (tm : E → Nat) (Q : Finset N → Prop) (v : N) (h h' : History N E) : Prop where
  inv : Inv tm Q h'
  ext : Extends h h'
  settled : ∀ c, Settled tm Q h v c → Settled tm Q h' v c
  term : ∀ w, w ≠ v → h'.term w = h.term w
  log : ∀ w, w ≠ v → h'.log w = h.log w
  vote : ∀ w, w ≠ v → h'.vote w = h.vote w
  leaderLog : ∀ t w, w ≠ v → h.lead t = some w → h'.leaderLog t = h.leaderLog t
  lead : ∀ t w, w ≠ v → h'.lead t = some w → h.lead t = some w

namespace Moves

variable {h h' h'' : History N E} {v : N}

theorem refl (hi : Inv tm Q h) (v : N) : Moves tm Q v h h :=
  ⟨hi, .refl h, fun _ hs => hs, fun _ _ => rfl, fun _ _ => rfl, fun _ _ => rfl, fun _ _ _ _ =>
    rfl, fun _ _ _ hl => hl⟩

theorem trans (hm : Moves tm Q v h h') (hm' : Moves tm Q v h' h'') : Moves tm Q v h h'' where
  inv := hm'.inv
  ext := hm.ext.trans hm'.ext
  settled c hs := hm'.settled c (hm.settled c hs)
  term w hw := (hm'.term w hw).trans (hm.term w hw)
  log w hw := (hm'.log w hw).trans (hm.log w hw)
  vote w hw := (hm'.vote w hw).trans (hm.vote w hw)
  leaderLog t w hw hl := (hm'.leaderLog t w hw (hm.ext.lead t w hl)).trans (hm.leaderLog t w hw hl)
  lead t w hw hl := hm.lead t w hw (hm'.lead t w hw hl)

variable [DecidableEq N] (hQ : ∀ A B, Q A → Q B → ∃ v, v ∈ A ∧ v ∈ B)

include hQ

section

variable (hi : Inv tm Q h)
include hi

private theorem of_step (hs : Step tm Q h h') (ht : ∀ w, w ≠ v → h'.term w = h.term w)
    (hlog : ∀ w, w ≠ v → h'.log w = h.log w) (hv : ∀ w, w ≠ v → h'.vote w = h.vote w)
    (hll : ∀ t w, w ≠ v → h.lead t = some w → h'.leaderLog t = h.leaderLog t)
    (hl : ∀ t w, w ≠ v → h'.lead t = some w → h.lead t = some w) : Moves tm Q v h h' :=
  ⟨hs.inv hi, hs.extends hi, fun _ hc => hc.step hQ hi hs, ht, hlog, hv, hll, hl⟩

theorem observe {t : Nat} (ht : h.term v ≤ t) : Moves tm Q v h { h with term := update h.term v t } :=
  of_step hQ hi (.observe h v t ht) (fun w hw => by simp [hw]) (fun _ _ => rfl) (fun _ _ => rfl)
    (fun _ _ _ _ => rfl)
    fun _ _ _ hl => hl

theorem stand {t : Nat} (ht : h.term v < t) : Moves tm Q v h { h with
    term := update h.term v t
    vote := set₂ h.vote v t (some v)
    ballot := set₂ h.ballot v t (some (h.log v)) } :=
  of_step hQ hi (.stand h v t ht) (fun w hw => by simp [hw]) (fun _ _ => rfl) (fun w hw => by simp [set₂, hw])
    (fun _ _ _ _ => rfl) fun _ _ _ hl => hl

theorem grant {c : N}
    (hv : h.vote v (h.term v) = none ∨ h.vote v (h.term v) = some c) (hb : h.ballot c (h.term v) = some b)
    (hup : UpToDate tm b (h.log v)) : Moves tm Q v h { h with vote := set₂ h.vote v (h.term v) (some c) } :=
  of_step hQ hi (.grant h v c b hv hb hup) (fun _ _ => rfl) (fun _ _ => rfl) (fun w hw => by simp [set₂, hw])
    (fun _ _ _ _ => rfl) fun _ _ _ hl => hl

theorem elect {e : E} {A : Finset N} (hl : h.lead (h.term v) = none)
    (hb : h.ballot v (h.term v) = some (h.log v)) (hA : Q A) (hv : ∀ u ∈ A, h.vote u (h.term v) = some v)
    (he : tm e = h.term v) : Moves tm Q v h { h with
      lead := update h.lead (h.term v) (some v)
      base := update h.base (h.term v) (h.log v)
      leaderLog := update h.leaderLog (h.term v) (h.log v ++ [e])
      log := update h.log v (h.log v ++ [e])
      ack := set₂ h.ack v (h.term v) ((h.log v).length + 1) } := by
  refine of_step hQ hi (.elect h v e A hl hb hA hv he) (fun _ _ => rfl) (fun w hw => by simp [hw]) (fun _ _ => rfl)
    (fun t w hw hw' => ?_) fun t w hw hw' => ?_
  · have ht : t ≠ h.term v := by
      rintro rfl
      rw [hl] at hw'
      cases hw'
    simp [ht]
  · by_cases ht : t = h.term v
    · subst ht
      simp only [update_self, Option.some.injEq] at hw'
      exact absurd hw'.symm hw
    · simpa [ht] using hw'

theorem append {e : E} (hl : h.lead (h.term v) = some v)
    (hlog : h.log v = h.leaderLog (h.term v)) (he : tm e = h.term v) : Moves tm Q v h { h with
      leaderLog := update h.leaderLog (h.term v) (h.log v ++ [e])
      log := update h.log v (h.log v ++ [e])
      ack := set₂ h.ack v (h.term v) ((h.log v).length + 1) } := by
  refine of_step hQ hi (.append h v e hl hlog he) (fun _ _ => rfl) (fun w hw => by simp [hw]) (fun _ _ => rfl)
    (fun t w hw hw' => ?_) fun _ _ _ hl => hl
  have ht : t ≠ h.term v := by
    rintro rfl
    rw [hl, Option.some.injEq] at hw'
    exact hw hw'.symm
  simp [ht]

theorem accept {m : Nat} (hl : h.lead (h.term v) ≠ none)
    (hm : m ≤ (h.leaderLog (h.term v)).length) : Moves tm Q v h { h with
      log := update h.log v (overwrite ((h.leaderLog (h.term v)).take m) (h.log v))
      ack := set₂ h.ack v (h.term v) (max (h.ack v (h.term v)) m) } :=
  of_step hQ hi (.accept h v m hl hm) (fun _ _ => rfl) (fun w hw => by simp [hw]) (fun _ _ => rfl)
    (fun _ _ _ _ => rfl)
    fun _ _ _ hl => hl

end

theorem append_all (es : List E) (hi : Inv tm Q h) (hl : h.lead (h.term v) = some v)
    (hlog : h.log v = h.leaderLog (h.term v)) (hack : h.ack v (h.term v) = (h.log v).length)
    (he : ∀ e ∈ es, tm e = h.term v) :
    ∃ h', Moves tm Q v h h' ∧ h'.term v = h.term v ∧ h'.vote v = h.vote v ∧ h'.lead = h.lead ∧
      h'.log v = h.log v ++ es ∧ h'.leaderLog (h.term v) = h.log v ++ es ∧
      h'.ack v (h.term v) = (h.log v ++ es).length := by
  induction es generalizing h with
  | nil => exact ⟨h, refl hi v, rfl, rfl, rfl, by simp, by simp [hlog], by simp [hack]⟩
  | cons e es ih =>
    have hm := append hQ hi hl hlog (he e (mem_cons_self ..))
    obtain ⟨h', hm', h1, h2, h3, h4, h5, h6⟩ := ih hm.inv hl (by simp) (by simp) fun x hx =>
      he x (mem_cons_of_mem _ hx)
    refine ⟨h', hm.trans hm', h1, h2, h3, ?_, ?_, ?_⟩
    · simpa using h4
    · simpa using h5
    · simpa using h6

end Moves

end ReplicatedLog
