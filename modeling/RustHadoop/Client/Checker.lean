import Mathlib.Data.List.Pairwise
import Mathlib.Data.List.Sort
import RustHadoop.Lib.Text

/-!
# The checker of one register

`check_single_register` (`dfs/client/src/checker.rs`) lets every write take effect at the instant at which it
returned, and a write without a return at the instant of its invocation.  It accepts a history exactly if the
register explains it with its writes at these instants (`Operation.atReturn`), which is not so for all linearizable
ones: a read that sees a write before the write has returned is reported.

In one direction an arbitrary order that explains the history gives each read the write it has seen
(`Linearization.explained`); in the other the operations are sorted by instants at which the register explains them
(`exists_linearization`).
-/

namespace RustHadoop.Checker

open Texts List

inductive OpType
  | put (path dataHash : Text)
  | get (path : Text)
  | delete (path : Text)
  | rename (src dst : Text)
deriving DecidableEq

inductive OpResult
  | ok
  | notFound
  | error
  | putOk (dataHash : Text)
  | getOk (dataHash : Text)
  | unknown
deriving DecidableEq

/-- An operation without a return has the return time 0. -/
structure Operation where
  id : Nat
  client : Text
  opType : OpType
  invokeTs : Nat
  returnTs : Nat
  result : OpResult
deriving DecidableEq

/-- A deletion writes `none`. -/
structure WriteEvent where
  ts : Nat
  value : Option Text

structure Violation where
  key : Text
  id : Nat
  readValue : Option Text
  invoke : Nat
  ret : Nat
deriving DecidableEq

variable (op : Operation)

def Operation.effectTs : Nat := if 0 < op.returnTs then op.returnTs else op.invokeTs

def Operation.write? : Option WriteEvent :=
  match op.opType with
  | .put _ dataHash => some ⟨op.effectTs, some dataHash⟩
  | .delete _ => some ⟨op.effectTs, none⟩
  | _ => none

/-- What a read has returned; reads without a usable result are not checked. -/
def Operation.readValue? : Option (Option Text) :=
  match op.opType, op.result with
  | .get _, .getOk dataHash => if op.returnTs = 0 then none else some (some dataHash)
  | .get _, .notFound => if op.returnTs = 0 then none else some none
  | .get _, .ok => if op.returnTs = 0 then none else some none
  | _, _ => none

variable (ops : List Operation)

def sortedWrites : List WriteEvent :=
  let sorted := ops.insertionSort fun a b => a.invokeTs ≤ b.invokeTs
  (⟨0, none⟩ :: sorted.filterMap Operation.write?).insertionSort fun a b => a.ts ≤ b.ts

def foundValid (invoke ret : Nat) (readValue : Option Text) : List WriteEvent → Bool
  | [] => false
  | w :: rest =>
    if ret < w.ts then false
    else if w.value ≠ readValue then foundValid invoke ret readValue rest
    else if rest.head?.any fun next => next.ts ≤ invoke then foundValid invoke ret readValue rest
    else true

def checkSingleRegister (key : Text) (ops : List Operation) : Except (List Violation) Unit :=
  let sorted := ops.insertionSort fun a b => a.invokeTs ≤ b.invokeTs
  let violations := sorted.filterMap fun read => read.readValue?.bind fun v =>
    if foundValid read.invokeTs read.returnTs v (sortedWrites ops) then none
    else some ⟨key, read.id, v, read.invokeTs, read.returnTs⟩
  if violations = [] then .ok () else .error violations

/-- What an operation does to the register, if its result is possible. -/
def Operation.after? (value : Option Text) : Option (Option Text) :=
  match op.opType, op.result with
  | .put _ dataHash, _ => some (some dataHash)
  | .delete _, .notFound => if value = none then some none else none
  | .delete _, _ => some none
  | .get _, .getOk dataHash => if value = some dataHash then some value else none
  | .get _, .notFound => if value = none then some value else none
  | .get _, .ok => if value = none then some value else none
  | _, _ => some value

/-- An order of operations that a register explains: all that have returned without an error are there, and none
comes before one that had returned when it was invoked. -/
structure Linearization (ops order : List Operation) : Prop where
  nodup : order.Nodup
  mem : ∀ op ∈ order, op ∈ ops
  complete : ∀ op ∈ ops, op.returnTs ≠ 0 → op.result ≠ .error → op ∈ order
  realTime : order.Pairwise fun a b => ¬ (b.returnTs ≠ 0 ∧ b.returnTs < a.invokeTs)
  legal : order.foldlM (fun value op => op.after? value) none ≠ none

/-- The same operation in a history in which every write happens at one instant, its return or, without a return,
its invocation, whatever it answers. -/
def Operation.atReturn : Operation :=
  match op.write? with
  | some w => { op with invokeTs := w.ts, returnTs := w.ts, result := .ok }
  | none => op

/-- Invocations and returns are events at different instants after 0, and an operation returns after its
invocation. -/
structure WellFormed (ops : List Operation) : Prop where
  ids : (ops.map Operation.id).Nodup
  started : ∀ op ∈ ops, 0 < op.invokeTs
  returned : ∀ op ∈ ops, op.returnTs ≠ 0 → op.invokeTs < op.returnTs
  instants : ∀ a ∈ ops, ∀ b ∈ ops, a ≠ b → a.invokeTs ≠ b.invokeTs ∧ a.invokeTs ≠ b.returnTs ∧
    (a.returnTs = b.returnTs → a.returnTs = 0)

/-- The writes that the checker takes into account, with that of the initial value. -/
def writeEvents : List WriteEvent := ⟨0, none⟩ :: ops.filterMap Operation.write?

/-- The read can have seen a write: it had happened when the read returned, and no later one when the read was
invoked. -/
def Explained (read : Operation) (v : Option Text) : Prop :=
  ∃ w ∈ writeEvents ops, w.value = v ∧ w.ts ≤ read.returnTs ∧ ∀ next ∈ writeEvents ops, w.ts < next.ts →
    read.invokeTs < next.ts

def valueAfter : Option Text :=
  ops.foldl (fun value op => (op.write?.map WriteEvent.value).getD value) none

private theorem foundValid_iff {invoke ret : Nat} {v : Option Text} {writes : List WriteEvent}
    (hs : writes.Pairwise fun a b => a.ts < b.ts) : foundValid invoke ret v writes = true ↔
      ∃ w ∈ writes, w.value = v ∧ w.ts ≤ ret ∧ ∀ next ∈ writes, w.ts < next.ts → invoke < next.ts := by
  induction writes with
  | nil => simp [foundValid]
  | cons w rest ih =>
    obtain ⟨hw, hr⟩ := pairwise_cons.1 hs
    have hf : (∀ next ∈ w :: rest, w.ts < next.ts → invoke < next.ts) ↔
        ¬ (rest.head?.any fun next => next.ts ≤ invoke) = true := by
      cases rest with
      | nil => simp
      | cons a rest =>
        simp only [forall_mem_cons, lt_irrefl, false_imp_iff, true_and, head?_cons, Option.any_some,
          decide_eq_true_iff, not_le]
        refine ⟨fun h => h.1 (hw a mem_cons_self), fun ha => ⟨fun _ => ha, fun next hn _ => ?_⟩⟩
        exact ha.trans ((pairwise_cons.1 hr).1 next hn)
    have hl : ∀ w' ∈ rest, (∀ next ∈ w :: rest, w'.ts < next.ts → invoke < next.ts) ↔
        ∀ next ∈ rest, w'.ts < next.ts → invoke < next.ts := fun w' hw' =>
      forall_mem_cons.trans (and_iff_right fun hlt => absurd hlt (hw w' hw').not_gt)
    rw [exists_mem_cons_iff, hf, exists_congr fun w' => and_congr_right fun hw' =>
      and_congr_right fun _ => and_congr_right fun _ => hl w' hw', ← ih hr, foundValid]
    split_ifs with hlate hv ho
    · -- the writes behind this one are later still
      refine iff_of_false (by simp) ?_
      rintro (⟨-, hle, -⟩ | hfn)
      · omega
      · obtain ⟨w', hw', -, hle, -⟩ := (ih hr).1 hfn
        have := hw w' hw'
        omega
    · exact ⟨.inr, fun h => h.resolve_left fun hw => hv hw.1⟩
    · exact ⟨.inr, fun h => h.resolve_left fun hw => hw.2.2 ho⟩
    · exact iff_of_true rfl (.inl ⟨not_not.1 hv, not_lt.1 hlate, ho⟩)

variable {op read : Operation} {ops order : List Operation} {w : WriteEvent} {v value : Option Text}

private theorem write?_ts (h : op.write? = some w) : w.ts = op.effectTs := by
  unfold Operation.write? at h
  split at h <;> cases h <;> rfl

private theorem write?_atReturn (op : Operation) : op.atReturn.write? = op.write? := by
  rcases op with ⟨id, client, _ | _ | _ | _, i, r, res⟩ <;>
    simp only [Operation.atReturn, Operation.write?, Operation.effectTs] <;> split_ifs <;> simp_all

private theorem atReturn_of_write (h : op.write? = some w) :
    op.atReturn = { op with invokeTs := w.ts, returnTs := w.ts, result := .ok } := by
  rw [Operation.atReturn, h]

private theorem atReturn_of_not_write (h : op.write? = none) : op.atReturn = op := by
  rw [Operation.atReturn, h]

variable (l : List Operation)

private theorem valueAfter_concat (op : Operation) :
    valueAfter (l ++ [op]) = (op.write?.map WriteEvent.value).getD (valueAfter l) := by
  simp [valueAfter]

private theorem after?_eq {x : Option Text} (h : op.after? value = some x) :
    x = (op.write?.map WriteEvent.value).getD value := by
  rcases op with ⟨id, client, _ | _ | _ | _, i, r, _ | _ | _ | _ | _ | _⟩ <;>
    simp_all [Operation.after?, Operation.write?]

private theorem after?_read {x : Option Text} (hv : read.readValue? = some v) (h : read.after? value = some x) :
    value = v := by
  rcases read with ⟨id, client, _ | _ | _ | _, i, r, _ | _ | _ | _ | _ | _⟩ <;>
    simp_all [Operation.after?, Operation.readValue?]

private theorem after?_atReturn (hr : op.atReturn.returnTs ≠ 0) (hv : ∀ v, op.readValue? = some v → value = v) :
    op.atReturn.after? value = some ((op.write?.map WriteEvent.value).getD value) := by
  rcases op with ⟨id, client, _ | _ | _ | _, i, r, _ | _ | _ | _ | _ | _⟩ <;>
    simp_all [Operation.after?, Operation.readValue?, Operation.atReturn, Operation.write?]

private theorem foldlM_after? {x : Option Text}
    (h : l.foldlM (fun value op => op.after? value) none = some x) : x = valueAfter l := by
  induction l using List.reverseRecOn generalizing x with
  | nil => exact (Option.some.inj h).symm
  | append_singleton l op ih =>
    rw [foldlM_append] at h
    obtain ⟨y, hy, hx⟩ := Option.bind_eq_some_iff.1 h
    rw [valueAfter_concat, ← ih hy]
    exact after?_eq (by simpa using hx)

private theorem exists_latest
    (h : l.Pairwise fun a b => ∀ x, a.write? = some x → ∀ y, b.write? = some y → x.ts ≤ y.ts) :
    ∃ w ∈ writeEvents l, w.value = valueAfter l ∧ ∀ next ∈ writeEvents l, next.ts ≤ w.ts := by
  induction l using List.reverseRecOn with
  | nil => exact ⟨⟨0, none⟩, by simp [writeEvents], rfl, by simp [writeEvents]⟩
  | append_singleton l op ih =>
    obtain ⟨hl, -, hop⟩ := pairwise_append.1 h
    obtain ⟨w, hw, hv, hls⟩ := ih hl
    rw [valueAfter_concat]
    cases hwr : op.write? with
    | none =>
      have hs : writeEvents (l ++ [op]) = writeEvents l := by simp [writeEvents, hwr]
      rw [hs]
      exact ⟨w, hw, hv, hls⟩
    | some x =>
      refine ⟨x, by simp [writeEvents, hwr], rfl, fun next hn => ?_⟩
      simp only [writeEvents, filterMap_append, filterMap_cons, hwr, filterMap_nil, mem_cons, mem_append,
        mem_filterMap,
        not_mem_nil, or_false] at hn
      rcases hn with rfl | ⟨a, ha, hn⟩ | rfl
      · exact Nat.zero_le _
      · exact hop a ha op (mem_singleton_self op) next hn x hwr
      · exact le_rfl

section

variable (h : WellFormed ops)
include h

private theorem WellFormed.effect_pos (hop : op ∈ ops) : 0 < op.effectTs := by
  have := h.started op hop
  unfold Operation.effectTs
  split_ifs <;> omega

private theorem WellFormed.effect_ne {a b : Operation} (ha : a ∈ ops) (hb : b ∈ ops) (hab : a ≠ b) :
    a.invokeTs ≠ b.effectTs ∧ a.effectTs ≠ b.effectTs := by
  have := h.instants a ha b hb hab
  have := h.instants b hb a ha hab.symm
  unfold Operation.effectTs
  split_ifs <;> omega

private theorem WellFormed.event_ts_pos (hop : op ∈ ops) (hw : op.write? = some w) : 0 < w.ts := by
  rw [write?_ts hw]
  exact h.effect_pos hop

private theorem WellFormed.writeEvents_ne : (writeEvents ops).Pairwise fun a b => a.ts ≠ b.ts := by
  refine pairwise_cons.2 ⟨fun w hw => ?_, pairwise_filterMap.2 ?_⟩
  · obtain ⟨op, hop, hw⟩ := mem_filterMap.1 hw
    exact (h.event_ts_pos hop hw).ne
  · refine (Nodup.of_map _ h.ids).pairwise_of_forall_ne fun a ha b hb hab x hx y hy => ?_
    rw [write?_ts hx, write?_ts hy]
    exact (h.effect_ne ha hb hab).2

private theorem WellFormed.event_eq {w' : WriteEvent} (hw : w ∈ writeEvents ops) (hw' : w' ∈ writeEvents ops)
    (hts : w.ts = w'.ts) : w = w' := by
  have : Std.Symm fun a b : WriteEvent => a.ts ≠ b.ts := ⟨fun _ _ => Ne.symm⟩
  by_contra hne
  exact h.writeEvents_ne.forall hw hw' hne hts

private theorem WellFormed.invoke_ne (hr : read ∈ ops) (hn : read.write? = none) (hop : op ∈ ops)
    (hw : op.write? = some w) : read.invokeTs ≠ w.ts := by
  have hne : read ≠ op := by
    rintro rfl
    rw [hn] at hw
    cases hw
  rw [write?_ts hw]
  exact (h.effect_ne hr hop hne).1

private theorem WellFormed.sortedWrites_perm : sortedWrites ops ~ writeEvents ops ∧
    (sortedWrites ops).Pairwise fun a b => a.ts < b.ts := by
  have : Std.Total fun a b : WriteEvent => a.ts ≤ b.ts := ⟨fun _ _ => le_total _ _⟩
  have : IsTrans WriteEvent fun a b => a.ts ≤ b.ts := ⟨fun _ _ _ => le_trans⟩
  have hp : sortedWrites ops ~ writeEvents ops :=
    (perm_insertionSort _ _).trans (((perm_insertionSort _ _).filterMap _).cons _)
  have hne := (hp.pairwise_iff fun hab => hab.symm).2 h.writeEvents_ne
  exact ⟨hp, ((pairwise_insertionSort _ _).and hne).imp fun hab => lt_of_le_of_ne hab.1 hab.2⟩

/-- The checker accepts a history exactly if every read can have seen a write. -/
private theorem check_ok_iff_explained (key : Text) : checkSingleRegister key ops = .ok () ↔
    ∀ read ∈ ops, ∀ v, read.readValue? = some v → Explained ops read v := by
  obtain ⟨hp, hlt⟩ := h.sortedWrites_perm
  have hv : ∀ {violations : List Violation}, (if violations = [] then Except.ok () else .error violations) =
      (.ok () : Except (List Violation) Unit) ↔ violations = [] := by
    intro violations
    split_ifs with h <;> simp [h]
  rw [checkSingleRegister, hv, filterMap_eq_nil_iff]
  simp only [mem_insertionSort, Option.bind_eq_none_iff, ite_eq_left_iff, reduceCtorEq, imp_false, not_not]
  refine forall₂_congr fun read _ => forall₂_congr fun v _ => ?_
  simp only [foundValid_iff hlt, hp.mem_iff, Explained]

end

private theorem not_write_of_read (hv : read.readValue? = some v) : read.write? = none := by
  rcases read with ⟨id, client, _ | _ | _ | _, i, r, res⟩ <;> simp_all [Operation.readValue?, Operation.write?]

private theorem returned_of_read (hv : read.readValue? = some v) : read.returnTs ≠ 0 ∧ read.result ≠ .error := by
  rcases read with ⟨id, client, _ | _ | _ | _, i, r, _ | _ | _ | _ | _ | _⟩ <;> simp_all [Operation.readValue?]

private theorem atReturn_event (h : WellFormed ops) (hop : op ∈ ops.map Operation.atReturn)
    (hw : op.write? = some w) : op.invokeTs = w.ts ∧ op.returnTs = w.ts ∧ 0 < w.ts ∧ w ∈ writeEvents ops := by
  obtain ⟨o, ho, rfl⟩ := mem_map.1 hop
  rw [write?_atReturn] at hw
  rw [atReturn_of_write hw]
  exact ⟨rfl, rfl, h.event_ts_pos ho hw, mem_cons_of_mem _ (mem_filterMap.2 ⟨o, ho, hw⟩)⟩

/-- In whatever order a history with writes at their returns is explained, a read has seen the last write before
it. -/
private theorem Linearization.explained (h : WellFormed ops)
    (hl : Linearization (ops.map Operation.atReturn) order)
    (hrd : read ∈ ops) (hv : read.readValue? = some v) : Explained ops read v := by
  have hnot := not_write_of_read hv
  have hret := returned_of_read hv
  have hmem : read ∈ order := hl.complete read (mem_map.2 ⟨read, hrd, atReturn_of_not_write hnot⟩) hret.1 hret.2
  obtain ⟨pre, post, rfl⟩ := append_of_mem hmem
  obtain ⟨hpre, hr, hp⟩ := pairwise_append.1 hl.realTime
  have hvl : valueAfter pre = v := by
    obtain ⟨x, hx⟩ := Option.ne_none_iff_exists'.1 hl.legal
    rw [foldlM_append] at hx
    obtain ⟨y, hy, hx⟩ := Option.bind_eq_some_iff.1 hx
    rw [foldlM_cons] at hx
    obtain ⟨z, hz, -⟩ := Option.bind_eq_some_iff.1 hx
    rw [← foldlM_after? pre hy]
    exact after?_read hv hz
  have he : ∀ {a x}, a ∈ pre ++ read :: post → a.write? = some x → _ :=
    fun ha hx => atReturn_event h (hl.mem _ ha) hx
  have hs : pre.Pairwise fun a b => ∀ x, a.write? = some x → ∀ y, b.write? = some y → x.ts ≤ y.ts := by
    refine hpre.imp_of_mem fun {a b} ha hb hab x hx y hy => ?_
    have hx := he (mem_append_left _ ha) hx
    have hy := he (mem_append_left _ hb) hy
    omega
  obtain ⟨w, hw, hwv, hls⟩ := exists_latest pre hs
  refine ⟨w, ?_, hwv.trans hvl, ?_, fun next hn hlt => ?_⟩
  · rcases mem_cons.1 hw with rfl | hw
    · exact mem_cons_self
    · obtain ⟨a, ha, hw⟩ := mem_filterMap.1 hw
      exact (he (mem_append_left _ ha) hw).2.2.2
  · rcases mem_cons.1 hw with rfl | hw
    · exact Nat.zero_le _
    · obtain ⟨a, ha, hw⟩ := mem_filterMap.1 hw
      have hx := he (mem_append_left _ ha) hw
      have := hp a ha read mem_cons_self
      omega
  · rcases mem_cons.1 hn with rfl | hn
    · exact absurd hlt (Nat.not_lt_zero _)
    obtain ⟨o, ho, hn⟩ := mem_filterMap.1 hn
    have hev' := atReturn_event h (mem_map_of_mem ho) ((write?_atReturn o).trans hn)
    have hrs : o.atReturn.result ≠ .error := by
      rw [atReturn_of_write hn]
      simp
    rcases mem_append.1 (hl.complete _ (mem_map_of_mem ho) (by omega) hrs) with hpre | hps
    · have := hls next (mem_cons_of_mem _ (mem_filterMap.2 ⟨_, hpre, (write?_atReturn o).trans hn⟩))
      omega
    · rcases mem_cons.1 hps with heq | hps
      · rw [← heq, write?_atReturn, hn] at hnot
        cases hnot
      · have := (pairwise_cons.1 hr).1 _ hps
        have := h.invoke_ne hrd hnot ho hn
        omega

/-- For every operation an instant between its invocation and its return at which the register explains it. -/
structure Instants (ops : List Operation) (p : Operation → Nat) : Prop where
  during : ∀ op ∈ ops, op.atReturn.returnTs ≠ 0 → op.atReturn.invokeTs ≤ p op ∧ p op ≤ op.atReturn.returnTs
  write : ∀ op ∈ ops, ∀ w, op.write? = some w → p op = w.ts
  read : ∀ read ∈ ops, ∀ v, read.readValue? = some v → ∃ w ∈ writeEvents ops, w.value = v ∧ w.ts ≤ p read ∧
    ∀ next ∈ writeEvents ops, w.ts < next.ts → p read < next.ts

private theorem exists_instants (h : WellFormed ops)
    (he : ∀ read ∈ ops, ∀ v, read.readValue? = some v → Explained ops read v) : ∃ p, Instants ops p := by
  have hpn : ∀ op ∈ ops, ∃ t, (op.atReturn.returnTs ≠ 0 → op.atReturn.invokeTs ≤ t ∧ t ≤ op.atReturn.returnTs) ∧
      (∀ w, op.write? = some w → t = w.ts) ∧ ∀ v, op.readValue? = some v → ∃ w ∈ writeEvents ops, w.value = v ∧
        w.ts ≤ t ∧ ∀ next ∈ writeEvents ops, w.ts < next.ts → t < next.ts := by
    intro op hop
    cases hw : op.write? with
    | some w =>
      rw [atReturn_of_write hw]
      refine ⟨w.ts, fun _ => ⟨le_rfl, le_rfl⟩, fun _ heq => by rw [Option.some.inj heq], fun v hv => ?_⟩
      rw [not_write_of_read hv] at hw
      cases hw
    | none =>
      rw [atReturn_of_not_write hw]
      have hr := h.returned op hop
      cases hv : op.readValue? with
      | none => exact ⟨op.invokeTs, fun hne => ⟨le_rfl, (hr hne).le⟩, by simp, by simp⟩
      | some v =>
        -- the later one of the write and the invocation of the read
        obtain ⟨w, hw, hwv, hle, hn⟩ := he op hop v hv
        refine ⟨max w.ts op.invokeTs, fun hne => ⟨le_max_right _ _, max_le hle (hr hne).le⟩, by simp, ?_⟩
        rintro _ ⟨⟩
        exact ⟨w, hw, hwv, le_max_left _ _, fun next hmem hlt => max_lt hlt (hn next hmem hlt)⟩
  choose! p hp using hpn
  exact ⟨p, fun op hop => (hp op hop).1, fun op hop => (hp op hop).2.1, fun op hop => (hp op hop).2.2⟩

/-- The order of the instants, a write before the reads of its instant. -/
def rank (p : Operation → Nat) (op : Operation) : Nat := 2 * p op + if op.write?.isSome then 0 else 1

variable {p : Operation → Nat}

private theorem Instants.rank_write (hp : Instants ops p) (hop : op ∈ ops) (hw : op.write? = some w) :
    rank p op = 2 * w.ts := by
  simp [rank, hw, hp.write op hop w hw]

/-- Sorted by rank, a read comes behind the write it has seen and before all later ones. -/
private theorem Instants.value_before (h : WellFormed ops) (hp : Instants ops p) {pre post : List Operation}
    (hmem : ∀ op, op ∈ pre ++ read :: post ↔ op ∈ ops ∧ op.atReturn.returnTs ≠ 0)
    (hs : (pre ++ read :: post).Pairwise fun a b => rank p a ≤ rank p b) (hv : read.readValue? = some v) :
    valueAfter pre = v := by
  have ho : ∀ {op}, op ∈ pre → op ∈ ops := fun hop => ((hmem _).1 (mem_append_left _ hop)).1
  obtain ⟨hpre, hps, hbf⟩ := pairwise_append.1 hs
  obtain ⟨w, hw, rfl, hle, hn⟩ := hp.read read ((hmem read).1 (by simp)).1 v hv
  have hr : rank p read = 2 * p read + 1 := by simp [rank, not_write_of_read hv]
  have hwp : w ∈ writeEvents pre := by
    rcases mem_cons.1 hw with rfl | hw
    · exact mem_cons_self
    obtain ⟨op, hop, hw⟩ := mem_filterMap.1 hw
    refine mem_cons_of_mem _ (mem_filterMap.2 ⟨op, ?_, hw⟩)
    have hret := (h.event_ts_pos hop hw).ne'
    rcases mem_append.1 ((hmem op).2 ⟨hop, by rwa [atReturn_of_write hw]⟩) with hpre | hl
    · exact hpre
    rcases mem_cons.1 hl with rfl | hl
    · rw [not_write_of_read hv] at hw
      cases hw
    · have := (pairwise_cons.1 hps).1 op hl
      rw [hp.rank_write hop hw] at this
      omega
  obtain ⟨w', hw', hvl, hls⟩ := exists_latest pre (hpre.imp_of_mem fun {a b} ha hb hab x hx y hy => by
    rw [hp.rank_write (ho ha) hx, hp.rank_write (ho hb) hy] at hab
    omega)
  have hl : w'.ts ≤ p read ∧ w' ∈ writeEvents ops := by
    rcases mem_cons.1 hw' with rfl | hw'
    · exact ⟨Nat.zero_le _, mem_cons_self⟩
    obtain ⟨op, hop, hw'⟩ := mem_filterMap.1 hw'
    have := hbf op hop read mem_cons_self
    rw [hp.rank_write (ho hop) hw'] at this
    exact ⟨by omega, mem_cons_of_mem _ (mem_filterMap.2 ⟨op, ho hop, hw'⟩)⟩
  have hts : w.ts = w'.ts := by
    refine le_antisymm (hls w hwp) (not_lt.1 fun hlt => ?_)
    have := hn w' hl.2 hlt
    omega
  rw [← hvl, h.event_eq hw hl.2 hts]

private theorem foldlM_atReturn (hret : ∀ op ∈ l, op.atReturn.returnTs ≠ 0)
    (hr : ∀ pre read post, l = pre ++ read :: post → ∀ v, read.readValue? = some v → valueAfter pre = v) :
    (l.map Operation.atReturn).foldlM (fun value op => op.after? value) none = some (valueAfter l) := by
  induction l using List.reverseRecOn with
  | nil => rfl
  | append_singleton l op ih =>
    have hl := ih (fun o ho => hret o (mem_append_left _ ho)) fun pre read post heq =>
      hr pre read (post ++ [op]) (by simp [heq])
    rw [map_append, foldlM_append, hl, valueAfter_concat]
    have := after?_atReturn (hret op (by simp)) (hr l op [] rfl)
    simpa using this

private theorem atReturn_id (op : Operation) : op.atReturn.id = op.id := by
  rcases op with ⟨id, client, _ | _ | _ | _, i, r, res⟩ <;> rfl

private theorem exists_linearization (h : WellFormed ops)
    (he : ∀ read ∈ ops, ∀ v, read.readValue? = some v → Explained ops read v) :
    ∃ order, Linearization (ops.map Operation.atReturn) order := by
  obtain ⟨p, hp⟩ := exists_instants h he
  have : Std.Total fun a b : Operation => rank p a ≤ rank p b := ⟨fun _ _ => le_total _ _⟩
  have : IsTrans Operation fun a b => rank p a ≤ rank p b := ⟨fun _ _ _ => le_trans⟩
  obtain ⟨sorted, hpr, hs⟩ : ∃ l : List Operation, l ~ ops.filter (fun op => op.atReturn.returnTs ≠ 0) ∧
      l.Pairwise fun a b => rank p a ≤ rank p b := ⟨_, perm_insertionSort _ _, pairwise_insertionSort _ _⟩
  have hmem : ∀ op, op ∈ sorted ↔ op ∈ ops ∧ op.atReturn.returnTs ≠ 0 := by simp [hpr.mem_iff]
  refine ⟨sorted.map Operation.atReturn, ?_, ?_, ?_, ?_, ?_⟩
  · have hi : (sorted.map Operation.id).Nodup := (hpr.map _).nodup_iff.2 (h.ids.sublist (filter_sublist.map _))
    refine Nodup.of_map Operation.id ?_
    rwa [map_map, show Operation.id ∘ Operation.atReturn = Operation.id from funext atReturn_id]
  · exact fun op hop => map_subset _ (fun o ho => ((hmem o).1 ho).1) hop
  · intro op hop hr _
    obtain ⟨o, ho, rfl⟩ := mem_map.1 hop
    exact mem_map_of_mem ((hmem o).2 ⟨ho, hr⟩)
  · refine pairwise_map.2 (hs.imp_of_mem fun {a b} ha hb hab => ?_)
    have ha := hp.during a ((hmem a).1 ha).1 ((hmem a).1 ha).2
    have hb := hp.during b ((hmem b).1 hb).1 ((hmem b).1 hb).2
    have : p a ≤ p b := by
      simp only [rank] at hab
      split_ifs at hab <;> omega
    omega
  · rw [foldlM_atReturn sorted fun op hop => ((hmem op).1 hop).2]
    · simp
    · rintro pre read post rfl v hv
      exact hp.value_before h hmem hs hv

def sequential : List Operation :=
  [⟨1, "a", .put "k" "x", 1, 10, .putOk "x"⟩, ⟨2, "b", .get "k", 11, 12, .getOk "x"⟩]

def overlapping : List Operation :=
  [⟨1, "a", .put "k" "x", 1, 10, .putOk "x"⟩, ⟨2, "b", .get "k", 2, 5, .getOk "x"⟩]

end RustHadoop.Checker
