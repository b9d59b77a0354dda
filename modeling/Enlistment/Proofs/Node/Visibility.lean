import Enlistment.Proofs.Node.Cleanup

/-!
# Visibility among transactions

A coordinator is asked for snapshots and told that transactions have finished, in any order, for
some of them more than once and for some that it never numbered. Its snapshots agree with what has
happened: each one lists the transactions that were unfinished when it was issued, and sees of the
others exactly those that had finished by then.
-/

namespace Enlistment

/-- Of its own coordinator a snapshot sees its own transaction and the ones before that it does not
list. -/
theorem Snapshot.sees_version_iff {s t : Snapshot} (h : t.coordinator = s.coordinator) :
    s.sees t.version = true ↔
      t.counter = s.counter ∨ (t.counter < s.counter ∧ t.counter ∉ s.active) := by
  unfold sees
  rw [show t.version.coordinator = t.coordinator from rfl, Std.compare_eq_iff_eq.mpr h]
  show (decide (t.counter = s.counter) ||
    (decide (t.counter < s.counter) && !s.active.contains t.counter)) = true ↔ _
  simp

namespace Coordinator

/-! ## Histories -/

/-- Something that is asked of a coordinator. -/
inductive Action where
  | request
  | finish (counter : Int64)
  deriving DecidableEq

/-- What has happened at an action. -/
inductive Occurrence where
  | issued (s : Snapshot)
  /-- A transaction was to be finished, and it was unfinished or not. -/
  | finished (counter : Int64) (wasUnfinished : Bool)
  deriving DecidableEq

/-- What happens at an action, and the coordinator after it. -/
def perform (c : Coordinator) : Action → Occurrence × Coordinator
  | .request =>
    let r := c.requestSnapshot
    (.issued r.1, r.2)
  | .finish counter =>
    let r := c.finish counter
    (.finished counter r.1, r.2)

/-- The coordinator after some actions, one after the other. -/
def performAll (c : Coordinator) (actions : List Action) : Coordinator :=
  actions.foldl (fun c action => (c.perform action).2) c

/-- What happens at some actions, one after the other. -/
def history : Coordinator → List Action → List Occurrence
  | _, [] => []
  | c, action :: rest => (c.perform action).1 :: (c.perform action).2.history rest

/-- What happens first depends on the first actions alone. -/
theorem history_take (c : Coordinator) (actions : List Action) (j : Nat) :
    (c.history actions).take j = c.history (actions.take j) := by
  induction actions generalizing c j with
  | nil => rw [history, List.take_nil, List.take_nil, history]
  | cons action rest ih =>
    cases j with
    | zero => rfl
    | succ j => rw [history, List.take_succ_cons, List.take_succ_cons, history, ih]

/-- A snapshot in a history was asked for, and it is the one that the coordinator issues after
what happened before. -/
theorem requested_of_history {c : Coordinator} {actions : List Action} {j : Nat} {s : Snapshot}
    (h : (c.history actions)[j]? = some (.issued s)) :
    actions[j]? = some .request ∧ s = (c.performAll (actions.take j)).requestSnapshot.1 := by
  induction actions generalizing c j with
  | nil => cases h
  | cons action rest ih =>
    cases j with
    | succ j => exact ih h
    | zero =>
      cases action with
      | request => exact ⟨rfl, (Occurrence.issued.inj (Option.some.inj h)).symm⟩
      | finish counter => cases h

/-- The counter counts the snapshots, as long as there are numbers for them. -/
theorem counter_performAll {c : Coordinator} {actions : List Action}
    (hroom : c.counter.toInt + actions.count .request < 2 ^ 63) :
    (c.performAll actions).counter.toInt = c.counter.toInt + actions.count .request := by
  induction actions generalizing c with
  | nil => exact (Int.add_zero _).symm
  | cons action rest ih =>
    cases action with
    | request =>
      rw [List.count_cons_self] at hroom ⊢
      have hnext : (c.requestSnapshot.2).counter.toInt = c.counter.toInt + 1 :=
        toInt_add_one (by omega)
      have hrest := ih (c := c.requestSnapshot.2) (by omega)
      rw [hnext] at hrest
      rw [show c.performAll (.request :: rest) = c.requestSnapshot.2.performAll rest from rfl,
        hrest]
      omega
    | finish counter =>
      rw [List.count_cons_of_ne (by simp)] at hroom ⊢
      exact ih (c := (c.finish counter).2) hroom

/-- The transaction with a number has been issued its snapshot. -/
def Issued (past : List Occurrence) (n : Int64) : Prop :=
  ∃ s, .issued s ∈ past ∧ s.counter = n

/-- The transaction with a number has been finished. -/
def Finished (past : List Occurrence) (n : Int64) : Prop := .finished n true ∈ past

instance (past : List Occurrence) (n : Int64) : Decidable (Finished past n) :=
  inferInstanceAs (Decidable (_ ∈ past))

/-- What has happened at a position has happened before the later ones. -/
theorem issued_take {history : List Occurrence} {i j : Nat} {s : Snapshot}
    (h : history[i]? = some (.issued s)) (hlt : i < j) : Issued (history.take j) s.counter :=
  ⟨s, List.mem_of_getElem? (by rwa [List.getElem?_take_of_lt hlt]), rfl⟩

/-- A snapshot that is issued has its number issued. -/
theorem issued_append_issued {past : List Occurrence} {s : Snapshot} {n : Int64} :
    Issued (past ++ [.issued s]) n ↔ Issued past n ∨ n = s.counter := by
  simp only [Issued, List.mem_append, List.mem_singleton, Occurrence.issued.injEq]
  grind

/-- A transaction that is finished has no number issued. -/
theorem issued_append_finished {past : List Occurrence} {counter n : Int64} {wasUnfinished : Bool} :
    Issued (past ++ [.finished counter wasUnfinished]) n ↔ Issued past n := by
  simp [Issued]

/-- A snapshot that is issued finishes no transaction. -/
theorem finished_append_issued {past : List Occurrence} {s : Snapshot} {n : Int64} :
    Finished (past ++ [.issued s]) n ↔ Finished past n := by
  simp [Finished]

/-- A transaction is finished by then if it was before or has just been. -/
theorem finished_append_finished {past : List Occurrence} {counter n : Int64}
    {wasUnfinished : Bool} :
    Finished (past ++ [.finished counter wasUnfinished]) n ↔
      Finished past n ∨ (n = counter ∧ wasUnfinished = true) := by
  simp only [Finished, List.mem_append, List.mem_singleton, Occurrence.finished.injEq]
  grind

/-! ## What a coordinator knows of its history -/

/-- A transaction that is added to a list is the only one that may be new. -/
theorem mem_insertActive_iff {n m : Int64} {active : List Int64} :
    m ∈ insertActive n active ↔ m = n ∨ m ∈ active := by
  refine ⟨mem_insertActive, ?_⟩
  induction active with
  | nil => simp [insertActive]
  | cons first rest ih =>
    unfold insertActive
    grind

/-- A coordinator has numbered its transactions from one on and keeps those unfinished. -/
structure Recalls (c : Coordinator) (version : Int64) (past : List Occurrence) : Prop where
  version_eq : c.version = version
  counter_nonneg : 0 ≤ c.counter
  ascending : c.active.Pairwise fun a b => a < b
  issued_iff : ∀ n, Issued past n ↔ 0 < n ∧ n ≤ c.counter
  issued_of_finished : ∀ n, Finished past n → Issued past n
  mem_active_iff : ∀ n, n ∈ c.active ↔ Issued past n ∧ ¬Finished past n

/-- A coordinator that was asked nothing. -/
theorem Recalls.initial (version : Int64) : Recalls { version } version [] where
  version_eq := rfl
  counter_nonneg := Int64.le_refl 0
  ascending := .nil
  issued_iff n := by
    constructor
    · rintro ⟨_, hs, _⟩
      cases hs
    · rintro ⟨hpos, hle⟩
      exact absurd (Int64.lt_of_lt_of_le hpos hle) Int64.lt_irrefl
  issued_of_finished n hn := by cases hn
  mem_active_iff n := by
    constructor
    · intro hn
      cases hn
    · rintro ⟨⟨_, hs, _⟩, _⟩
      cases hs

variable {c : Coordinator} {version : Int64} {past : List Occurrence}

/-- There is a number for a new transaction, and no other transaction has it. -/
theorem Recalls.start (h : c.Recalls version past) (hroom : c.counter.toInt + 1 < 2 ^ 63) :
    c.requestSnapshot.2.Recalls version (past ++ [.issued c.requestSnapshot.1]) := by
  have hnext : c.counter < c.counter + 1 := by
    rw [Int64.lt_iff_toInt_lt, toInt_add_one hroom]
    omega
  have hpos : 0 < c.counter + 1 := Int64.lt_of_le_of_lt h.counter_nonneg hnext
  have hnew : ¬Issued past (c.counter + 1) := fun hissued =>
    Int64.lt_irrefl (Int64.lt_of_lt_of_le hnext ((h.issued_iff _).mp hissued).2)
  have hupto : ∀ n, n ≤ c.counter + 1 ↔ n ≤ c.counter ∨ n = c.counter + 1 := by
    intro n
    rw [Int64.le_iff_toInt_le, Int64.le_iff_toInt_le, ← Int64.toInt_inj, toInt_add_one hroom]
    omega
  refine ⟨h.version_eq, Int64.le_of_lt hpos, ascending_insertActive h.ascending, fun n => ?_,
    fun n hn => ?_, fun n => ?_⟩
  · show Issued (past ++ [.issued c.requestSnapshot.1]) n ↔ 0 < n ∧ n ≤ c.counter + 1
    rw [issued_append_issued, h.issued_iff, hupto]
    constructor
    · rintro (⟨hn, hle⟩ | rfl)
      · exact ⟨hn, .inl hle⟩
      · exact ⟨hpos, .inr rfl⟩
    · rintro ⟨hn, hle | rfl⟩
      · exact .inl ⟨hn, hle⟩
      · exact .inr rfl
  · rw [finished_append_issued] at hn
    exact issued_append_issued.mpr (.inl (h.issued_of_finished n hn))
  · show n ∈ insertActive (c.counter + 1) c.active ↔ _
    rw [mem_insertActive_iff, h.mem_active_iff, issued_append_issued, finished_append_issued]
    constructor
    · rintro (rfl | ⟨hissued, hunfinished⟩)
      · exact ⟨.inr rfl, fun hfinished => hnew (h.issued_of_finished _ hfinished)⟩
      · exact ⟨.inl hissued, hunfinished⟩
    · rintro ⟨hissued | rfl, hunfinished⟩
      · exact .inr ⟨hissued, hunfinished⟩
      · exact .inl rfl

/-- Finishing a transaction succeeds once, and only if it was issued. -/
theorem Recalls.finish (h : c.Recalls version past) (counter : Int64) :
    (c.finish counter).2.Recalls version (past ++ [.finished counter (c.finish counter).1]) := by
  have hnodup : c.active.Nodup := h.ascending.imp Int64.ne_of_lt
  have hsuccess : (c.finish counter).1 = true ↔ counter ∈ c.active := List.contains_iff_mem
  refine ⟨h.version_eq, h.counter_nonneg, h.ascending.sublist List.erase_sublist, fun n => ?_,
    fun n hn => ?_, fun n => ?_⟩
  · rw [issued_append_finished]
    exact h.issued_iff n
  · rw [issued_append_finished]
    rcases finished_append_finished.mp hn with hn | ⟨rfl, hactive⟩
    · exact h.issued_of_finished n hn
    · exact ((h.mem_active_iff n).mp (hsuccess.mp hactive)).1
  · show n ∈ c.active.erase counter ↔ _
    rw [hnodup.mem_erase_iff, h.mem_active_iff, issued_append_finished, finished_append_finished,
      hsuccess, h.mem_active_iff]
    grind

/-- Whatever is asked of a coordinator it recalls, as long as there are numbers for all
transactions. -/
theorem Recalls.performAll (h : c.Recalls version past) {actions : List Action}
    (hroom : c.counter.toInt + actions.count .request < 2 ^ 63) :
    (c.performAll actions).Recalls version (past ++ c.history actions) := by
  induction actions generalizing c past with
  | nil => rwa [history, List.append_nil]
  | cons action rest ih =>
    rw [history, List.append_cons]
    cases action with
    | request =>
      rw [List.count_cons_self] at hroom
      refine ih (h.start (by omega)) ?_
      show (c.counter + 1).toInt + (rest.count .request : Nat) < 2 ^ 63
      rw [toInt_add_one (by omega)]
      omega
    | finish counter =>
      rw [List.count_cons_of_ne (by simp)] at hroom
      exact ih (h.finish counter) hroom

/-- A new transaction has a greater number than those that were issued before. -/
theorem Recalls.counter_lt (h : c.Recalls version past) (hroom : c.counter.toInt + 1 < 2 ^ 63)
    {n : Int64} (hn : Issued past n) : n < c.requestSnapshot.1.counter := by
  have hle := ((h.issued_iff n).mp hn).2
  rw [Int64.le_iff_toInt_le] at hle
  show n < c.counter + 1
  rw [Int64.lt_iff_toInt_lt, toInt_add_one hroom]
  omega

/-- Every transaction up to the cleanup version of a new snapshot has been finished. -/
theorem Recalls.finished_of_le_cleanup (h : c.Recalls version past) {n : Int64} (hn : 0 < n)
    (hle : n ≤ c.requestSnapshot.1.cleanup) : Finished past n := by
  suffices hbelow : n ≤ c.counter ∧ n ∉ c.active by
    by_contra hunfinished
    exact hbelow.2 ((h.mem_active_iff n).mpr ⟨(h.issued_iff n).mpr ⟨hn, hbelow.1⟩, hunfinished⟩)
  unfold requestSnapshot at hle
  cases hactive : c.active with
  | nil =>
    simp only [hactive, Int64.add_sub_cancel] at hle
    exact ⟨hle, List.not_mem_nil⟩
  | cons oldest rest =>
    simp only [hactive] at hle
    have hmem : oldest ∈ c.active := by rw [hactive]; exact List.mem_cons_self
    obtain ⟨hpos, holdest⟩ := (h.issued_iff oldest).mp ((h.mem_active_iff oldest).mp hmem).1
    have hlt : n < oldest := by
      rw [Int64.le_iff_toInt_le, toInt_sub_one hpos] at hle
      rw [Int64.lt_iff_toInt_lt]
      omega
    have hascending := h.ascending
    rw [hactive] at hascending
    refine ⟨Int64.le_of_lt (Int64.lt_of_lt_of_le hlt holdest), fun hn => ?_⟩
    rcases List.mem_cons.mp hn with rfl | hn
    · exact Int64.lt_irrefl hlt
    · exact Int64.lt_irrefl (Int64.lt_trans hlt ((List.pairwise_cons.mp hascending).1 n hn))

/-- A snapshot in a history is issued by a coordinator that recalls what happened before, and that
has a number left. -/
theorem recalls_of_history {actions : List Action} (hroom : actions.count .request < 2 ^ 63)
    {j : Nat} {s : Snapshot} (hs : (history { version } actions)[j]? = some (.issued s)) :
    ∃ c : Coordinator, c.Recalls version ((history { version } actions).take j) ∧
      c.counter.toInt + 1 < 2 ^ 63 ∧ s = c.requestSnapshot.1 := by
  obtain ⟨hrequest, heq⟩ := requested_of_history hs
  have hcount : (actions.take j).count .request + 1 ≤ actions.count .request := by
    have hle := (List.take_sublist (j + 1) actions).count_le .request
    rwa [List.take_add_one, hrequest, Option.toList_some, List.count_append,
      List.count_singleton_self] at hle
  have hzero : (0 : Int64).toInt = 0 := rfl
  refine ⟨performAll { version } (actions.take j), ?_, ?_, heq⟩
  · rw [history_take]
    exact (Recalls.initial version).performAll (by dsimp only; omega)
  · rw [counter_performAll (by dsimp only; omega)]
    dsimp only
    omega

/-! ## Visibility -/

/-- Snapshots agree with the history of their coordinator. A snapshot sees the version of another
one, or its own, if this is its own one or was issued before and its transaction had been finished
by then. It lists, in ascending order, the transactions that had been issued and not finished.
All transactions up to its cleanup version had been finished. -/
theorem sees_iff_finished_before (version : Int64) {actions : List Action}
    (hroom : actions.count .request < 2 ^ 63) {history : List Occurrence}
    (hhistory : Coordinator.history { version } actions = history) {j : Nat} {s : Snapshot}
    (hs : history[j]? = some (.issued s)) :
    (∀ (i : Nat) (t : Snapshot), history[i]? = some (.issued t) →
        (s.sees t.version = true ↔
          i = j ∨ (i < j ∧ Finished (history.take j) t.counter))) ∧
      (s.active.Pairwise fun a b => a < b) ∧
      (∀ n, n ∈ s.active ↔ Issued (history.take j) n ∧ ¬Finished (history.take j) n) ∧
      ∀ n, 0 < n → n ≤ s.cleanup →
        Issued (history.take j) n ∧ Finished (history.take j) n := by
  subst hhistory
  obtain ⟨c, hc, hcroom, rfl⟩ := recalls_of_history hroom hs
  refine ⟨fun i t ht => ?_, hc.ascending, hc.mem_active_iff, fun n hn hle => ?_⟩
  · obtain ⟨c', hc', hcroom', rfl⟩ := recalls_of_history hroom ht
    have hsame : c'.version = c.version := hc'.version_eq.trans hc.version_eq.symm
    rw [Snapshot.sees_version_iff hsame]
    rcases Nat.lt_trichotomy i j with hlt | rfl | hlt
    · have hissued := issued_take ht hlt
      have hbelow := hc.counter_lt hcroom hissued
      constructor
      · rintro (heq | ⟨-, hunlisted⟩)
        · exact absurd heq (Int64.ne_of_lt hbelow)
        · refine .inr ⟨hlt, ?_⟩
          by_contra hunfinished
          exact hunlisted ((hc.mem_active_iff _).mpr ⟨hissued, hunfinished⟩)
      · rintro (rfl | ⟨-, hfinished⟩)
        · exact absurd hlt (Nat.lt_irrefl _)
        · exact .inr ⟨hbelow, fun hlisted => ((hc.mem_active_iff _).mp hlisted).2 hfinished⟩
    · have heq := Occurrence.issued.inj (Option.some.inj (ht.symm.trans hs))
      exact iff_of_true (.inl (congrArg Snapshot.counter heq)) (.inl rfl)
    · -- a later transaction has a greater number
      have habove := hc'.counter_lt hcroom' (issued_take hs hlt)
      refine iff_of_false ?_ ?_
      · rintro (heq | ⟨hbelow, -⟩)
        · exact Int64.ne_of_lt habove heq.symm
        · exact Int64.lt_irrefl (Int64.lt_trans habove hbelow)
      · rintro (rfl | ⟨hlt', -⟩)
        · exact Nat.lt_irrefl _ hlt
        · exact Nat.lt_irrefl _ (Nat.lt_trans hlt hlt')
  · have hfinished := hc.finished_of_le_cleanup hn hle
    exact ⟨hc.issued_of_finished n hfinished, hfinished⟩

/-- Four transactions, of which the second and then the first are finished, the second one twice,
and one that was never issued. The fourth sees the second, which was finished before it, and not
the first, which was finished after it. -/
theorem sees_second_of_four :
    let actions : List Action :=
      [.request, .request, .finish 2, .finish 9, .finish 2, .request, .request, .finish 1]
    let history := Coordinator.history { version := 5 } actions
    ∃ s t u : Snapshot, history[6]? = some (.issued s) ∧ history[1]? = some (.issued t) ∧
      history[0]? = some (.issued u) ∧ history[4]? = some (.finished 2 false) ∧
      s.sees t.version = true ∧ s.sees u.version = false ∧ s.active = [1, 3] := by
  intro actions history
  have hs : history[6]? = some (.issued ⟨5, 4, 0, 0, [1, 3]⟩) := by decide
  have ht : history[1]? = some (.issued ⟨5, 2, 0, 0, [1]⟩) := by decide
  have hu : history[0]? = some (.issued ⟨5, 1, 0, 0, []⟩) := by decide
  have hroom : actions.count .request < 2 ^ 63 := by decide
  have hhistory : Coordinator.history { version := 5 } actions = history := rfl
  obtain ⟨hsees, -⟩ := sees_iff_finished_before 5 hroom hhistory hs
  refine ⟨_, _, _, hs, ht, hu, by decide, ?_, ?_, rfl⟩
  · exact (hsees 1 _ ht).mpr (.inr ⟨by decide, by decide⟩)
  · refine Bool.eq_false_iff.mpr fun hseen => ?_
    have hcases := (hsees 0 _ hu).mp hseen
    revert hcases
    decide

end Coordinator

end Enlistment
