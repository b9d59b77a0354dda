import Enlistment.Coordinator
import Enlistment.Proofs.Node.OwnWrites

/-!
# Snapshot isolation

A transaction reads its own last write to a key, and otherwise what the key had when its
snapshot was taken. Of two transactions the later one lists the earlier one as unfinished for
as long as that can write, and the earlier one sees no greater number than its own, so neither
sees what the other one writes.
-/

namespace Enlistment

variable {σ : Type}

/-! ## The coordinator -/

namespace Coordinator

/-- A transaction that is added to a list is the only one that may be new. -/
theorem mem_insertActive {n m : Int64} {active : List Int64} (h : m ∈ insertActive n active) :
    m = n ∨ m ∈ active := by
  induction active with
  | nil => exact .inl (List.mem_singleton.mp h)
  | cons first rest ih =>
    unfold insertActive at h
    split at h
    · exact List.mem_cons.mp h
    · split at h
      · exact .inr h
      · rcases List.mem_cons.mp h with rfl | h
        · exact .inr (List.mem_cons_self ..)
        · exact (ih h).imp_right (List.mem_cons_of_mem _)

end Coordinator

/-! ## Transactions on one node -/

/-- A coordinator, the snapshots that it has issued, and a node. -/
structure Transactions (σ : Type) where
  coordinator : Coordinator
  issued : List Snapshot := []
  node : Node σ

namespace Transactions

/-- Something that happens to transactions or their node. -/
inductive Event (σ : Type) where
  /-- A transaction takes its snapshot. -/
  | start
  /-- The transaction with a counter is finished. -/
  | finish (counter : Int64)
  | request (req : EnlistRequest σ) (state : σ)
  /-- The locks of a transaction are released. -/
  | release (lock : LockVersion)

section

variable [HasTopology σ]

/-- The transactions after an event. -/
def perform (t : Transactions σ) : Event σ → Transactions σ
  | .start =>
    let r := t.coordinator.requestSnapshot
    { t with coordinator := r.2, issued := t.issued ++ [r.1] }
  | .finish counter => { t with coordinator := (t.coordinator.finish counter).2 }
  | .request req state => { t with node := t.node.perform (.request req state) }
  | .release lock => { t with node := t.node.perform (.finish lock) }

/-- The transactions after some events, one after the other. -/
def performAll (t : Transactions σ) (events : List (Event σ)) : Transactions σ :=
  events.foldl perform t

/-- Whether an event keeps to the rules: a request with a snapshot has one of the coordinator
and is sent before its transaction is finished, and there are numbers left for transactions that
start. -/
def Allowed (t : Transactions σ) : Event σ → Prop
  | .start => t.coordinator.counter.toInt + 1 < 2 ^ 63
  | .finish _ => True
  | .request req _ => ∀ s ∈ req.snapshot, s ∈ t.issued ∧ s.counter ∈ t.coordinator.active
  | .release _ => True

instance (t : Transactions σ) (event : Event σ) : Decidable (t.Allowed event) :=
  match event with
  | .start => inferInstanceAs (Decidable (t.coordinator.counter.toInt + 1 < 2 ^ 63))
  | .finish _ => isTrue trivial
  | .request req _ => inferInstanceAs (Decidable (∀ s ∈ req.snapshot, s ∈ t.issued ∧ _))
  | .release _ => isTrue trivial

/-- Whether all of some events keep to the rules. -/
def Orderly (t : Transactions σ) : List (Event σ) → Prop
  | [] => True
  | event :: rest => t.Allowed event ∧ (t.perform event).Orderly rest

instance decideOrderly (t : Transactions σ) :
    (events : List (Event σ)) → Decidable (t.Orderly events)
  | [] => isTrue trivial
  | event :: rest =>
    have := decideOrderly (t.perform event) rest
    inferInstanceAs (Decidable (t.Allowed event ∧ (t.perform event).Orderly rest))

/-- What the transaction with a snapshot writes at an event. -/
def writesBy (s : Snapshot) (t : Transactions σ) : Event σ → List RowWrite
  | .request req state =>
    if req.snapshot = some s then t.node.writesOf (.request req state) else []
  | .start => []
  | .finish _ => []
  | .release _ => []

/-- What the transaction with a snapshot writes at some events. -/
def allWritesBy (s : Snapshot) : Transactions σ → List (Event σ) → List RowWrite
  | _, [] => []
  | t, event :: rest => t.writesBy s event ++ allWritesBy s (t.perform event) rest

/-- The transaction with a snapshot writes nothing at events that are not its own requests. -/
theorem writesBy_eq_nil {s : Snapshot} {t : Transactions σ} {event : Event σ}
    (h : ∀ req state, event = .request req state → req.snapshot ≠ some s) :
    t.writesBy s event = [] := by
  cases event with
  | request req state => exact if_neg (h req state rfl)
  | start => rfl
  | finish counter => rfl
  | release lock => rfl

/-- What the transaction with a snapshot writes at some events: at each of its own requests what
this request writes on the node as it is then, and nothing at other events. -/
inductive OwnWrites (s : Snapshot) : Transactions σ → List (Event σ) → List RowWrite → Prop
  | nil (t : Transactions σ) : OwnWrites s t [] []
  | own {t : Transactions σ} {req : EnlistRequest σ} {state : σ} {rest : List (Event σ)}
      {now later : List RowWrite} (hown : req.snapshot = some s)
      (hnow : t.node.Writes req state now)
      (hlater : OwnWrites s (t.perform (.request req state)) rest later) :
      OwnWrites s t (.request req state :: rest) (now ++ later)
  | other {t : Transactions σ} {event : Event σ} {rest : List (Event σ)} {later : List RowWrite}
      (hother : ∀ req state, event = .request req state → req.snapshot ≠ some s)
      (hlater : OwnWrites s (t.perform event) rest later) : OwnWrites s t (event :: rest) later

/-- What a transaction writes at some events is what its requests write one after the other. -/
theorem ownWrites_iff {s : Snapshot} {t : Transactions σ} {events : List (Event σ)}
    {writes : List RowWrite} : OwnWrites s t events writes ↔ writes = allWritesBy s t events := by
  constructor
  · intro h
    induction h with
    | nil t => rfl
    | own hown hnow hlater ih =>
      rw [allWritesBy, writesBy, if_pos hown, ← Node.writes_iff.mp hnow, ← ih]
    | other hother hlater ih => rw [allWritesBy, writesBy_eq_nil hother, ← ih, List.nil_append]
  · rintro rfl
    induction events generalizing t with
    | nil => exact .nil t
    | cons event rest ih =>
      have hquiet : (∀ req state, event = .request req state → req.snapshot ≠ some s) →
          OwnWrites s t (event :: rest) (allWritesBy s t (event :: rest)) := by
        intro hother
        rw [allWritesBy, writesBy_eq_nil hother]
        exact .other hother ih
      cases event with
      | request req state =>
        by_cases hown : req.snapshot = some s
        · rw [allWritesBy, writesBy, if_pos hown]
          exact .own hown (Node.writes_iff.mpr rfl) ih
        · refine hquiet fun req' state' heq => ?_
          obtain ⟨rfl, -⟩ := Event.request.inj heq
          exact hown
      | start => exact hquiet fun _ _ heq => by cases heq
      | finish counter => exact hquiet fun _ _ heq => by cases heq
      | release lock => exact hquiet fun _ _ heq => by cases heq

end

/-- Numbers of transactions ascend, and each snapshot lists the transactions before it that are
still unfinished. -/
structure Consistent (t : Transactions σ) : Prop where
  mode : t.node.config.mvccEnabled = true
  store : t.node.state.store.WellFormed
  version : ∀ s ∈ t.issued, s.coordinator = t.coordinator.version
  counter : ∀ s ∈ t.issued, s.counter ≤ t.coordinator.counter
  unique : ∀ s ∈ t.issued, ∀ s' ∈ t.issued, s.counter = s'.counter → s = s'
  unfinished : ∀ s ∈ t.issued, ∀ other ∈ t.coordinator.active,
    other < s.counter → other ∈ s.active

/-- Transactions that have not begun are consistent. -/
theorem Consistent.initial (version : Int64) {n : Node σ} (hmode : n.config.mvccEnabled = true)
    (hstore : n.state.store.WellFormed) :
    Consistent { coordinator := { version }, node := n } where
  mode := hmode
  store := hstore
  version s hs := by cases hs
  counter s hs := by cases hs
  unique s hs := by cases hs
  unfinished s hs := by cases hs

/-- A snapshot does not see what a transaction may still write unless it is its own. -/
theorem Consistent.sees_eq_false {t : Transactions σ} (h : t.Consistent) {s other : Snapshot}
    (hs : s ∈ t.issued) (hother : other ∈ t.issued) (hactive : other.counter ∈ t.coordinator.active)
    (hne : other ≠ s) : s.sees other.version = false := by
  have hsame : Ord.compare other.version.coordinator s.coordinator = .eq := by
    rw [Std.compare_eq_iff_eq, h.version s hs]
    exact h.version other hother
  have hcounter : other.counter ≠ s.counter := fun heq => hne (h.unique other hother s hs heq)
  unfold Snapshot.sees
  rw [hsame]
  simp only [Snapshot.version, Bool.or_eq_false_iff, Bool.and_eq_false_iff]
  refine ⟨decide_eq_false hcounter, ?_⟩
  by_cases hlt : other.counter < s.counter
  · right
    simpa using h.unfinished s hs other.counter hactive hlt
  · exact .inl (decide_eq_false hlt)

variable [HasTopology σ]

/-- A transaction that starts gets a greater number than those before. -/
theorem Consistent.start {t : Transactions σ} (h : t.Consistent) (hroom : t.Allowed .start) :
    (t.perform .start).Consistent := by
  obtain ⟨hmode, hstore, hversion, hcounter, hunique, hunfinished⟩ := h
  have hnext : t.coordinator.counter < t.coordinator.counter + 1 := by
    rw [Int64.lt_iff_toInt_lt, toInt_add_one hroom]
    omega
  have hbelow : ∀ s ∈ t.issued, s.counter < t.coordinator.counter + 1 :=
    fun s hs => Int64.lt_of_le_of_lt (hcounter s hs) hnext
  have hissued : ∀ s ∈ (t.perform .start).issued,
      s ∈ t.issued ∨ s = t.coordinator.requestSnapshot.1 := by
    intro s hs
    rcases List.mem_append.mp hs with hs | hs
    · exact .inl hs
    · exact .inr (List.mem_singleton.mp hs)
  refine ⟨hmode, hstore, fun s hs => ?_, fun s hs => ?_, fun s hs s' hs' heq => ?_,
    fun s hs other hother hlt => ?_⟩
  · rcases hissued s hs with hs | rfl
    · exact hversion s hs
    · rfl
  · rcases hissued s hs with hs | rfl
    · exact Int64.le_of_lt (hbelow s hs)
    · exact Int64.le_refl _
  · rcases hissued s hs with hs | rfl <;> rcases hissued s' hs' with hs' | rfl
    · exact hunique s hs s' hs' heq
    · exact absurd (heq ▸ hbelow s hs) (Int64.lt_irrefl)
    · exact absurd (heq ▸ hbelow s' hs') (Int64.lt_irrefl)
    · rfl
  · rcases Coordinator.mem_insertActive hother with rfl | hother
    · rcases hissued s hs with hs | rfl
      · exact absurd (Int64.lt_trans hlt (hbelow s hs)) (Int64.lt_irrefl)
      · exact absurd hlt (Int64.lt_irrefl)
    · rcases hissued s hs with hs | rfl
      · exact hunfinished s hs other hother hlt
      · exact hother

/-- Every event that keeps to the rules keeps transactions consistent. -/
theorem Consistent.perform {t : Transactions σ} (h : t.Consistent) {event : Event σ}
    (hallowed : t.Allowed event) : (t.perform event).Consistent := by
  have hnode : ∀ action : NodeAction σ, Consistent { t with node := t.node.perform action } := by
    intro action
    refine ⟨?_, Node.wellFormed_perform h.store action, h.version, h.counter, h.unique,
      h.unfinished⟩
    rw [Node.perform_eq]
    exact h.mode
  cases event with
  | start => exact h.start hallowed
  | finish counter =>
    exact ⟨h.mode, h.store, h.version, h.counter, h.unique, fun s hs other hother =>
      h.unfinished s hs other (List.mem_of_mem_erase hother)⟩
  | request req state => exact hnode (.request req state)
  | release lock => exact hnode (.finish lock)

/-- An event that keeps to the rules changes what a snapshot reads by what its transaction writes,
and in no other way. -/
theorem Consistent.visible_perform {t : Transactions σ} (h : t.Consistent) {s : Snapshot}
    (hs : s ∈ t.issued) {event : Event σ} (hallowed : t.Allowed event) (key : Bytes) :
    (t.perform event).node.state.store.visible key (some s) =
      (lastWrite key (t.writesBy s event)).getD (t.node.state.store.visible key (some s)) := by
  cases event with
  | start => rfl
  | finish counter => rfl
  | release lock =>
    exact Store.visible_congr (t.node.state.store.versions_apply_unlock lock key) (some s)
  | request req state =>
    simp only [Transactions.perform, writesBy]
    rcases t.node.perform_request_writesOf req state with
      ⟨hidle, hwrites⟩ | ⟨ctx, rows, staged, state', hstaged, hmode, hctx, hcommitted, hwrites⟩
    · rw [hidle, hwrites, ite_self]
      rfl
    · rw [h.mode] at hmode
      obtain ⟨other, hother⟩ := Option.isSome_iff_exists.mp hmode
      have hrequest : req.snapshot = some other := hctx ▸ hother
      obtain ⟨hissued, hactive⟩ := hallowed other hrequest
      rw [hcommitted]
      by_cases hown : other = s
      · subst hown
        have hnumbered : ctx.snapshot ≠ none := by simp [hother]
        have hread := (t.node.state.stageRows_readsBack hstaged h.store
          (fun hnone => absurd hnone hnumbered) (fun hnone => absurd hnone hnumbered)).1.visible key
        have hempty : Staged.Holds { batch := { writeSeq := t.node.state.writeSeq } } [] :=
          fun key => rfl
        rw [hother, hempty.stageFrom hstaged key] at hread
        rw [if_pos hrequest, hwrites]
        exact hread
      · have hforeign : req.snapshot ≠ some s :=
          fun heq => hown (Option.some.inj (hrequest.symm.trans heq))
        rw [if_neg hforeign]
        exact visible_foldl_permitted (t.node.state.stageRows_permitted hstaged) hother
          (h.sees_eq_false hs hissued hactive hown) h.store

/-- Whether events keep to the rules depends on the first ones and then on the others. -/
theorem orderly_append {t : Transactions σ} {events later : List (Event σ)} :
    t.Orderly (events ++ later) ↔ t.Orderly events ∧ (t.performAll events).Orderly later := by
  induction events generalizing t with
  | nil => exact ⟨fun h => ⟨trivial, h⟩, fun h => h.2⟩
  | cons event rest ih =>
    rw [List.cons_append, Orderly, Orderly, ih, and_assoc]
    rfl

/-- Events that keep to the rules keep transactions consistent. -/
theorem Consistent.performAll {t : Transactions σ} (h : t.Consistent) {events : List (Event σ)}
    (horderly : t.Orderly events) : (t.performAll events).Consistent := by
  induction events generalizing t with
  | nil => exact h
  | cons event rest ih => exact ih (h.perform horderly.1) horderly.2

/-- A snapshot that has been issued is not taken back. -/
theorem mem_issued_perform {t : Transactions σ} {s : Snapshot} (hs : s ∈ t.issued)
    (event : Event σ) : s ∈ (t.perform event).issued := by
  cases event with
  | start => exact List.mem_append_left _ hs
  | finish counter => exact hs
  | request req state => exact hs
  | release lock => exact hs

/-- A snapshot that has been issued is not taken back by any number of events. -/
theorem mem_issued_performAll {t : Transactions σ} {s : Snapshot} (hs : s ∈ t.issued)
    (events : List (Event σ)) : s ∈ (t.performAll events).issued := by
  induction events generalizing t with
  | nil => exact hs
  | cons event rest ih => exact ih (mem_issued_perform hs event)

/-- After events that keep to the rules a snapshot reads what its transaction has last written, or
else what it read before. -/
theorem Consistent.visible_performAll {t : Transactions σ} (h : t.Consistent) {s : Snapshot}
    (hs : s ∈ t.issued) {events : List (Event σ)} (horderly : t.Orderly events) (key : Bytes) :
    (t.performAll events).node.state.store.visible key (some s) =
      (lastWrite key (allWritesBy s t events)).getD
        (t.node.state.store.visible key (some s)) := by
  induction events generalizing t with
  | nil => rfl
  | cons event rest ih =>
    have hrest := ih (h.perform horderly.1) (mem_issued_perform hs event) horderly.2
    rw [h.visible_perform hs horderly.1] at hrest
    rw [Transactions.performAll, List.foldl_cons, ← Transactions.performAll, hrest, allWritesBy,
      lastWrite_append]
    cases lastWrite key (allWritesBy s (t.perform event) rest) <;> rfl

/-- Snapshot isolation. A node that uses snapshots has been asked anything so far, and from then
on gets requests of transactions that take their snapshots from one coordinator and are not
finished there yet. Let one of them start, and let anything happen that keeps to these rules.
Then its own requests have made some writes, each of them following from its operation, its rows
and what the snapshot of the transaction reads, and of each key this snapshot reads the last of
them, which is nothing if it removed the entry, or what it read when the transaction started if
there is none. Nothing but its own requests ever changes what it reads. -/
theorem get_eq_own_or_at_start {first n : Node σ} {actions : List (NodeAction σ)}
    (hfirst : first.state = {}) (hn : first.performAll actions = n)
    (hmode : n.config.mvccEnabled = true) (version : Int64) {before later : List (Event σ)}
    {t t' t'' : Transactions σ}
    (ht : performAll { coordinator := { version }, node := n } before = t)
    (ht' : t.perform .start = t') (ht'' : t'.performAll later = t'')
    (horderly : Orderly { coordinator := { version }, node := n } (before ++ .start :: later))
    {s : Snapshot} (hs : t.coordinator.requestSnapshot.1 = s) (key : Value) :
    (∃ writes, OwnWrites s t' later writes) ∧
      (∀ writes, OwnWrites s t' later writes →
        t''.node.state.get key (some s) =
          match lastWrite key.encode writes with
          | some value => decodeStored value
          | none => t'.node.state.get key (some s)) ∧
      ∀ event, t''.Allowed event →
        (∀ req state, event = .request req state → req.snapshot ≠ some s) →
        (t''.perform event).node.state.get key (some s) = t''.node.state.get key (some s) := by
  have hstore : n.state.store.WellFormed := hn ▸ Node.wellFormed_performAll hfirst actions
  obtain ⟨hbefore, hstart, hlater⟩ := orderly_append.mp horderly
  rw [ht] at hstart hlater
  rw [ht'] at hlater
  have hconsistent : t.Consistent :=
    ht ▸ (Consistent.initial version hmode hstore).performAll hbefore
  have hconsistent' : t'.Consistent := ht' ▸ hconsistent.perform hstart
  have hconsistent'' : t''.Consistent := ht'' ▸ hconsistent'.performAll hlater
  have hissued : s ∈ t'.issued := by
    rw [← ht', ← hs]
    exact List.mem_append_right _ (List.mem_singleton_self _)
  have hissued' : s ∈ t''.issued := ht'' ▸ mem_issued_performAll hissued later
  refine ⟨⟨_, ownWrites_iff.mpr rfl⟩, fun writes hwrites => ?_, fun event hallowed hforeign => ?_⟩
  · obtain rfl := ownWrites_iff.mp hwrites
    have hread := hconsistent'.visible_performAll hissued hlater key.encode
    rw [ht''] at hread
    rw [NodeState.get, hread]
    cases lastWrite key.encode (allWritesBy s t' later) <;> rfl
  · have hread := hconsistent''.visible_perform hissued' hallowed key.encode
    rw [writesBy_eq_nil hforeign] at hread
    rw [NodeState.get, hread]
    rfl

/-- A transaction overwrites one key and removes another one that an earlier transaction has
written before. It reads its own write and no value of the key that it removed, and it does not see
what a transaction that started before it writes and finishes afterwards, although this is the
newest value. -/
theorem get_beside_late_write :
    let view := TopologyView.ofNodes [1] 1
    let n : Node TopologyView :=
      { id := 1, config := { mvccEnabled := true }, loader := .ofRegistrations [] [] []
        context := .ofCache 1 1 }
    let request (s : Snapshot) (lock : LockVersion) (op : Operation)
        (rows : WireRows TopologyView) : Event TopologyView :=
      .request
        { base := { cacheId := 1 }, topology := ⟨1, 0⟩, lock, snapshot := some s
          op := some op, wire := some rows }
        view
    let key (value : Value) : KeyObject := .ofKey n.context value
    let object (value : Value) : ValueObject := (ValueObject.ofValue value).marshal
    let first : Snapshot := ⟨1, 1, 0, 0, []⟩
    let early : Snapshot := ⟨1, 2, 0, 1, []⟩
    let late : Snapshot := ⟨1, 3, 0, 1, [2]⟩
    let before : List (Event TopologyView) := [
      .start, request first ⟨1, 1, 1⟩ .upsert (.entries [key (.int 5), key (.int 7)]
        [object (.int 1), object (.int 8)]),
      .finish 1, .release ⟨1, 1, 1⟩, .start]
    let later : List (Event TopologyView) := [
      request early ⟨1, 2, 1⟩ .upsert (.entries [key (.int 3)] [object (.int 4)]),
      request late ⟨1, 3, 1⟩ .upsert (.entries [key (.int 5)] [object (.int 6)]),
      request late ⟨1, 3, 1⟩ .delete (.keysOnly [key (.int 7)]),
      .finish 2, .release ⟨1, 2, 1⟩]
    let t : Transactions TopologyView :=
      performAll { coordinator := { version := 1 }, node := n } before
    let t' := t.perform .start
    let t'' := t'.performAll later
    t''.node.state.get (.int 3) (some late) = t'.node.state.get (.int 3) (some late) ∧
      (t''.node.state.get (.int 3) none).toOption = some (some (.int 4)) ∧
      t''.node.state.get (.int 5) (some late) = decodeStored (some (Value.int 6).encode) ∧
      (t'.node.state.get (.int 7) (some late)).toOption = some (some (.int 8)) ∧
      t''.node.state.get (.int 7) (some late) = .ok none := by
  intro view n request key object first early late before later t t' t''
  have hn : n.performAll [] = n := rfl
  have ht : performAll { coordinator := { version := 1 }, node := n } before = t := rfl
  have ht' : t.perform .start = t' := rfl
  have ht'' : t'.performAll later = t'' := rfl
  have hs : t.coordinator.requestSnapshot.1 = late := by decide +kernel
  have horderly : Orderly { coordinator := { version := 1 }, node := n }
      (before ++ .start :: later) := by
    decide +kernel
  have hwrites : allWritesBy late t' later =
      [⟨(Value.int 5).encode, some (Value.int 6).encode⟩, ⟨(Value.int 7).encode, none⟩] := by
    decide +kernel
  have hown := ownWrites_iff.mpr hwrites.symm
  have hnewest : (t''.node.state.get (.int 3) none).toOption = some (some (.int 4)) := by
    decide +kernel
  have hremoved : (t'.node.state.get (.int 7) (some late)).toOption = some (some (.int 8)) := by
    decide +kernel
  have hread := fun key =>
    (get_eq_own_or_at_start rfl hn rfl 1 ht ht' ht'' horderly hs key).2.1 _ hown
  exact ⟨hread (.int 3), hnewest, hread (.int 5), hremoved, hread (.int 7)⟩

end Transactions

end Enlistment
