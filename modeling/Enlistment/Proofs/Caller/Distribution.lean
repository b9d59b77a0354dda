import Enlistment.Proofs.Caller.ExactlyOnce
import Enlistment.Proofs.Caller.Mirroring
import Enlistment.Proofs.Caller.SteadyRuns

/-!
# Distribution

The nodes of a cluster share a cache between them as their topology says. Who uses the cache cannot
tell how: a cluster with a single node that is asked for the same things gives the same results, and
each key looks at its node as it does at the single one.
-/

namespace Enlistment

open HasTopology (topology)

variable {σ : Type}

/-! ## Clusters -/

/-- The nodes of a cache, with what they share. -/
structure Cluster (σ : Type) where
  nodes : List (Node σ)
  state : σ

/-- What a client asks of a cluster. -/
inductive Command (σ : Type) where
  | enlist (tx : Transaction) (op : Operation) (rows : List Row) (options : EnlistOptions σ)
  /-- A transaction is over, so its locks are released. -/
  | finish (lock : LockVersion)

namespace Command

/-- The number of rows that a command puts into stores without a snapshot. -/
def plainRows : Command σ → Nat
  | enlist tx _ rows _ => if tx.snapshot.isNone then rows.length else 0
  | finish _ => 0

/-- The filter of a command is one that a client can build. -/
def Built : Command σ → Prop
  | enlist _ _ _ options => ∀ f, options.filter = some f → (Message.filter f).Built
  | finish _ => True

end Command

namespace Cluster

/-- The cluster after the locks of a transaction were released on all nodes. -/
def finish (c : Cluster σ) (lock : LockVersion) : Cluster σ :=
  { c with nodes := c.nodes.map fun n => (n.finishTransaction lock).2 }

variable [HasTopology σ]

/-- An enlistment in a cluster that succeeds with a result, while the topology stays as it is. The
call is made by any enlister that knows the partitions, and takes any course in the network. -/
def Enlists (c : Cluster σ) (tx : Transaction) (op : Operation) (rows : List Row)
    (options : EnlistOptions σ) (result : EnlistResult) (c' : Cluster σ) : Prop :=
  ∃ (e : Enlister σ) (before : List RegistryAction) (future : FutureId) (now : Nat)
    (moves : List (Move σ)) (s : Network σ),
    e.registry = before.foldl Registry.perform {} ∧
    e.context.partitions = (topology c.state).partitions ∧
    (∀ m ∈ moves, m.Steady (topology c.state)) ∧
    (Network.start e c.nodes c.state future tx op rows options now).run moves = s ∧
    s.call.phase = .ended (.ok result) ∧ c' = ⟨s.nodes, s.state⟩

/-- A cluster carries out commands one after the other. All enlistments succeed, with some
results. -/
inductive Run : Cluster σ → List (Command σ) → List EnlistResult → Cluster σ → Prop
  | nil (c : Cluster σ) : Run c [] [] c
  | enlist {c c' c'' : Cluster σ} {tx : Transaction} {op : Operation} {rows : List Row}
      {options : EnlistOptions σ} {result : EnlistResult} {rest : List (Command σ)}
      {results : List EnlistResult} (h : c.Enlists tx op rows options result c')
      (hrest : Run c' rest results c'') :
      Run c (.enlist tx op rows options :: rest) (result :: results) c''
  | finish {c c' : Cluster σ} {lock : LockVersion} {rest : List (Command σ)}
      {results : List EnlistResult} (hrest : Run (c.finish lock) rest results c') :
      Run c (.finish lock :: rest) results c'

/-- An enlistment that succeeds is carried out in shares. -/
theorem Enlists.shared {library : ClassLoader σ} (hlibrary : library.IsPure) {c c' : Cluster σ}
    {tx : Transaction} {op : Operation} {rows : List Row} {options : EnlistOptions σ}
    {result : EnlistResult} (h : c.Enlists tx op rows options result c')
    (hids : (c.nodes.map Node.id).Nodup) (hloader : ∀ n ∈ c.nodes, n.loader.LoadsFrom library)
    (hfilter : ∀ f, options.filter = some f → (Message.filter f).Built) :
    ∃ (e : Enlister σ) (future : FutureId) (now : Nat) (s : Network σ) (shares : List (Share σ)),
      e.context.partitions = (topology c.state).partitions ∧
      (Network.start e c.nodes c.state future tx op rows options now).Shared library s shares ∧
      result = ((Call.start future tx op rows options now).merged shares).sortFailures ∧
      c' = ⟨s.nodes, s.state⟩ := by
  obtain ⟨e, before, future, now, moves, s, he, hpartitions, hsteady, rfl, hended, rfl⟩ := h
  have hinitial : (Network.start e c.nodes c.state future tx op rows options now).Initial
      library := ⟨hlibrary, hloader, hids, hfilter, rfl, rfl, rfl⟩
  have hsound : e.registry.Sound := he ▸ Registry.sound_foldl_perform before
  obtain ⟨shares, hshared, hresult⟩ := Network.run_shared hinitial
    (Network.accounted_start hsound c.nodes c.state future tx op rows options now)
    (inOrder_mapIdx rows) hsteady hended
  exact ⟨e, future, now, _, shares, hpartitions, hshared, hresult, rfl⟩

/-! ## One node and many -/

/-- Each node of a cluster mirrors the only node of another one. -/
structure Mirrored (library : ClassLoader σ) (count : Nat) (many one : Cluster σ) (m : Node σ) :
    Prop where
  only : one.nodes = [m]
  ids : (many.nodes.map Node.id).Nodup
  loader : ∀ n ∈ m :: many.nodes, n.loader.LoadsFrom library
  mirrors : ∀ n ∈ many.nodes, m.Mirrors (topology many.state) count n

namespace Mirrored

variable {library : ClassLoader σ} {count : Nat} {many one many' one' : Cluster σ} {m : Node σ}

/-- Releasing the locks of a transaction on all nodes keeps the nodes mirroring the single one. -/
theorem finish (h : Mirrored library count many one m) (lock : LockVersion) :
    Mirrored library count (many.finish lock) (one.finish lock) (m.finishTransaction lock).2 := by
  refine ⟨?_, ?_, ?_, ?_⟩
  · simp only [Cluster.finish, h.only, List.map_cons, List.map_nil]
  · simp only [Cluster.finish, List.map_map]
    exact h.ids
  · intro n hn
    rcases List.mem_cons.mp hn with rfl | hn
    · exact h.loader m (List.mem_cons_self ..)
    · obtain ⟨n', hn', rfl⟩ := List.mem_map.mp hn
      exact h.loader n' (List.mem_cons_of_mem _ hn')
  · intro n hn
    obtain ⟨n', hn', rfl⟩ := List.mem_map.mp hn
    obtain ⟨hagree, hwhole, howned⟩ := h.mirrors n' hn'
    exact ⟨hagree.releaseLocks hwhole.store howned.store lock, hwhole.releaseLocks lock,
      howned.releaseLocks lock⟩

/-- An enlistment that succeeds in both clusters has results that agree, and keeps the nodes mirroring
the single one. -/
theorem enlist (h : Mirrored library count many one m) (hlibrary : library.IsPure)
    {tx : Transaction} {op : Operation} {rows : List Row} {options : EnlistOptions σ}
    (hfilter : ∀ f, options.filter = some f → (Message.filter f).Built)
    (hroom : count + (Command.enlist tx op rows options).plainRows < 2 ^ 63)
    {result result' : EnlistResult} (hmany : many.Enlists tx op rows options result many')
    (hone : one.Enlists tx op rows options result' one') :
    result.Agrees result' ∧ ∃ m', m'.config = m.config ∧
      Mirrored library (count + (Command.enlist tx op rows options).plainRows) many' one' m' := by
  obtain ⟨hm, hnodes⟩ := List.forall_mem_cons.mp h.loader
  obtain ⟨e, future, now, s, shares, hpartitions, hshared, rfl, rfl⟩ :=
    hmany.shared hlibrary h.ids hnodes hfilter
  obtain ⟨e', future', now', t, shares', -, hshared', rfl, rfl⟩ := hone.shared hlibrary
    (by rw [h.only]; exact List.nodup_singleton _)
    (by rw [h.only]; exact List.forall_mem_singleton.mpr hm) hfilter
  have hplain : (Command.enlist tx op rows options).plainRows =
      (Call.start future tx op rows options now).plainRows := by
    simp only [Command.plainRows, Call.plainRows, Call.start, List.length_mapIdx]
  rw [hplain] at hroom ⊢
  have horder : InOrder (Call.start future tx op rows options now).outstanding :=
    inOrder_mapIdx rows
  have hloader : ∀ n' ∈ s.nodes, n'.loader.LoadsFrom library := by
    intro n' hn'
    obtain ⟨n, hn, hcommits⟩ := exists_mem_of_forall₂ hshared.nodes hn'
    rw [hcommits.eq_with_state]
    exact hnodes n hn
  have hstate : s.state = many.state := hshared.state
  rcases hshared'.on_one h.only with ⟨hnil, rfl, hsame⟩ | ⟨staged, rfl, hstages, hcommit⟩
  · -- without rows nothing happens in either cluster
    obtain ⟨rfl, hsame'⟩ := hshared.of_nil hnil
    refine ⟨⟨rfl, rfl, rfl⟩, m, rfl, hsame, ?_, List.forall_mem_cons.mpr ⟨hm, hloader⟩, ?_⟩
    · exact hshared.ids_eq ▸ h.ids
    · have hnone : (Call.start future tx op rows options now).plainRows = 0 := by
        unfold Call.plainRows
        rw [show (Call.start future tx op rows options now).outstanding = [] from hnil]
        exact ite_self 0
      show ∀ n' ∈ s.nodes, Node.Mirrors (topology s.state) _ _ n'
      rw [hstate, hsame', hnone]
      exact h.mirrors
  · -- the two calls differ in their numbers and their times only
    have hstages' : m.Stages library (Call.start future tx op rows options now)
        (Call.start future tx op rows options now).outstanding one.state staged :=
      ⟨hstages.received, hstages.mode, hstages.length_le⟩
    obtain ⟨effect, hcarries⟩ := hstages'.carries horder
    refine ⟨hshared.merged_agrees hlibrary hpartitions horder hroom h.mirrors hcarries,
      { m with state := m.state.commit staged.batch }, rfl, hcommit, ?_,
      List.forall_mem_cons.mpr ⟨hm, hloader⟩, ?_⟩
    · exact hshared.ids_eq ▸ h.ids
    · show ∀ n' ∈ s.nodes, Node.Mirrors (topology s.state) _ _ n'
      rw [hstate]
      exact hshared.mirrors_commit hlibrary hpartitions hroom h.mirrors hcarries

/-- Whatever both clusters are asked for, their results agree and the nodes go on mirroring the single
one. The induction is on the commands. -/
theorem run (h : Mirrored library count many one m) (hlibrary : library.IsPure)
    {commands : List (Command σ)} (hbuilt : ∀ command ∈ commands, command.Built)
    (hroom : count + (commands.map Command.plainRows).sum < 2 ^ 63)
    {results results' : List EnlistResult} (hmany : many.Run commands results many')
    (hone : one.Run commands results' one') :
    List.Forall₂ EnlistResult.Agrees results results' ∧ ∃ m', m'.config = m.config ∧
      Mirrored library (count + (commands.map Command.plainRows).sum) many' one' m' := by
  induction hmany generalizing one m count results' with
  | nil c =>
    cases hone
    exact ⟨.nil, m, rfl, h⟩
  | enlist hfirst _ ih =>
    cases hone with
    | enlist hfirst' hrest' =>
      obtain ⟨hcommand, hrest⟩ := List.forall_mem_cons.mp hbuilt
      rw [List.map_cons, List.sum_cons, ← Nat.add_assoc] at hroom ⊢
      obtain ⟨hagrees, m', hconfig, hnext⟩ :=
        h.enlist hlibrary hcommand (by omega) hfirst hfirst'
      obtain ⟨hall, m'', hconfig', hend⟩ := ih hnext hrest hroom hrest'
      exact ⟨.cons hagrees hall, m'', hconfig'.trans hconfig, hend⟩
  | @finish c c' lock rest results hrest ih =>
    cases hone with
    | finish hrest' =>
      rw [List.map_cons, List.sum_cons, ← Nat.add_assoc] at hroom ⊢
      obtain ⟨hall, m', hconfig, hend⟩ :=
        ih (h.finish lock) (List.forall_mem_cons.mp hbuilt).2 hroom hrest'
      exact ⟨hall, m', hconfig, hend⟩

end Mirrored

/-- Distribution is invisible. Take a cluster with any nodes that share the partitions in any way, and
one with a single node. All nodes start without rows, and the user code that they load has no side
effects. Both clusters are given the same commands on topologies that stay as they are, and all
enlistments succeed in both. Then the results agree: the previous values slot by slot, the number of
updates and the positions of the rows that have failed. In the end each key looks at the node that
owns it as it does at the single node: it has the same lock and the same newest value, and if the
cache keeps versions for snapshots then every snapshot sees the same value.

Without snapshots the writes are numbered in 64 bits, which the rows must not use up. -/
theorem run_agrees_with_single {library : ClassLoader σ} (hlibrary : library.IsPure)
    {nodes : List (Node σ)} {only : Node σ} {state state' : σ}
    (hids : (nodes.map Node.id).Nodup) (hempty : ∀ n ∈ only :: nodes, n.state = {})
    (hloader : ∀ n ∈ only :: nodes, n.loader.LoadsFrom library) {commands : List (Command σ)}
    (hbuilt : ∀ command ∈ commands, command.Built)
    (hroom : (commands.map Command.plainRows).sum < 2 ^ 63) {results results' : List EnlistResult}
    {many one : Cluster σ} (hmany : Run ⟨nodes, state⟩ commands results many)
    (hone : Run ⟨[only], state'⟩ commands results' one) :
    List.Forall₂ EnlistResult.Agrees results results' ∧
      ∃ m, one.nodes = [m] ∧ m.config = only.config ∧
        ∀ (key : Value) (n : Node σ), n ∈ many.nodes →
          (topology many.state).ownerOfKey key.encode = some n.id →
          n.state.store.lockOwner key.encode = m.state.store.lockOwner key.encode ∧
          n.state.get key none = m.state.get key none ∧
          (only.config.mvccEnabled = true → ∀ snapshot,
            n.state.get key (some snapshot) = m.state.get key (some snapshot)) := by
  obtain ⟨honly, hnodes⟩ := List.forall_mem_cons.mp hempty
  have hstart : Mirrored library 0 ⟨nodes, state⟩ ⟨[only], state'⟩ only := by
    refine ⟨rfl, hids, hloader, fun n hn => ⟨fun key _ => ?_, ?_, ?_⟩⟩
    · rw [honly, hnodes n hn]
      exact ⟨rfl, rfl, fun _ => rfl⟩
    · rw [honly]
      exact .empty _ _
    · rw [hnodes n hn]
      exact .empty _ _
  obtain ⟨hagrees, m, hconfig, hend⟩ := hstart.run hlibrary hbuilt (by omega) hmany hone
  refine ⟨hagrees, m, hend.only, hconfig, fun key n hn howner => ?_⟩
  have hkey := (hend.mirrors n hn).agree key.encode (beq_iff_eq.mpr howner)
  refine ⟨hkey.lockOwner, ?_, fun hmvcc snapshot => ?_⟩
  · rw [NodeState.get, NodeState.get, hkey.newest]
  · rw [NodeState.get, NodeState.get, Store.visible_congr (hkey.versions (hconfig ▸ hmvcc))]

/-- A processor that gives an entry its first value, and fails if there is one. -/
def reserve : EntryProcessor TopologyView where
  process view entry args :=
    match entry.value, args with
    | none, [value] => ⟨.ok none, entry.setValue value, view⟩
    | _, _ => ⟨.error ["occupied"], entry, view⟩

/-- Reserving neither reads nor changes the state. -/
theorem reserve_isPure : reserve.IsPure := by
  refine ⟨fun entry args => match entry.value, args with
    | none, [value] => (.ok none, entry.setValue value)
    | _, _ => (.error ["occupied"], entry), fun view entry args => ?_⟩
  simp only [reserve]
  split <;> rfl

/-- The loader of this processor. -/
def reserveLoader : ClassLoader TopologyView := .ofRegistrations [] [("Reserve", reserve)] []

/-- The user code of this loader is pure. -/
theorem reserveLoader_isPure : reserveLoader.IsPure := by
  refine ClassLoader.isPure_ofRegistrations (fun entry hentry => ?_) (List.forall_mem_nil _)
  rw [List.mem_singleton.mp hentry]
  exact reserve_isPure

/-- A node that knows the processor. -/
def reserveNode (id : NodeId) : Node TopologyView :=
  { id, config := {}, loader := reserveLoader, context := .ofCache 1 2 }

/-- Three rows of two keys, each with a value to reserve for its key. -/
def reserveRows : List Row :=
  [(2, 10), (0, 11), (2, 12)].map fun (key, value) =>
    .invoke (.int key) { processor := "Reserve", args := [.int value] }

/-- A course of a call with one part for each of some nodes, on which all goes well. -/
def smoothMoves (ids : List NodeId) : List (Move TopologyView) :=
  let view := TopologyView.ofNodes ids 2
  let parts := List.range ids.length
  .event 0 (.map view.readings) :: parts.map (fun part => .event 0 (.send part)) ++
    parts.map (fun part => .arrive part part) ++ parts.map (fun part => .answer 5 part) ++
    parts.map (fun part => .event 5 (.collect part)) ++ [.event 5 .close, .event 5 (.map view.readings)]

/-- The rows are enlisted in a cluster of some nodes. -/
def reserving (ids : List NodeId) : Network TopologyView :=
  (Network.start { id := 3, config := {}, loader := reserveLoader, context := .ofCache 1 2 }
    (ids.map reserveNode) (.ofNodes ids 2) ⟨7⟩ { lock := ⟨1, 1, 1⟩ } .invoke reserveRows
    { needResult := true } 0).run (smoothMoves ids)

/-- If the rows are reserved then the cluster has carried out one enlistment. -/
theorem run_reserving {ids : List NodeId} {result : EnlistResult}
    (h : (reserving ids).call.phase = .ended (.ok result)) :
    Run ⟨ids.map reserveNode, TopologyView.ofNodes ids 2⟩
      [.enlist { lock := ⟨1, 1, 1⟩ } .invoke reserveRows { needResult := true }] [result]
      ⟨(reserving ids).nodes, (reserving ids).state⟩ := by
  refine .enlist ⟨_, [], ⟨7⟩, 0, smoothMoves ids, _, rfl, rfl, ?_, rfl, h, rfl⟩ (.nil _)
  have hparts : ∀ f : Nat → Move TopologyView, (∀ part, (f part).Steady (.ofNodes ids 2)) →
      ∀ m ∈ (List.range ids.length).map f, m.Steady (.ofNodes ids 2) := by
    intro f hf m hm
    obtain ⟨part, -, rfl⟩ := List.mem_map.mp hm
    exact hf part
  simp only [smoothMoves, List.cons_append, List.forall_mem_cons, List.forall_mem_append]
  exact ⟨rfl, ⟨⟨⟨hparts _ fun _ => trivial, hparts _ fun _ => trivial⟩,
    hparts _ fun _ => trivial⟩, hparts _ fun _ => trivial⟩, trivial, rfl, List.forall_mem_nil _⟩

/-- Three rows of two keys are reserved in a cluster with two nodes, which own one key each, and in
one with a single node. The third row fails in both. -/
theorem run_agrees_with_single_for_three_rows :
    ∃ result result', (reserving [1, 2]).call.phase = .ended (.ok result) ∧
      (reserving [1]).call.phase = .ended (.ok result') ∧
      result.failures.map RowFailure.index = [2] ∧ result.Agrees result' := by
  have heval : (reserving [1, 2]).call.phase.result?.map
        (fun result => result.failures.map RowFailure.index) = some [2] ∧
      (reserving [1]).call.phase.result?.isSome = true := by decide +kernel
  obtain ⟨result, hmany, hfailed⟩ := Option.map_eq_some_iff.mp heval.1
  obtain ⟨result', hone⟩ := Option.isSome_iff_exists.mp heval.2
  rw [Phase.result?_eq_some_iff] at hmany hone
  refine ⟨result, result', hmany, hone, hfailed, ?_⟩
  have hnodes : ∀ n ∈ reserveNode 1 :: [1, 2].map reserveNode,
      n.state = {} ∧ n.loader.LoadsFrom reserveLoader := by
    have hself : reserveLoader.LoadsFrom reserveLoader := ⟨fun _ _ h => h, fun _ _ h => h⟩
    simp [reserveNode, hself]
  have hbuilt : ∀ command ∈ [Command.enlist { lock := ⟨1, 1, 1⟩ } .invoke reserveRows
      ({ needResult := true } : EnlistOptions TopologyView)], command.Built := by
    simp [Command.Built]
  have hagrees := (run_agrees_with_single reserveLoader_isPure (by decide)
    (fun n hn => (hnodes n hn).1) (fun n hn => (hnodes n hn).2) hbuilt (by decide)
    (run_reserving hmany) (run_reserving hone)).1
  exact (List.forall₂_cons.mp hagrees).1

end Cluster

end Enlistment
