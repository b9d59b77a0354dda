import Enlistment.Proofs.Caller.Merging
import Enlistment.Proofs.Caller.Shares

/-!
# Mirroring a single node

The same call runs in two networks, one with any nodes and one with a single node. The single node
carries out all rows of the call in one batch, and each of the others those that it owns. If each of
these agrees with the single node on the keys that it owns, then the rows have the same effects, the
results agree, and the nodes still agree on their keys afterwards.
-/

namespace Enlistment

open HasTopology (topology)

variable {σ : Type}

/-! ## Owners of keys -/

/-- The node that owns a key. -/
def TopologyView.ownerOfKey (view : TopologyView) (key : Bytes) : Option NodeId :=
  view.primary (key.checksum % view.partitions).toInt32

/-- Whether a node owns a key. -/
def TopologyView.ownsKey (view : TopologyView) (node : NodeId) (key : Bytes) : Bool :=
  view.ownerOfKey key == some node

/-- A caller that knows the number of partitions knows who owns the key of a row. -/
theorem MarshalContext.ownedBy_eq {ctx : MarshalContext} {view : TopologyView}
    (h : ctx.partitions = view.partitions) (node : NodeId) :
    ctx.ownedBy view node = fun row => view.ownsKey node row.2.keyValue.encode := by
  funext row
  simp only [ownedBy, partitionOfValue, partitionOf, h, TopologyView.ownsKey,
    TopologyView.ownerOfKey]

/-! ## Rows of one node -/

section

variable {library : ClassLoader σ} {own : Bytes → Bool} {rows : List IndexedRow}

/-- The rows of some keys are received as they are among all rows. -/
theorem received_filter {received : List (EnlistedRow σ)}
    (h : List.Forall₂ (fun row r => row.2.received library = .ok r) rows received) :
    List.Forall₂ (fun row r => row.2.received library = .ok r)
      (rows.filter fun row => own row.2.keyValue.encode)
      (received.filter fun r => own r.keyBytes) := by
  refine List.rel_filter (fun row r hrow => ?_) h
  show own row.2.keyValue.encode = true ↔ own r.keyBytes = true
  rw [Row.received_keyBytes hrow]

/-- The effects of the rows of some keys among all rows. -/
theorem effects_filter {received : List (EnlistedRow σ)}
    (h : List.Forall₂ (fun row r => row.2.received library = .ok r) rows received)
    (effect : IndexedRow → RowEffect) :
    ((received.zip (rows.map effect)).filter fun p => own p.1.keyBytes).map Prod.snd =
      (rows.filter fun row => own row.2.keyValue.encode).map effect := by
  induction h with
  | nil => rfl
  | @cons row r rest others hrow _ ih =>
    rw [List.map_cons, List.zip_cons_cons, List.filter_cons, List.filter_cons,
      Row.received_keyBytes hrow]
    split
    · rw [List.map_cons, List.map_cons, ih]
    · exact ih

/-- A node that stages the rows that it owns does with them what another one does that stages all
rows, if the two agree on its keys. -/
theorem NodeState.AgreeOn.stage {mvcc : Bool} {count : Nat} {a b : NodeState}
    (h : a.AgreeOn own mvcc b) (ha : a.Ordered mvcc count) (hb : b.Ordered mvcc count)
    (hlibrary : library.IsPure) {ctx : ApplyContext σ} (hctx : ctx.IsPure)
    (hmode : ctx.snapshot.isSome = mvcc) (hroom : mvcc = false → count + rows.length < 2 ^ 63)
    {all owned : List (EnlistedRow σ)}
    (hall : List.Forall₂ (fun row r => row.2.received library = .ok r) rows all)
    (howned : List.Forall₂ (fun row r => row.2.received library = .ok r)
      (rows.filter fun row => own row.2.keyValue.encode) owned)
    {s t : Staged} {state₁ state₁' state₂ state₂' : σ}
    (hs : a.stageRows ctx all state₁ = (.ok s, state₁'))
    (ht : b.stageRows ctx owned state₂ = (.ok t, state₂')) {effect : IndexedRow → RowEffect}
    (heffect : rows.map effect =
      effectsFrom a.store ctx 0 all { batch := { writeSeq := a.writeSeq } } state₁) :
    List.Forall₂ (fun row e => (effect row).Agrees e)
        (rows.filter fun row => own row.2.keyValue.encode)
        (effectsFrom b.store ctx 0 owned { batch := { writeSeq := b.writeSeq } } state₂) ∧
      (a.commit s.batch).AgreeOn own mvcc (b.commit t.batch) := by
  have hlength : all.length = rows.length := hall.length_eq.symm
  have hunique : Relator.RightUnique fun (row : IndexedRow) (r : EnlistedRow σ) =>
      row.2.received library = .ok r := fun row r r' hr hr' => Except.ok.inj (hr.symm.trans hr')
  obtain rfl : owned = all.filter fun r => own r.keyBytes :=
    List.right_unique_forall₂' hunique howned (received_filter hall)
  have hpure : ∀ r ∈ all, r.IsPure :=
    Row.forall_received_isPure hlibrary (List.forall₂_map_left_iff.mpr hall)
  obtain ⟨heffects, hagree⟩ := h.commit ha hb hctx hmode hpure (hlength ▸ hroom) hs ht
  refine ⟨?_, hagree⟩
  rw [← heffect, effects_filter hall] at heffects
  exact List.forall₂_map_left_iff.mp heffects

end

/-! ## Calls -/

/-- The code of the rows of a call and of its filter is that of the library. -/
theorem Call.rowContext_isPure {library : ClassLoader σ} (hlibrary : library.IsPure) (c : Call σ) :
    (c.rowContext library).IsPure := by
  intro f hf
  obtain ⟨f', -, rfl⟩ := Option.map_eq_some_iff.mp hf
  exact f'.received_isPure hlibrary

/-- Shares that are put together add their rows. -/
theorem Call.collects_merged {c : Call σ} {effect : IndexedRow → RowEffect}
    {shares : List (Share σ)}
    (h : ∀ x ∈ shares, ∀ result, EnlistResult.Collects c.options.needResult effect x.rows result
      (result.mergePart x.rows (x.staged.outcome.relayed c.options.needResult))) :
    EnlistResult.Collects c.options.needResult effect (shares.flatMap Share.rows) c.result
      (c.merged shares) := by
  unfold Call.merged
  generalize c.result = result
  induction shares generalizing result with
  | nil => exact .refl ..
  | cons x rest ih =>
    obtain ⟨hfirst, hrest⟩ := List.forall_mem_cons.mp h
    exact (hfirst result).append (ih hrest _)

/-- The effects of rows that are numbered in order, by their number. -/
theorem map_getD_of_inOrder {rows : List IndexedRow} (horder : InOrder rows)
    {effects : List RowEffect} (hlength : effects.length = rows.length) :
    (rows.map fun row => effects.getD row.1 {}) = effects := by
  have hmap : (rows.map fun row => effects.getD row.1 {}) =
      (rows.map Prod.fst).map fun index => effects.getD index {} := by
    rw [List.map_map]
    rfl
  rw [hmap, horder, ← hlength]
  refine List.ext_getElem (by simp) fun i hi hi' => ?_
  simp [hi']

/-- The number of rows that a call puts into stores without a snapshot. -/
def Call.plainRows (c : Call σ) : Nat := if c.tx.snapshot.isNone then c.outstanding.length else 0

/-- A node of a cluster agrees with the only node of another cluster on the keys that it owns, and
neither has been asked for more than a number of rows without snapshots. -/
structure Node.Mirrors (view : TopologyView) (count : Nat) (m n : Node σ) : Prop where
  agree : m.state.AgreeOn (view.ownsKey n.id) m.config.mvccEnabled n.state
  whole : m.state.Ordered m.config.mvccEnabled count
  owned : n.state.Ordered m.config.mvccEnabled count

/-- A node stages all rows of a call, which have some effects. -/
structure Node.Carries (library : ClassLoader σ) (c : Call σ) (state : σ) (staged : Staged)
    (effect : IndexedRow → RowEffect) (m : Node σ) : Prop where
  received : ∃ received : List (EnlistedRow σ),
    List.Forall₂ (fun row r => row.2.received library = .ok r) c.outstanding received ∧
      m.state.stageRows (c.rowContext library) received state = (.ok staged, state) ∧
      c.outstanding.map effect = effectsFrom m.state.store (c.rowContext library) 0 received
        { batch := { writeSeq := m.state.writeSeq } } state
  mode : c.tx.snapshot.isSome = m.config.mvccEnabled
  length_le : c.outstanding.length ≤ Wire.maxWireLength

section

variable {library : ClassLoader σ} {c : Call σ} {m n : Node σ} {state state' : σ}
  {staged staged' : Staged} {effect : IndexedRow → RowEffect} {view : TopologyView} {count : Nat}

/-- The rows that a node stages for a call have effects, which can be told by the numbers of the
rows. -/
theorem Node.Stages.carries (h : m.Stages library c c.outstanding state staged)
    (horder : InOrder c.outstanding) : ∃ effect, m.Carries library c state staged effect := by
  obtain ⟨⟨received, hreceived, hs⟩, hmode, hlength⟩ := h
  obtain ⟨hcount, -⟩ := stageFrom_tells hs
  exact ⟨_, ⟨received, hreceived, hs,
    map_getD_of_inOrder horder (hcount.trans hreceived.length_eq.symm)⟩, hmode, hlength⟩

namespace Node.Carries

/-- Merging the rows of a node that has carried out all of them adds them to the result. -/
theorem collects (h : m.Carries library c state staged effect) (result : EnlistResult) :
    EnlistResult.Collects c.options.needResult effect c.outstanding result
      (result.mergePart c.outstanding (staged.outcome.relayed c.options.needResult)) := by
  obtain ⟨⟨received, -, hs, heffect⟩, -, hlength⟩ := h
  refine EnlistResult.collects_mergePart rfl hlength (stageFrom_tells hs).2 ?_ result
  rw [← heffect]
  exact List.forall₂_map_right_iff.mpr (List.forall₂_same.mpr fun row _ => .refl _)

/-- A call on a node without snapshots has none, either. -/
theorem plainRows_eq (h : m.Carries library c state staged effect)
    (hmode : m.config.mvccEnabled = false) : c.plainRows = c.outstanding.length := by
  have hsnapshot := h.mode.trans hmode
  simp [Call.plainRows, Option.isSome_eq_false_iff.mp hsnapshot]

/-- A node that stages the rows that it owns gives them the effects that they have on the single
node, and goes on mirroring it. -/
theorem mirrors (h : m.Carries library c state staged effect) (hlibrary : library.IsPure)
    (hmirrors : m.Mirrors view count n) (hroom : count + c.plainRows < 2 ^ 63)
    {owned : List (EnlistedRow σ)}
    (howned : List.Forall₂ (fun row r => row.2.received library = .ok r)
      (c.outstanding.filter fun row => view.ownsKey n.id row.2.keyValue.encode) owned)
    (ht : n.state.stageRows (c.rowContext library) owned state' = (.ok staged', state')) :
    List.Forall₂ (fun row e => (effect row).Agrees e)
        (c.outstanding.filter fun row => view.ownsKey n.id row.2.keyValue.encode)
        (effectsFrom n.state.store (c.rowContext library) 0 owned
          { batch := { writeSeq := n.state.writeSeq } } state') ∧
      ({ m with state := m.state.commit staged.batch } : Node σ).Mirrors view
        (count + c.plainRows) { n with state := n.state.commit staged'.batch } := by
  obtain ⟨all, hall, hs, heffect⟩ := h.received
  obtain ⟨hagree, hwhole, hown⟩ := hmirrors
  have hmode : (c.rowContext library).snapshot.isSome = m.config.mvccEnabled := h.mode
  -- a call on nodes without snapshots has none, so its rows count
  have hroom' : m.config.mvccEnabled = false → count + c.outstanding.length < 2 ^ 63 :=
    fun hplain => h.plainRows_eq hplain ▸ hroom
  have hfewer : owned.length ≤ c.outstanding.length := by
    rw [← howned.length_eq]
    exact List.length_filter_le _ _
  obtain ⟨heffects, hcommit⟩ := hagree.stage hwhole hown hlibrary
    (Call.rowContext_isPure hlibrary c) hmode hroom' hall howned hs ht heffect
  refine ⟨heffects, hcommit, ?_, ?_⟩
  · refine (hwhole.commit hmode (hall.length_eq ▸ hroom') hs).recount fun hplain => ?_
    exact Nat.le_of_eq (by rw [h.plainRows_eq hplain, hall.length_eq])
  · refine (hown.commit hmode (fun hplain => ?_) ht).recount fun hplain => ?_
    · have hbound := hroom' hplain
      omega
    · rw [h.plainRows_eq hplain]
      omega

end Node.Carries

/-- Only the store of a node and the number of its last write count. -/
theorem Node.Mirrors.congr {n' : Node σ} (h : m.Mirrors view count n) (hid : n'.id = n.id)
    (hstore : n'.state.store = n.state.store) (hseq : n'.state.writeSeq = n.state.writeSeq) :
    m.Mirrors view count n' := by
  refine ⟨fun key hkey => ?_, h.whole, h.owned.congr hstore hseq⟩
  rw [hid] at hkey
  rw [hstore]
  exact h.agree key hkey

end

variable [HasTopology σ]

namespace Network.Shared

variable {library : ClassLoader σ} {s₀ s : Network σ} {shares : List (Share σ)} {m : Node σ}
  {state : σ} {staged : Staged} {effect : IndexedRow → RowEffect} {count : Nat}

/-- The result of a call that is carried out in shares agrees with the one of a single node that
carries out all rows. -/
theorem merged_agrees (h : Shared library s₀ s shares) (hlibrary : library.IsPure)
    (hpartitions : s₀.enlister.context.partitions = (topology s₀.state).partitions)
    (horder : InOrder s₀.call.outstanding) (hroom : count + s₀.call.plainRows < 2 ^ 63)
    (hmirrors : ∀ n ∈ s₀.nodes, m.Mirrors (topology s₀.state) count n)
    (hcarries : m.Carries library s₀.call state staged effect) :
    (s₀.call.merged shares).sortFailures.Agrees
      (s₀.call.merged [⟨m, s₀.call.outstanding, staged⟩]).sortFailures := by
  have hmany : EnlistResult.Collects s₀.call.options.needResult effect (shares.flatMap Share.rows)
      s₀.call.result (s₀.call.merged shares) := by
    refine Call.collects_merged fun x hx result => ?_
    obtain ⟨hnode, ⟨received, hreceived, ht⟩, -, hlength⟩ := h.staged x hx
    have hrows := h.rows_eq hx
    rw [MarshalContext.ownedBy_eq hpartitions] at hrows
    rw [hrows] at hreceived
    refine EnlistResult.collects_mergePart rfl hlength (stageFrom_tells ht).2 ?_ result
    rw [hrows]
    exact (hcarries.mirrors hlibrary (hmirrors x.node hnode) hroom hreceived ht).1
  have hone : EnlistResult.Collects s₀.call.options.needResult effect s₀.call.outstanding
      s₀.call.result (s₀.call.merged [⟨m, s₀.call.outstanding, staged⟩]) :=
    hcarries.collects s₀.call.result
  refine hmany.agrees_of_perm hone h.rows_perm ?_
  rw [(h.rows_perm.map Prod.fst).nodup_iff, horder]
  exact List.nodup_range

/-- The nodes of a cluster go on mirroring the single node of another one that carries out all rows
of a call. -/
theorem mirrors_commit (h : Shared library s₀ s shares) (hlibrary : library.IsPure)
    (hpartitions : s₀.enlister.context.partitions = (topology s₀.state).partitions)
    (hroom : count + s₀.call.plainRows < 2 ^ 63)
    (hmirrors : ∀ n ∈ s₀.nodes, m.Mirrors (topology s₀.state) count n)
    (hcarries : m.Carries library s₀.call state staged effect) :
    ∀ n' ∈ s.nodes, ({ m with state := m.state.commit staged.batch } : Node σ).Mirrors
      (topology s₀.state) (count + s₀.call.plainRows) n' := by
  intro n' hn'
  obtain ⟨n, hn, hcommits⟩ := exists_mem_of_forall₂ h.nodes hn'
  obtain ⟨staged', received, hstore, hseq, hreceived, ht⟩ := h.stages_owned hcommits
  rw [MarshalContext.ownedBy_eq hpartitions] at hreceived
  obtain ⟨-, hcommit⟩ := hcarries.mirrors hlibrary (hmirrors n hn) hroom hreceived ht
  exact hcommit.congr (by rw [hcommits.eq_with_state]) hstore hseq

end Network.Shared

end Enlistment
