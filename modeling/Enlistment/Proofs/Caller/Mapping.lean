import Enlistment.Caller.Mapping
import Mathlib.Algebra.Group.Nat.Defs

/-!
# Parts of a batch

Mapping a batch splits its rows into parts: no row is lost, none is in two parts, and the parts
have different numbers. There are at most as many parts as there are nodes, so the numbers of one
batch do not come round again.
-/

namespace Enlistment

variable {σ : Type}

/-! ## Groups -/

/-- Adding a row to its group adds it to the rows of all groups. -/
theorem addToGroup_rows (node : NodeId) (row : IndexedRow)
    (groups : List (NodeId × List IndexedRow)) :
    ((addToGroup node row groups).flatMap Prod.snd).Perm (groups.flatMap Prod.snd ++ [row]) := by
  induction groups with
  | nil => exact .refl _
  | cons group rest ih =>
    obtain ⟨n, rows⟩ := group
    unfold addToGroup
    split
    · simp only [List.flatMap_cons]
      exact List.perm_append_comm
    · split
      · simp only [List.flatMap_cons, List.append_assoc]
        exact List.perm_append_comm.append_left rows
      · simp only [List.flatMap_cons, List.append_assoc]
        exact ih.append_left rows

/-- Grouping rows adds all of them to the groups. -/
theorem groupRows_rows {ctx : MarshalContext} {views : Nat → TopologyView}
    {rows : List IndexedRow} {groups groups' : List (NodeId × List IndexedRow)}
    (h : groupRows ctx views rows groups = .ok groups') :
    (groups'.flatMap Prod.snd).Perm (groups.flatMap Prod.snd ++ rows) := by
  induction rows generalizing groups with
  | nil =>
    obtain rfl := Except.ok.inj h
    rw [List.append_nil]
  | cons row rest ih =>
    unfold groupRows at h
    cases hnode : ownerOf ctx (views row.1) row with
    | error e => simp [hnode, bind, Except.bind] at h
    | ok node =>
      simp only [hnode, bind, Except.bind] at h
      have hrest := (ih h).trans ((addToGroup_rows node row groups).append_right rest)
      rwa [List.append_assoc] at hrest

/-- Groups in ascending order of their nodes. -/
def Ascending (groups : List (NodeId × List IndexedRow)) : Prop :=
  groups.Pairwise fun a b => a.1 < b.1

/-- The nodes of the groups after a row was added. -/
theorem mem_addToGroup {node : NodeId} {row : IndexedRow}
    {groups : List (NodeId × List IndexedRow)} {group : NodeId × List IndexedRow}
    (h : group ∈ addToGroup node row groups) :
    group.1 = node ∨ ∃ old ∈ groups, group.1 = old.1 := by
  induction groups with
  | nil =>
    obtain rfl := List.mem_singleton.mp h
    exact .inl rfl
  | cons first rest ih =>
    unfold addToGroup at h
    split at h
    · rcases List.mem_cons.mp h with rfl | h
      · exact .inl rfl
      · exact .inr ⟨group, h, rfl⟩
    · split at h
      · rcases List.mem_cons.mp h with rfl | h
        · exact .inr ⟨first, List.mem_cons_self .., rfl⟩
        · exact .inr ⟨group, List.mem_cons_of_mem _ h, rfl⟩
      · rcases List.mem_cons.mp h with rfl | h
        · exact .inr ⟨first, List.mem_cons_self .., rfl⟩
        · rcases ih h with h | ⟨old, hold, h⟩
          · exact .inl h
          · exact .inr ⟨old, List.mem_cons_of_mem _ hold, h⟩

/-- Adding a row keeps the groups in ascending order. -/
theorem Ascending.addToGroup {groups : List (NodeId × List IndexedRow)} (h : Ascending groups)
    (node : NodeId) (row : IndexedRow) : Ascending (addToGroup node row groups) := by
  induction groups with
  | nil => exact List.pairwise_singleton _ _
  | cons first rest ih =>
    obtain ⟨hfirst, hrest⟩ := List.pairwise_cons.mp h
    unfold Enlistment.addToGroup
    split
    · next hlt =>
      refine List.pairwise_cons.mpr ⟨fun group hgroup => ?_, h⟩
      rcases List.mem_cons.mp hgroup with rfl | hgroup
      · exact hlt
      · exact UInt32.lt_trans hlt (hfirst group hgroup)
    · next hnlt =>
      split
      · exact List.pairwise_cons.mpr ⟨hfirst, hrest⟩
      · next hne =>
        refine List.pairwise_cons.mpr ⟨fun group hgroup => ?_, ih hrest⟩
        rcases mem_addToGroup hgroup with hnode | ⟨old, hold, hnode⟩
        · show first.1 < group.1
          rw [hnode]
          exact UInt32.lt_of_le_of_ne (UInt32.not_lt.mp hnlt) fun heq => hne heq.symm
        · show first.1 < group.1
          rw [hnode]
          exact hfirst old hold

/-- Grouping keeps the groups in ascending order. -/
theorem Ascending.groupRows {ctx : MarshalContext} {views : Nat → TopologyView}
    {rows : List IndexedRow} {groups groups' : List (NodeId × List IndexedRow)}
    (h : Ascending groups) (hgroups : groupRows ctx views rows groups = .ok groups') :
    Ascending groups' := by
  induction rows generalizing groups with
  | nil =>
    obtain rfl := Except.ok.inj hgroups
    exact h
  | cons row rest ih =>
    unfold Enlistment.groupRows at hgroups
    cases hnode : ownerOf ctx (views row.1) row with
    | error e => simp [hnode, bind, Except.bind] at hgroups
    | ok node =>
      simp only [hnode, bind, Except.bind] at hgroups
      exact ih (h.addToGroup node row) hgroups

/-- There is at most one group for each node from the least one on. -/
theorem Ascending.length_le {groups : List (NodeId × List IndexedRow)} (h : Ascending groups)
    {least : Nat} (hleast : ∀ group ∈ groups, least ≤ group.1.toNat) (hle : least ≤ 2 ^ 32) :
    least + groups.length ≤ 2 ^ 32 := by
  induction groups generalizing least with
  | nil => exact hle
  | cons first rest ih =>
    obtain ⟨hfirst, hrest⟩ := List.pairwise_cons.mp h
    have hlow := hleast first (List.mem_cons_self ..)
    have hbound := first.1.toNat_lt
    have hnext : ∀ group ∈ rest, first.1.toNat + 1 ≤ group.1.toNat := fun group hgroup =>
      UInt32.lt_iff_toNat_lt.mp (hfirst group hgroup)
    have hlater := ih hrest hnext (by omega)
    rw [List.length_cons]
    omega

/-! ## Owners -/

/-- Whether a node owns the key of a row on a view. -/
def MarshalContext.ownedBy (ctx : MarshalContext) (view : TopologyView) (node : NodeId)
    (row : IndexedRow) : Bool :=
  view.primary (ctx.partitionOfValue row.2.keyValue) == some node

/-- The rows of a node in some groups. -/
def rowsOf (node : NodeId) (groups : List (NodeId × List IndexedRow)) : List IndexedRow :=
  (groups.lookup node).getD []

/-- Adding a row to its group adds it behind the rows of its node, and to no other. -/
theorem Ascending.rowsOf_addToGroup {groups : List (NodeId × List IndexedRow)}
    (h : Ascending groups) (node : NodeId) (row : IndexedRow) (node' : NodeId) :
    rowsOf node' (Enlistment.addToGroup node row groups) =
      rowsOf node' groups ++ if node = node' then [row] else [] := by
  induction groups with
  | nil =>
    unfold rowsOf Enlistment.addToGroup
    rw [List.lookup_cons]
    grind
  | cons first rest ih =>
    obtain ⟨n, rows⟩ := first
    obtain ⟨hfirst, hrest⟩ := List.pairwise_cons.mp h
    have ih := ih hrest
    unfold rowsOf at ih ⊢
    unfold Enlistment.addToGroup
    split
    · next hlt =>
      have hnone : rest.lookup node = none := by
        rw [List.lookup_eq_none_iff]
        intro group hgroup
        have := hfirst group hgroup
        grind
      simp only [List.lookup_cons]
      grind
    · split
      · simp only [List.lookup_cons]
        grind
      · simp only [List.lookup_cons]
        grind

/-- The rows of a node are those of its group. -/
theorem Ascending.rowsOf_eq {groups : List (NodeId × List IndexedRow)} (h : Ascending groups)
    {group : NodeId × List IndexedRow} (hgroup : group ∈ groups) :
    rowsOf group.1 groups = group.2 := by
  induction groups with
  | nil => cases hgroup
  | cons first rest ih =>
    obtain ⟨hfirst, hrest⟩ := List.pairwise_cons.mp h
    unfold rowsOf at ih ⊢
    rw [List.lookup_cons]
    rcases List.mem_cons.mp hgroup with rfl | hgroup
    · rw [beq_self_eq_true]
      rfl
    · have hne : (group.1 == first.1) = false :=
        beq_false_of_ne fun heq => UInt32.ne_of_lt (hfirst group hgroup) heq.symm
      rw [hne]
      exact ih hrest hgroup

/-- Grouping adds to the rows of a node those that it owns at their turns, in their order. -/
theorem Ascending.rowsOf_groupRows {ctx : MarshalContext} {views : Nat → TopologyView}
    {rows : List IndexedRow} {groups groups' : List (NodeId × List IndexedRow)}
    (h : Ascending groups) (hgroups : Enlistment.groupRows ctx views rows groups = .ok groups')
    (node : NodeId) :
    rowsOf node groups' =
      rowsOf node groups ++ rows.filter fun row => ctx.ownedBy (views row.1) node row := by
  induction rows generalizing groups with
  | nil =>
    obtain rfl := Except.ok.inj hgroups
    rw [List.filter_nil, List.append_nil]
  | cons row rest ih =>
    unfold Enlistment.groupRows at hgroups
    cases hnode : ownerOf ctx (views row.1) row with
    | error e => simp [hnode, bind, Except.bind] at hgroups
    | ok owner =>
      simp only [hnode, bind, Except.bind] at hgroups
      have howner : (views row.1).primary (ctx.partitionOfValue row.2.keyValue) = some owner := by
        unfold ownerOf at hnode
        split at hnode
        · cases hnode
        · split at hnode
          · next found hfound => rw [hfound, Except.ok.inj hnode]
          · cases hnode
      have howned : ctx.ownedBy (views row.1) node row = decide (owner = node) := by
        rw [MarshalContext.ownedBy, howner]
        rfl
      rw [ih (h.addToGroup owner row) hgroups, h.rowsOf_addToGroup, List.append_assoc,
        List.filter_cons, howned]
      by_cases hsame : owner = node <;> simp [hsame]

/-- The group of a node has the rows that the node owns at their turns, in their order, and every
row is in a group. -/
theorem groupRows_owned {ctx : MarshalContext} {views : Nat → TopologyView}
    {rows : List IndexedRow} {groups : List (NodeId × List IndexedRow)}
    (h : groupRows ctx views rows [] = .ok groups) :
    (groups.map Prod.fst).Nodup ∧
      (∀ group ∈ groups, group.2 = rows.filter fun row => ctx.ownedBy (views row.1) group.1 row) ∧
      ∀ row ∈ rows, ∃ group ∈ groups, ctx.ownedBy (views row.1) group.1 row = true := by
  have hascending : Ascending groups := Ascending.groupRows .nil h
  have hnodup : (groups.map Prod.fst).Nodup := by
    rw [List.Nodup, List.pairwise_map]
    exact hascending.imp fun hlt heq => UInt32.ne_of_lt hlt heq
  have hrows : ∀ group ∈ groups,
      group.2 = rows.filter fun row => ctx.ownedBy (views row.1) group.1 row := by
    intro group hgroup
    rw [← hascending.rowsOf_eq hgroup]
    exact Ascending.rowsOf_groupRows .nil h group.1
  refine ⟨hnodup, hrows, fun row hrow => ?_⟩
  obtain ⟨group, hgroup, hmem⟩ := List.mem_flatMap.mp ((groupRows_rows h).mem_iff.mpr hrow)
  rw [hrows group hgroup] at hmem
  exact ⟨group, hgroup, (List.mem_filter.mp hmem).2⟩

/-- Rows that cannot be grouped have a row without an owner. -/
theorem groupRows_error {ctx : MarshalContext} {views : Nat → TopologyView}
    {rows : List IndexedRow} {groups : List (NodeId × List IndexedRow)} {err : EnlistError}
    (h : groupRows ctx views rows groups = .error err) :
    ∃ row ∈ rows, ownerOf ctx (views row.1) row = .error err := by
  induction rows generalizing groups with
  | nil => cases h
  | cons row rest ih =>
    unfold groupRows at h
    cases hnode : ownerOf ctx (views row.1) row with
    | ok node =>
      simp only [hnode, bind, Except.bind] at h
      obtain ⟨found, hfound, hlost⟩ := ih h
      exact ⟨found, List.mem_cons_of_mem _ hfound, hlost⟩
    | error cause =>
      simp only [hnode, bind, Except.bind] at h
      obtain rfl := Except.error.inj h
      exact ⟨row, List.mem_cons_self .., hnode⟩

/-- A row has no owner for its null key or since its partition has none. -/
theorem ownerOf_error {ctx : MarshalContext} {view : TopologyView} {row : IndexedRow}
    {err : EnlistError} (h : ownerOf ctx view row = .error err) :
    (row.2.keyValue.isNull = true ∧ err = .marshal (.nullKey row.1)) ∨
      row.2.keyValue.isNull = false ∧ view.primary (ctx.partitionOfValue row.2.keyValue) = none ∧
        err = .noPrimary (ctx.partitionOfValue row.2.keyValue) := by
  unfold ownerOf at h
  split at h
  · next hnull => exact .inl ⟨hnull, (Except.error.inj h).symm⟩
  · next hnull =>
    split at h
    · cases h
    · next hnone => exact .inr ⟨eq_false_of_ne_true hnull, hnone, (Except.error.inj h).symm⟩

/-! ## Numbers -/

/-- The parts of groups have the rows of the groups. -/
theorem numberParts_rows (mini : MiniId) (groups : List (NodeId × List IndexedRow)) :
    (numberParts mini groups).flatMap Part.rows = groups.flatMap Prod.snd := by
  induction groups generalizing mini with
  | nil => rfl
  | cons group rest ih => rw [numberParts, List.flatMap_cons, List.flatMap_cons, ih]

/-- The parts of groups are the groups. -/
theorem numberParts_groups (mini : MiniId) (groups : List (NodeId × List IndexedRow)) :
    (numberParts mini groups).map (fun part => (part.node, part.rows)) = groups := by
  induction groups generalizing mini with
  | nil => rfl
  | cons group rest ih => rw [numberParts, List.map_cons, ih]

/-- The parts of groups have not been sent. -/
theorem numberParts_stage {mini : MiniId} {groups : List (NodeId × List IndexedRow)} {part : Part}
    (h : part ∈ numberParts mini groups) : part.stage = .planned := by
  induction groups generalizing mini with
  | nil => cases h
  | cons group rest ih =>
    rcases List.mem_cons.mp h with rfl | h
    · rfl
    · exact ih h

/-- Counting one more before or after some others makes no difference, also past the greatest
number. -/
theorem MiniId.add_one_add (mini : MiniId) (k : Nat) :
    mini + 1 + Int32.ofNat k = mini + Int32.ofNat (k + 1) := by
  rw [Int32.ofNat_add, Int32.add_assoc, Int32.add_comm 1]
  rfl

/-- The numbers of the parts of groups. -/
theorem numberParts_mini {mini : MiniId} {groups : List (NodeId × List IndexedRow)}
    {number : MiniId} (h : number ∈ (numberParts mini groups).map Part.mini) :
    ∃ k < groups.length, number = mini + Int32.ofNat k := by
  induction groups generalizing mini with
  | nil => cases h
  | cons group rest ih =>
    rcases List.mem_cons.mp h with rfl | h
    · exact ⟨0, Nat.zero_lt_succ _, by simp⟩
    · obtain ⟨k, hk, rfl⟩ := ih h
      exact ⟨k + 1, Nat.succ_lt_succ hk, MiniId.add_one_add mini k⟩

/-- The parts of a batch on fewer groups than there are numbers have different numbers. -/
theorem numberParts_nodup (mini : MiniId) {groups : List (NodeId × List IndexedRow)}
    (h : groups.length ≤ 2 ^ 32) : ((numberParts mini groups).map Part.mini).Nodup := by
  induction groups generalizing mini with
  | nil => exact List.nodup_nil
  | cons group rest ih =>
    rw [List.length_cons] at h
    refine List.nodup_cons.mpr ⟨fun hmem => ?_, ih (mini + 1) (by omega)⟩
    obtain ⟨k, hk, heq⟩ := numberParts_mini hmem
    rw [MiniId.add_one_add] at heq
    have hbits := congrArg (fun n : MiniId => n.toBitVec.toNat) (Int32.left_eq_add.mp heq)
    simp at hbits
    omega

/-- What mapping a batch gives: parts that are to be sent, with the rows of the batch between them
and with different numbers. -/
theorem Enlister.mapRows_ok {e e' : Enlister σ} {views : Nat → TopologyView}
    {rows : List IndexedRow} {parts : List Part} (h : e.mapRows views rows = (.ok parts, e')) :
    (parts.flatMap Part.rows).Perm rows ∧ (parts.map Part.mini).Nodup ∧
      (∀ part ∈ parts, part.stage = .planned) ∧ ∃ nextMini, e' = { e with nextMini } := by
  unfold mapRows at h
  split at h
  · cases h
  · next groups hgroups =>
    obtain ⟨hparts, rfl⟩ := Prod.mk.inj h
    obtain rfl := Except.ok.inj hparts
    have hascending : Ascending groups := Ascending.groupRows .nil hgroups
    have hlength := hascending.length_le (fun _ _ => Nat.zero_le _) (Nat.zero_le _)
    refine ⟨?_, numberParts_nodup _ (by omega), fun part => numberParts_stage, _, rfl⟩
    rw [numberParts_rows]
    exact groupRows_rows hgroups

/-- The parts of a batch are the groups of its rows. -/
theorem Enlister.mapRows_groups {e e' : Enlister σ} {views : Nat → TopologyView}
    {rows : List IndexedRow} {parts : List Part} (h : e.mapRows views rows = (.ok parts, e')) :
    groupRows e.context views rows [] = .ok (parts.map fun part => (part.node, part.rows)) := by
  unfold mapRows at h
  split at h
  · cases h
  · next groups hgroups =>
    obtain rfl := Except.ok.inj (Prod.mk.inj h).1
    rw [hgroups, numberParts_groups]

/-- A batch that cannot be mapped has a row without an owner. -/
theorem Enlister.exists_of_mapRows_error {e : Enlister σ} {views : Nat → TopologyView}
    {rows : List IndexedRow} {err : EnlistError} (h : (e.mapRows views rows).1 = .error err) :
    ∃ row ∈ rows, ownerOf e.context (views row.1) row = .error err := by
  unfold mapRows at h
  split at h
  · next cause hcause =>
    obtain rfl := Except.error.inj h
    exact groupRows_error hcause
  · cases h

/-- A batch that cannot be mapped leaves its caller alone. -/
theorem Enlister.mapRows_error {e e' : Enlister σ} {views : Nat → TopologyView}
    {rows : List IndexedRow} {err : EnlistError} (h : e.mapRows views rows = (.error err, e')) :
    e' = e := by
  unfold mapRows at h
  split at h
  · exact (Prod.mk.inj h).2.symm
  · cases h

end Enlistment
