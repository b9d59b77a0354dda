import Enlistment.LockOrder
import Mathlib.Data.List.Nodup

/-!
# Lock versions do not collide

Several nodes issue lock versions, each from a counter of its own and in any interleaving. No two of
the versions are equal, since versions of one node differ in the counter and those of different
nodes in the node. The topology part plays no role in that: it is a narrowing conversion, and two
topologies may share it. What it decides is the order, which compares it before the counter. So the
versions of a node rise as long as the topologies do whose major numbers the conversion keeps.
-/

namespace Enlistment

namespace LockVersion

variable {v w : LockVersion}

/-- Versions are ordered by their topologies, those of one topology by their counters, and those of
one counter by the nodes that issued them. -/
theorem lt_iff : v < w ↔ v.topologyOrder < w.topologyOrder ∨
    v.topologyOrder = w.topologyOrder ∧
      (v.order < w.order ∨ v.order = w.order ∧ v.nodeOrder < w.nodeOrder) := by
  show (Ord.compare v.topologyOrder w.topologyOrder).then
    ((Ord.compare v.order w.order).then (Ord.compare v.nodeOrder w.nodeOrder)) = .lt ↔ _
  simp only [Ordering.then_eq_lt, Std.compare_eq_lt, Std.compare_eq_iff_eq]

end LockVersion

namespace LockOrder

variable {t u : TopologyVersion} {o : LockOrder} {nodes : List LockOrder}
  {calls : List (Nat × TopologyVersion)}

/-! ## One version -/

/-- The major number of a topology can be the topology part of a lock version. -/
def Fits (t : TopologyVersion) : Prop := 0 ≤ t.major ∧ t.major.toInt < UInt32.size

instance (t : TopologyVersion) : Decidable (Fits t) :=
  inferInstanceAs (Decidable (0 ≤ t.major ∧ t.major.toInt < UInt32.size))

/-- A major number that fits is kept. -/
theorem toNat_topologyOrder (h : Fits t) : ((topologyOrder t).toNat : Int) = t.major.toInt := by
  obtain ⟨hlow, hhigh⟩ := h
  have hnonneg : 0 ≤ t.major.toInt := by
    simpa using Int64.le_iff_toInt_le.mp hlow
  rw [topologyOrder, if_pos ⟨hlow, hhigh⟩, UInt32.toNat_ofNat_of_lt' (by omega)]
  omega

/-- The topology part rises with the topologies. -/
theorem topologyOrder_le (ht : Fits t) (hu : Fits u) (h : t.major ≤ u.major) :
    topologyOrder t ≤ topologyOrder u := by
  have hmajor := Int64.le_iff_toInt_le.mp h
  have ht' := toNat_topologyOrder ht
  have hu' := toNat_topologyOrder hu
  rw [UInt32.le_iff_toNat_le]
  omega

/-- A counter that does not wrap is one further after a version. -/
theorem toNat_order_next (h : o.order.toNat + 1 < UInt64.size) :
    ((o.next t).2.order).toNat = o.order.toNat + 1 := by
  rw [next, UInt64.toNat_add, UInt64.toNat_one, Nat.mod_eq_of_lt h]

/-! ## Interleavings -/

/-- A version that a node issued, with the topology that it was issued on. -/
structure Issued where
  /-- Which of the nodes issued the version. -/
  node : Nat
  topology : TopologyVersion
  version : LockVersion
  deriving DecidableEq, Repr

/-- What some nodes issue, call after call, each call of one of the nodes on some topology. A call
of no node issues nothing. -/
def issueAll : List LockOrder → List (Nat × TopologyVersion) → List Issued
  | _, [] => []
  | nodes, (i, t) :: calls =>
    match nodes[i]? with
    | some o => ⟨i, t, (o.next t).1⟩ :: issueAll (nodes.set i (o.next t).2) calls
    | none => issueAll nodes calls

/-- No counter wraps in the course of some calls. -/
def HasRoom : List LockOrder → List (Nat × TopologyVersion) → Prop
  | _, [] => True
  | nodes, (i, t) :: calls =>
    match nodes[i]? with
    | some o => o.order.toNat + 1 < UInt64.size ∧ HasRoom (nodes.set i (o.next t).2) calls
    | none => HasRoom nodes calls

instance decidableHasRoom : (nodes : List LockOrder) → (calls : List (Nat × TopologyVersion)) →
    Decidable (HasRoom nodes calls)
  | _, [] => inferInstanceAs (Decidable True)
  | nodes, (i, t) :: calls =>
    match h : nodes[i]? with
    | some o =>
      have := decidableHasRoom (nodes.set i (o.next t).2) calls
      decidable_of_iff (o.order.toNat + 1 < UInt64.size ∧ HasRoom (nodes.set i (o.next t).2) calls)
        (by simp only [HasRoom, h])
    | none =>
      have := decidableHasRoom nodes calls
      decidable_of_iff (HasRoom nodes calls) (by simp only [HasRoom, h])

/-- A version comes from a node whose counter is before it. -/
def Issued.After (e : Issued) (nodes : List LockOrder) : Prop :=
  ∃ o, nodes[e.node]? = some o ∧ e.version.topologyOrder = topologyOrder e.topology ∧
    e.version.nodeOrder = o.nodeOrder ∧ o.order < e.version.order

/-- What comes after a version that was just issued also comes after what was there before it, and
has a greater counter if it is of the same node. -/
theorem Issued.After.of_set {e : Issued} {i : Nat} (h : e.After (nodes.set i (o.next t).2))
    (hnode : nodes[i]? = some o) (hroom : o.order.toNat + 1 < UInt64.size) :
    e.After nodes ∧ (e.node = i → (o.next t).1.order < e.version.order) := by
  obtain ⟨o', hget, htopology, hissuer, horder⟩ := h
  by_cases hi : i = e.node
  · subst hi
    rw [List.getElem?_set_self (List.getElem?_eq_some_iff.mp hnode).1, Option.some.injEq] at hget
    subst hget
    refine ⟨⟨o, hnode, htopology, hissuer, ?_⟩, fun _ => horder⟩
    have hcounter := toNat_order_next (t := t) hroom
    rw [UInt64.lt_iff_toNat_lt] at horder ⊢
    omega
  · rw [List.getElem?_set_ne hi] at hget
    exact ⟨⟨o', hget, htopology, hissuer, horder⟩, fun h => absurd h.symm hi⟩

/-- Every version comes after the counters that the nodes started from. -/
theorem after_of_mem_issueAll (hroom : HasRoom nodes calls) :
    ∀ e ∈ issueAll nodes calls, e.After nodes := by
  induction calls generalizing nodes with
  | nil => simp [issueAll]
  | cons call calls ih =>
    obtain ⟨i, t⟩ := call
    cases hnode : nodes[i]? with
    | none =>
      simp only [HasRoom, issueAll, hnode] at hroom ⊢
      exact ih hroom
    | some o =>
      simp only [HasRoom, issueAll, hnode] at hroom ⊢
      obtain ⟨hroom, hrest⟩ := hroom
      rintro e (- | ⟨-, he⟩)
      · refine ⟨o, hnode, rfl, rfl, ?_⟩
        have hcounter := toNat_order_next (t := t) hroom
        rw [UInt64.lt_iff_toNat_lt]
        show o.order.toNat < (o.next t).2.order.toNat
        omega
      · exact ((ih hrest e he).of_set hnode hroom).1

/-- Of two versions, the later one has another node order or a greater counter. -/
theorem issueAll_pairwise (hnodes : (nodes.map (·.nodeOrder)).Nodup) (hroom : HasRoom nodes calls) :
    (issueAll nodes calls).Pairwise fun e e' =>
      if e.node = e'.node then e.version.order < e'.version.order
      else e.version.nodeOrder ≠ e'.version.nodeOrder := by
  induction calls generalizing nodes with
  | nil => exact List.Pairwise.nil
  | cons call calls ih =>
    obtain ⟨i, t⟩ := call
    cases hnode : nodes[i]? with
    | none =>
      simp only [HasRoom, issueAll, hnode] at hroom ⊢
      exact ih hnodes hroom
    | some o =>
      simp only [HasRoom, issueAll, hnode] at hroom ⊢
      obtain ⟨hroom, hrest⟩ := hroom
      obtain ⟨hlt, rfl⟩ := List.getElem?_eq_some_iff.mp hnode
      have horders : (nodes.set i (nodes[i].next t).2).map (·.nodeOrder) =
          nodes.map (·.nodeOrder) := by
        rw [List.map_set]
        refine Eq.trans ?_ (List.set_getElem_self (by simpa using hlt))
        rw [List.getElem_map]
        rfl
      refine List.pairwise_cons.mpr ⟨fun e he => ?_, ih (horders ▸ hnodes) hrest⟩
      obtain ⟨hafter, hsame⟩ := (after_of_mem_issueAll hrest e he).of_set hnode hroom
      obtain ⟨o', hget, -, hissuer, -⟩ := hafter
      by_cases hi : i = e.node
      · rw [if_pos hi]
        exact hsame hi.symm
      · rw [if_neg hi, hissuer]
        intro horder
        refine hi ((List.getElem?_inj (by simpa using hlt) hnodes).mp ?_)
        rw [List.getElem?_map, List.getElem?_map, hnode, hget]
        exact congrArg some horder

/-- Nodes with different orders issue no version twice, whatever the interleaving of their calls and
the topologies, and the versions of one node on topologies that do not go back rise, as long as no
counter wraps and the major numbers of these topologies fit. -/
theorem issued_distinct_and_rising (hnodes : (nodes.map (·.nodeOrder)).Nodup)
    (hroom : HasRoom nodes calls) :
    ((issueAll nodes calls).map (·.version)).Nodup ∧
      ∀ (i : Nat) (own : List Issued), own.Sublist (issueAll nodes calls) →
        (∀ e ∈ own, e.node = i ∧ Fits e.topology) →
        own.Pairwise (fun e e' => e.topology.major ≤ e'.topology.major) →
        (own.map (·.version)).Pairwise (· < ·) := by
  have hissued := issueAll_pairwise hnodes hroom
  refine ⟨List.pairwise_map.mpr (hissued.imp ?_), fun i own hown hfits hmajors => ?_⟩
  · intro e e' h hequal
    split at h
    · rw [hequal] at h
      exact UInt64.lt_irrefl _ h
    · exact h (congrArg (·.nodeOrder) hequal)
  · rw [List.pairwise_map]
    refine ((hissued.sublist hown).and hmajors).imp_of_mem fun {e e'} he he' h => ?_
    obtain ⟨h, hmajor⟩ := h
    obtain ⟨hnode, hfit⟩ := hfits e he
    obtain ⟨hnode', hfit'⟩ := hfits e' he'
    obtain ⟨-, -, htopology, -⟩ := after_of_mem_issueAll hroom e (hown.subset he)
    obtain ⟨-, -, htopology', -⟩ := after_of_mem_issueAll hroom e' (hown.subset he')
    rw [if_pos (hnode.trans hnode'.symm)] at h
    have hle := topologyOrder_le hfit hfit' hmajor
    rw [← htopology, ← htopology', UInt32.le_iff_lt_or_eq] at hle
    rw [LockVersion.lt_iff]
    rcases hle with hlt | heq
    · exact .inl hlt
    · exact .inr ⟨heq, .inl h⟩

/-- Two nodes whose counters meet, on topologies of which one does not fit. -/
theorem issued_distinct_and_rising_two :
    let nodes : List LockOrder := [⟨1, 7⟩, ⟨2, 6⟩]
    let calls : List (Nat × TopologyVersion) :=
      [(0, ⟨3, 0⟩), (1, ⟨-1, 0⟩), (1, ⟨0, 4⟩), (0, ⟨4, 0⟩)]
    ((issueAll nodes calls).map (·.version)).Nodup ∧
      [LockVersion.mk 3 8 1, ⟨4, 9, 1⟩].Pairwise (· < ·) := by
  intro nodes calls
  obtain ⟨hdistinct, hrising⟩ := issued_distinct_and_rising
    (by decide : (nodes.map (·.nodeOrder)).Nodup) (by decide : HasRoom nodes calls)
  exact ⟨hdistinct, hrising 0 ((issueAll nodes calls).filter (·.node = 0)) List.filter_sublist
    (by decide) (by decide)⟩

end LockOrder

end Enlistment
