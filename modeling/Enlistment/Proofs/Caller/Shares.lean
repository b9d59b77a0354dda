import Enlistment.Proofs.Caller.PureRequests

/-!
# Shares of a call

The rows of a call are carried out in shares, one for each node that owns any of them. A node commits
what it has staged for its share, and the other nodes stay as they are. A single node that owns
all keys gets all rows in one share.
-/

namespace Enlistment

open HasTopology (topology)

variable {σ : Type}

/-! ## Lists side by side -/

/-- An element of the first of two lists side by side has a counterpart at its position. -/
theorem exists_getElem?_of_forall₂ {A B : Type} {R : A → B → Prop} {xs : List A} {ys : List B}
    (h : List.Forall₂ R xs ys) {i : Nat} {x : A} (hx : xs[i]? = some x) :
    ∃ y, ys[i]? = some y ∧ R x y := by
  obtain ⟨hlt, rfl⟩ := List.getElem?_eq_some_iff.mp hx
  have hlt' : i < ys.length := h.length_eq ▸ hlt
  exact ⟨ys[i], List.getElem?_eq_getElem hlt', h.get hlt hlt'⟩

/-- An element of the second of two lists side by side has a counterpart. -/
theorem exists_mem_of_forall₂ {A B : Type} {R : A → B → Prop} {xs : List A} {ys : List B}
    (h : List.Forall₂ R xs ys) {y : B} (hy : y ∈ ys) : ∃ x ∈ xs, R x y := by
  obtain ⟨i, hi⟩ := List.getElem?_of_mem hy
  have hflip : List.Forall₂ (flip R) ys xs := List.Forall₂.flip h
  obtain ⟨x, hx, hxy⟩ := exists_getElem?_of_forall₂ hflip hi
  exact ⟨x, List.mem_of_getElem? hx, hxy⟩

/-- Two lists side by side have the same values under functions that take the same value on each
element and its counterpart. -/
theorem map_eq_map_of_forall₂ {A B C : Type} {R : A → B → Prop} {xs : List A} {ys : List B}
    (h : List.Forall₂ R xs ys) {f : A → C} {g : B → C} (hfg : ∀ x y, R x y → f x = g y) :
    xs.map f = ys.map g :=
  List.forall₂_eq_eq_eq ▸ List.forall₂_map_left_iff.mpr (List.forall₂_map_right_iff.mpr (h.imp hfg))

/-- One more element of the second of two lists side by side, of which the others keep their
counterparts. -/
theorem forall₂_set {A B : Type} {R S : A → B → Prop} {xs : List A} {ys : List B}
    (h : List.Forall₂ R xs ys) {j : Nat} {x : A} {y : B} (hx : xs[j]? = some x) (hxy : S x y)
    (hother : ∀ i a b, i ≠ j → xs[i]? = some a → R a b → S a b) :
    List.Forall₂ S xs (ys.set j y) := by
  induction h generalizing j with
  | nil => cases hx
  | @cons a b as bs hab hrest ih =>
    cases j with
    | zero =>
      obtain rfl := Option.some.inj hx
      refine .cons hxy (List.forall₂_iff_get.mpr ⟨hrest.length_eq, fun i hi hi' => ?_⟩)
      exact hother (i + 1) _ _ (Nat.succ_ne_zero i) (List.getElem?_eq_getElem hi)
        (hrest.get hi hi')
    | succ j =>
      refine .cons (hother 0 a b (Nat.succ_ne_zero j).symm rfl hab) (ih hx fun i a b hne => ?_)
      exact hother (i + 1) a b (mt Nat.succ.inj hne)

/-! ## Shares -/

/-- The rows of a call that a node owns, with the node as the call has found it and what the node
stages for them. -/
structure Share (σ : Type) where
  node : Node σ
  rows : List IndexedRow
  staged : Staged

/-- The result of a call whose rows were carried out in some shares. -/
def Call.merged (c : Call σ) (shares : List (Share σ)) : EnlistResult :=
  shares.foldl
    (fun result x => result.mergePart x.rows (x.staged.outcome.relayed c.options.needResult))
    c.result

/-- What becomes of a node under some shares: it commits its own one, if there is one. -/
def Node.Commits (shares : List (Share σ)) (n n' : Node σ) : Prop :=
  (∃ x ∈ shares, x.node = n ∧ n' = { n with state := n.state.commit x.staged.batch }) ∨
    ((∀ x ∈ shares, x.node.id ≠ n.id) ∧ n' = n)

/-- A node that commits is still known by its name and has the same settings. -/
theorem Node.Commits.eq_with_state {shares : List (Share σ)} {n n' : Node σ}
    (h : n.Commits shares n') : n' = { n with state := n'.state } := by
  rcases h with ⟨x, -, -, rfl⟩ | ⟨-, rfl⟩ <;> rfl

/-- The rows of a call were carried out in some shares, one for each node that owns any of them. -/
structure Network.Shared [HasTopology σ] (library : ClassLoader σ) (s₀ s : Network σ)
    (shares : List (Share σ)) : Prop where
  groups : groupRows s₀.enlister.context (fun _ => topology s₀.state) s₀.call.outstanding [] =
    .ok (shares.map fun x => (x.node.id, x.rows))
  staged : ∀ x ∈ shares, x.node ∈ s₀.nodes ∧
    x.node.Stages library s₀.call x.rows s₀.state x.staged
  nodes : List.Forall₂ (Node.Commits shares) s₀.nodes s.nodes
  state : s.state = s₀.state

variable [HasTopology σ]

namespace Network.Shared

variable {library : ClassLoader σ} {s₀ s : Network σ} {shares : List (Share σ)}

/-- A share has the rows that its node owns. -/
theorem rows_eq (h : Shared library s₀ s shares) {x : Share σ} (hx : x ∈ shares) :
    x.rows = s₀.call.outstanding.filter
      (s₀.enlister.context.ownedBy (topology s₀.state) x.node.id) :=
  (groupRows_owned h.groups).2.1 (x.node.id, x.rows) (List.mem_map.mpr ⟨x, hx, rfl⟩)

/-- All rows are in the shares. -/
theorem rows_perm (h : Shared library s₀ s shares) :
    (shares.flatMap Share.rows).Perm s₀.call.outstanding := by
  have hperm := groupRows_rows h.groups
  rwa [List.flatMap_map, List.flatMap_nil, List.nil_append] at hperm

/-- The nodes are still known by their names. -/
theorem ids_eq (h : Shared library s₀ s shares) : s.nodes.map Node.id = s₀.nodes.map Node.id := by
  refine (map_eq_map_of_forall₂ h.nodes fun n n' hn => ?_).symm
  rw [hn.eq_with_state]

/-- A call without rows leaves the nodes as they are. -/
theorem of_nil (h : Shared library s₀ s shares) (hnil : s₀.call.outstanding = []) :
    shares = [] ∧ s.nodes = s₀.nodes := by
  have hgroups := h.groups
  rw [hnil] at hgroups
  obtain rfl := List.map_eq_nil_iff.mp (Except.ok.inj hgroups).symm
  refine ⟨rfl, (List.forall₂_eq_eq_eq ▸ h.nodes.imp fun n n' hn => ?_ : _ = _).symm⟩
  rcases hn with ⟨x, hx, -⟩ | ⟨-, hsame⟩
  · cases hx
  · exact hsame.symm

/-- Every node stages the rows that it owns, which may be none. -/
theorem stages_owned (h : Shared library s₀ s shares) {n n' : Node σ}
    (hn : n.Commits shares n') :
    ∃ staged received,
      n'.state.store = (n.state.commit staged.batch).store ∧
      n'.state.writeSeq = (n.state.commit staged.batch).writeSeq ∧
      List.Forall₂ (fun row r => row.2.received library = .ok r) (s₀.call.outstanding.filter
        (s₀.enlister.context.ownedBy (topology s₀.state) n.id)) received ∧
      n.state.stageRows (s₀.call.rowContext library) received s₀.state =
        (.ok staged, s₀.state) := by
  rcases hn with ⟨x, hx, rfl, rfl⟩ | ⟨hother, hsame⟩
  · obtain ⟨received, hreceived, hstaged⟩ := (h.staged x hx).2.received
    rw [h.rows_eq hx] at hreceived
    exact ⟨x.staged, received, rfl, rfl, hreceived, hstaged⟩
  · -- a row that the node owns would be in a share of the node
    obtain rfl := hsame.symm
    have hnone : s₀.call.outstanding.filter
        (s₀.enlister.context.ownedBy (topology s₀.state) n.id) = [] := by
      refine List.filter_eq_nil_iff.mpr fun row hrow howned => ?_
      obtain ⟨group, hgroup, howner⟩ := (groupRows_owned h.groups).2.2 row hrow
      obtain ⟨x, hx, rfl⟩ := List.mem_map.mp hgroup
      exact hother x hx (Option.some.inj ((eq_of_beq howner).symm.trans (eq_of_beq howned)))
    rw [hnone]
    exact ⟨{ batch := { writeSeq := n.state.writeSeq } }, [], rfl, rfl, .nil, rfl⟩

/-- A single node carries out all rows of a call, if there are any. -/
theorem on_one {m : Node σ} (h : Shared library s₀ s shares) (hone : s₀.nodes = [m]) :
    (s₀.call.outstanding = [] ∧ shares = [] ∧ s.nodes = [m]) ∨
      ∃ staged, shares = [⟨m, s₀.call.outstanding, staged⟩] ∧
        m.Stages library s₀.call s₀.call.outstanding s₀.state staged ∧
        s.nodes = [{ m with state := m.state.commit staged.batch }] := by
  obtain ⟨hids, hrows, howned⟩ := groupRows_owned h.groups
  have hnode : ∀ x ∈ shares, x.node = m := by
    intro x hx
    have hmem := (h.staged x hx).1
    rw [hone] at hmem
    exact List.mem_singleton.mp hmem
  have hnodes := h.nodes
  rw [hone] at hnodes
  obtain ⟨m', rest, hm', hrest, hsame⟩ := List.forall₂_cons_left_iff.mp hnodes
  rw [List.forall₂_nil_left_iff.mp hrest] at hsame
  match shares, hm', h, hids, hnode with
  | [], hm', h, _, _ =>
    have hperm := h.rows_perm
    rcases hm' with ⟨x, hx, -⟩ | ⟨-, rfl⟩
    · cases hx
    · exact .inl ⟨List.perm_nil.mp hperm.symm, rfl, hsame⟩
  | [x], hm', h, _, hnode =>
    have hx : x ∈ [x] := List.mem_singleton.mpr rfl
    obtain rfl := hnode x hx
    have hall : x.rows = s₀.call.outstanding := by
      have hperm := h.rows_perm
      rw [List.flatMap_singleton] at hperm
      rw [h.rows_eq hx] at hperm ⊢
      exact List.filter_sublist.eq_of_length hperm.length_eq
    refine .inr ⟨x.staged, by rw [← hall], hall ▸ (h.staged x hx).2, ?_⟩
    rcases hm' with ⟨y, hy, -, rfl⟩ | ⟨hother, -⟩
    · rw [hsame, List.mem_singleton.mp hy]
    · exact absurd rfl (hother x hx)
  | x :: y :: others, _, _, hids, hnode =>
    have hx := hnode x (List.mem_cons_self ..)
    have hy := hnode y (List.mem_cons_of_mem _ (List.mem_cons_self ..))
    simp [hx, hy] at hids

end Network.Shared

end Enlistment
