import Enlistment.Proofs.Caller.Accounts
import Enlistment.Proofs.Caller.Shares

/-!
# Rounds on an unchanging topology

While the topology stays as it is and the nodes do nothing else, every node that is sent rows of a
call is reached in the state in which the call has found it. No node asks for a remap, so a round
without a failure carries out all rows.
-/

namespace Enlistment

open HasTopology (topology)

variable {σ : Type}

/-! ## Rounds -/

namespace RoundOutcome

variable {version : TopologyVersion} {o o' : RoundOutcome}

/-- A round without a failure in which nobody asks for a remap puts together the shares of its
parts. -/
theorem merged_roundOutcome {needResult : Bool} {R : Part → Share σ → Prop}
    (hrows : ∀ part x, R part x → x.rows = part.rows) {parts : List Part}
    (hended : ∀ part ∈ parts, ∀ outcome, part.stage = .ended outcome →
      (∃ err : EnlistError, outcome = .error err ∧ err.isRetriable = false) ∨
        ∃ response, outcome = .ok response ∧ response.remap = none ∧
          ∀ result, response.toResult version = .ok result →
            ∃ x, R part x ∧ result = x.staged.outcome.relayed needResult)
    (ho : Call.roundOutcome version o parts = some o') (hsuccess : o'.failure = none) :
    o'.remap = o.remap ∧ ∃ shares, List.Forall₂ R parts shares ∧
      o'.result = shares.foldl
        (fun result x => result.mergePart x.rows (x.staged.outcome.relayed needResult))
        o.result := by
  induction parts generalizing o with
  | nil =>
    obtain rfl := Option.some.inj ho
    exact ⟨rfl, [], .nil, rfl⟩
  | cons part rest ih =>
    obtain ⟨hfirst, hrest⟩ := List.forall_mem_cons.mp hended
    unfold Call.roundOutcome at ho
    split at ho
    · next outcome hstage =>
      rcases hfirst outcome hstage with ⟨err, rfl, herr⟩ | ⟨response, rfl, hremap, hresult⟩
      · exact absurd hsuccess (failure_roundOutcome (add_error herr) ho)
      · cases htold : response.toResult version with
        | error err =>
          have hfailed : (o.add version part (.ok response)).failure ≠ none := by
            simp only [EnlistResponse.toResult, hremap] at htold
            split at htold
            · next hsome => cases hsome
            · next m _ herror =>
              simp [add, Except.bind, EnlistResponse.toResult, hremap, herror]
            · cases htold
          exact absurd hsuccess (failure_roundOutcome hfailed ho)
        | ok result =>
          obtain ⟨x, hx, rfl⟩ := hresult result htold
          have hadd : o.add version part (.ok response) = { o with
              result := o.result.mergePart part.rows (x.staged.outcome.relayed needResult) } := by
            simp only [add, Except.bind, htold]
          rw [hadd] at ho
          obtain ⟨hsame, shares, hshares, hmerged⟩ := ih hrest ho
          refine ⟨hsame, x :: shares, .cons hx hshares, ?_⟩
          rw [hmerged, List.foldl_cons, hrows part x hx]
    · cases ho

end RoundOutcome

/-! ## Requests on their way -/

variable [HasTopology σ]

/-- What becomes of a node while requests are on their way: it handles the one that reaches it. -/
def Node.Handles (letters : List (Letter σ)) (state : σ) (n n' : Node σ) : Prop :=
  (∃ l ∈ letters, l.arrival = some (n, state) ∧
    n' = (n.handleBytes l.dispatch.payload state).2.1) ∨
    ((∀ l ∈ letters, l.dispatch.node = n.id → l.arrival = none) ∧ n' = n)

/-- A node is still known by its name. -/
theorem Node.Handles.id_eq {letters : List (Letter σ)} {state : σ} {n n' : Node σ}
    (h : n.Handles letters state n') : n'.id = n.id := by
  rcases h with ⟨l, -, -, rfl⟩ | ⟨-, rfl⟩
  · rw [Node.handleBytes_eq]
  · rfl

namespace Network

variable {library : ClassLoader σ} {s₀ s : Network σ} {parts : List Part}

/-- A call that is about to start in a network whose nodes have nothing but pure code. -/
structure Initial (library : ClassLoader σ) (s₀ : Network σ) : Prop where
  pure : library.IsPure
  loader : ∀ n ∈ s₀.nodes, n.loader.LoadsFrom library
  ids : (s₀.nodes.map Node.id).Nodup
  filter : ∀ f, s₀.call.options.filter = some f → (Message.filter f).Built
  round : s₀.round = 0
  phase : s₀.call.phase = .mapping
  letters : s₀.letters = []

/-- The first round of a call on its way. -/
structure Exchanging (s₀ s : Network σ) (parts : List Part) : Prop where
  call : s.call = { s₀.call with
    outstanding := [], phase := .exchanging (topology s₀.state).version parts }
  state : s.state = s₀.state
  round : s.round = s₀.round
  groups : groupRows s₀.enlister.context (fun _ => topology s₀.state) s₀.call.outstanding [] =
    .ok (parts.map fun part => (part.node, part.rows))
  sent : ∀ l ∈ s.letters, l.SentOn s₀.enlister s₀.call (topology s₀.state) ∧
    (parts.map Part.node)[l.dispatch.index]? = some l.dispatch.node
  arrived : ∀ l ∈ s.letters, ∀ a, l.arrival = some a →
    a.1 ∈ s₀.nodes ∧ a.1.id = l.dispatch.node ∧ a.2 = s₀.state
  nodes : List.Forall₂ (Node.Handles s.letters s₀.state) s₀.nodes s.nodes

namespace Exchanging

variable {index : Nat} {part : Part}

/-- A part at another stage leaves the round as it is. -/
theorem setStage (h : Exchanging s₀ s parts) (hpart : parts[index]? = some part)
    (stage : PartStage) (enlister : Enlister σ) :
    Exchanging s₀ (s.take (none, s.call.setStage index stage, enlister))
      (parts.set index { part with stage }) := by
  have hphase : s.call.phase = .exchanging (topology s₀.state).version parts := by rw [h.call]
  rw [s.take_setStage, Call.setStage_eq hphase hpart]
  refine ⟨by rw [h.call], h.state, h.round, ?_, fun l hl => ?_, h.arrived, h.nodes⟩
  · rw [map_set_of_getElem? hpart (y := { part with stage }) rfl]
    exact h.groups
  · rw [map_set_of_getElem? hpart (y := { part with stage }) rfl]
    exact h.sent l hl

/-- The requests of the first round are those of its parts. -/
theorem of_mem_letters (h : Exchanging s₀ s parts) (hs₀ : s₀.Initial library)
    {past : List (Letter σ)} {slots : List (Slot σ)}
    (hround : Round s₀.enlister s₀.call s₀.call.outstanding s parts past slots) {l : Letter σ}
    (hl : l ∈ s.letters) :
    ∃ part, slots[l.dispatch.index]? = some (part, some l) ∧ l.rows = part.rows ∧
      l.dispatch.node = part.node := by
  have hfirst : s.round = 0 := h.round.trans hs₀.round
  rcases hround.mem_letters hl with hpast | ⟨index, part, hslot, hfor⟩
  · exact absurd (hround.earlier l hpast) (by omega)
  · obtain rfl := hfor.index_eq
    refine ⟨part, hslot, hfor.rows_eq, ?_⟩
    have hnode := (h.sent l hl).2
    rw [List.getElem?_map, hround.part_of_slot hslot] at hnode
    exact (Option.some.inj hnode).symm

/-- No two requests of the first round go to the same node. -/
theorem letter_unique (h : Exchanging s₀ s parts) (hs₀ : s₀.Initial library)
    {past : List (Letter σ)} {slots : List (Slot σ)}
    (hround : Round s₀.enlister s₀.call s₀.call.outstanding s parts past slots) {l l' : Letter σ}
    (hl : l ∈ s.letters) (hl' : l' ∈ s.letters) (hnode : l.dispatch.node = l'.dispatch.node) :
    l = l' := by
  obtain ⟨part, hslot, -, -⟩ := h.of_mem_letters hs₀ hround hl
  obtain ⟨part', hslot', -, -⟩ := h.of_mem_letters hs₀ hround hl'
  have hnodup : (parts.map Part.node).Nodup := by
    have hgroups := (groupRows_owned h.groups).1
    rwa [List.map_map] at hgroups
  have hindex : l.dispatch.index = l'.dispatch.index := by
    have hsome := (h.sent l hl).2
    refine (List.getElem?_inj (List.getElem?_eq_some_iff.mp hsome).1 hnodup).mp ?_
    rw [hsome, (h.sent l' hl').2, hnode]
  rw [hindex, hslot'] at hslot
  exact (Option.some.inj (Prod.mk.inj (Option.some.inj hslot)).2).symm

/-- A request that is put on its way. -/
theorem send (h : Exchanging s₀ s parts) {l : Letter σ}
    (hsent : l.SentOn s₀.enlister s₀.call (topology s₀.state))
    (hnode : (parts.map Part.node)[l.dispatch.index]? = some l.dispatch.node)
    (hnew : l.arrival = none) : Exchanging s₀ { s with letters := s.letters ++ [l] } parts := by
  refine ⟨h.call, h.state, h.round, h.groups, fun l' hl' => ?_, fun l' hl' => ?_, ?_⟩
  · rcases List.mem_append.mp hl' with hl' | hl'
    · exact h.sent l' hl'
    · rw [List.mem_singleton.mp hl']
      exact ⟨hsent, hnode⟩
  · rcases List.mem_append.mp hl' with hl' | hl'
    · exact h.arrived l' hl'
    · rw [List.mem_singleton.mp hl']
      intro a ha
      cases hnew.symm.trans ha
  · refine h.nodes.imp fun n n' hn => ?_
    rcases hn with ⟨l', hl', harrival, hn'⟩ | ⟨hnone, hn'⟩
    · exact .inl ⟨l', List.mem_append_left _ hl', harrival, hn'⟩
    · refine .inr ⟨fun l' hl' => ?_, hn'⟩
      rcases List.mem_append.mp hl' with hl' | hl'
      · exact hnone l' hl'
      · rw [List.mem_singleton.mp hl']
        exact fun _ => hnew

/-- A request reaches its node, which is still as the call has found it. -/
theorem arrive (h : Exchanging s₀ s parts) (hs₀ : s₀.Initial library)
    {past : List (Letter σ)} {slots : List (Slot σ)}
    (hround : Round s₀.enlister s₀.call s₀.call.outstanding s parts past slots) {i j : Nat}
    {l : Letter σ} {n : Node σ} (hl : s.letters[i]? = some l) (hn : s.nodes[j]? = some n)
    (hnew : l.arrival = none) (hnode : n.id = l.dispatch.node) :
    Exchanging s₀ { s with
      nodes := s.nodes.set j (n.handleBytes l.dispatch.payload s.state).2.1
      state := (n.handleBytes l.dispatch.payload s.state).2.2
      letters := s.letters.set i { l with arrival := some (n, s.state) } } parts := by
  have hmem := List.mem_of_getElem? hl
  have hflip : List.Forall₂ (flip (Node.Handles s.letters s₀.state)) s.nodes s₀.nodes :=
    List.Forall₂.flip h.nodes
  obtain ⟨n₀, hn₀, hhandles⟩ := exists_getElem?_of_forall₂ hflip hn
  have hid : n.id = n₀.id := Node.Handles.id_eq hhandles
  -- no other request was sent to this node
  obtain rfl : n = n₀ := by
    rcases hhandles with ⟨l₀, hl₀, harrival, -⟩ | ⟨-, rfl⟩
    · have hnode₀ := (h.arrived l₀ hl₀ _ harrival).2.1
      obtain rfl := h.letter_unique hs₀ hround hl₀ hmem (by rw [← hnode₀, ← hid, hnode])
      cases hnew.symm.trans harrival
    · rfl
  have hstate : s.state = s₀.state := h.state
  rw [hstate]
  have hloader := hs₀.loader n (List.mem_of_getElem? hn₀)
  have hkeeps := ((h.sent l hmem).1.handled hs₀.pure hloader hs₀.filter s₀.state).1
  refine ⟨h.call, hkeeps, h.round, h.groups, fun l' hl' => ?_, fun l' hl' => ?_, ?_⟩
  · rcases List.mem_or_eq_of_mem_set hl' with hl' | rfl
    · exact h.sent l' hl'
    · exact h.sent l hmem
  · rcases List.mem_or_eq_of_mem_set hl' with hl' | rfl
    · exact h.arrived l' hl'
    · intro a ha
      obtain rfl := Option.some.inj ha
      exact ⟨List.mem_of_getElem? hn₀, hnode, rfl⟩
  · have hset : ∀ l₀ ∈ s.letters, l₀.arrival ≠ none →
        l₀ ∈ s.letters.set i { l with arrival := some (n, s₀.state) } := by
      intro l₀ hl₀ harrived
      obtain ⟨k, hk⟩ := List.getElem?_of_mem hl₀
      refine List.mem_of_getElem? (i := k) ?_
      rw [List.getElem?_set_ne, hk]
      rintro rfl
      rw [Option.some.inj (hk.symm.trans hl)] at harrived
      exact harrived hnew
    refine forall₂_set h.nodes hn₀ (.inl ⟨_, List.mem_set (List.getElem?_eq_some_iff.mp hl).1 _,
      rfl, rfl⟩) fun k n' m hne hn' hother => ?_
    rcases hother with ⟨l₀, hl₀, harrival, hm⟩ | ⟨hnone, hm⟩
    · exact .inl ⟨l₀, hset l₀ hl₀ (by rw [harrival]; exact Option.some_ne_none _), harrival, hm⟩
    · refine .inr ⟨fun l' hl' hnode' => ?_, hm⟩
      rcases List.mem_or_eq_of_mem_set hl' with hl' | rfl
      · exact hnone l' hl' hnode'
      · -- the two nodes would have the same name
        have hname : (s₀.nodes.map Node.id)[k]? = (s₀.nodes.map Node.id)[j]? := by
          rw [List.getElem?_map, List.getElem?_map, hn', hn₀]
          exact congrArg some (hnode'.symm.trans hnode.symm)
        have hlt : k < (s₀.nodes.map Node.id).length := by
          rw [List.length_map]
          exact (List.getElem?_eq_some_iff.mp hn').1
        exact absurd ((List.getElem?_inj hlt hs₀.ids).mp hname) hne

/-- A part of the first round has been settled by a share: the node of the part was reached by a
request with the rows of the part, and has committed them. -/
structure SettledBy (library : ClassLoader σ) (s₀ s : Network σ) (part : Part) (x : Share σ) :
    Prop where
  node_mem : x.node ∈ s₀.nodes
  node_id : x.node.id = part.node
  rows : x.rows = part.rows
  stages : x.node.Stages library s₀.call x.rows s₀.state x.staged
  handled : ∃ l ∈ s.letters, l.arrival = some (x.node, s₀.state) ∧
    (x.node.handleBytes l.dispatch.payload s₀.state).2.1 =
      { x.node with state := x.node.state.commit x.staged.batch }

/-- A part that has ended has failed for good, or was answered without a remap. If the answer is a
success, then the part has been settled. -/
theorem ended (h : Exchanging s₀ s parts) (hs₀ : s₀.Initial library)
    (haccount : Accounted s₀.enlister s₀.call s₀.call.outstanding s)
    {past : List (Letter σ)} {slots : List (Slot σ)}
    (hround : Round s₀.enlister s₀.call s₀.call.outstanding s parts past slots)
    (hpart : part ∈ parts) {outcome : Delivery} (hended : part.stage = .ended outcome) :
    (∃ err : EnlistError, outcome = .error err ∧ err.isRetriable = false) ∨
      ∃ response, outcome = .ok response ∧ response.remap = none ∧
        ∀ result, response.toResult (topology s₀.state).version = .ok result →
          ∃ x, SettledBy library s₀ s part x ∧
            result = x.staged.outcome.relayed s₀.call.options.needResult := by
  obtain ⟨index, hindex⟩ := List.getElem?_of_mem hpart
  obtain ⟨letter, hslot⟩ := hround.exists_slot hindex
  have hkept := hround.kept index _ hslot
  have hclosed := hround.closed haccount.posted _ (List.mem_of_getElem? hslot)
  rcases hclosed.failed_or_answered hended with herr |
    ⟨l, bytes, response, hletter, hrows, -, hreply, hread, rfl⟩
  · exact .inl herr
  · obtain rfl : letter = some l := hletter
    have hmem := hround.mem_of_slot hslot
    obtain ⟨⟨n, state⟩, harrival, hbytes⟩ := Option.map_eq_some_iff.mp hreply
    obtain ⟨hn, hid, rfl⟩ := h.arrived l hmem _ harrival
    obtain ⟨hsent, hnode⟩ := h.sent l hmem
    rw [hkept.for_part.index_eq, List.getElem?_map, hindex] at hnode
    have hid : n.id = part.node := hid.trans (Option.some.inj hnode).symm
    have howned : ∀ row ∈ l.rows,
        s₀.enlister.context.ownedBy (topology s₀.state) n.id row = true := by
      intro row hrow
      have hgroup : part.rows = _ := (groupRows_owned h.groups).2.1 (part.node, part.rows)
        (List.mem_map.mpr ⟨part, hpart, rfl⟩)
      rw [hrows, hgroup] at hrow
      rw [hid]
      exact (List.mem_filter.mp hrow).2
    obtain ⟨hremap, hresult⟩ := (hsent.handled hs₀.pure (hs₀.loader n hn) hs₀.filter
      s₀.state).2 bytes response hbytes hread
    refine .inr ⟨response, rfl, hremap rfl howned, fun result hsuccess => ?_⟩
    obtain ⟨staged, hstages, hcommit, hrelayed⟩ := hresult result hsuccess
    exact ⟨⟨n, l.rows, staged⟩, ⟨hn, hid, hrows, hstages, l, hmem, harrival, hcommit⟩, hrelayed⟩

/-- A round without a failure leaves no row outstanding. The rows were carried out in shares. -/
theorem close (h : Exchanging s₀ s parts) (hs₀ : s₀.Initial library)
    (haccount : Accounted s₀.enlister s₀.call s₀.call.outstanding s) {o : RoundOutcome}
    (ho : Call.roundOutcome (topology s₀.state).version { result := s.call.result } parts = some o)
    (hsuccess : o.failure = none) :
    o.remap = none ∧ ∃ shares, Shared library s₀ s shares ∧
      o.result = s₀.call.merged shares := by
  obtain ⟨past, slots, hround⟩ := haccount.phased.of_exchanging (by rw [h.call])
  obtain ⟨hremap, shares, hshares, hresult⟩ := RoundOutcome.merged_roundOutcome
    (fun part x => SettledBy.rows) (fun part hpart outcome => h.ended hs₀ haccount hround hpart) ho
    hsuccess
  refine ⟨hremap, shares, ⟨?_, fun x hx => ?_, ?_, h.state⟩, ?_⟩
  · rw [h.groups]
    refine congrArg Except.ok (map_eq_map_of_forall₂ hshares fun part x hx => ?_)
    rw [hx.node_id, hx.rows]
  · obtain ⟨part, -, hx⟩ := exists_mem_of_forall₂ hshares hx
    exact ⟨hx.node_mem, hx.stages⟩
  · -- a node that was reached is the one of the share of its part, and no other has a share
    refine h.nodes.imp fun n n' hn => ?_
    rcases hn with ⟨l, hl, harrival, hn'⟩ | ⟨hnone, hn'⟩
    · obtain ⟨part, hslot, -, hnode⟩ := h.of_mem_letters hs₀ hround hl
      obtain ⟨x, hx, hsettled⟩ := exists_getElem?_of_forall₂ hshares (hround.part_of_slot hslot)
      obtain ⟨l', hl', harrival', hcommit⟩ := hsettled.handled
      have hname := (h.arrived l' hl' _ harrival').2.1
      obtain rfl := h.letter_unique hs₀ hround hl hl'
        (by rw [hnode, ← hname, hsettled.node_id])
      obtain ⟨rfl, -⟩ := Prod.mk.inj (Option.some.inj (harrival'.symm.trans harrival))
      exact .inl ⟨x, List.mem_of_getElem? hx, rfl, hn'.trans hcommit⟩
    · refine .inr ⟨fun x hx hname => ?_, hn'⟩
      obtain ⟨part, -, hsettled⟩ := exists_mem_of_forall₂ hshares hx
      obtain ⟨l, hl, harrival, -⟩ := hsettled.handled
      have hid := (h.arrived l hl _ harrival).2.1
      cases (hnone l hl (hid.symm.trans hname)).symm.trans harrival
  · rw [hresult, h.call]
    rfl

end Exchanging

end Network

end Enlistment
