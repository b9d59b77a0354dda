import Enlistment.Proofs.Caller.Answers
import Enlistment.Proofs.Caller.Exchanges

/-!
# Calls in a network

A call runs against any number of nodes. Everything happens in any order and at any time: the
call goes on, a request reaches its node or does not, an exchange ends with the answer, with a
failure or with a timeout, nodes and their topology change, and other calls use the same enlister.
The network delivers each request at most once and leaves it and its answer as they are.
-/

namespace Enlistment

variable {σ : Type}

/-- A request on its way. -/
structure Letter (σ : Type) where
  /-- The number of remaps before its round. -/
  round : Nat
  mini : MiniId
  rows : List IndexedRow
  dispatch : Dispatch
  /-- The node that it has reached, as it was then, with the state of the user code and the
  topology. -/
  arrival : Option (Node σ × σ) := none

/-- A call with its enlister, the nodes, what these share, and the requests of the call. -/
structure Network (σ : Type) where
  call : Call σ
  enlister : Enlister σ
  nodes : List (Node σ)
  state : σ
  letters : List (Letter σ) := []
  /-- The number of remaps so far. The counter of the call wraps around, this one does not. -/
  round : Nat := 0

/-- Something that happens in a network at a time. -/
inductive Move (σ : Type) where
  /-- The call goes on by itself, or an exchange ends without an answer. -/
  | event (now : Nat) (event : Event)
  /-- The request at a position reaches the node at a position. -/
  | arrive (letter node : Nat)
  /-- The answer to the request at a position reaches the caller. -/
  | answer (now letter : Nat)
  /-- The nodes do something else, or their topology changes. -/
  | change (f : List (Node σ) → σ → List (Node σ) × σ)
  /-- Another call uses the enlister, or this call is cancelled. -/
  | registry (action : RegistryAction) (nextMini : MiniId) (nextMessageId : Int64)

/-- The result of a call that has succeeded. -/
def Phase.result? : Phase → Option EnlistResult
  | .ended (.ok result) => some result
  | _ => none

/-- A phase has a result if and only if the call has ended with it. -/
theorem Phase.result?_eq_some_iff {phase : Phase} {result : EnlistResult} :
    phase.result? = some result ↔ phase = .ended (.ok result) := by
  refine ⟨fun h => ?_, fun h => by rw [h]; rfl⟩
  unfold result? at h
  split at h
  · next r => rw [Option.some.inj h]
  · cases h

/-- The reason for which a call has failed. -/
def Phase.failure? : Phase → Option EnlistError
  | .ended (.error err) => some err
  | _ => none

/-- A phase has an error if and only if the call has ended with it. -/
theorem Phase.failure?_eq_some_iff {phase : Phase} {err : EnlistError} :
    phase.failure? = some err ↔ phase = .ended (.error err) := by
  refine ⟨fun h => ?_, fun h => by rw [h]; rfl⟩
  unfold failure? at h
  split at h
  · next cause => rw [Option.some.inj h]
  · cases h

/-- Whether an exchange ends with an answer. -/
def Event.isAnswer : Event → Bool
  | .settle _ (.replied _) => true
  | _ => false

namespace Letter

variable [HasTopology σ]

/-- What the node has answered. -/
def reply (l : Letter σ) : Option (Except HandleError Bytes) :=
  l.arrival.map fun a => (a.1.handleBytes l.dispatch.payload a.2).1

/-- Whether the request has changed the state of its node. -/
def committed (l : Letter σ) : Bool :=
  l.arrival.any fun a => decide ((a.1.handleBytes l.dispatch.payload a.2).2.1.state ≠ a.1.state)

/-- The rows that are committed by the request. -/
def committedRows (l : Letter σ) : List IndexedRow := if l.committed then l.rows else []

end Letter

namespace Network

/-- A call that starts at a time. -/
def start (e : Enlister σ) (nodes : List (Node σ)) (state : σ) (future : FutureId)
    (tx : Transaction) (op : Operation) (rows : List Row) (options : EnlistOptions σ) (now : Nat) :
    Network σ where
  call := .start future tx op rows options now
  enlister := e
  nodes
  state

/-- The request that the call puts on its way. -/
def post (s : Network σ) (d : Dispatch) : List (Letter σ) :=
  match s.call.phase with
  | .exchanging _ parts =>
    (parts[d.index]?).toList.map fun part =>
      { round := s.round, mini := part.mini, rows := part.rows, dispatch := d }
  | _ => []

/-- The number of remaps after the call went on. -/
def roundAfter (s : Network σ) (call : Call σ) : Nat :=
  if call.attempt = s.call.attempt then s.round else s.round + 1

/-- The network after the call went on, with the request that it has handed over. -/
def take (s : Network σ) (r : Option Dispatch × Call σ × Enlister σ) : Network σ :=
  { s with
    call := r.2.1
    enlister := r.2.2
    letters := s.letters ++ r.1.toList.flatMap s.post
    round := s.roundAfter r.2.1 }

/-- The call went on without a request. -/
theorem take_none (s : Network σ) (r : Call σ × Enlister σ) :
    s.take (none, r) = { s with call := r.1, enlister := r.2, round := s.roundAfter r.1 } := by
  simp [take]

/-- A remap begins another round, even where the counter of the call wraps around. -/
theorem roundAfter_of_remap (s : Network σ) {call : Call σ}
    (h : call.attempt = s.call.attempt + 1) : s.roundAfter call = s.round + 1 :=
  if_neg (by simp [h])

/-- A call that went on without a remap is still in its round. -/
theorem take_within (s : Network σ) (r : Call σ × Enlister σ)
    (h : r.1.attempt = s.call.attempt) :
    s.take (none, r) = { s with call := r.1, enlister := r.2 } := by
  rw [take_none, roundAfter, if_pos h]

/-- A call that does nothing leaves its network alone. -/
theorem take_idle (s : Network σ) : s.take (none, s.call, s.enlister) = s :=
  s.take_within (s.call, s.enlister) rfl

/-- A call that maps its rows is still in its round. -/
theorem take_mapRound (s : Network σ) (seen : Readings) :
    s.take (none, s.call.mapRound s.enlister seen) =
      { s with
        call := (s.call.mapRound s.enlister seen).1
        enlister := (s.call.mapRound s.enlister seen).2 } :=
  s.take_within _ (s.call.attempt_mapRound s.enlister seen)

/-- A call with a part at another stage is still in its round. -/
theorem take_setStage (s : Network σ) (index : Nat) (stage : PartStage) (enlister : Enlister σ) :
    s.take (none, s.call.setStage index stage, enlister) =
      { s with call := s.call.setStage index stage, enlister } :=
  s.take_within (s.call.setStage index stage, enlister) (s.call.attempt_setStage index stage)

/-- A call that goes on to the next round has counted it before. -/
theorem take_nextRound (s : Network σ) :
    s.take (none, s.call.nextRound, s.enlister) = { s with call := s.call.nextRound } :=
  s.take_within (s.call.nextRound, s.enlister) rfl

variable [HasTopology σ]

/-- The network after an event of the call. -/
def advance (s : Network σ) (now : Nat) (event : Event) : Network σ :=
  s.take (s.call.step s.enlister now event)

/-- The network after a request has reached its node, unless it already did. -/
def arrive (s : Network σ) (letter node : Nat) : Network σ :=
  match s.letters[letter]?, s.nodes[node]? with
  | some l, some n =>
    if l.arrival.isNone && n.id == l.dispatch.node then
      let r := n.handleBytes l.dispatch.payload s.state
      { s with
        nodes := s.nodes.set node r.2.1
        state := r.2.2
        letters := s.letters.set letter { l with arrival := some (n, s.state) } }
    else s
  | _, _ => s

/-- The network after an answer has reached the caller. Only the exchanges of the current round are
still waited for. -/
def answer (s : Network σ) (now letter : Nat) : Network σ :=
  match s.letters[letter]? with
  | some l =>
    match l.reply with
    | some (.ok bytes) =>
      if l.round = s.round then s.advance now (.settle l.dispatch.index (.replied bytes))
      else s
    | _ => s
  | none => s

/-- The network after a move. What cannot happen leaves it alone, and so does another call that
would answer the requests of this one. -/
def move (s : Network σ) : Move σ → Network σ
  | .event now event => if event.isAnswer then s else s.advance now event
  | .arrive letter node => s.arrive letter node
  | .answer now letter => s.answer now letter
  | .change f => let r := f s.nodes s.state; { s with nodes := r.1, state := r.2 }
  | .registry action nextMini nextMessageId =>
    if action.told?.all fun key => key.1 != s.call.future then
      { s with enlister :=
        { s.enlister with
          registry := s.enlister.registry.perform action, nextMini, nextMessageId } }
    else s

/-- The network after some moves, one after the other. -/
def run (s : Network σ) (moves : List (Move σ)) : Network σ := moves.foldl move s

/-- The number of requests that have committed the row at a position of the caller's batch. -/
def commits (s : Network σ) (index : Nat) : Nat :=
  s.letters.countP fun l => l.committed && (l.rows.map Prod.fst).contains index

/-- What each of some moves preserves, a run with these moves preserves. -/
theorem run_invariant_of_mem {P : Network σ → Prop} {moves : List (Move σ)}
    (hmove : ∀ s, ∀ m ∈ moves, P s → P (s.move m)) {s : Network σ} (h : P s) : P (s.run moves) := by
  unfold run
  induction moves generalizing s with
  | nil => exact h
  | cons m rest ih =>
    exact ih (fun s m' hm' => hmove s m' (List.mem_cons_of_mem _ hm'))
      (hmove s m (List.mem_cons_self ..) h)

/-- What every move preserves, a run preserves. -/
theorem run_invariant {P : Network σ → Prop} (hmove : ∀ s m, P s → P (s.move m)) {s : Network σ}
    (h : P s) (moves : List (Move σ)) : P (s.run moves) :=
  run_invariant_of_mem (fun s m _ => hmove s m) h

end Network

/-! ## Requests and their answers -/

namespace Letter

/-- A request of a call as an enlister has sent it. -/
def Posted (e : Enlister σ) (call : Call σ) (l : Letter σ) : Prop :=
  ∃ (part : Part) (sent : EnlistRequest σ), sent.Fresh (l.rows.map Prod.snd) ∧
    sent.op = some call.op ∧ sent.futureId = call.future ∧ sent.mini = l.mini ∧
    sent.filter = call.options.filter ∧ sent.keepBinary = call.options.keepBinary ∧
    sent.needResult = call.options.needResult ∧
    e.encodeRequest part sent = .ok l.dispatch.payload

variable [HasTopology σ] {e : Enlister σ} {call : Call σ} {l : Letter σ} {bytes : Bytes}
  {response : EnlistResponse}

/-- A request that has committed something was read by its node as it was sent. -/
theorem Posted.carries (h : l.Posted e call) (hcommitted : l.committed = true) :
    ∃ (n : Node σ) (state : σ) (req : EnlistRequest σ) (wire : WireRows σ),
      l.arrival = some (n, state) ∧ n.decodeRequest l.dispatch.payload = .ok req ∧
      req.op = some call.op ∧ req.futureId = call.future ∧
      EnlistRequest.convertRows e.context (some call.op) (l.rows.map Prod.snd) = .ok wire ∧
      req.wire = some wire.onWire := by
  obtain ⟨part, sent, hfresh, hop, hfuture, -, -, -, -, hsent⟩ := h
  unfold committed at hcommitted
  rcases harrival : l.arrival with _ | ⟨n, state⟩ <;> rw [harrival] at hcommitted
  · cases hcommitted
  · have hchanged := of_decide_eq_true hcommitted
    cases hread : n.decodeRequest l.dispatch.payload with
    | error err =>
      simp only [Node.handleBytes, hread] at hchanged
      exact absurd rfl hchanged
    | ok req =>
      have hcarries := Node.decodeRequest_carries hfresh hsent hread
      obtain ⟨wire, hconvert, hwire⟩ := hcarries.rows
      rw [hop] at hconvert
      exact ⟨n, state, req, wire, rfl, hread, hcarries.op.trans hop,
        hcarries.futureId.trans hfuture, hconvert, hwire⟩

/-- An answer that the caller can read is known by its request. A remap or an error says that the
request has committed nothing. Anything else says that it has committed its rows, with one result
for each of them if results were asked for. -/
theorem Posted.answer (h : l.Posted e call) (hreply : l.reply = some (.ok bytes))
    (hread : e.readReply bytes = .ok response) :
    (response.futureId, response.mini) = (call.future, l.mini) ∧
      (response.remap.isSome ∨ response.error.isSome → l.committed = false) ∧
      (response.remap = none → response.error = none → l.committed = true ∧
        (call.options.needResult = true →
          (response.result.getD []).length = l.rows.length)) := by
  obtain ⟨part, sent, hfresh, hop, hfuture, hmini, -, -, hneed, hsent⟩ := h
  unfold reply at hreply
  unfold committed
  obtain ⟨⟨n, state⟩, harrival, hanswer⟩ := Option.map_eq_some_iff.mp hreply
  rcases hhandled : n.handleBytes l.dispatch.payload state with ⟨outcome, n', state'⟩
  rw [hhandled] at hanswer
  obtain rfl : outcome = .ok bytes := hanswer
  cases hreq : n.decodeRequest l.dispatch.payload with
  | error err =>
    simp only [Node.handleBytes, hreq] at hhandled
    cases hhandled
  | ok req =>
    have hcarries := Node.decodeRequest_carries hfresh hsent hreq
    have hsome : req.op.isSome = true := by rw [hcarries.op, hop]; rfl
    obtain ⟨hfuture', hmini', hrejected, haccepted⟩ :=
      Node.handleBytes_answer hreq hcarries.shaped hsome hhandled hread
    simp only [harrival, Option.any_some, hhandled]
    refine ⟨?_, fun hr => ?_, fun hremap herror => ?_⟩
    · rw [hfuture', hmini', hcarries.futureId, hcarries.mini, hfuture, hmini]
    · rw [hrejected hr]
      exact decide_eq_false fun hne => hne rfl
    · obtain ⟨hchanged, hlength⟩ := haccepted hremap herror
      refine ⟨decide_eq_true hchanged, fun hresult => ?_⟩
      rw [hlength (by rw [hcarries.needResult, hneed, hresult]), hcarries.declaredKeys,
        List.length_map, List.length_map]

end Letter

end Enlistment
