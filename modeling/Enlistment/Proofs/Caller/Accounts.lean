import Enlistment.Proofs.Caller.Mapping
import Enlistment.Proofs.Caller.Rounds

/-!
# Accounts of a call

Whatever happens in a network, every row of a call is accounted for: it is outstanding, in a part
of the current round, or was committed by a request of an earlier round. A part whose request has
been sent is told nothing but the answer to this request, or an error.
-/

namespace Enlistment

open Registry

variable {σ : Type} [HasTopology σ]

/-- Replacing an element replaces what it contributes to a concatenation. -/
theorem perm_flatMap_set {A B : Type} {xs : List A} {i : Nat} {x : A} (h : xs[i]? = some x)
    (f : A → List B) (y : A) : (f x ++ (xs.set i y).flatMap f).Perm (f y ++ xs.flatMap f) := by
  induction xs generalizing i with
  | nil => cases h
  | cons first others ih =>
    cases i with
    | zero =>
      obtain rfl := Option.some.inj h
      exact List.perm_append_comm_assoc _ _ _
    | succ i =>
      rw [List.set_cons_succ, List.flatMap_cons, List.flatMap_cons]
      calc
        (f x ++ (f first ++ (others.set i y).flatMap f)).Perm
            (f first ++ (f x ++ (others.set i y).flatMap f)) := List.perm_append_comm_assoc _ _ _
        List.Perm _ (f first ++ (f y ++ others.flatMap f)) := (ih h).append_left _
        List.Perm _ (f y ++ (f first ++ others.flatMap f)) := List.perm_append_comm_assoc _ _ _

/-- Writing what stands in a slot changes nothing. -/
theorem set_of_getElem? {A : Type} {xs : List A} {i : Nat} {x : A} (h : xs[i]? = some x) :
    xs.set i x = xs := by
  obtain ⟨hlt, rfl⟩ := List.getElem?_eq_some_iff.mp h
  exact List.set_getElem_self hlt

/-- Replacing an element by one that a function maps to the same leaves its values as they are. -/
theorem map_set_of_getElem? {A B : Type} {xs : List A} {i : Nat} {x y : A} (h : xs[i]? = some x)
    {f : A → B} (hf : f y = f x) : (xs.set i y).map f = xs.map f := by
  rw [List.map_set, hf]
  exact set_of_getElem? (by rw [List.getElem?_map, h]; rfl)

/-- An element of a list is still there after another one has been replaced. -/
theorem mem_set_of_mem {A : Type} {xs : List A} {index : Nat} {x y : A}
    (hx : xs[index]? = some x) (hy : y ∈ xs) (x' : A) : y ∈ xs.set index x' ∨ y = x := by
  obtain ⟨j, hj⟩ := List.getElem?_of_mem hy
  by_cases heq : index = j
  · subst heq
    exact .inr (Option.some.inj (hj.symm.trans hx))
  · exact .inl (List.mem_of_getElem? (by rwa [List.getElem?_set_ne heq]))

/-- The middle two of four lists can change places. -/
theorem perm_append_append {A : Type} (w x y z : List A) :
    ((w ++ x) ++ (y ++ z)).Perm ((w ++ y) ++ (x ++ z)) := by
  simp only [List.append_assoc]
  refine List.Perm.append_left w ?_
  simp only [← List.append_assoc]
  exact List.perm_append_comm.append_right z

/-! ## Slots -/

namespace Letter

/-- What the receiver of a request may be told: that there is no answer, or what was read of the
answer to this request. -/
def Told (e : Enlister σ) (l : Letter σ) (outcome : Delivery) : Prop :=
  (∃ err : EnlistError, outcome = .error err ∧ err.IsUnanswered) ∨
    ∃ bytes, l.reply = some (.ok bytes) ∧ e.readReply bytes = outcome

/-- A request was sent for the part at a position of a round. -/
structure For (round index : Nat) (part : Part) (l : Letter σ) : Prop where
  round_eq : l.round = round
  index_eq : l.dispatch.index = index
  rows_eq : l.rows = part.rows
  mini_eq : l.mini = part.mini

/-- The rows that the request has committed or may still commit. -/
def liveRows (l : Letter σ) : List IndexedRow :=
  if l.arrival.isNone || l.committed then l.rows else []

/-- A request commits no other rows than its own. -/
theorem live_rows (l : Letter σ) : ∃ spare, (l.liveRows ++ spare).Perm l.rows := by
  unfold liveRows
  split
  · exact ⟨[], by rw [List.append_nil]⟩
  · exact ⟨l.rows, .refl _⟩

end Letter

/-- The receiver of a part that waits for its outcome. -/
def PartStage.receiver? : PartStage → Option Nat
  | sent rx _ _ | settled rx => some rx
  | _ => none

/-- How the part at a position stands with its request. -/
inductive Slot.Kept (e : Enlister σ) (future : FutureId) (round : Nat) (registry : Registry)
    (index : Nat) : Slot σ → Prop
  | planned {part : Part} (h : part.stage = .planned) :
      Kept e future round registry index (part, none)
  /-- The receiver belongs to the request. -/
  | awaited {part : Part} {l : Letter σ} {rx : Nat} (h : part.stage.receiver? = some rx)
      (hl : l.For round index part)
      (hrx : registry.Reserves (future, part.mini) rx (l.Told e)) :
      Kept e future round registry index (part, some l)
  | unsent {part : Part} {err : EnlistError} (h : part.stage = .ended (.error err))
      (herr : err.IsOwn) : Kept e future round registry index (part, none)
  | ended {part : Part} {l : Letter σ} {outcome : Delivery} (h : part.stage = .ended outcome)
      (hl : l.For round index part) (htold : l.Told e outcome) :
      Kept e future round registry index (part, some l)

namespace Slot.Kept

variable {e : Enlister σ} {future : FutureId} {round : Nat} {registry registry' : Registry}
  {index : Nat} {slot : Slot σ} {key : RequestKey} {told : Delivery → Prop}

/-- A part still stands with its request after anything that tells its receiver no more than it
may be told. -/
theorem tells (h : slot.Kept e future round registry index)
    (htells : Tells key told registry registry')
    (htold : ∀ l, slot.2 = some l → key = (future, slot.1.mini) →
      ∀ outcome, told outcome → l.Told e outcome) : slot.Kept e future round registry' index := by
  cases h with
  | planned h => exact .planned h
  | awaited h hl hrx => exact .awaited h hl (hrx.tells htells (htold _ rfl))
  | unsent h herr => exact .unsent h herr
  | ended h hl hended => exact .ended h hl hended

/-- A part that is planned has no request. -/
theorem letter_eq_none {part : Part} {letter : Option (Letter σ)}
    (h : Kept e future round registry index (part, letter)) (hplanned : part.stage = .planned) :
    letter = none := by
  cases h with
  | planned _ => rfl
  | awaited h _ _ =>
    rw [hplanned] at h
    cases h
  | unsent _ _ => rfl
  | ended h _ _ =>
    rw [hplanned] at h
    cases h

/-- A part that waits for its outcome has a request, which the receiver belongs to. -/
theorem exists_letter {part : Part} {letter : Option (Letter σ)} {rx : Nat}
    (h : Kept e future round registry index (part, letter))
    (hwaits : part.stage.receiver? = some rx) :
    ∃ l, letter = some l ∧ l.For round index part ∧
      registry.Reserves (future, part.mini) rx (l.Told e) := by
  cases h with
  | planned h =>
    rw [h] at hwaits
    cases hwaits
  | awaited h hl hrx =>
    obtain rfl := Option.some.inj (h.symm.trans hwaits)
    exact ⟨_, rfl, hl, hrx⟩
  | unsent h _ =>
    rw [h] at hwaits
    cases hwaits
  | ended h _ _ =>
    rw [h] at hwaits
    cases hwaits

/-- The request of a part was sent for it. -/
theorem for_part {part : Part} {l : Letter σ}
    (h : Kept e future round registry index (part, some l)) : l.For round index part := by
  cases h with
  | awaited _ hl _ => exact hl
  | ended _ hl _ => exact hl

/-- A request that reaches its node can only now be answered. -/
theorem arrive {part : Part} {l : Letter σ}
    (h : Kept e future round registry index (part, some l)) (hnew : l.arrival = none)
    (arrival : Option (Node σ × σ)) :
    Kept e future round registry index (part, some { l with arrival }) := by
  have htold : ∀ outcome, l.Told e outcome → ({ l with arrival } : Letter σ).Told e outcome := by
    rintro outcome (herr | ⟨bytes, hreply, -⟩)
    · exact .inl herr
    · simp [Letter.reply, hnew] at hreply
  have hfor : l.For round index part →
      ({ l with arrival } : Letter σ).For round index part :=
    fun hl => ⟨hl.round_eq, hl.index_eq, hl.rows_eq, hl.mini_eq⟩
  cases h with
  | awaited h hl hrx => exact .awaited h (hfor hl) (hrx.mono htold)
  | ended h hl hended => exact .ended h (hfor hl) (htold _ hended)

/-- A part that has ended is closed. -/
theorem closed (h : slot.Kept e future round registry index) {c : Call σ}
    (hposted : ∀ l, slot.2 = some l → l.Posted e c) : slot.Closed e c := by
  intro outcome hstage
  cases h with
  | planned h =>
    rw [h] at hstage
    cases hstage
  | awaited h hl hrx =>
    rw [hstage] at h
    cases h
  | unsent h herr =>
    rw [h] at hstage
    obtain rfl := PartStage.ended.inj hstage
    exact .inl ⟨_, rfl, herr⟩
  | ended h hl htold =>
    rw [h] at hstage
    obtain rfl := PartStage.ended.inj hstage
    rcases htold with ⟨err, houtcome, herr⟩ | ⟨bytes, hreply, hread⟩
    · exact .inl ⟨err, houtcome, herr.isOwn⟩
    · exact .inr ⟨_, bytes, rfl, hl.rows_eq, hposted _ rfl, hreply, hread⟩

end Slot.Kept

/-! ## Rounds -/

/-- An event that can happen: an exchange only ends with the answer to the request of this round
that was sent for its part. -/
def Network.Genuine (s : Network σ) : Event → Prop
  | .settle index (.replied bytes) =>
    ∃ l ∈ s.letters, l.round = s.round ∧ l.dispatch.index = index ∧
      l.reply = some (.ok bytes)
  | _ => True

/-- A round on its way: the requests of earlier rounds and those of its parts. -/
structure Round (e : Enlister σ) (c : Call σ) (rows : List IndexedRow) (s : Network σ)
    (parts : List Part) (past : List (Letter σ)) (slots : List (Slot σ)) : Prop where
  letters : s.letters.Perm (past ++ slots.flatMap fun slot => slot.2.toList)
  parts_eq : slots.map Prod.fst = parts
  tallied : Tallied e c rows past (parts.flatMap Part.rows) s.call.result.previous
  earlier : ∀ l ∈ past, l.round < s.round
  minis : (parts.map Part.mini).Nodup
  kept : ∀ (index : Nat) (slot : Slot σ), slots[index]? = some slot →
    slot.Kept e s.call.future s.round s.enlister.registry index

namespace Round

variable {e : Enlister σ} {c : Call σ} {rows : List IndexedRow} {s s' : Network σ}
  {parts : List Part} {past : List (Letter σ)} {slots : List (Slot σ)} {index : Nat} {part : Part}

/-- Every part has a slot. -/
theorem exists_slot (h : Round e c rows s parts past slots) (hpart : parts[index]? = some part) :
    ∃ letter, slots[index]? = some (part, letter) := by
  rw [← h.parts_eq, List.getElem?_map] at hpart
  obtain ⟨⟨part', letter⟩, hslot, rfl⟩ := Option.map_eq_some_iff.mp hpart
  exact ⟨letter, hslot⟩

/-- Every slot has a part. -/
theorem part_of_slot (h : Round e c rows s parts past slots) {letter : Option (Letter σ)}
    (hslot : slots[index]? = some (part, letter)) : parts[index]? = some part := by
  rw [← h.parts_eq, List.getElem?_map, hslot]
  rfl

/-- Parts at different positions have different numbers. -/
theorem mini_ne (h : Round e c rows s parts past slots) {other : Nat} {slot slot' : Slot σ}
    (hne : other ≠ index) (hslot : slots[index]? = some slot)
    (hslot' : slots[other]? = some slot') : slot.1.mini ≠ slot'.1.mini := by
  intro heq
  have hminis := h.minis
  rw [← h.parts_eq, List.map_map] at hminis
  have hsome : (slots.map (Part.mini ∘ Prod.fst))[index]? = some slot.1.mini := by
    rw [List.getElem?_map, hslot]
    rfl
  have hsome' : (slots.map (Part.mini ∘ Prod.fst))[other]? = some slot.1.mini := by
    rw [List.getElem?_map, hslot', heq]
    rfl
  have hlt := (List.getElem?_eq_some_iff.mp hsome').1
  exact hne ((List.getElem?_inj hlt hminis).mp (hsome'.trans hsome.symm))

/-- A part goes on with its request while the others stay as they are. -/
theorem update (h : Round e c rows s parts past slots) {letter letter' : Option (Letter σ)}
    {part' : Part} {parts' : List Part} {told : Delivery → Prop}
    (hslot : slots[index]? = some (part, letter))
    (hkept : Slot.Kept e s'.call.future s'.round s'.enlister.registry index
      (part', letter'))
    (hletters : s'.letters.Perm
      (past ++ (slots.set index (part', letter')).flatMap fun slot => slot.2.toList))
    (htells : Tells (s.call.future, part.mini) told s.enlister.registry s'.enlister.registry)
    (hparts : parts.set index part' = parts') (hrows : part'.rows = part.rows)
    (hmini : part'.mini = part.mini) (hfuture : s'.call.future = s.call.future)
    (hround : s'.round = s.round) (hresult : s'.call.result = s.call.result) :
    Round e c rows s' parts' past (slots.set index (part', letter')) := by
  subst hparts
  have hpart := h.part_of_slot hslot
  refine ⟨hletters, ?_, ?_, ?_, ?_, ?_⟩
  · rw [List.map_set, h.parts_eq]
  · rw [List.flatMap_def, map_set_of_getElem? hpart hrows, ← List.flatMap_def, hresult]
    exact h.tallied
  · rw [hround]
    exact h.earlier
  · rw [map_set_of_getElem? hpart hmini]
    exact h.minis
  · intro other slot hother
    rw [List.getElem?_set] at hother
    split at hother
    · next heq =>
      subst heq
      split at hother
      · rwa [← Option.some.inj hother]
      · cases hother
    · next hne =>
      rw [hfuture, hround]
      refine (h.kept other slot hother).tells htells fun l _ hkey => ?_
      exact absurd (Prod.mk.inj hkey).2 (h.mini_ne (fun heq => hne heq.symm) hslot hother)

/-- What happens beside the call leaves a round as it is. -/
theorem beside (h : Round e c rows s parts past slots) (hcall : s'.call = s.call)
    (hletters : s'.letters = s.letters) (hround : s'.round = s.round) {key : RequestKey}
    {told : Delivery → Prop}
    (htells : Tells key told s.enlister.registry s'.enlister.registry)
    (hkey : (∀ outcome, ¬told outcome) ∨ key.1 ≠ s.call.future) :
    Round e c rows s' parts past slots := by
  refine ⟨hletters ▸ h.letters, h.parts_eq, hcall ▸ h.tallied, hround ▸ h.earlier, h.minis,
    fun index slot hslot => ?_⟩
  rw [hcall, hround]
  refine (h.kept index slot hslot).tells htells fun l _ heq outcome htold => ?_
  rcases hkey with hsilent | hother
  · exact absurd htold (hsilent outcome)
  · exact absurd (congrArg Prod.fst heq) hother

/-- The request of a part is one of the call. -/
theorem mem_of_slot (h : Round e c rows s parts past slots) {l : Letter σ}
    (hslot : slots[index]? = some (part, some l)) : l ∈ s.letters :=
  h.letters.mem_iff.mpr (List.mem_append_right _
    (List.mem_flatMap.mpr ⟨_, List.mem_of_getElem? hslot, by simp⟩))

/-- A request is of an earlier round or belongs to a part of this one. -/
theorem mem_letters (h : Round e c rows s parts past slots) {l : Letter σ} (hl : l ∈ s.letters) :
    l ∈ past ∨ ∃ index part, slots[index]? = some (part, some l) ∧
      l.For s.round index part := by
  rcases List.mem_append.mp (h.letters.mem_iff.mp hl) with hpast | hslot
  · exact .inl hpast
  · obtain ⟨⟨part, letter⟩, hmem, hletter⟩ := List.mem_flatMap.mp hslot
    obtain rfl : letter = some l := by simpa using hletter
    obtain ⟨index, hindex⟩ := List.getElem?_of_mem hmem
    exact .inr ⟨index, part, hindex, (h.kept index _ hindex).for_part⟩

/-- An answer that ends an exchange is the one to the request of its part. -/
theorem answered (h : Round e c rows s parts past slots) {l : Letter σ} {x : Exchange}
    (hslot : slots[index]? = some (part, some l)) (hgenuine : s.Genuine (.settle index x))
    {bytes : Bytes} (hx : x = .replied bytes) : l.reply = some (.ok bytes) := by
  subst hx
  obtain ⟨l', hmem, hround, hindex, hreply⟩ := hgenuine
  rcases h.mem_letters hmem with hpast | ⟨other, part', hother, hfor⟩
  · exact absurd (h.earlier l' hpast) (by omega)
  · obtain rfl : index = other := hindex.symm.trans hfor.index_eq
    obtain ⟨-, hsame⟩ := Prod.mk.inj (Option.some.inj (hother.symm.trans hslot))
    rwa [← Option.some.inj hsame]

/-- What is collected for a part that waits is something that its receiver may be told. -/
theorem collected (h : Round e c rows s parts past slots) {letter : Option (Letter σ)}
    (hslot : slots[index]? = some (part, letter)) {rx : Nat}
    (hwaits : part.stage.receiver? = some rx) {key : RequestKey} {outcome : Delivery}
    {enlister : Enlister σ} (hcollect : s.enlister.collect key rx = (some outcome, enlister)) :
    ∃ l, letter = some l ∧ l.For s.round index part ∧ l.Told e outcome := by
  obtain ⟨l, rfl, hfor, hrx⟩ := (h.kept index _ hslot).exists_letter hwaits
  refine ⟨l, rfl, hfor, ?_⟩
  rcases (Enlister.collect_some hcollect).2 with hdelivered | hcancelled
  · exact hrx.delivered outcome hdelivered
  · exact .inl ⟨_, hcancelled, trivial⟩

/-- Every part that has ended is closed. -/
theorem closed (h : Round e c rows s parts past slots) (hposted : ∀ l ∈ s.letters, l.Posted e c) :
    ∀ slot ∈ slots, slot.Closed e c := by
  rintro ⟨part, letter⟩ hslot
  obtain ⟨index, hindex⟩ := List.getElem?_of_mem hslot
  refine (h.kept index _ hindex).closed ?_
  rintro l rfl
  exact hposted l (h.mem_of_slot hindex)

/-- The account of a round whose parts have all ended without a failure. -/
theorem close (h : Round e c rows s parts past slots) (horder : InOrder rows)
    (hposted : ∀ l ∈ s.letters, l.Posted e c) {topology : TopologyVersion} {o : RoundOutcome}
    (ho : Call.roundOutcome topology { result := s.call.result } parts = some o)
    (hfailure : o.failure = none) :
    Tallied e c rows s.letters o.outstanding o.result.previous ∧
      (o.remap = none → o.outstanding = []) := by
  have hparts := h.parts_eq
  subst hparts
  obtain ⟨htallied, hremap⟩ := RoundOutcome.tallied_roundOutcome horder (h.closed hposted)
    h.tallied ho hfailure fun _ => rfl
  exact ⟨htallied.of_perm h.letters (.refl _), hremap⟩

end Round

/-! ## Rows that are still to be committed -/

/-- Between two rounds no more rows are committed. -/
theorem Tallied.live {e : Enlister σ} {c : Call σ} {rows outstanding : List IndexedRow}
    {letters : List (Letter σ)} {previous : List (Option Value)}
    (h : Tallied e c rows letters outstanding previous) :
    letters.flatMap Letter.liveRows = letters.flatMap Letter.committedRows := by
  rw [List.flatMap_def, List.flatMap_def]
  refine congrArg List.flatten (List.map_congr_left fun l hl => ?_)
  have harrived := h.arrived l hl
  simp [Letter.liveRows, Letter.committedRows, Option.isNone_eq_false_iff.mpr harrived]

/-- The parts of a round hold the rows of their requests. -/
theorem Slot.live {slots : List (Slot σ)}
    (h : ∀ slot ∈ slots, ∀ l, slot.2 = some l → l.rows = slot.1.rows) :
    ∃ rest, ((slots.flatMap fun slot => slot.2.toList).flatMap Letter.liveRows ++ rest).Perm
      ((slots.map Prod.fst).flatMap Part.rows) := by
  induction slots with
  | nil => exact ⟨[], .refl _⟩
  | cons slot others ih =>
    obtain ⟨hfirst, hothers⟩ := List.forall_mem_cons.mp h
    obtain ⟨rest, hrest⟩ := ih hothers
    have hone : ∃ spare, ((slot.2.toList.flatMap Letter.liveRows) ++ spare).Perm slot.1.rows := by
      cases hletter : slot.2 with
      | none => exact ⟨slot.1.rows, .refl _⟩
      | some l =>
        rw [← hfirst l hletter, Option.toList_some, List.flatMap_singleton]
        exact l.live_rows
    obtain ⟨spare, hspare⟩ := hone
    refine ⟨spare ++ rest, ?_⟩
    rw [List.flatMap_cons, List.flatMap_append, List.map_cons, List.flatMap_cons]
    exact (perm_append_append _ _ _ _).trans (hspare.append hrest)

/-- The rows that the requests of a round have committed or may still commit are different rows of
the call. -/
theorem Round.live {e : Enlister σ} {c : Call σ} {rows : List IndexedRow} {s : Network σ}
    {parts : List Part} {past : List (Letter σ)} {slots : List (Slot σ)}
    (h : Round e c rows s parts past slots) :
    ∃ rest, (s.letters.flatMap Letter.liveRows ++ rest).Perm rows := by
  have hrows : ∀ slot ∈ slots, ∀ l, slot.2 = some l → l.rows = slot.1.rows := by
    rintro ⟨part, letter⟩ hslot l rfl
    obtain ⟨index, hindex⟩ := List.getElem?_of_mem hslot
    exact (h.kept index _ hindex).for_part.rows_eq
  obtain ⟨rest, hrest⟩ := Slot.live hrows
  refine ⟨rest, List.Perm.trans ?_ h.tallied.shared⟩
  rw [← h.parts_eq, ← h.tallied.live]
  refine ((h.letters.flatMap_right _).append_right rest).trans ?_
  rw [List.flatMap_append, List.append_assoc]
  exact hrest.append_left _

/-! ## Phases -/

/-- Where the rows of a call are, phase by phase. -/
inductive Phased (e : Enlister σ) (c : Call σ) (rows : List IndexedRow) (s : Network σ) : Prop
  | mapping (hphase : s.call.phase = .mapping)
      (h : Tallied e c rows s.letters s.call.outstanding s.call.result.previous)
      (hearlier : s.call.outstanding = [] ∨ ∀ l ∈ s.letters, l.round < s.round)
  | exchanging {topology : TopologyVersion} {parts : List Part} {past : List (Letter σ)}
      {slots : List (Slot σ)} (hphase : s.call.phase = .exchanging topology parts)
      (h : Round e c rows s parts past slots)
  | remapping {requested current : TopologyVersion} {mini : MiniId} {giveUpAt : Nat}
      (hphase : s.call.phase = .remapping requested current mini giveUpAt)
      (h : Tallied e c rows s.letters s.call.outstanding s.call.result.previous)
      (hearlier : ∀ l ∈ s.letters, l.round < s.round)
  | finished {result : EnlistResult} (hphase : s.call.phase = .ended (.ok result))
      (h : Tallied e c rows s.letters [] result.previous)
  /-- Requests on their way may still arrive. -/
  | failed {err : EnlistError} {rest : List IndexedRow}
      (hphase : s.call.phase = .ended (.error err))
      (h : (s.letters.flatMap Letter.liveRows ++ rest).Perm rows)

section

variable {e : Enlister σ} {c : Call σ} {rows : List IndexedRow} {s : Network σ}

/-- What happens beside the call leaves it in its phase. -/
theorem Phased.beside (h : Phased e c rows s) {s' : Network σ} (hcall : s'.call = s.call)
    (hletters : s'.letters = s.letters) (hround : s'.round = s.round) {key : RequestKey}
    {told : Delivery → Prop}
    (htells : Tells key told s.enlister.registry s'.enlister.registry)
    (hkey : (∀ outcome, ¬told outcome) ∨ key.1 ≠ s.call.future) : Phased e c rows s' := by
  cases h with
  | mapping hphase h hearlier =>
    rw [← hcall] at hphase h hearlier
    rw [← hletters] at h hearlier
    rw [← hround] at hearlier
    exact .mapping hphase h hearlier
  | exchanging hphase h =>
    exact .exchanging (hcall ▸ hphase) (h.beside hcall hletters hround htells hkey)
  | remapping hphase h hearlier =>
    rw [← hcall] at hphase h
    rw [← hletters] at h hearlier
    rw [← hround] at hearlier
    exact .remapping hphase h hearlier
  | finished hphase h => exact .finished (hcall ▸ hphase) (hletters ▸ h)
  | failed hphase h => exact .failed (hcall ▸ hphase) (hletters ▸ h)

/-- A call that is about to map has the account of a batch between two rounds. Unless nothing is
outstanding, all its requests are of earlier rounds. -/
theorem Phased.of_mapping (h : Phased e c rows s) (hmapping : s.call.phase = .mapping) :
    Tallied e c rows s.letters s.call.outstanding s.call.result.previous ∧
      (s.call.outstanding = [] ∨ ∀ l ∈ s.letters, l.round < s.round) := by
  cases h with
  | mapping _ h hearlier => exact ⟨h, hearlier⟩
  | _ hphase => cases hphase.symm.trans hmapping

/-- A call that exchanges is in the middle of a round. -/
theorem Phased.of_exchanging (h : Phased e c rows s) {topology : TopologyVersion}
    {parts : List Part} (hexchanging : s.call.phase = .exchanging topology parts) :
    ∃ past slots, Round e c rows s parts past slots := by
  cases h with
  | exchanging hphase h =>
    cases hphase.symm.trans hexchanging
    exact ⟨_, _, h⟩
  | _ hphase => cases hphase.symm.trans hexchanging

/-- A call that waits for a topology has the account of a batch between two rounds, and all its
requests are of earlier rounds. -/
theorem Phased.of_remapping (h : Phased e c rows s) {requested current : TopologyVersion}
    {mini : MiniId} {giveUpAt : Nat}
    (hremapping : s.call.phase = .remapping requested current mini giveUpAt) :
    Tallied e c rows s.letters s.call.outstanding s.call.result.previous ∧
      ∀ l ∈ s.letters, l.round < s.round := by
  cases h with
  | remapping _ h hearlier => exact ⟨h, hearlier⟩
  | _ hphase => cases hphase.symm.trans hremapping

/-- A call that has ended well has nothing outstanding. -/
theorem Phased.of_finished (h : Phased e c rows s) {result : EnlistResult}
    (hfinished : s.call.phase = .ended (.ok result)) :
    Tallied e c rows s.letters [] result.previous := by
  cases h with
  | finished hphase h =>
    cases hphase.symm.trans hfinished
    exact h
  | _ hphase => cases hphase.symm.trans hfinished

end

/-- In every phase the rows that the requests of a call have committed or may still commit are
different rows of the call. -/
theorem Phased.live {e : Enlister σ} {c : Call σ} {rows : List IndexedRow} {s : Network σ}
    (h : Phased e c rows s) : ∃ rest, (s.letters.flatMap Letter.liveRows ++ rest).Perm rows := by
  cases h with
  | mapping _ h _ => exact ⟨_, h.live ▸ h.shared⟩
  | exchanging _ h => exact h.live
  | remapping _ h _ => exact ⟨_, h.live ▸ h.shared⟩
  | finished _ h => exact ⟨_, h.live ▸ h.shared⟩
  | failed _ h => exact ⟨_, h⟩

/-- The account of a call in a network: every row is where the phase of the call says, and the
requests are those of the call. -/
structure Accounted (e : Enlister σ) (c : Call σ) (rows : List IndexedRow) (s : Network σ) :
    Prop where
  future : s.call.future = c.future
  op : s.call.op = c.op
  options : s.call.options = c.options
  enlister : ∃ registry nextMini nextMessageId,
    s.enlister = { e with registry, nextMini, nextMessageId }
  sound : s.enlister.registry.Sound
  posted : ∀ l ∈ s.letters, l.Posted e c
  phased : Phased e c rows s

end Enlistment
