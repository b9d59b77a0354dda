import Enlistment.Proofs.Stream.Chunking
import Enlistment.Stream.Pool

/-!
# Encoding through buffers of a pool

A message is encoded by a loop of turns through one buffer, which may hold octets of earlier
messages. The loop has no bound of its own. It comes to an end because every turn but the last one
writes something, as long as the buffer holds every unit of the protocol, and every buffer of a pool
does: a pool takes back buffers of its own size only, and no more of them than it may keep.
-/

namespace Enlistment

open Wire

/-! ## The loop -/

/-- A buffer after octets were written over its first ones. -/
def Bytes.overwrite (bs buffer : Bytes) : Bytes := bs ++ buffer.drop bs.length

/-- What was written over the first octets of a buffer can be taken out of it. -/
theorem Bytes.take_overwrite (bs buffer : Bytes) : (overwrite bs buffer).take bs.length = bs :=
  List.take_left

/-- A buffer that has room for some octets stays as long as it is. -/
theorem Bytes.length_overwrite {bs buffer : Bytes} (h : bs.length ≤ buffer.length) :
    (overwrite bs buffer).length = buffer.length := by
  rw [overwrite, List.length_append, List.length_drop]
  omega

namespace Encoder

/-- The loop that writes a message through a buffer, turn by turn, and takes out of the buffer what
each turn has written there. It ends with the octets of the message or with a fault, and leaves the
buffer as the last turn has. -/
inductive Loop (d : Draft) : Encoder → Bytes → Except CodecError Bytes → Bytes → Prop
  | failed {e e' : Encoder} {buffer bs : Bytes} {error : CodecError}
      (h : e.encode d buffer.length = (.failed error, bs, e')) :
      Loop d e buffer (.error error) (bs.overwrite buffer)
  | complete {e e' : Encoder} {buffer bs : Bytes}
      (h : e.encode d buffer.length = (.advance, bs, e')) :
      Loop d e buffer (.ok ((bs.overwrite buffer).take bs.length)) (bs.overwrite buffer)
  /-- A turn that runs out of room before it has written anything. -/
  | stuck {e e' : Encoder} {buffer : Bytes}
      (h : e.encode d buffer.length = (.incomplete, [], e')) :
      Loop d e buffer (.error (.invalidPayload (.noProgress buffer.length))) buffer
  | turn {e e' : Encoder} {buffer bs last : Bytes} {out : Except CodecError Bytes}
      (h : e.encode d buffer.length = (.incomplete, bs, e')) (hwritten : bs ≠ [])
      (hrest : Loop d e' (bs.overwrite buffer) out last) :
      Loop d e buffer (out.map fun rest => (bs.overwrite buffer).take bs.length ++ rest) last

/-- The loop ends in one way only. -/
theorem Loop.unique {d : Draft} {e : Encoder} {buffer last last' : Bytes}
    {out out' : Except CodecError Bytes} (h : Loop d e buffer out last)
    (h' : Loop d e buffer out' last') : out = out' ∧ last = last' := by
  induction h generalizing out' last' with
  | failed hcall | complete hcall =>
    cases h' with
    | failed hcall' | complete hcall' | stuck hcall' | turn hcall' hwritten' hrest' => grind
  | stuck hcall =>
    cases h' with
    | failed hcall' | complete hcall' | stuck hcall' | turn hcall' hwritten' hrest' => grind
  | turn hcall hwritten hrest ih =>
    cases h' with
    | failed hcall' | complete hcall' | stuck hcall' => grind
    | turn hcall' hwritten' hrest' =>
      obtain ⟨rfl, rfl⟩ := Prod.mk.inj (Prod.mk.inj (hcall.symm.trans hcall')).2
      obtain ⟨rfl, rfl⟩ := ih hrest'
      exact ⟨rfl, rfl⟩

/-- A turn writes at most as many octets as the buffer holds. -/
theorem length_encode_le {d : Draft} {e e' : Encoder} {room : Nat} {progress : Progress}
    {bs : Bytes} (h : e.encode d room = (progress, bs, e')) : bs.length ≤ room := by
  have hroom := (d.type.layout.continuable d.record).room ⟨e.stack, room⟩
  have hemitted : (d.type.layout.write d.record ⟨e.stack, room⟩).emitted = bs :=
    congrArg (fun r => r.2.1) h
  rw [hemitted] at hroom
  dsimp only at hroom
  omega

/-- Writing a message in so many parts is what the loop does, if they are enough, whatever octets
the buffer held before. The induction is on the number of parts. -/
theorem loop_of_encodeParts {d : Draft} {calls : Nat} {e : Encoder} {buffer bs : Bytes}
    (h : encodeParts d buffer.length calls e = .ok bs) :
    ∃ last, Loop d e buffer (.ok bs) last ∧ last.length = buffer.length := by
  induction calls generalizing e buffer bs with
  | zero => cases h
  | succ calls ih =>
    unfold encodeParts at h
    split at h
    · cases h
    · next emitted e' hcall =>
      obtain rfl := Except.ok.inj h
      have hloop := Loop.complete hcall
      rw [Bytes.take_overwrite] at hloop
      exact ⟨_, hloop, Bytes.length_overwrite (length_encode_le hcall)⟩
    · cases h
    · next emitted e' hwritten hcall =>
      have hlength := Bytes.length_overwrite (length_encode_le hcall)
      rw [← hlength] at h
      cases hparts : encodeParts d (emitted.overwrite buffer).length calls e' with
      | error error =>
        rw [hparts] at h
        cases h
      | ok rest =>
        obtain ⟨last, hrest, hlast⟩ := ih hparts
        have hloop := Loop.turn hcall hwritten hrest
        rw [Bytes.take_overwrite] at hloop
        rw [hparts] at h
        exact ⟨last, h ▸ hloop, hlast.trans hlength⟩

/-- The loop that writes a message through a buffer ends, with some octets and in no other way, and
leaves the buffer as long as it was. -/
structure Ends (d : Draft) (buffer bs : Bytes) : Prop where
  ends : ∃ last, Loop d {} buffer (.ok bs) last ∧ last.length = buffer.length
  only : ∀ out last, Loop d {} buffer out last → out = .ok bs

/-- The loop writes a message that can be written, through every buffer that holds every unit. -/
theorem ends_of_accepted {d : Draft} (h : d.Accepted) {buffer : Bytes}
    (hroom : minBufferLength ≤ buffer.length) : Ends d buffer d.encode := by
  obtain ⟨last, hloop, hlast⟩ :=
    loop_of_encodeParts (encodeParts_of_owes hroom _ h.owes (Nat.lt_succ_self _))
  exact ⟨⟨last, hloop, hlast⟩, fun out last' hloop' => (hloop'.unique hloop).1⟩

end Encoder

/-! ## Pools -/

namespace Pool

/-- Something that is asked of a pool. -/
inductive Call where
  | acquire
  /-- A buffer of some length is given back. -/
  | release (buffer : Nat)
  | encode (d : Draft)

/-- The pool after a call. -/
def perform (p : Pool) : Call → Pool
  | .acquire => p.acquire.2
  | .release buffer => p.release buffer
  | .encode d => (p.encode d).2

/-- The pool after some calls, one after the other. -/
def performAll (p : Pool) (calls : List Call) : Pool := calls.foldl perform p

/-- The idle buffers of a pool have its size, and there are no more of them than it may keep. -/
structure Bounded (p : Pool) (chunkSize limit : Nat) : Prop where
  chunkSize_eq : p.chunkSize = chunkSize
  limit_eq : p.limit = limit
  idle_le : p.idle ≤ limit
  free : ∀ buffer ∈ p.free, buffer = chunkSize

namespace Bounded

variable {p : Pool} {chunkSize limit : Nat}

/-- A new pool has no idle buffers. -/
theorem ofSize (chunkSize limit : Nat) :
    (Pool.ofSize chunkSize limit).Bounded (max chunkSize minBufferLength) limit :=
  ⟨rfl, rfl, Nat.zero_le _, fun _ h => by cases h⟩

/-- A buffer that is handed out has the size of the pool. -/
theorem acquire_fst (h : p.Bounded chunkSize limit) : p.acquire.1 = chunkSize := by
  unfold acquire
  split
  · exact h.chunkSize_eq
  · next buffer rest hfree => exact h.free buffer (hfree ▸ List.mem_cons_self ..)

/-- Handing out a buffer leaves a pool bounded. -/
theorem acquire (h : p.Bounded chunkSize limit) : p.acquire.2.Bounded chunkSize limit := by
  unfold Pool.acquire
  split
  · exact h
  · next buffer rest hfree =>
    have hidle := h.idle_le
    rw [idle, hfree, List.length_cons] at hidle
    exact ⟨h.chunkSize_eq, h.limit_eq, Nat.le_of_succ_le hidle,
      fun b hb => h.free b (hfree ▸ List.mem_cons_of_mem _ hb)⟩

/-- Taking back a buffer of any length leaves a pool bounded. -/
theorem release (h : p.Bounded chunkSize limit) (buffer : Nat) :
    (p.release buffer).Bounded chunkSize limit := by
  unfold Pool.release
  split
  · next hkept =>
    obtain ⟨hsize, hroom⟩ := hkept
    refine ⟨h.chunkSize_eq, h.limit_eq, ?_,
      List.forall_mem_cons.mpr ⟨hsize.trans h.chunkSize_eq, h.free⟩⟩
    rw [h.limit_eq] at hroom
    exact hroom
  · exact h

/-- Every call leaves a pool bounded. -/
theorem perform (h : p.Bounded chunkSize limit) (call : Call) :
    (p.perform call).Bounded chunkSize limit := by
  cases call with
  | acquire => exact h.acquire
  | release buffer => exact h.release buffer
  | encode d => exact h.acquire.release p.acquire.1

/-- Any calls leave a pool bounded. -/
theorem performAll (h : p.Bounded chunkSize limit) (calls : List Call) :
    (p.performAll calls).Bounded chunkSize limit := by
  induction calls generalizing p with
  | nil => exact h
  | cons call rest ih => exact ih (h.perform call)

end Bounded

/-- Encoding always comes to its end. Let a message be one that can be written, so that a single
call writes its encoding into a buffer that is long enough. The loop that writes it through a buffer
of the given size, or of the least size if that is more, ends with this encoding and in no other
way, whatever octets the buffer held before, and leaves the buffer as long as it was; so does
encoding it in the number of turns that it is given. The same holds for the buffer that a pool hands
out, whatever has been asked of the pool before: it never keeps more idle buffers than it may, and
all of them have its size. -/
theorem encoding_ends {d : Draft} (hd : d.Accepted) (chunkSize limit : Nat) (calls : List Call) :
    let p := (Pool.ofSize chunkSize limit).performAll calls
    (∀ room, d.encode.length ≤ room →
      (d.write ⟨{}, room⟩).progress = .advance ∧ (d.write ⟨{}, room⟩).emitted = d.encode) ∧
    (∀ chunk, d.encodeChunked chunk = .ok d.encode ∧
      ∀ buffer : Bytes, buffer.length = max chunk minBufferLength →
        Encoder.Ends d buffer d.encode) ∧
    ((p.encode d).1 = .ok d.encode ∧
      ∀ buffer : Bytes, buffer.length = p.acquire.1 → Encoder.Ends d buffer d.encode) ∧
    p.chunkSize = max chunkSize minBufferLength ∧ p.idle ≤ limit ∧
      ∀ buffer ∈ p.free, buffer = p.chunkSize := by
  intro p
  have hp : p.Bounded (max chunkSize minBufferLength) limit := (Bounded.ofSize _ _).performAll calls
  have hroom : minBufferLength ≤ p.acquire.1 := hp.acquire_fst ▸ Nat.le_max_right _ _
  refine ⟨fun room => hd.owes.of_le (d.type.layout.continuable d.record), fun chunk => ⟨?_, ?_⟩,
    ⟨?_, ?_⟩, hp.chunkSize_eq, hp.idle_le, ?_⟩
  · exact hd.encodeChunked_eq chunk
  · intro buffer hbuffer
    exact Encoder.ends_of_accepted hd (hbuffer ▸ Nat.le_max_right _ _)
  · exact Encoder.encodeParts_of_owes hroom _ hd.owes (Nat.lt_succ_self _)
  · intro buffer hbuffer
    exact Encoder.ends_of_accepted hd (hbuffer ▸ hroom)
  · intro buffer hbuffer
    exact (hp.free buffer hbuffer).trans hp.chunkSize_eq.symm

/-- A value whose encoding is longer than the buffer that a pool of small buffers has got back. -/
theorem encoding_ends_in_reused_buffer :
    let d := (Message.value { bytes := some (List.replicate 24 7) } : Message Unit).toDraft
    let p := (Pool.ofSize 3 1).performAll [.release 3, .acquire, .release 16, .release 16]
    d.Accepted ∧ p.free = [16] ∧ (d.write ⟨{}, 16⟩).progress = .incomplete ∧
      (p.encode d).1 = .ok d.encode ∧ Encoder.Ends d (List.replicate 16 255) d.encode := by
  intro d p
  have hd : d.Accepted := ⟨34, by decide⟩
  obtain ⟨-, -, ⟨hencoded, hends⟩, -⟩ :=
    encoding_ends hd 3 1 [.release 3, .acquire, .release 16, .release 16]
  exact ⟨hd, rfl, rfl, hencoded, hends _ rfl⟩

end Pool

end Enlistment
