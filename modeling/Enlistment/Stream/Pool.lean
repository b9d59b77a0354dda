import Enlistment.Stream.Encoder

/-!
# Buffer pool

Encoding borrows its scratch buffer from a pool of buffers of one size. Only the
length of a buffer matters here.
-/

namespace Enlistment

/-- A pool of idle buffers. -/
structure Pool where
  chunkSize : Nat
  limit : Nat
  /-- The lengths of the idle buffers. -/
  free : List Nat := []
  deriving DecidableEq, Repr

namespace Pool

/-- An empty pool. Its buffers hold at least every unit of the protocol. -/
def ofSize (chunkSize limit : Nat) : Pool :=
  { chunkSize := max chunkSize Wire.minBufferLength, limit }

/-- The number of idle buffers. -/
def idle (p : Pool) : Nat := p.free.length

/-- The length of an idle buffer, or else of a new one. -/
def acquire (p : Pool) : Nat × Pool :=
  match p.free with
  | [] => (p.chunkSize, p)
  | buffer :: rest => (buffer, { p with free := rest })

/-- Takes a buffer back. One of another size, or one too many, is dropped. -/
def release (p : Pool) (buffer : Nat) : Pool :=
  if buffer = p.chunkSize ∧ p.free.length < p.limit then { p with free := buffer :: p.free }
  else p

/-- The message, written through a buffer of the pool. -/
def encode (p : Pool) (d : Draft) : Except Wire.CodecError Bytes × Pool :=
  let r := p.acquire
  (d.encodeThrough r.1, r.2.release r.1)

end Pool

end Enlistment
