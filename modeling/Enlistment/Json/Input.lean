import Enlistment.Json.Forms
import Enlistment.Message.Response
import Enlistment.Caller.Basic
import Enlistment.Simulation.Script

/-!
# Inputs

Those who drive the library from outside describe its data in the compact JSON that
reports use. Reading an input never fails: whatever is missing or of another kind is
zero, false or empty, unless the data has another default.
-/

namespace Enlistment

/-- A type that is read from inputs. -/
class Input (A : Type) where
  input : Json → A

export Input (input)

namespace Json

/-- A field of an object, null if it is missing. -/
def get (j : Json) (name : String) : Json :=
  match j with
  | object fields => (fields.lookup name).getD null
  | _ => null

/-- The items of an array. -/
def items : Json → List Json
  | array items => items
  | _ => []

/-- The item at a position of an array, null if it is missing. -/
def nth (j : Json) (index : Nat) : Json := j.items.getD index null

/-- Whether a value is null. -/
def isNull : Json → Bool
  | null => true
  | _ => false

/-- The value, or a default in the place of null. -/
def orElse (j dflt : Json) : Json := if j.isNull then dflt else j

end Json

open Json

instance : Input Json := ⟨id⟩

instance : Input Int where
  input
    | .int n => n
    | _ => 0

instance : Input Nat := ⟨fun j => (input j : Int).toNat⟩

instance : Input Int8 := ⟨fun j => .ofInt (input j)⟩

instance : Input Int32 := ⟨fun j => .ofInt (input j)⟩

instance : Input Int64 := ⟨fun j => .ofInt (input j)⟩

instance : Input UInt8 := ⟨fun j => .ofInt (input j)⟩

instance : Input UInt16 := ⟨fun j => .ofInt (input j)⟩

instance : Input UInt32 := ⟨fun j => .ofInt (input j)⟩

instance : Input UInt64 := ⟨fun j => .ofInt (input j)⟩

instance : Input Bool where
  input
    | .bool b => b
    | _ => false

instance : Input String where
  input
    | .text s => s
    | _ => ""

instance {A : Type} [Input A] : Input (List A) := ⟨fun j => j.items.map input⟩

instance {A : Type} [Input A] : Input (Option A) where
  input j := if j.isNull then none else some (input j)

/-- The octets of hexadecimal digits. -/
def Bytes.ofHex : List Char → Bytes
  | high :: low :: rest =>
    UInt8.ofNat (16 * (Uuid.hexDigit? high).getD 0 + (Uuid.hexDigit? low).getD 0) :: ofHex rest
  | _ => []

instance : Input Bytes := ⟨fun j => Bytes.ofHex (input j : String).toList⟩

instance : Input Uuid where
  input j := BitVec.ofNat 128
    ((input j : String).toList.foldl (fun n c => 16 * n + (Uuid.hexDigit? c).getD 0) 0)

instance : Input FutureId := ⟨fun j => ⟨input j⟩⟩

/-- A value in an input in which fewer than `depth` objects are nested. Long texts and
byte strings are given as a part and the number of its repetitions, and deep nesting as
a class and the number of its objects. -/
def Value.ofInput : (depth : Nat) → Json → Value
  | 0, _ => .null
  | _, .bool b => .bool b
  | _, .int n => .int (.ofInt n)
  | _, .text s => .text s
  | depth + 1, .object fields =>
    let j := Json.object fields
    let repeated (name : String) : Nat := input ((j.get name).nth 1)
    if !(j.get "bytes").isNull then .bytes (input (j.get "bytes"))
    else if !(j.get "class").isNull then
      .object (input (j.get "class"))
        ((j.get "fields").items.map fun f => (input (f.nth 0), ofInput depth (f.nth 1)))
    else if !(j.get "str_rep").isNull then
      .text (String.join (List.replicate (repeated "str_rep") (input ((j.get "str_rep").nth 0))))
    else if !(j.get "bytes_rep").isNull then
      .bytes (List.replicate (repeated "bytes_rep")
        (input ((j.get "bytes_rep").nth 0) : Bytes)).flatten
    else if !(j.get "nest").isNull then
      let className := input ((j.get "nest").nth 0)
      Nat.repeat (fun v => .object className [("f", v)]) (repeated "nest")
        (ofInput depth ((j.get "nest").nth 2))
    else .null
  | _, _ => .null

instance : Input Value := ⟨fun j => Value.ofInput (j.depth + 1) j⟩

instance : Input TopologyVersion := ⟨fun j => ⟨input (j.nth 0), input (j.nth 1)⟩⟩

instance : Input LockVersion := ⟨fun j => ⟨input (j.nth 0), input (j.nth 1), input (j.nth 2)⟩⟩

instance : Input EntryVersion := ⟨fun j => ⟨input (j.nth 0), input (j.nth 1)⟩⟩

instance : Input Snapshot where
  input j :=
    { coordinator := input (j.get "crd")
      counter := input (j.get "counter")
      opCounter := input (j.get "op_counter")
      cleanup := input (j.get "cleanup")
      active := input (j.get "active") }

/-- The member of a list that an input names. -/
def Json.named {A : Type} (j : Json) (all : List A) (name : A → String) : Option A :=
  all.find? fun a => name a == input j

instance : Input (Option Operation) := ⟨fun j => j.named Operation.all Operation.name⟩

instance : Input RequestState :=
  ⟨fun j => (j.named RequestState.all RequestState.name).getD .created⟩

instance : Input DeploymentInfo where
  input j :=
    { loaderId := input (j.get "id")
      mode := ((j.get "mode").named DeploymentMode.all DeploymentMode.name).getD .shared
      userVersion := input (j.get "version") }

instance : Input MarshalContext where
  input j :=
    { MarshalContext.ofCache (input ((j.get "cache_id").orElse (.int 1)))
        (input ((j.get "partitions").orElse (.int 1024))) with
      keepBinary := input (j.get "keep_binary")
      deployment := input (j.get "deployment") }

instance : Input Invocation := ⟨fun j => ⟨input (j.get "processor"), input (j.get "args")⟩⟩

instance : Input Row where
  input j :=
    let key := input (j.get "k")
    if !(j.get "proc").isNull then .invoke key ⟨input (j.get "proc"), input (j.get "args")⟩
    else if !(j.get "v").isNull then .entry key (input (j.get "v"))
    else .key key

instance : Input MessageBase where
  input j :=
    { cacheId := input (j.get "cache_id")
      messageId := input (j.get "message_id")
      lastAffinityChange := input (j.get "last_aff")
      deployment := input (j.get "dep") }

section

variable {σ : Type}

instance : Input (Filter σ) where
  input j :=
    match (input (j.get "kind") : String) with
    | "no_value" => .noValue
    | "contains" => .containsValue (input (j.get "value"))
    | "custom" => .custom (input (j.get "class"))
    | _ => .hasValue

instance : Input (EnlistRequest σ) where
  input j :=
    { base := input j
      futureId := input (j.get "fut")
      mini := input (j.get "mini")
      topology := (input (j.get "top") : Option TopologyVersion).getD .unmapped
      lock := input (j.get "lock")
      snapshot := input (j.get "snapshot")
      op := input (j.get "op")
      pending := input (j.get "rows")
      filter := input (j.get "filter")
      needResult := input (j.get "need_result")
      keepBinary := input (j.get "keep_binary")
      clientFirst := input (j.get "client_first")
      threadId := input (j.get "thread_id")
      taskHash := input (j.get "task_hash")
      timeoutMs := input (j.get "timeout")
      txTimeoutMs := input (j.get "tx_timeout") }

instance : Input (EnlistOptions σ) where
  input j :=
    { filter := input (j.get "filter")
      needResult := input (j.get "need_result")
      keepBinary := input (j.get "keep_binary")
      timeoutMs := input (j.get "timeout") }

end

instance : Input Transaction where
  input j :=
    { lock := input (j.get "lock")
      snapshot := input (j.get "snapshot")
      threadId := input (j.get "thread_id")
      taskName := input (j.get "task")
      timeoutMs := input (j.get "tx_timeout")
      client := input (j.get "client") }

instance : Input EnlistError where
  input j :=
    let future : FutureId := input (j.get "fut")
    let mini : MiniId := input (j.get "mini")
    let text : String := input (j.get "text")
    let index : Nat := input (j.get "index")
    let value := j.get "value"
    let op : Option Operation := input (j.get "op")
    match (input (j.get "kind") : String) with
    | "Timeout" => .timeout future mini (input (j.get "after_ms"))
    | "Cancelled" => .cancelled future mini
    | "NotRegistered" => .notRegistered future mini
    | "InvalidTransition" =>
      .invalidTransition future mini (input (j.get "from")) (input (j.get "to"))
    | "TopologyMismatch" => .topologyMismatch (input (j.get "requested")) (input (j.get "current"))
    | "PredicateFailure" => .predicateFailure index
    | "MvccModeMismatch" =>
      .mvccModeMismatch (input (j.get "cache_mvcc")) (input (j.get "request_snapshot"))
    | "NoPrimary" => .noPrimary (input value)
    | "UnknownCache" => .unknownCache (input value)
    | "RemapLimit" => .remapLimit (input value)
    | "Remote" => .remote text
    | "Transport" => .transport (input (j.get "chain"))
    | "NullKey" => .marshal (.nullKey index)
    | "MissingValue" => .marshal (.missingValue index)
    | "RowShape" => .marshal (.rowShape index (op.getD .insert))
    | "MarshalMissingOperation" => .marshal .missingOperation
    | "ClassNotFound" => .unmarshal (.classNotFound text)
    | "TypeMismatch" => .unmarshal (.typeMismatch text)
    | "UnmarshalMissingOperation" => .unmarshal .missingOperation
    | "UnknownType" => .codec (.unknownType (input value))
    | "InvalidLength" => .codec (.invalidLength (input value))
    | "LengthOverflow" => .codec (.lengthOverflow (input value))
    | "InvalidPayload" => .codec (.invalidPayload (.described text))
    | "NotMarshalled" => .codec .notMarshalled
    | _ => .codec .nullElement

instance : Input ErrorMessage where
  input j :=
    if !(j.get "from").isNull then .ofError (input (j.get "from"))
    else
      { kind := ((j.get "kind").named ErrorKind.all ErrorKind.name).getD .internal
        text := input (j.get "text") }

instance : Input RowFailure := ⟨fun j => .ofIndex (input (j.nth 0)) (input (j.nth 1))⟩

instance : Input EnlistResult where
  input j :=
    { previous := input (j.get "previous")
      updated := input (j.get "updated")
      failures := input (j.get "failures") }

instance : Input EnlistResponse where
  input j :=
    let values : Option (List (Option Value)) := input (j.get "result")
    let count : Option UInt64 := input (j.get "update_count")
    let blank := EnlistResponse.ofRequest (input (j.get "cache_id")) (input (j.get "fut"))
      (input (j.get "mini")) (input (j.get "lock"))
    let r := { blank with
      result := values.map (List.map ReturnValue.ofValue)
      error := input (j.get "error")
      remap := input (j.get "remap") }
    (count.elim r r.withUpdateCount).withFailures (input (j.get "failures"))

instance : Input TopologyChange where
  input j :=
    if (input (j.get "do") : String) = "membership" then .membership (input (j.get "nodes"))
    else .reassign (input (j.get "partition")) (input (j.get "node"))

namespace Simulation

instance : Input Scope where
  input
    | .text "near" => .caller
    | .text "cluster" => .cluster
    | _ => .everywhere

instance : Input Action where
  input j :=
    let patch : Edit := .patch (input (j.get "at")) (input (j.get "hex"))
    let cut : Edit := .cut (input (j.get "len"))
    match (input (j.get "do") : String) with
    | "delay" => .delay (input (j.get "ms"))
    | "hang" => .hang
    | "fail" => .fail (input (j.get "text"))
    | "cancel" => .cancel
    | "patch" => .editRequest patch
    | "cut" => .editRequest cut
    | "reply" => .reply (input (j.get "hex"))
    | "reply_patch" => .editReply patch
    | "reply_cut" => .editReply cut
    | _ => .change (input (j.get "view")) (input j)

/-- An entry of a script for a single request: its key is a number without leading
zeros. -/
def numberedActions? (entry : String × Json) : Option (Nat × List Action) :=
  match entry.1.toNat? with
  | some n => if toString n = entry.1 ∧ !entry.2.isNull then some (n, input entry.2) else none
  | none => none

instance : Input Script where
  input
    | .object fields =>
      { numbered := fields.filterMap numberedActions?
        others := input (Json.get (.object fields) "all") }
    | _ => {}

end Simulation

end Enlistment
