import Enlistment.Config
import Enlistment.Json
import Enlistment.Operation
import Enlistment.Store
import Enlistment.Identity
import Enlistment.Value

/-!
# JSON forms

The JSON forms of versions, stored data, values and configurations.
-/

namespace Enlistment

open Json

instance : JsonForm TopologyVersion where
  toJson v := .object [("major", toJson v.major), ("minor", toJson v.minor)]
  ofJson? j := do
    let fields ← j.fields? ["major", "minor"] false
    return { major := ← required? fields "major", minor := ← required? fields "minor" }

instance : JsonForm LockVersion where
  toJson v := .object
    [("topology_order", toJson v.topologyOrder), ("order", toJson v.order),
      ("node_order", toJson v.nodeOrder)]
  ofJson? j := do
    let fields ← j.fields? ["topology_order", "order", "node_order"] false
    return {
      topologyOrder := ← required? fields "topology_order"
      order := ← required? fields "order"
      nodeOrder := ← required? fields "node_order" }

instance : JsonForm EntryVersion where
  toJson v := .object [("coordinator", toJson v.coordinator), ("counter", toJson v.counter)]
  ofJson? j := do
    let fields ← j.fields? ["coordinator", "counter"] false
    return {
      coordinator := ← required? fields "coordinator"
      counter := ← required? fields "counter" }

instance : JsonForm Snapshot where
  toJson s := .object
    [("coordinator_version", toJson s.coordinator), ("counter", toJson s.counter),
      ("op_counter", toJson s.opCounter), ("cleanup_version", toJson s.cleanup),
      ("active", toJson s.active)]
  ofJson? j := do
    let fields ← j.fields?
      ["coordinator_version", "counter", "op_counter", "cleanup_version", "active"] false
    return {
      coordinator := ← required? fields "coordinator_version"
      counter := ← required? fields "counter"
      opCounter := ← required? fields "op_counter"
      cleanup := ← required? fields "cleanup_version"
      active := ← required? fields "active" }

/-- Whether the contents of an alternative that has none are left out or null. -/
def Json.isUnit : Option Json → Bool
  | none | some .null => true
  | _ => false

instance : JsonForm Operation where
  toJson op := .text op.name
  ofJson? j := do
    let (name, contents) ← j.choice?
    let op ← Operation.all.find? fun op => op.name == name
    if Json.isUnit contents then some op else none

instance : JsonForm VersionedValue where
  toJson v := .object [("version", toJson v.version), ("value", toJson v.value)]
  ofJson? j := do
    let fields ← j.fields? ["version", "value"] false
    return { version := ← required? fields "version", value := ← optional? fields "value" }

instance : JsonForm StoreOp where
  toJson
    | .put key version value => .object [("Put", .object
        [("key", toJson key), ("version", toJson version), ("value", toJson value)])]
    | .lock key owner => .object [("Lock", .object
        [("key", toJson key), ("owner", toJson owner)])]
    | .unlock owner => .object [("Unlock", .object [("owner", toJson owner)])]
    | .vacuum horizon => .object [("Vacuum", .object [("horizon", toJson horizon)])]
  ofJson? j := do
    let (name, contents) ← j.choice?
    let contents ← contents
    match name with
    | "Put" =>
      let fields ← contents.fields? ["key", "version", "value"] false
      return .put (← required? fields "key") (← required? fields "version")
        (← optional? fields "value")
    | "Lock" =>
      let fields ← contents.fields? ["key", "owner"] false
      return .lock (← required? fields "key") (← required? fields "owner")
    | "Unlock" =>
      let fields ← contents.fields? ["owner"] false
      return .unlock (← required? fields "owner")
    | "Vacuum" =>
      let fields ← contents.fields? ["horizon"] false
      return .vacuum (← required? fields "horizon")
    | _ => none

mutual
/-- The JSON form of a value. -/
def Value.toJsonForm : Value → Json
  | .null => .text "Null"
  | .bool b => .object [("Bool", .bool b)]
  | .int n => .object [("Int", toJson n)]
  | .text s => .object [("Str", .text s)]
  | .bytes bs => .object [("Bytes", toJson bs)]
  | .object className fields =>
    .object [("Object", .object
      [("class", .text className), ("fields", .array (fieldsToJsonForm fields))])]
/-- The JSON form of named fields. -/
def Value.fieldsToJsonForm : List (String × Value) → List Json
  | [] => []
  | (name, v) :: rest => .array [.text name, v.toJsonForm] :: fieldsToJsonForm rest
end

/-- The value of a JSON form in which fewer than `depth` objects are nested. -/
def Value.ofNestedJson? : (depth : Nat) → Json → Option Value
  | 0, _ => none
  | depth + 1, j => do
    let (name, contents) ← j.choice?
    match name, contents with
    | "Null", contents => if Json.isUnit contents then some .null else none
    | "Bool", some j => (ofJson? j).map .bool
    | "Int", some j => (ofJson? j).map .int
    | "Str", some j => (ofJson? j).map .text
    | "Bytes", some j => (ofJson? j).map .bytes
    | "Object", some j => do
      let fields ← j.fields? ["class", "fields"] false
      let className ← required? fields "class"
      match ← fields.lookup "fields" with
      | .array items =>
        let entries ← items.mapM fun item =>
          match item with
          | .array [.text name, v] => (ofNestedJson? depth v).map fun v => (name, v)
          | _ => none
        some (.object className entries)
      | _ => none
    | _, _ => none

mutual
/-- The depth of nesting in a JSON value. -/
def Json.depth : Json → Nat
  | .array items => itemsDepth items + 1
  | .object fields => fieldsDepth fields + 1
  | _ => 1
/-- The greatest depth of some JSON values. -/
def Json.itemsDepth : List Json → Nat
  | [] => 0
  | j :: rest => max j.depth (itemsDepth rest)
/-- The greatest depth of the JSON values of some fields. -/
def Json.fieldsDepth : List (String × Json) → Nat
  | [] => 0
  | (_, j) :: rest => max j.depth (fieldsDepth rest)
end

instance : JsonForm Value where
  toJson := Value.toJsonForm
  ofJson? j := Value.ofNestedJson? (j.depth + 1) j

namespace Uuid

/-- The digit of a hexadecimal character of either case. -/
def hexDigit? (c : Char) : Option Nat :=
  if '0' ≤ c ∧ c ≤ '9' then some (c.toNat - 48)
  else if 'a' ≤ c ∧ c ≤ 'f' then some (c.toNat - 87)
  else if 'A' ≤ c ∧ c ≤ 'F' then some (c.toNat - 55)
  else none

/-- The identifier of 32 hexadecimal digits. -/
def ofHexDigits? (digits : List Char) : Option Uuid := do
  let values ← digits.mapM hexDigit?
  if values.length = 32 then
    some (BitVec.ofNat 128 (values.foldl (fun n d => 16 * n + d) 0))
  else none

/-- The identifier of five hyphenated groups of digits. -/
def ofGroups? (cs : List Char) : Option Uuid :=
  if cs.length = 36 ∧ [8, 13, 18, 23].all (fun i => cs[i]? == some '-') then
    ofHexDigits? (cs.take 8 ++ (cs.drop 9).take 4 ++ (cs.drop 14).take 4 ++
      (cs.drop 19).take 4 ++ cs.drop 24)
  else none

/-- The identifier of a text: digits alone, or groups, which may stand in braces or
behind the name of the identifier scheme in letters of either case. -/
def ofText? (s : String) : Option Uuid :=
  let cs := s.toList
  if cs.length = 32 then ofHexDigits? cs
  else if cs.length = 38 ∧ cs.head? = some '\x7b' ∧ cs.getLast? = some '\x7d' then
    ofGroups? (cs.drop 1).dropLast
  else if cs.length = 45 ∧ (cs.take 9).map Char.toLower = "urn:uuid:".toList then ofGroups? (cs.drop 9)
  else ofGroups? cs

end Uuid

instance : JsonForm FutureId where
  toJson f := .text f.render
  ofJson?
    | .text s => (Uuid.ofText? s).map FutureId.mk
    | _ => none

/-- The names of the settings. -/
def EnlistConfig.fieldNames : List String :=
  ["cache_id", "partitions", "deployment_enabled", "mvcc_enabled", "chunk_size",
    "pooled_buffers", "request_timeout_ms", "max_remap_attempts", "max_array_len"]

instance : JsonForm EnlistConfig where
  toJson c := .object
    [("cache_id", toJson c.cacheId), ("partitions", toJson c.partitions),
      ("deployment_enabled", .bool c.deploymentEnabled), ("mvcc_enabled", .bool c.mvccEnabled),
      ("chunk_size", .int c.chunkSize), ("pooled_buffers", .int c.pooledBuffers),
      ("request_timeout_ms", .int c.requestTimeoutMs),
      ("max_remap_attempts", toJson c.maxRemapAttempts), ("max_array_len", .int c.maxArrayLength)]
  ofJson? j := do
    let fields ← j.fields? EnlistConfig.fieldNames true
    let blank : EnlistConfig := {}
    let number (bound : Nat) (name : String) (default : Nat) : Option Nat :=
      match fields.lookup name with
      | none => some default
      | some j => j.natBelow? bound
    return {
      cacheId := ← defaulted? fields "cache_id" blank.cacheId
      partitions := ← defaulted? fields "partitions" blank.partitions
      deploymentEnabled := ← defaulted? fields "deployment_enabled" blank.deploymentEnabled
      mvccEnabled := ← defaulted? fields "mvcc_enabled" blank.mvccEnabled
      chunkSize := ← number UInt64.size "chunk_size" blank.chunkSize
      pooledBuffers := ← number UInt64.size "pooled_buffers" blank.pooledBuffers
      requestTimeoutMs := ← number UInt64.size "request_timeout_ms" blank.requestTimeoutMs
      maxRemapAttempts := ← defaulted? fields "max_remap_attempts" blank.maxRemapAttempts
      maxArrayLength := ← number UInt64.size "max_array_len" blank.maxArrayLength }

end Enlistment
