import Enlistment.Json.Forms
import Enlistment.Node

/-!
# JSON form of node summaries
-/

namespace Enlistment

open Json

instance : JsonForm NodeStatus where
  toJson s := .object
    [("id", toJson s.id), ("n_keys", .int s.keys), ("locked_keys", .int s.lockedKeys),
      ("topology", toJson s.topology), ("enlisted_requests", toJson s.enlistedRequests)]
  ofJson? j := do
    let fields ← j.fields? ["id", "n_keys", "locked_keys", "topology", "enlisted_requests"] false
    let number (name : String) : Option Nat := (fields.lookup name).bind fun j => j.natBelow? UInt64.size
    return {
      id := ← required? fields "id"
      keys := ← number "n_keys"
      lockedKeys := ← number "locked_keys"
      topology := ← required? fields "topology"
      enlistedRequests := ← required? fields "enlisted_requests" }

end Enlistment
