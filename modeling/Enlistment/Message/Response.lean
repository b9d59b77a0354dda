import Enlistment.Message.Request

/-!
# Wire form of responses
-/

namespace Enlistment

open Wire

/-- The slots of a response after its base. -/
abbrev ResponseSlots := BitVec 128 × Int32 × LockRecord × Option (List ReturnRecord) × Int64 ×
  Option ErrorRecord × Option TopologyRecord × Option (List FailureRecord) × Unit

/-- Records of responses. -/
abbrev ResponseRecord := Record (BaseSlots ResponseSlots)

/-- The layout of responses. -/
def responseLayout : Layout ResponseRecord :=
  .plain 160 (baseFields (.cons .uint128 (.cons .int32 (.cons (.required "lockVer" lockLayout)
    (.cons (.array returnLayout) (.cons .int64 (.cons (.optional errorLayout)
    (.cons (.optional topologyLayout) (.cons (.array failureLayout) .nil)))))))))

instance : WireForm EnlistResponse where
  Rec := ResponseRecord
  layout := responseLayout
  toRecord r :=
    unflagged (r.base.toSlots (r.futureId.id, r.mini, WireForm.toRecord r.lock,
      r.result.map fun items => items.map WireForm.toRecord, r.updateCount,
      r.error.map WireForm.toRecord, r.remap.map WireForm.toRecord,
      r.rowFailures.map fun items => items.map WireForm.toRecord, ()))
  ofRecord
    | ⟨_, deployment, affinity, messageId, cacheId, future, mini, lock, result, updateCount,
        error, remap, failures, ()⟩ =>
      { base := .ofSlots (deployment, affinity, messageId, cacheId, ())
        futureId := ⟨future⟩
        mini
        lock := WireForm.ofRecord lock
        result := result.map fun items => items.map WireForm.ofRecord
        updateCount
        error := error.map WireForm.ofRecord
        remap := remap.map WireForm.ofRecord
        rowFailures := failures.map fun items => items.map WireForm.ofRecord }

end Enlistment
