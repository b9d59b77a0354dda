import Enlistment.Response
import Enlistment.Wire.Read
import Enlistment.Wire.Write

/-!
# Wire forms

A type of message has a layout and is seen through its records. The record of a
message holds what is written, and the message of a record holds what has been
read so far, also when the record is not complete.
-/

namespace Enlistment

open Wire

/-- A type of message with its layout and its views. -/
class WireForm (M : Type) where
  Rec : Type
  layout : Layout Rec
  toRecord : M → Rec
  ofRecord : Rec → M

/-- The record of a message without header flags. -/
abbrev unflagged {S : Type} (slots : S) : Record S := ⟨0, slots⟩

/-- Records of topology versions. -/
abbrev TopologyRecord := Record (Int64 × Int32 × Unit)

/-- The layout of topology versions. -/
def topologyLayout : Layout TopologyRecord :=
  .plain 111 (.cons .int64 (.cons .int32 .nil))

instance : WireForm TopologyVersion where
  Rec := TopologyRecord
  layout := topologyLayout
  toRecord v := unflagged (v.major, v.minor, ())
  ofRecord r := ⟨r.slots.1, r.slots.2.1⟩

/-- Records of lock versions. -/
abbrev LockRecord := Record (Int32 × Int64 × Int32 × Unit)

/-- The layout of lock versions. -/
def lockLayout : Layout LockRecord :=
  .plain 86 (.cons .int32 (.cons .int64 (.cons .int32 .nil)))

instance : WireForm LockVersion where
  Rec := LockRecord
  layout := lockLayout
  toRecord v :=
    unflagged (v.topologyOrder.toInt32, v.order.toInt64, v.nodeOrder.toInt32, ())
  ofRecord r := ⟨r.slots.1.toUInt32, r.slots.2.1.toUInt64, r.slots.2.2.1.toUInt32⟩

/-- Records of snapshots. -/
abbrev SnapshotRecord := Record (List Int64 × Int64 × Int64 × Int64 × Int32 × Unit)

/-- The layout of snapshots. -/
def snapshotLayout : Layout SnapshotRecord :=
  .plain 138 (.cons .longs (.cons .int64 (.cons .int64 (.cons .int64 (.cons .int32 .nil)))))

instance : WireForm Snapshot where
  Rec := SnapshotRecord
  layout := snapshotLayout
  toRecord s := unflagged (s.active, s.cleanup, s.coordinator, s.counter, s.opCounter, ())
  ofRecord
    | ⟨_, active, cleanup, coordinator, counter, opCounter, ()⟩ =>
      { coordinator, counter, opCounter, cleanup, active }

/-- Records of deployment info. -/
abbrev DeploymentRecord := Record (BitVec 128 × Int8 × TextSlot × Unit)

/-- The layout of deployment info. -/
def deploymentLayout : Layout DeploymentRecord :=
  .plain 20 (.cons .uint128 (.cons (.ordinal "depMode" 4 false DeploymentMode.shared.ordinal)
    (.cons (.text .blank) .nil)))

instance : WireForm DeploymentInfo where
  Rec := DeploymentRecord
  layout := deploymentLayout
  toRecord d := unflagged (d.loaderId, d.mode.ordinal, .ofString d.userVersion, ())
  ofRecord
    | ⟨_, loaderId, mode, version, ()⟩ => ⟨loaderId, .ofOrdinal mode, version.string⟩

/-- Records of keys. -/
abbrev KeyRecord := Record (Int32 × Option Bytes × Unit)

/-- The layout of keys. -/
def keyLayout : Layout KeyRecord := .plain 90 (.cons .int32 (.cons .bytes .nil))

instance : WireForm KeyObject where
  Rec := KeyRecord
  layout := keyLayout
  toRecord k := unflagged (k.partition, k.bytes, ())
  ofRecord r := { partition := r.slots.1, bytes := r.slots.2.1 }

/-- Records of values. -/
abbrev ValueRecord := Record (Option Bytes × Unit)

/-- The layout of values. -/
def valueLayout : Layout ValueRecord := .plain 89 (.cons .bytes .nil)

instance : WireForm ValueObject where
  Rec := ValueRecord
  layout := valueLayout
  toRecord o := unflagged (o.bytes, ())
  ofRecord r := { bytes := r.slots.1 }

/-- Records of invocations. -/
abbrev InvokeRecord := Record (BatchSlot ValueRecord × TextSlot × Unit)

/-- The layout of invocations. -/
def invokeLayout : Layout InvokeRecord :=
  .plain 161 (.cons (.batch valueLayout)
    (.cons (.text (.refuse .invocationWithoutProcessor)) .nil))

instance {σ : Type} : WireForm (InvokeValue σ) where
  Rec := InvokeRecord
  layout := invokeLayout
  toRecord i :=
    unflagged ({ settled := i.args.map WireForm.toRecord }, .ofString i.processor, ())
  ofRecord
    | ⟨_, args, processor, ()⟩ =>
      { processor := processor.string, args := args.settled.map WireForm.ofRecord }

/-- Records of filters. -/
abbrev FilterRecord := Record (Int8 × Option ValueRecord × TextSlot × Unit)

/-- Filters whose kind needs an operand or a class have to come with it. -/
def checkFilter : Int8 × Option ValueRecord × TextSlot × Unit → Except CodecError Unit
  | (kind, operand, className, ()) =>
    if kind = FilterKind.containsValue.ordinal ∧ operand.isNone then
      .error (.invalidPayload .filterWithoutOperand)
    else if kind = FilterKind.custom.ordinal ∧ className.text.isNone then
      .error (.invalidPayload .filterWithoutClass)
    else .ok ()

/-- The layout of filters. -/
def filterLayout : Layout FilterRecord :=
  .message 98 (.cons (.ordinal "filter" 4 false FilterKind.hasValue.ordinal)
    (.cons (.optional valueLayout) (.cons (.text .keep) .nil)))
    fun slots => (checkFilter slots, slots)

instance {σ : Type} : WireForm (Filter σ) where
  Rec := FilterRecord
  layout := filterLayout
  toRecord f :=
    unflagged (f.kind.ordinal, f.operand.map WireForm.toRecord, { text := f.className }, ())
  ofRecord
    | ⟨_, kind, operand, className, ()⟩ =>
      { kind := .ofOrdinal kind
        operand := operand.map WireForm.ofRecord
        className := className.text }

/-- Records of return values. -/
abbrev ReturnRecord := Record (Option ValueRecord × Unit)

/-- The layout of return values. -/
def returnLayout : Layout ReturnRecord := .plain 162 (.cons (.optional valueLayout) .nil)

instance : WireForm ReturnValue where
  Rec := ReturnRecord
  layout := returnLayout
  toRecord r := unflagged (r.object.map WireForm.toRecord, ())
  ofRecord r := ⟨r.slots.1.map WireForm.ofRecord⟩

/-- Records of row failures. -/
abbrev FailureRecord := Record (Int32 × TextSlot × Unit)

/-- The layout of row failures. -/
def failureLayout : Layout FailureRecord :=
  .plain 163 (.cons .int32 (.cons (.text .blank) .nil))

instance : WireForm RowFailure where
  Rec := FailureRecord
  layout := failureLayout
  toRecord f := unflagged (f.index, .ofString f.reason, ())
  ofRecord r := ⟨r.slots.1, r.slots.2.1.string⟩

/-- Records of error messages. -/
abbrev ErrorRecord := Record (Int8 × TextSlot × Unit)

/-- The layout of error messages. -/
def errorLayout : Layout ErrorRecord :=
  .plain 164 (.cons (.ordinal "error" 5 false ErrorKind.internal.ordinal)
    (.cons (.text .blank) .nil))

instance : WireForm ErrorMessage where
  Rec := ErrorRecord
  layout := errorLayout
  toRecord m := unflagged (m.kind.ordinal, .ofString m.text, ())
  ofRecord r := ⟨.ofOrdinal r.slots.1, r.slots.2.1.string⟩

end Enlistment
