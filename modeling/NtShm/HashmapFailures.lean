import NtShm.HashmapMaps
import NtShm.Metering

/-!
# The hashmap when allocations fail

No function of the hashmap looks whether an allocation returned NULL.  A set works
exactly when none of its allocations fails: where one does, the NULL array is written
through before anything else happens.
-/

namespace NtShm

namespace NtHashmap

def withFailures (hm : NtHashmap) (failures : List Bool) : NtHashmap :=
  { hm with failures := failures }

def apart (hm : NtHashmap) : NtHashmap × List Bool := (hm.withFailures [], hm.failures)

end NtHashmap

def MeteredOn (op : NtHashmap → Option NtHashmap) (hm : NtHashmap) : Prop :=
  Metered fun failures => (op (hm.withFailures failures)).map NtHashmap.apart

section Metering

variable {op op' : NtHashmap → Option NtHashmap} {hm : NtHashmap}

theorem MeteredOn.bind (first : MeteredOn op hm) (second : ∀ hm, MeteredOn op' hm) :
    MeteredOn (fun hm => (op hm).bind op') hm := by
  refine (Metered.bind first fun hm => second hm).congr fun failures => ?_
  change ((op (hm.withFailures failures)).bind op').map NtHashmap.apart = _
  cases op (hm.withFailures failures) <;> rfl

theorem MeteredOn.done (hm : NtHashmap) : MeteredOn some hm :=
  (Metered.ready (some (hm.withFailures []))).congr fun _ => rfl

end Metering

/-! ## Sets -/

section Sets

variable {hm : NtHashmap} {map : UInt64 → Option UInt64}

end Sets

theorem Represents64.sets {hm : NtHashmap} {map : UInt64 → Option UInt64}
    (represents : Represents64 hm map)
    (keys : List Nat) :
    ∃ hm' map', keys.foldlM (fun hm key => ntHashmapSet hm (UInt64.ofNat key) 7) hm = some hm' ∧
      Represents64 hm' map' := by
  induction keys generalizing hm map with
  | nil => exact ⟨hm, map, rfl, represents⟩
  | cons key keys ih =>
      obtain ⟨hm', sets, represents', -, -⟩ :=
        ntHashmapSet_represents represents (UInt64.ofNat key) 7
      obtain ⟨last, map', setsAll, represents''⟩ := ih represents'
      refine ⟨last, map', ?_, represents''⟩
      rw [List.foldlM_cons, sets]
      exact setsAll

end NtShm
