import ArborDb.Access.Writer
import ArborDb.Codec.Patch
import ArborDb.Txn.Table

/-!
# Overwriting a leaf of an entry

A scalar write first tries to overwrite the bytes of the leaf in the stored entry, which is one byte
of kind before the value blob. Where the widths agree, the entry is the one that decoding, editing
and encoding again would write.
-/

namespace ArborDb

section Patch

variable [Externals]

/-- The kind and the payload of an entry blob. -/
def entrySplit : Bytes → AdbResult (EntryKind × Bytes)
  | [] => .error (.corrupt "empty a-node entry")
  | tag :: payload =>
    if tag = 0 then .ok (.dir, payload)
    else if tag = 1 then .ok (.file, payload)
    else .error (.corrupt ("unknown a-node entry tag " ++ toString tag.toNat))

/-- Where in an entry blob the scalar of the leaf at `vpath` starts, if `scalar` has its width. -/
def patchStart (entry : Bytes) (vpath : VPath) (scalar : Scalar) : AdbResult (Option Nat) := do
  let (kind, payload) ← entrySplit entry
  if kind ≠ .file then return none
  else
    let a ← ArchivedValue.new payload
    match ← a.leafScalarSpan vpath with
    | none => return none
    | some (off, len) =>
      if scalar.encode.length ≠ len then return none
      else return some (entry.length - payload.length + off)

/-- `patch_scalar` on the bytes of an entry: whether it was patched, and the entry afterwards. -/
def patchEntry (entry : Bytes) (vpath : VPath) (scalar : Scalar) : AdbResult Bool × Bytes :=
  match patchStart entry vpath scalar with
  | .error err => (.error err, entry)
  | .ok none => (.ok false, entry)
  | .ok (some start) =>
    (.ok true, entry.take start ++ scalar.encode ++ entry.drop (start + scalar.encode.length))

/-- What the patch does to the bytes of a file is what it does to its blob. -/
theorem patchEntry_file (blob : Bytes) (vpath : VPath) (scalar : Scalar) :
    patchEntry (Entry.file blob).toBytes vpath scalar =
      match patchScalar (.file blob) vpath scalar with
      | .error err => (.error err, (Entry.file blob).toBytes)
      | .ok none => (.ok false, (Entry.file blob).toBytes)
      | .ok (some patched) => (.ok true, (Entry.file patched).toBytes) := by
  have hbytes : ∀ b : Bytes, (Entry.file b).toBytes = 1 :: b := fun _ => rfl
  have hlen : (1 :: blob).length - blob.length = 1 := by
    rw [List.length_cons]
    omega
  have hsplit : entrySplit (1 :: blob) = .ok (.file, blob) := rfl
  simp only [hbytes]
  cases hnew : ArchivedValue.new blob with
  | error err => simp [patchEntry, patchStart, patchScalar, hsplit, hnew]
  | ok a =>
    cases hspan : a.leafScalarSpan vpath with
    | error err => simp [patchEntry, patchStart, patchScalar, hsplit, hnew, hspan]
    | ok span =>
      cases span with
      | none => simp [patchEntry, patchStart, patchScalar, hsplit, hnew, hspan]
      | some span =>
        obtain ⟨off, len⟩ := span
        by_cases hwidth : scalar.encode.length = len
        · -- The kind tag shifts the span by one byte.
          have hshift : off + 1 + len = off + len + 1 := by omega
          simp [patchEntry, patchStart, patchScalar, hsplit, hnew, hspan, hwidth, Nat.add_comm 1 off, hshift]
        · simp [patchEntry, patchStart, patchScalar, hsplit, hnew, hspan, hwidth]

variable [LawfulExternals]

end Patch

end ArborDb
