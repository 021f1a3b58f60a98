import ArborDb.Codec.Stored
import ArborDb.Data.Store

/-!
# The direct encoder

`encodeData` writes the blob of a typed value in one pass, children first, without the tree in
between; only an enum still goes through a builder. What it writes is the encoding of the value's
tree (`encodeData_eq`).
-/

namespace ArborDb

open Codec

/-- Emits the vnodes of some named fields in order. -/
def runEncoders : List (Str × (Bytes → Nat × Bytes)) → Bytes → List (Str × Nat) × Bytes
  | [], buf => ([], buf)
  | (name, f) :: fs, buf =>
    let (off, buf) := f buf
    let (entries, buf) := runEncoders fs buf
    ((name, off) :: entries, buf)

variable [Externals]

section Encode

variable (defs : Nat → Definition)

mutual

/-- Emits a value as one vnode, children first: its offset, and the grown buffer. -/
def encodeNode : DataType → Data → Bytes → Nat × Bytes
  | .scalar _, .scalar s, buf => pushLeaf buf s
  | .option _, .none, buf => pushLeaf buf .null
  | .option t, .some d, buf => encodeNode t d buf
  | .vec t, .vec items, buf =>
    let (offsets, buf) := encodeItems t items buf
    pushList buf offsets
  | .map t, .map es, buf =>
    let (entries, buf) := encodeEntries t es buf
    pushObject buf entries
  | .derived n, .struct ds, buf =>
    match defs n with
    | .enum _ _ _ => (0, buf)
    | .struct fs =>
      let sorted := (fieldEncoders (fs.map Field.entry) ds).mergeSort fun a b => decide (a.1 ≤ b.1)
      let (entries, buf) := runEncoders sorted buf
      pushObject buf entries
  | .derived n, .variant index ds, buf =>
    pushValue (MemWriter.new.run (store defs (.derived n) (.variant index ds) .root)).value buf
  | _, _, buf => (0, buf)

def encodeItems (t : DataType) : List Data → Bytes → List Nat × Bytes
  | [], buf => ([], buf)
  | d :: ds, buf =>
    let (off, buf) := encodeNode t d buf
    let (offs, buf) := encodeItems t ds buf
    (off :: offs, buf)

def encodeEntries (t : DataType) : List (Str × Data) → Bytes → List (Str × Nat) × Bytes
  | [], buf => ([], buf)
  | (name, d) :: es, buf =>
    let (off, buf) := encodeNode t d buf
    let (entries, buf) := encodeEntries t es buf
    ((name, off) :: entries, buf)

/-- The encoders of the fields of a struct, in the order of their declaration. -/
def fieldEncoders : List (Str × DataType) → List Data → List (Str × (Bytes → Nat × Bytes))
  | (name, t) :: fs, d :: ds => (name, fun buf => encodeNode t d buf) :: fieldEncoders fs ds
  | _, _ => []

end

/-- Encodes a value straight into a blob. -/
def encodeData (t : DataType) (d : Data) : Bytes :=
  let (root, buf) := encodeNode defs t d beginBlob
  patchRoot buf root

end Encode

/-! ## The encoded tree -/

section Tree

variable {defs : Nat → Definition} {t : DataType} {d : Data}

/-- A builder that a value is stored in holds its tree. -/
theorem run_store (hdefs : ∀ n, (defs n).WF) (h : Of defs t d) :
    (MemWriter.new.run (store defs t d .root)).value = toValue defs t d := by
  have hputs := puts_store hdefs t d .root h (.node []) (.inr ⟨rfl, rfl⟩)
  rw [show VPath.root.segments = [] from rfl, Value.setIn_nil] at hputs
  exact (Option.some.inj hputs).symm

theorem wf_toValue (hdefs : ∀ n, (defs n).WF) (h : Of defs t d) : (toValue defs t d).WF := by
  have hnew : (Value.node []).WF := @Value.wf_emptyContainer _ false
  rw [← run_store hdefs h]
  exact hnew.applyAll _

theorem runEncoders_pushValue (fields : List (Str × Value)) :
    runEncoders (fields.map fun f => (f.1, pushValue f.2)) = pushFields fields := by
  induction fields with
  | nil => rfl
  | cons f fields ih =>
    funext buf
    rw [List.map_cons, runEncoders, pushFields, ih]

/-- Writing the fields of an object in name order. -/
theorem runEncoders_sorted {fields : List (Str × Value)} (hnodup : (fields.map Prod.fst).Nodup) :
    runEncoders ((fields.map fun f => (f.1, pushValue f.2)).mergeSort fun a b => decide (a.1 ≤ b.1)) =
      pushFields (Assoc.insertAll [] fields) := by
  rw [Assoc.insertAll_eq_mergeSort hnodup, ← runEncoders_pushValue]
  have hmap : (fields.mergeSort fun a b => decide (a.1 ≤ b.1)).map (fun f => (f.1, pushValue f.2)) =
      (fields.map fun f => (f.1, pushValue f.2)).mergeSort fun a b => decide (a.1 ≤ b.1) :=
    List.map_mergeSort fun a _ b _ => rfl
  rw [hmap]

theorem keys_namedValues : ∀ {fs : List (Str × DataType)} {ds : List Data}, OfFields defs (fs.map Prod.snd) ds →
    (namedValues defs fs ds).map Prod.fst = fs.map Prod.fst
  | [], [], _ => rfl
  | (name, _) :: _, _ :: _, ⟨_, h⟩ => congrArg (name :: ·) (keys_namedValues h)

mutual

/-- The direct encoder writes the vnodes of the tree. -/
theorem encodeNode_eq (hdefs : ∀ n, (defs n).WF) : ∀ (t : DataType) (d : Data), Of defs t d →
    encodeNode defs t d = pushValue (toValue defs t d)
  | .scalar t, .scalar s, h => rfl
  | .option _, .none, h => rfl
  | .option t, .some d, h => encodeNode_eq hdefs t d h
  | .vec t, .vec items, ⟨_, h⟩ => by
    funext buf
    rw [encodeNode, toValue, pushValue, encodeItems_eq hdefs t items h]
  | .map t, .map es, ⟨_, h⟩ => by
    funext buf
    rw [encodeNode, toValue, pushValue, encodeEntries_eq hdefs t es h]
  | .derived n, .struct ds, h => by
    have hn := hdefs n
    rw [Of] at h
    funext buf
    rw [encodeNode, toValue]
    match hdef : defs n with
    | .enum _ _ _ => rw [hdef] at h; exact h.elim
    | .struct fs =>
      rw [hdef] at h hn
      have hkeys : (fs.map Field.entry).map Prod.fst = fs.map Field.name := by rw [List.map_map]; rfl
      have htypes : (fs.map Field.entry).map Prod.snd = fs.map Field.ty := by rw [List.map_map]; rfl
      change OfFields defs (fs.map Field.ty) ds at h
      rw [← htypes] at h
      have hnodup : ((namedValues defs (fs.map Field.entry) ds).map Prod.fst).Nodup := by
        rw [keys_namedValues h, hkeys]
        exact hn.1.1
      simp only []
      rw [fieldEncoders_eq hdefs _ ds h, runEncoders_sorted hnodup, Value.object, pushValue]
  | .derived n, .variant index ds, h => by
    funext buf
    rw [encodeNode, run_store hdefs h]

theorem encodeItems_eq (hdefs : ∀ n, (defs n).WF) (t : DataType) : ∀ ds : List Data, OfItems defs t ds →
    encodeItems defs t ds = pushItems (itemValues defs t ds)
  | [], h => rfl
  | d :: ds, ⟨hd, hds⟩ => by
    funext buf
    rw [encodeItems, itemValues, pushItems, encodeNode_eq hdefs t d hd, encodeItems_eq hdefs t ds hds]

theorem encodeEntries_eq (hdefs : ∀ n, (defs n).WF) (t : DataType) : ∀ es : List (Str × Data),
    OfEntries defs t es → encodeEntries defs t es = pushFields (entryValues defs t es)
  | [], h => rfl
  | (name, d) :: es, ⟨_, hd, hes⟩ => by
    funext buf
    rw [encodeEntries, entryValues, pushFields, encodeNode_eq hdefs t d hd, encodeEntries_eq hdefs t es hes]

theorem fieldEncoders_eq (hdefs : ∀ n, (defs n).WF) : ∀ (fs : List (Str × DataType)) (ds : List Data),
    OfFields defs (fs.map Prod.snd) ds →
      fieldEncoders defs fs ds = (namedValues defs fs ds).map fun f => (f.1, pushValue f.2)
  | [], [], h => rfl
  | (name, t) :: fs, d :: ds, ⟨hd, hds⟩ => by
    rw [fieldEncoders, namedValues, List.map_cons, encodeNode_eq hdefs t d hd, fieldEncoders_eq hdefs fs ds hds]

end

/-- **The direct encoder writes the encoding of the tree.** -/
theorem encodeData_eq (hdefs : ∀ n, (defs n).WF) (h : Of defs t d) :
    encodeData defs t d = encode (toValue defs t d) := by
  rw [encodeData, encodeNode_eq hdefs t d h, encode]

end Tree

end ArborDb
