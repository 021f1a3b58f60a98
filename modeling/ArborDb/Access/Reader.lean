import ArborDb.Codec.RoundTrip

/-!
# Readers

The ways to read one value by path: `ArchivedReader` in place, over the blob of a stored file, and
`MemWriter` and `MutCursor` over the value in memory. They agree at every path, except that a
length or the keys asked of a vnode of another kind fail with an error of their own.
-/

namespace ArborDb

/-- Read access to the vnode tree of a single stored value. -/
structure TreeReader [Externals] where
  scalarAt : VPath → AdbResult (Option Scalar)
  kindAt : VPath → AdbResult (Option NodeKind)
  lenAt : VPath → AdbResult Nat
  keysAt : VPath → AdbResult (List Str)
  existsAt : VPath → AdbResult Bool

/-! ## Over a blob -/

/-- A read cursor over one stored file: its whole entry, and where the value payload begins. -/
structure ArchivedReader where
  entry : Bytes
  offset : Nat
  root : Nat

namespace ArchivedReader

/-- The bytes of an entry past `offset`. -/
def payload (entry : Bytes) (offset : Nat) : AdbResult Bytes :=
  if offset ≤ entry.length then .ok (entry.drop offset)
  else .error (.corrupt "truncated file entry")

/-- Wraps a file entry, validating the value header once. -/
def new (entry : Bytes) (offset : Nat) : AdbResult ArchivedReader := do
  let blob ← payload entry offset
  let a ← ArchivedValue.new blob
  return ⟨entry, offset, a.rootOffset⟩

def view (r : ArchivedReader) : AdbResult ArchivedValue := do
  let blob ← payload r.entry r.offset
  return ⟨blob, r.root⟩

/-- The vnode at a path, if there is one. -/
def find (r : ArchivedReader) (path : VPath) : AdbResult (Option ArchivedNode) := do
  let a ← r.view
  a.root.navigate path

/-- Reads the vnode at a path, or answers `absent`. -/
def readAt {α : Type} (r : ArchivedReader) (path : VPath) (read : ArchivedNode → AdbResult α)
    (absent : AdbResult α) : AdbResult α := do
  match ← r.find path with
  | some node => read node
  | none => absent

def scalarAt [Externals] (r : ArchivedReader) (path : VPath) : AdbResult (Option Scalar) :=
  r.readAt path ArchivedNode.scalarIfLeaf (.ok none)

def kindAt (r : ArchivedReader) (path : VPath) : AdbResult (Option NodeKind) :=
  r.readAt path (fun node => do return some (← node.kind)) (.ok none)

def lenAt (r : ArchivedReader) (path : VPath) : AdbResult Nat :=
  r.readAt path ArchivedNode.len (.error (.pathNotFound path))

def keysAt (r : ArchivedReader) (path : VPath) : AdbResult (List Str) :=
  r.readAt path ArchivedNode.objectKeys (.error (.pathNotFound path))

def existsAt (r : ArchivedReader) (path : VPath) : AdbResult Bool := do
  return (← r.find path).isSome

def toTreeReader [Externals] (r : ArchivedReader) : TreeReader :=
  ⟨r.scalarAt, r.kindAt, r.lenAt, r.keysAt, r.existsAt⟩

end ArchivedReader

/-! ## Over a value in memory -/

section Memory

variable [Externals]

namespace Value

def scalarAt (v : Value) (path : VPath) : Option Scalar := (v.subtree path).bind asLeaf

def kindAt (v : Value) (path : VPath) : Option NodeKind := (v.subtree path).map nodeKind

def lenAt (v : Value) (path : VPath) : AdbResult Nat :=
  match v.subtree path with
  | some (.list items) => .ok items.length
  | some _ => .error (.cannotAccess ("'" ++ path.display ++ "' is not a list"))
  | none => .error (.pathNotFound path)

def keysAt (v : Value) (path : VPath) : AdbResult (List Str) :=
  match v.subtree path with
  | some (.node fields) => .ok (fields.map Prod.fst)
  | some _ => .error (.cannotAccess ("'" ++ path.display ++ "' is not an object"))
  | none => .error (.pathNotFound path)

def existsAt (v : Value) (path : VPath) : Bool := (v.subtree path).isSome

end Value

/-- A value being assembled in memory. -/
structure MemWriter where
  value : Value

namespace MemWriter

def scalarAt (w : MemWriter) (path : VPath) : AdbResult (Option Scalar) :=
  .ok (w.value.scalarAt path)

def kindAt (w : MemWriter) (path : VPath) : AdbResult (Option NodeKind) := .ok (w.value.kindAt path)

def lenAt (w : MemWriter) (path : VPath) : AdbResult Nat := w.value.lenAt path

def keysAt (w : MemWriter) (path : VPath) : AdbResult (List Str) := w.value.keysAt path

def existsAt (w : MemWriter) (path : VPath) : AdbResult Bool := .ok (w.value.existsAt path)

def toTreeReader (w : MemWriter) : TreeReader := ⟨w.scalarAt, w.kindAt, w.lenAt, w.keysAt, w.existsAt⟩

end MemWriter

namespace MutCursor

/-- The value a cursor over a file reads, given what loading the file returns: an empty default if
the file has vanished. -/
def value (loaded : AdbResult (Option Value)) : AdbResult Value := do
  return (← loaded).getD .default

def scalarAt (loaded : AdbResult (Option Value)) (path : VPath) : AdbResult (Option Scalar) := do
  return (← value loaded).scalarAt path

def kindAt (loaded : AdbResult (Option Value)) (path : VPath) : AdbResult (Option NodeKind) := do
  return (← value loaded).kindAt path

def lenAt (loaded : AdbResult (Option Value)) (path : VPath) : AdbResult Nat := do
  (← value loaded).lenAt path

def keysAt (loaded : AdbResult (Option Value)) (path : VPath) : AdbResult (List Str) := do
  (← value loaded).keysAt path

def existsAt (loaded : AdbResult (Option Value)) (path : VPath) : AdbResult Bool := do
  return (← value loaded).existsAt path

end MutCursor

/-- What `ArchivedNode.len` answers for a vnode that stores a value. -/
def archivedLen : Value → AdbResult Nat
  | .list items => .ok items.length
  | _ => .error (.corrupt "the length of a non-list vnode was requested")

/-- What `ArchivedNode.objectKeys` answers for a vnode that stores a value. -/
def archivedKeys : Value → AdbResult (List Str)
  | .node fields => .ok (fields.map Prod.fst)
  | _ => .error (.corrupt "the entries of a non-object vnode were requested")

end Memory

/-! ## Agreement -/

section Agreement

open Codec

variable [Externals] [LawfulExternals] {v : Value}

/-- A reader over an entry that stores `v` past its offset. -/
structure ArchivedReader.Over (r : ArchivedReader) (v : Value) : Prop where
  wf : v.WF
  size : (r.entry.drop r.offset).length < 2 ^ 32
  bound : r.offset ≤ r.entry.length
  stored : Stored (r.entry.drop r.offset) r.root v

variable {r : ArchivedReader}

omit [LawfulExternals] in
theorem ArchivedReader.Over.find (h : r.Over v) (path : VPath) :
    match v.subtree path with
    | some w => ∃ node, r.find path = .ok (some node) ∧ node.blob = r.entry.drop r.offset ∧
        Stored node.blob node.off w
    | none => r.find path = .ok none := by
  have hdescend := h.stored.descend h.wf path.segments
  have hfind : r.find path = ArchivedNode.descend ⟨r.entry.drop r.offset, r.root⟩ path.segments := by
    simp only [ArchivedReader.find, ArchivedReader.view, payload, h.bound, if_true, Except.ok_bind,
      Except.pure_eq_ok]
    rfl
  rw [Value.subtree, hfind]
  cases hw : v.descend path.segments with
  | none =>
    rw [hw] at hdescend
    exact hdescend
  | some w =>
    rw [hw] at hdescend
    obtain ⟨c, hc, hstored⟩ := hdescend
    exact ⟨_, hc, rfl, hstored⟩

omit [LawfulExternals] in
/-- A read answers by the subtree its path leads to. -/
theorem ArchivedReader.Over.readAt {α : Type} (h : r.Over v) (path : VPath)
    {read : ArchivedNode → AdbResult α} (absent : AdbResult α) (answer : Value → AdbResult α)
    (hread : ∀ node w, node.blob.length < 2 ^ 32 → Stored node.blob node.off w →
      read node = answer w) :
    r.readAt path read absent = match v.subtree path with
      | some w => answer w
      | none => absent := by
  have hfind := h.find path
  rw [ArchivedReader.readAt]
  cases hw : v.subtree path with
  | none =>
    rw [hw] at hfind
    simp only at hfind
    rw [hfind]
    rfl
  | some w =>
    rw [hw] at hfind
    obtain ⟨node, hnode, hblob, hstored⟩ := hfind
    rw [hnode]
    exact hread node w (hblob ▸ h.size) hstored

theorem ArchivedReader.Over.scalarAt (h : r.Over v) (path : VPath) :
    r.scalarAt path = .ok (v.scalarAt path) := by
  have hread := h.readAt path (.ok none) _ fun node w hb hs => hs.scalarIfLeaf hb
  rw [ArchivedReader.scalarAt, hread, Value.scalarAt]
  cases v.subtree path <;> rfl

omit [LawfulExternals] in
theorem ArchivedReader.Over.kindAt (h : r.Over v) (path : VPath) :
    r.kindAt path = .ok (v.kindAt path) := by
  have hread : ∀ (node : ArchivedNode) (w : Value), node.blob.length < 2 ^ 32 →
      Stored node.blob node.off w →
      (do return some (← node.kind)) = (.ok (some w.nodeKind) : AdbResult (Option NodeKind)) := by
    intro node w _ hs
    have hkind : node.kind = .ok w.nodeKind := hs.kind
    rw [hkind]
    rfl
  rw [ArchivedReader.kindAt, h.readAt path (.ok none) _ hread, Value.kindAt]
  cases v.subtree path <;> rfl

omit [LawfulExternals] in
theorem ArchivedReader.Over.existsAt (h : r.Over v) (path : VPath) :
    r.existsAt path = .ok (v.existsAt path) := by
  have hfind := h.find path
  rw [ArchivedReader.existsAt, Value.existsAt]
  cases hw : v.subtree path with
  | none =>
    rw [hw] at hfind
    simp only at hfind
    rw [hfind]
    rfl
  | some w =>
    rw [hw] at hfind
    obtain ⟨node, hnode, -, -⟩ := hfind
    rw [hnode]
    rfl

omit [LawfulExternals] in
theorem ArchivedReader.Over.lenAt (h : r.Over v) (path : VPath) :
    r.lenAt path = match v.subtree path with
      | some w => archivedLen w
      | none => .error (.pathNotFound path) := by
  refine h.readAt path _ _ ?_
  intro node w _ hs
  cases w with
  | list items => exact hs.len
  | leaf s => simp [ArchivedNode.len, hs.tag, tagOf, leafTag, listTag, archivedLen]
  | node fields => simp [ArchivedNode.len, hs.tag, tagOf, nodeTag, listTag, archivedLen]

omit [LawfulExternals] in
theorem ArchivedReader.Over.keysAt (h : r.Over v) (path : VPath) :
    r.keysAt path = match v.subtree path with
      | some w => archivedKeys w
      | none => .error (.pathNotFound path) := by
  refine h.readAt path _ _ ?_
  intro node w _ hs
  cases w with
  | node fields =>
    obtain ⟨es, hes, hall⟩ := hs.entries
    have hnames : List.Forall₂ (· = ·) (es.map Prod.fst) (fields.map Prod.fst) := by
      rw [List.forall₂_map_left_iff, List.forall₂_map_right_iff]
      exact hall.imp fun _ _ he => he.1
    rw [List.forall₂_eq_eq_eq] at hnames
    rw [ArchivedNode.objectKeys, show node.entries = .ok es from hes, Except.ok_bind, hnames]
    rfl
  | leaf s =>
    simp [ArchivedNode.objectKeys, ArchivedNode.entries, hs.tag, tagOf, leafTag, nodeTag,
      archivedKeys]
  | list items =>
    simp [ArchivedNode.objectKeys, ArchivedNode.entries, hs.tag, tagOf, nodeTag, listTag,
      archivedKeys]

omit [LawfulExternals] in
/-- A reader opened over an entry that ends in an encoded value reads that value. -/
theorem ArchivedReader.new_over (hv : v.WF) (hlen : (encode v).length < 2 ^ 32) (pre : Bytes) :
    ∃ r, ArchivedReader.new (pre ++ encode v) pre.length = .ok r ∧ r.Over v := by
  obtain ⟨root, hnew, hstored⟩ := stored_encode hlen
  refine ⟨⟨pre ++ encode v, pre.length, root⟩, ?_, hv, ?_, ?_, ?_⟩
  · simp [ArchivedReader.new, payload, hnew]
  · simpa using hlen
  · simp
  · simpa using hstored

/-- A reader that answers as the value in memory does, as far as a vnode of the right kind goes. -/
structure TreeReader.Reads (r : TreeReader) (v : Value) : Prop where
  scalarAt : ∀ path, r.scalarAt path = .ok (v.scalarAt path)
  existsAt : ∀ path, r.existsAt path = .ok (v.existsAt path)
  lenAt : ∀ path items, v.subtree path = some (.list items) → r.lenAt path = .ok items.length
  keysAt : ∀ path fields, v.subtree path = some (.node fields) → r.keysAt path = .ok (fields.map Prod.fst)

omit [LawfulExternals] in
theorem MemWriter.reads (w : MemWriter) : w.toTreeReader.Reads w.value where
  scalarAt _ := rfl
  existsAt _ := rfl
  lenAt path items hitems := by
    change w.value.lenAt path = _
    rw [Value.lenAt, hitems]
  keysAt path fields hfields := by
    change w.value.keysAt path = _
    rw [Value.keysAt, hfields]

theorem ArchivedReader.Over.reads (h : r.Over v) : r.toTreeReader.Reads v where
  scalarAt := h.scalarAt
  existsAt := h.existsAt
  lenAt path items hitems := by
    have hlen := h.lenAt path
    rw [hitems] at hlen
    exact hlen
  keysAt path fields hfields := by
    have hkeys := h.keysAt path
    rw [hfields] at hkeys
    exact hkeys

end Agreement

section

open Codec

end

end ArborDb
