import ArborDb.Index.Maintenance
import ArborDb.Txn.Table

/-!
# The write transaction

A mutation of an indexed table first brings the table up to date with the buffer, then brackets the
change with the maintenance of the indexes on the lines of its paths. A table without indexes takes
the change alone. Creating directories is outside the bracket.
-/

namespace ArborDb

variable [Externals]

/-- Takes the buffer out, stops buffering for the rest of the transaction, and flushes. -/
def flushAndDisable : TxM Unit := do
  let buffer ← inspect (fun _ s => .ok s.buffer)
  modify (fun _ s => { s with buffer := s.buffer.disable.clear }) fun _ _ => rfl
  flushBuffered buffer.dirs.entries buffer.files.entries

/-- Brackets a mutation with index maintenance on the lines of its paths. -/
def reindexAround {α : Type} (indexes : List IndexEntry) (scopes : List APath) (apply : TxM α) :
    TxM α := do
  if indexes.isEmpty then apply
  else
    flushAndDisable
    Prog.forEach (deleteEntries indexes) scopes
    let result ← apply
    Prog.forEach (insertEntries indexes) scopes
    return result

/-! ## The calls -/

/-- Stores an encoded value as a file at a path. -/
def storeBlobAt (indexes : List IndexEntry) (path : APath) (valueBlob : Bytes) : TxM Unit :=
  if path.isRoot then fail (.cannotAccess "cannot store a file at the root")
  else reindexAround indexes [path] (storeBlobInto path valueBlob)

/-- Stores a value as a file at a path. -/
def storeValueAt (indexes : List IndexEntry) (path : APath) (value : Value) : TxM Unit :=
  if path.isRoot then fail (.cannotAccess "cannot store a file at the root")
  else reindexAround indexes [path] (storeValueInto path value)

/-- Sets the scalar at `vpath` inside the file at a path. -/
def putScalarAt (indexes : List IndexEntry) (path : APath) (hint : Option (AKey × UInt64))
    (vpath : VPath) (scalar : Scalar) : TxM Unit :=
  reindexAround indexes [path] (putScalarInto path hint vpath scalar)

/-- Creates the directory at a path and any missing ancestors. -/
def mkdir (path : APath) : TxM Unit := do
  let _ ← ensureDir path

/-- Removes the file or directory at a path. -/
def rm (indexes : List IndexEntry) (path : APath) : TxM Bool :=
  if path.isRoot then fail (.cannotAccess "cannot remove the root")
  else reindexAround indexes [path] (rmInto path)

/-- Moves the a-node at `src` to `dst`, keeping its key. -/
def mv (indexes : List IndexEntry) (src dst : APath) : TxM Unit :=
  if src.names <+: dst.names then
    fail (.cannotAccess "cannot move an a-node onto itself or into a descendant")
  else if src.isRoot then fail (.cannotAccess "cannot move the root")
  else if dst.isRoot then fail (.cannotAccess "cannot move onto the root")
  else reindexAround indexes [src, dst] (mvInto src dst)

/-- Copies the subtree at `src` to `dst` under fresh keys. -/
def cp (indexes : List IndexEntry) (src dst : APath) : TxM Unit :=
  if src.names <+: dst.names then
    fail (.cannotAccess "cannot copy an a-node onto itself or into a descendant")
  else if dst.isRoot then fail (.cannotAccess "cannot copy onto the root")
  else reindexAround indexes [dst] (cpInto src dst)

/-- Flushes the buffer, which makes the table what the transaction commits. -/
def commit : TxM Unit := flush

/-- Indexes the entities a freshly registered index matches. -/
def backfill (entry : IndexEntry) : TxM Unit := insertEntries [entry] .root

/-! ## Transactions -/

/-- The state of an empty table. -/
def TxState.empty : TxState := ⟨.empty, .empty, .empty, .new true, 0⟩

/-- The state a transaction starts from. -/
def TxState.begin (s : TxState) (buffering : Bool) : TxState := { s with buffer := .new buffering }

omit [Externals] in
theorem foldl_drawn_le {α : Type} {f : TxState → α → TxState} (hf : ∀ s a, s.drawn ≤ (f s a).drawn)
    (l : List α) (s : TxState) : s.drawn ≤ (l.foldl f s).drawn := by
  induction l generalizing s with
  | nil => exact Nat.le_refl _
  | cons a l ih => exact (hf s a).trans (ih (f s a))

/-- A mutating call of a write transaction. -/
inductive Call where
  | store (path : APath) (blob : Bytes)
  | storeValue (path : APath) (value : Value)
  | putScalar (path : APath) (hint : Option (AKey × UInt64)) (vpath : VPath) (scalar : Scalar)
  | mkdir (path : APath)
  | rm (path : APath)
  | mv (src dst : APath)
  | cp (src dst : APath)

/-- The program of a call. -/
def Call.prog (indexes : List IndexEntry) : Call → TxM Unit
  | .store path blob => storeBlobAt indexes path blob
  | .storeValue path value => storeValueAt indexes path value
  | .putScalar path hint vpath scalar => putScalarAt indexes path hint vpath scalar
  | .mkdir path => ArborDb.mkdir path
  | .rm path => do
    let _ ← ArborDb.rm indexes path
  | .mv src dst => ArborDb.mv indexes src dst
  | .cp src dst => ArborDb.cp indexes src dst

/-! ## A small database -/

/-- An unprotected database whose keys are the numbers from one on. -/
def countingEnv : Env where
  build := .plain
  table := ⟨"t"⟩
  principal := .unrestricted
  now := 0
  gen i := .ofNat (i + 1)
  crypto := ⟨fun _ _ => [], fun _ => [], fun _ _ => []⟩
  writer := by decide
  unprotected _ := rfl

/-- The path with these names. -/
def pathOf (names : List String) : APath := ⟨names.map Str.mk⟩

end ArborDb
