import ArborDb.Path

/-!
# Errors

The variants of the library's error type that the modelled code returns. `panic` and
`stackOverflow` are not values of that type: they stand for a thread that panics and for a
recursion that does not end.
-/

namespace ArborDb

inductive AdbError where
  /-- An error of the underlying storage engine. -/
  | engine (msg : String)
  /-- A path string could not be parsed. -/
  | invalidPath (msg : String)
  /-- No value is stored at the requested access path. -/
  | valueNotFound (path : APath)
  /-- No vnode exists at the requested path inside a value. -/
  | pathNotFound (path : VPath)
  /-- A stored scalar has another type than the one asked for. -/
  | typeMismatch (expected found : String)
  /-- A byte slice could not be converted into a key. -/
  | badKey (msg : String)
  /-- Stored bytes could not be decoded. -/
  | corrupt (msg : String)
  /-- A unique index constraint was violated. -/
  | uniqueViolation (index : Str)
  /-- A query referenced an index that is not registered on the table. -/
  | indexNotFound (index : Str)
  /-- An index query supplied the wrong number of column values. -/
  | indexArity (index : Str) (expected got : Nat)
  /-- The on-disk format does not match this build. -/
  | schemaMismatch (msg : String)
  /-- A data access cannot be fulfilled. -/
  | cannotAccess (msg : String)
  /-- The authenticated principal lacks a right required for the operation. -/
  | permissionDenied (msg : String)
  /-- An integrity check failed. -/
  | tampered (msg : String)
  /-- An unknown user, or a wrong password. -/
  | authenticationFailed
  /-- The account is frozen and may not be changed. -/
  | frozen (user : Str)
  /-- A value could not be serialised or deserialised. -/
  | serde (msg : String)
  | panic (msg : String)
  | stackOverflow
  deriving DecidableEq

/-- The result type used throughout. -/
abbrev AdbResult (α : Type) := Except AdbError α

end ArborDb
