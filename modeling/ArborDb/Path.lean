import ArborDb.Lib.Str

/-!
# Access paths and value paths

An `APath` addresses a whole stored value: a sequence of names. A `VPath` addresses a vnode inside
a value: field names and list indices.
-/

namespace ArborDb

/-- A filesystem-like address of a stored value: names only, from the root down. -/
structure APath where
  names : List Str
  deriving DecidableEq

namespace APath

/-- The root path (empty). -/
def root : APath := ⟨[]⟩

def isRoot (p : APath) : Bool := p.names.isEmpty

def len (p : APath) : Nat := p.names.length

/-- Splits into the parent path and the last name, or `none` for the root. -/
def splitLast (p : APath) : Option (APath × Str) :=
  match p.names.getLast? with
  | none => none
  | some last => some (⟨p.names.dropLast⟩, last)

/-- The slash-separated text of a path. -/
def display (p : APath) : String := String.intercalate "/" (p.names.map Str.text)

theorem splitLast_append (names : List Str) (last : Str) :
    splitLast ⟨names ++ [last]⟩ = some (⟨names⟩, last) := by
  simp [splitLast]

theorem splitLast_eq_none {p : APath} : p.splitLast = none ↔ p.isRoot = true := by
  obtain ⟨names⟩ := p
  rcases List.eq_nil_or_concat names with rfl | ⟨init, last, rfl⟩
  · simp [splitLast, isRoot]
  · simp [splitLast, isRoot]

/-- Splitting a path names its parent and last component. -/
theorem splitLast_eq_some {p parent : APath} {name : Str}
    (h : p.splitLast = some (parent, name)) : p.names = parent.names ++ [name] := by
  obtain ⟨names⟩ := p
  rcases List.eq_nil_or_concat names with rfl | ⟨init, last, rfl⟩
  · simp [splitLast] at h
  · simp only [List.concat_eq_append, splitLast_append, Option.some.injEq, Prod.mk.injEq] at h
    obtain ⟨rfl, rfl⟩ := h
    simp

end APath

/-- One component of a `VPath`: a field name or a list index. -/
inductive Segment where
  | name (n : Str)
  | index (i : UInt64)
  deriving DecidableEq

/-- A path inside a value. -/
structure VPath where
  segments : List Segment
  deriving DecidableEq

namespace VPath

/-- The root path (empty), identifying the whole value. -/
def root : VPath := ⟨[]⟩

/-- A name that stands for the path itself or its parent. -/
def Reserved (name : Str) : Prop := name = ⟨"."⟩ ∨ name = ⟨".."⟩

instance : DecidablePred Reserved := fun _ => inferInstanceAs (Decidable (_ ∨ _))

/-- Appends a named segment; `.` is the path itself and `..` its parent. -/
def pushName (p : VPath) (name : Str) : VPath :=
  if name = ⟨"."⟩ then p
  else if name = ⟨".."⟩ then ⟨p.segments.dropLast⟩
  else ⟨p.segments ++ [.name name]⟩

/-- The path with a named segment appended. -/
def childName (p : VPath) (name : Str) : VPath := p.pushName name

/-- The path with an indexed segment appended. -/
def childIndex (p : VPath) (index : UInt64) : VPath := ⟨p.segments ++ [.index index]⟩

theorem segments_childName {p : VPath} {name : Str} (h : ¬ Reserved name) :
    (p.childName name).segments = p.segments ++ [.name name] := by
  unfold childName pushName
  rw [if_neg fun heq => h (.inl heq), if_neg fun heq => h (.inr heq)]

/-- The text of the segments after the first, or of all of them when `first`. -/
def displayFrom : Bool → List Segment → String
  | _, [] => ""
  | first, .name n :: rest => (if first then "" else "/") ++ n.text ++ displayFrom false rest
  | _, .index i :: rest => "[" ++ toString i.toNat ++ "]" ++ displayFrom false rest

def display (p : VPath) : String := displayFrom true p.segments

end VPath

end ArborDb
