import ArborDb.Access.Reader
import ArborDb.Value.Edit

/-!
# Writers

The calls that build or edit the tree of one value, and what they do to a value in memory. None of
them says whether an edit applied: where a path does not fit, nothing changes.
-/

namespace ArborDb

variable [Externals]

/-- A call of a writer. -/
inductive WriterOp where
  /-- Sets a scalar, creating missing containers along the way. -/
  | putScalar (path : VPath) (scalar : Scalar)
  /-- Makes sure that a list, or else an object, is there. -/
  | ensureContainer (path : VPath) (list : Bool)
  /-- Removes a subtree. -/
  | remove (path : VPath)

namespace Value

/-- Whether a container of the kind is at the path. -/
def hasContainer (v : Value) (path : VPath) (isList : Bool) : Bool :=
  match v.subtree path with
  | some (.list _) => isList
  | some (.node _) => !isList
  | _ => false

def emptyContainer (isList : Bool) : Value := if isList then .list [] else .node []

/-- The value with a container of the kind at the path. -/
def ensured (v : Value) (path : VPath) (isList : Bool) : Value :=
  if v.hasContainer path isList then v else (v.setValue path (emptyContainer isList)).1

/-- The value after a call. -/
def apply (v : Value) : WriterOp → Value
  | .putScalar path scalar => (v.setValue path (.leaf scalar)).1
  | .ensureContainer path isList => v.ensured path isList
  | .remove path => (v.removeValue path).1

/-- The value after some calls. -/
def applyAll (v : Value) (ops : List WriterOp) : Value := ops.foldl apply v

end Value

namespace MemWriter

/-- A builder that starts with an empty object. -/
def new : MemWriter := ⟨.node []⟩

/-- What a builder holds after some calls, which all succeed. -/
def run (w : MemWriter) (ops : List WriterOp) : MemWriter := ⟨w.value.applyAll ops⟩

end MemWriter

namespace Value

variable {v v' x : Value} {path : VPath} {isList : Bool}

theorem applyAll_append (ops rest : List WriterOp) :
    v.applyAll (ops ++ rest) = (v.applyAll ops).applyAll rest := List.foldl_append

theorem setValue_of_setIn (h : setIn v path.segments x = some v') : v.setValue path x = (v', true) := by
  rw [setValue, h]

theorem setValue_of_not_fits (h : v.fits path.segments = false) : v.setValue path x = (v, false) := by
  rw [← setIn_isSome (x := x), Option.isSome_eq_false_iff, Option.isNone_iff_eq_none] at h
  rw [setValue, h]

theorem removeValue_of_absent (h : v.descend path.segments = none) : v.removeValue path = (v, false) := by
  have hnone : removeIn v path.segments = none := by
    rw [← Option.isNone_iff_eq_none, ← Option.isSome_eq_false_iff, removeIn_isSome, h]
    rfl
  rw [removeValue, hnone]

theorem setIn_of_fits (h : v.fits path.segments = true) :
    setIn v path.segments x = some (v.setValue path x).1 := by
  rw [← setIn_isSome (x := x)] at h
  obtain ⟨v', hv'⟩ := Option.isSome_iff_exists.1 h
  rw [setValue_of_setIn hv', hv']

theorem hasContainer_of_absent (h : v.descend path.segments = none) : v.hasContainer path isList = false := by
  rw [hasContainer, subtree, h]

/-- In a slot, a container is made. -/
theorem setIn_ensured (h : Slot v path.segments) :
    setIn v path.segments (emptyContainer isList) = some (v.apply (.ensureContainer path isList)) := by
  rw [apply, ensured, if_neg (by rw [hasContainer_of_absent h.1]; decide)]
  exact setIn_of_fits h.2

/-! ## What is found after a call -/

theorem scalarAt_putScalar {s : Scalar} :
    (v.apply (.putScalar path s)).scalarAt path = some s ↔ v.fits path.segments = true := by
  rw [apply, scalarAt, subtree]
  cases hfits : v.fits path.segments with
  | true => simp [descend_setIn (setIn_of_fits hfits), asLeaf]
  | false =>
    rw [setValue_of_not_fits hfits]
    refine iff_of_false ?_ (by simp)
    cases hw : v.descend path.segments with
    | none =>
      intro hsome
      cases hsome
    | some w =>
      rw [fits_of_descend hw] at hfits
      cases hfits

theorem kindAt_emptyContainer : (emptyContainer isList).nodeKind = if isList then .list else .object := by
  cases isList <;> rfl

theorem kindAt_ensureContainer :
    (v.apply (.ensureContainer path isList)).kindAt path = some (if isList then .list else .object) ↔
      v.fits path.segments = true := by
  rw [apply, ensured, kindAt]
  split
  · rename_i hhas
    rw [hasContainer] at hhas
    rcases hw : v.subtree path with _ | _ | _ | _ <;> rw [hw] at hhas
    · cases hhas
    · cases hhas
    · refine iff_of_true ?_ (fits_of_descend hw)
      dsimp only at hhas
      subst hhas
      rfl
    · refine iff_of_true ?_ (fits_of_descend hw)
      dsimp only at hhas
      rw [Bool.not_eq_true'] at hhas
      subst hhas
      rfl
  · rw [subtree]
    cases hfits : v.fits path.segments with
    | true => simp [descend_setIn (setIn_of_fits hfits), kindAt_emptyContainer]
    | false =>
      rw [setValue_of_not_fits hfits]
      refine iff_of_false ?_ (by simp)
      cases hw : v.descend path.segments with
      | none =>
        intro hsome
        cases hsome
      | some w =>
        rw [fits_of_descend hw] at hfits
        cases hfits

theorem removed_eq : (v.removeValue path).2 = (v.descend path.segments).isSome := by
  rw [removeValue, ← removeIn_isSome]
  cases removeIn v path.segments <;> rfl

theorem apply_remove_absent (h : v.descend path.segments = none) : v.apply (.remove path) = v := by
  rw [apply, removeValue_of_absent h]

/-! ## The field order is kept -/

theorem WF.setValue (hv : v.WF) (hx : x.WF) : (v.setValue path x).1.WF := by
  rw [Value.setValue]
  cases h : Value.setIn v path.segments x with
  | none => exact hv
  | some v' => exact hv.setIn hx h

theorem wf_emptyContainer : (emptyContainer isList).WF := by
  cases isList
  · exact wf_node.2 ⟨Assoc.sorted_nil, by simp⟩
  · exact wf_list.2 (by simp)

theorem WF.apply (hv : v.WF) (op : WriterOp) : (v.apply op).WF := by
  cases op with
  | putScalar path s => exact hv.setValue trivial
  | ensureContainer path isList =>
    rw [Value.apply, ensured]
    split
    · exact hv
    · exact hv.setValue wf_emptyContainer
  | remove path =>
    rw [Value.apply, removeValue]
    cases h : Value.removeIn v path.segments with
    | none => exact hv
    | some v' => exact hv.removeIn h

theorem WF.applyAll (hv : v.WF) (ops : List WriterOp) : (v.applyAll ops).WF := by
  induction ops generalizing v with
  | nil => exact hv
  | cons op ops ih => exact ih (hv.apply op)

end Value

end ArborDb
