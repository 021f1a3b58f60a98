import ArborDb.Data.Scalar
import ArborDb.Lib.SortedMap

/-!
# Values

`Value` is what a file holds: a tree of scalar leaves, lists and objects. The fields of an object
are the entries of a map, in name order; `Value.WF` says so at every level of the tree, and the
path-addressed updates keep it.
-/

namespace ArborDb

variable [Externals]

/-- The dynamic document type. -/
inductive Value where
  | leaf (s : Scalar)
  | list (items : List Value)
  | node (fields : List (Str × Value))

/-- The kind of a vnode inside a stored value. -/
inductive NodeKind where
  | object
  | list
  | leaf
  deriving DecidableEq

namespace Value

/-! ## Field order -/

mutual

/-- Every object of the tree has its fields in name order, without duplicates. -/
def WF : Value → Prop
  | .leaf _ => True
  | .list items => WFItems items
  | .node fields => Assoc.Sorted fields ∧ WFFields fields

def WFItems : List Value → Prop
  | [] => True
  | v :: vs => WF v ∧ WFItems vs

def WFFields : List (Str × Value) → Prop
  | [] => True
  | (_, v) :: fs => WF v ∧ WFFields fs

end

mutual

def decWF : (v : Value) → Decidable (WF v)
  | .leaf _ => inferInstanceAs (Decidable True)
  | .list items => decWFItems items
  | .node fields =>
    have := decWFFields fields
    inferInstanceAs (Decidable ((fields.map Prod.fst).Pairwise (· < ·) ∧ WFFields fields))

def decWFItems : (items : List Value) → Decidable (WFItems items)
  | [] => inferInstanceAs (Decidable True)
  | v :: vs =>
    have := decWF v
    have := decWFItems vs
    inferInstanceAs (Decidable (WF v ∧ WFItems vs))

def decWFFields : (fields : List (Str × Value)) → Decidable (WFFields fields)
  | [] => inferInstanceAs (Decidable True)
  | (_, v) :: fs =>
    have := decWF v
    have := decWFFields fs
    inferInstanceAs (Decidable (WF v ∧ WFFields fs))

end

instance : DecidablePred WF := decWF

theorem wfItems_iff {items : List Value} : WFItems items ↔ ∀ v ∈ items, WF v := by
  induction items with
  | nil => simp [WFItems]
  | cons v vs ih => simp [WFItems, ih]

theorem wfFields_iff {fields : List (Str × Value)} : WFFields fields ↔ ∀ f ∈ fields, WF f.2 := by
  induction fields with
  | nil => simp [WFFields]
  | cons f fs ih => simp [WFFields, ih]

theorem wf_list {items : List Value} : WF (.list items) ↔ ∀ v ∈ items, WF v := by
  rw [WF, wfItems_iff]

theorem wf_node {fields : List (Str × Value)} :
    WF (.node fields) ↔ Assoc.Sorted fields ∧ ∀ f ∈ fields, WF f.2 := by
  rw [WF, wfFields_iff]

/-! ## Reading -/

/-- The empty default is a `null` leaf. -/
def default : Value := .leaf .null

/-- The scalar of a leaf. -/
def asLeaf : Value → Option Scalar
  | .leaf s => some s
  | _ => none

/-- The list element at `index`. -/
def at? : Value → Nat → Option Value
  | .list items, i => items[i]?
  | _, _ => none

/-- The object field named `key`. -/
def get : Value → Str → Option Value
  | .node fields, key => Assoc.find key fields
  | _, _ => none

def nodeKind : Value → NodeKind
  | .leaf _ => .leaf
  | .list _ => .list
  | .node _ => .object

/-- The child a segment leads to. -/
def child (v : Value) : Segment → Option Value
  | .name n => v.get n
  | .index i => v.at? i.toNat

/-- The subtree at the end of a chain of segments. -/
def descend : Value → List Segment → Option Value
  | v, [] => some v
  | v, seg :: rest => (v.child seg).bind (descend · rest)

/-- The subtree at a path; `none` if a segment leads nowhere. -/
def subtree (v : Value) (base : VPath) : Option Value := v.descend base.segments

/-! ## Path-addressed updates -/

/-- A brand-new subtree placing `value` at `segments`; an index in fresh territory can only be 0. -/
def buildFresh : List Segment → Value → Option Value
  | [], value => some value
  | .name n :: rest, value => (buildFresh rest value).map fun sub => .node [(n, sub)]
  | .index i :: rest, value =>
    if i = 0 then (buildFresh rest value).map fun sub => .list [sub] else none

/-- `target` with `value` placed at `segments`, or `none` where a segment would traverse a leaf,
hit the wrong container kind, or grow a list past its end. -/
def setIn : Value → List Segment → Value → Option Value
  | _, [], value => some value
  | .node fields, .name n :: rest, value =>
    match Assoc.find n fields with
    | some c => (setIn c rest value).map fun c' => .node (Assoc.insert n c' fields)
    | none => (buildFresh rest value).map fun sub => .node (Assoc.insert n sub fields)
  | .list items, .index i :: rest, value =>
    match items[i.toNat]? with
    | some c => (setIn c rest value).map fun c' => .list (items.set i.toNat c')
    | none =>
      if i.toNat = items.length then
        (buildFresh rest value).map fun sub => .list (items ++ [sub])
      else none
  | _, _, _ => none

/-- Sets `value` at `path`: the updated tree, and whether it applied. -/
def setValue (v : Value) (path : VPath) (value : Value) : Value × Bool :=
  match setIn v path.segments value with
  | some v' => (v', true)
  | none => (v, false)

/-- `target` without the vnode at `segments`, or `none` where nothing is there. The empty path
resets the whole value. -/
def removeIn : Value → List Segment → Option Value
  | _, [] => some default
  | .node fields, [.name n] =>
    if (Assoc.find n fields).isSome then some (.node (Assoc.erase n fields)) else none
  | .list items, [.index i] =>
    if i.toNat < items.length then some (.list (items.eraseIdx i.toNat)) else none
  | .node fields, .name n :: rest =>
    (Assoc.find n fields).bind fun c =>
      (removeIn c rest).map fun c' => .node (Assoc.insert n c' fields)
  | .list items, .index i :: rest =>
    items[i.toNat]?.bind fun c =>
      (removeIn c rest).map fun c' => .list (items.set i.toNat c')
  | _, _ => none

/-- Removes the subtree at `path`: the updated tree, and whether anything was removed. -/
def removeValue (v : Value) (path : VPath) : Value × Bool :=
  match removeIn v path.segments with
  | some v' => (v', true)
  | none => (v, false)

/-! ## Updates keep the field order -/

theorem WF.get {v w : Value} {n : Str} (hv : v.WF) (h : v.get n = some w) : w.WF := by
  cases v with
  | node fields => exact (wf_node.1 hv).2 _ (Assoc.mem_of_find h)
  | leaf s => cases h
  | list items => cases h

theorem WF.at? {v w : Value} {i : Nat} (hv : v.WF) (h : v.at? i = some w) : w.WF := by
  cases v with
  | list items => exact wf_list.1 hv _ (List.mem_of_getElem? h)
  | leaf s => cases h
  | node fields => cases h

theorem WF.child {v w : Value} {seg : Segment} (hv : v.WF) (h : v.child seg = some w) : w.WF := by
  cases seg with
  | name n => exact hv.get h
  | index i => exact hv.at? h

theorem WF.descend {v w : Value} {segs : List Segment} (hv : v.WF)
    (h : v.descend segs = some w) : w.WF := by
  induction segs generalizing v with
  | nil => exact Option.some.inj h ▸ hv
  | cons seg rest ih =>
    obtain ⟨c, hc, hrest⟩ := Option.bind_eq_some_iff.1 h
    exact ih (hv.child hc) hrest

theorem wf_insert {fields : List (Str × Value)} {n : Str} {c : Value} (hv : (node fields).WF)
    (hc : c.WF) : (node (Assoc.insert n c fields)).WF := by
  obtain ⟨hs, hall⟩ := wf_node.1 hv
  refine wf_node.2 ⟨Assoc.sorted_insert hs, ?_⟩
  intro f hf
  rcases Assoc.mem_insert hf with rfl | hmem
  · exact hc
  · exact hall f hmem

theorem wf_set {items : List Value} {i : Nat} {c : Value} (hv : (list items).WF) (hc : c.WF) :
    (list (items.set i c)).WF := by
  refine wf_list.2 ?_
  intro v hmem
  rcases List.mem_or_eq_of_mem_set hmem with hold | rfl
  · exact wf_list.1 hv v hold
  · exact hc

theorem WF.buildFresh {segs : List Segment} {value sub : Value} (hx : value.WF)
    (h : buildFresh segs value = some sub) : sub.WF := by
  induction segs generalizing sub with
  | nil => exact Option.some.inj h ▸ hx
  | cons seg rest ih =>
    cases seg with
    | name n =>
      obtain ⟨c, hc, rfl⟩ := Option.map_eq_some_iff.1 h
      exact wf_node.2 ⟨by simp [Assoc.Sorted], by simpa using ih hc⟩
    | index i =>
      rw [Value.buildFresh] at h
      split at h
      · obtain ⟨c, hc, rfl⟩ := Option.map_eq_some_iff.1 h
        exact wf_list.2 (by simpa using ih hc)
      · cases h

theorem WF.setIn {v value v' : Value} {segs : List Segment} (hv : v.WF) (hx : value.WF)
    (h : setIn v segs value = some v') : v'.WF := by
  fun_induction Value.setIn v segs value generalizing v' with
  | case1 => exact Option.some.inj h ▸ hx
  | case2 fields n rest value c hc ih =>
    obtain ⟨c', hc', rfl⟩ := Option.map_eq_some_iff.1 h
    exact wf_insert hv (ih (WF.get (v := .node _) hv hc) hx hc')
  | case3 fields n rest value hc =>
    obtain ⟨c', hc', rfl⟩ := Option.map_eq_some_iff.1 h
    exact wf_insert hv (hx.buildFresh hc')
  | case4 items i rest value c hc ih =>
    obtain ⟨c', hc', rfl⟩ := Option.map_eq_some_iff.1 h
    exact wf_set hv (ih (WF.at? (v := .list _) hv hc) hx hc')
  | case5 items i rest value hc hlen =>
    obtain ⟨c', hc', rfl⟩ := Option.map_eq_some_iff.1 h
    refine wf_list.2 ?_
    intro w hw
    rcases List.mem_append.1 hw with hold | hnew
    · exact wf_list.1 hv w hold
    · rw [List.mem_singleton.1 hnew]
      exact hx.buildFresh hc'
  | case6 => cases h
  | case7 => cases h

theorem WF.removeIn {v v' : Value} {segs : List Segment} (hv : v.WF)
    (h : removeIn v segs = some v') : v'.WF := by
  fun_induction Value.removeIn v segs generalizing v' with
  | case1 => exact Option.some.inj h ▸ trivial
  | case2 fields n hn =>
    obtain rfl := Option.some.inj h
    obtain ⟨hs, hall⟩ := wf_node.1 hv
    exact wf_node.2 ⟨Assoc.sorted_erase hs, fun f hf => hall f (Assoc.mem_erase hf)⟩
  | case3 => cases h
  | case4 items i hi =>
    obtain rfl := Option.some.inj h
    exact wf_list.2 fun w hw => wf_list.1 hv w (List.mem_of_mem_eraseIdx hw)
  | case5 => cases h
  | case6 fields n rest _ ih =>
    obtain ⟨c, hc, hmap⟩ := Option.bind_eq_some_iff.1 h
    obtain ⟨c', hc', rfl⟩ := Option.map_eq_some_iff.1 hmap
    exact wf_insert hv (ih c (WF.get (v := .node fields) hv hc) hc')
  | case7 items i rest _ ih =>
    obtain ⟨c, hc, hmap⟩ := Option.bind_eq_some_iff.1 h
    obtain ⟨c', hc', rfl⟩ := Option.map_eq_some_iff.1 hmap
    exact wf_set hv (ih c (WF.at? (v := .list items) hv hc) hc')
  | case8 => cases h

end Value

end ArborDb
