import ArborDb.Data.Reserved
import Mathlib.Data.List.Induction

/-!
# Accessors over maps and lists

The entries of a map and the elements of a list of options, edited one by one in a stored document. An entry
is independent of all else exactly if no key stands for a path or its parent (`map_entries_independent`); an
option is set by clearing its vnode, which moves up what follows it in a list (`optional_elements_kept`). The
calls are made here on a value in memory; made through a cursor they do the same to the value of a file.
-/

namespace ArborDb

section Accessors

variable [Externals]

/-! ## Maps -/

/-- A read/write accessor for a map from strings: the path of the map object. -/
structure MapMut where
  base : VPath

namespace MapMut

variable (m : MapMut) (defs : Nat → Definition) (t : DataType)

/-- The path of an accessor for the value under a name, or `none` if absent. -/
def get (doc : Value) (name : Str) : Option VPath :=
  if doc.existsAt (m.base.childName name) then some (m.base.childName name) else none

/-- The calls that insert (or replace) an entry, clearing any prior value first. -/
def insert (name : Str) (d : Data) : List WriterOp :=
  .remove (m.base.childName name) :: store defs t d (m.base.childName name)

/-- The document without an entry, and whether it was present. -/
def remove (doc : Value) (name : Str) : Value × Bool := doc.removeValue (m.base.childName name)

/-- The path of an entry. -/
def entry (name : Str) : List Segment := m.base.segments ++ [.name name]

/-- What is read, inserted and removed under a name is that entry of the map, and nothing else of the
document changes. -/
structure Independent (doc : Value) (fields : List (Str × Value)) (name : Str) (d : Data) : Prop where
  get : (m.get doc name).bind doc.subtree = Assoc.find name fields
  remove : m.remove doc name =
    ((doc.setValue m.base (.node (Assoc.erase name fields))).1, (Assoc.find name fields).isSome)
  insert : doc.applyAll (m.insert defs t name d) =
    (doc.setValue m.base (.node (Assoc.insert name (toValue defs t d) fields))).1
  others : ∀ a, ¬ a <+: m.entry name → ¬ m.entry name <+: a →
    (m.remove doc name).1.descend a = doc.descend a ∧
      (doc.applyAll (m.insert defs t name d)).descend a = doc.descend a
  inserted : t.WF → ∀ r : TreeReader, r.Reads (doc.applyAll (m.insert defs t name d)) → ∀ fuel, d.depth ≤ fuel →
    ∃ path, m.get (doc.applyAll (m.insert defs t name d)) name = some path ∧ load defs r fuel t path = .ok d

end MapMut

section Maps

variable {m : MapMut} {defs : Nat → Definition} {t : DataType} {d : Data} {doc : Value} {fields : List (Str × Value)}
  {name : Str}

/-- What an accessor gets is what is there. -/
theorem MapMut.get_bind : (m.get doc name).bind doc.subtree = doc.subtree (m.base.childName name) := by
  unfold get Value.existsAt
  cases h : doc.subtree (m.base.childName name) with
  | none => rfl
  | some w => exact h

theorem MapMut.apply_remove : doc.apply (.remove (m.base.childName name)) = (m.remove doc name).1 := rfl

theorem Value.setValue_descend {path : VPath} {w x : Value} (h : doc.subtree path = some w) :
    setIn doc path.segments x = some (doc.setValue path x).1 :=
  setIn_of_fits (fits_of_descend h)

/-- A reserved name leads to the map or to what it is in, which is no entry of it. -/
theorem not_entry_of_reserved (hmap : doc.subtree m.base = some (.node fields)) (h : VPath.Reserved name) :
    doc.subtree (m.base.childName name) ≠ Assoc.find name fields := by
  intro hsame
  have hprefix : (m.base.childName name).segments <+: m.base.segments := by
    rcases h with rfl | rfl
    · exact List.prefix_refl _
    · exact List.dropLast_prefix _
  obtain ⟨rest, hrest⟩ := hprefix
  rw [Value.subtree, ← hrest, Value.descend_append] at hmap
  obtain ⟨w, hw, hbelow⟩ := Option.bind_eq_some_iff.1 hmap
  rw [Value.subtree, hw] at hsame
  have hchild : (Value.node fields).child (.name name) = some w := hsame.symm
  have hlt := Value.sizeOf_child_lt hchild
  have hle := Value.sizeOf_descend_le hbelow
  omega

/-- A map with one entry less, or with one more, differs in that entry. -/
theorem child_erase_ne {seg : Segment} (hs : Assoc.Sorted fields) (hne : seg ≠ .name name) :
    (Value.node (Assoc.erase name fields)).child seg = (Value.node fields).child seg := by
  cases seg with
  | index i => rfl
  | name n =>
    change Assoc.find n (Assoc.erase name fields) = Assoc.find n fields
    rw [Assoc.find_erase hs, if_neg fun heq => hne (congrArg Segment.name heq)]

theorem child_insert_ne {seg : Segment} {x : Value} (hne : seg ≠ .name name) :
    (Value.node (Assoc.insert name x fields)).child seg = (Value.node fields).child seg :=
  Value.child_putChild_ne (v := .node fields) (c := x) hne rfl

/-- The reserved names of a map with an entry replaced are those without the entry, and those of the value. -/
theorem reserved_insert_erase {x : Value} (hs : Assoc.Sorted fields) (hname : ¬ VPath.Reserved name) :
    (Value.node (Assoc.insert name x fields)).reserved =
      (Value.node (Assoc.erase name fields)).reserved + x.reserved := by
  have hzero := VPath.reserved_name hname
  have hnone : Assoc.find name (Assoc.erase name fields) = none := by
    rw [Assoc.find_erase hs, if_pos rfl]
  have hnew := Value.reservedFields_insert_new (c := x) hnone
  rw [Assoc.insert_erase hs, hzero] at hnew
  exact hnew

section Plain

variable (hdoc : doc.WF) (hmap : doc.subtree m.base = some (.node fields)) (hname : ¬ VPath.Reserved name)
include hdoc hmap hname

theorem MapMut.remove_plain : m.remove doc name =
    ((doc.setValue m.base (.node (Assoc.erase name fields))).1, (Assoc.find name fields).isSome) := by
  have hset := Value.setValue_descend (x := .node (Assoc.erase name fields)) hmap
  have hremove : Value.removeIn doc (m.base.childName name).segments =
      if (Assoc.find name fields).isSome then some (doc.setValue m.base (.node (Assoc.erase name fields))).1
      else none := by
    rw [VPath.segments_childName hname, Value.removeIn_append hmap (List.cons_ne_nil _ _), Value.removeIn_singleton]
    change (if (Assoc.find name fields).isSome then some (Value.node (Assoc.erase name fields)) else none).bind _ = _
    split
    · exact hset
    · rfl
  unfold remove Value.removeValue
  rw [hremove]
  cases hfind : Assoc.find name fields with
  | some old => rfl
  | none =>
    have hsame : Value.setIn doc m.base.segments (.node fields) = some doc := Value.setIn_descend hdoc hmap
    rw [Assoc.erase_of_find_none hfind] at hset ⊢
    exact congrArg (fun v => (v, false)) (Option.some.inj (hsame.symm.trans hset))

/-- Inserting clears the entry and stores into the slot. -/
theorem MapMut.insert_plain (hdefs : ∀ n, (defs n).WF) (h : Of defs t d) : doc.applyAll (m.insert defs t name d) =
    (doc.setValue m.base (.node (Assoc.insert name (toValue defs t d) fields))).1 := by
  have hsorted := (Value.wf_node.1 (hdoc.descend hmap)).1
  have hset := Value.setValue_descend (x := .node (Assoc.erase name fields)) hmap
  have hcleared : doc.apply (.remove (m.base.childName name)) =
      (doc.setValue m.base (.node (Assoc.erase name fields))).1 := by
    rw [apply_remove, remove_plain hdoc hmap hname]
  have hnone : (Value.node (Assoc.erase name fields)).child (.name name) = none := by
    change Assoc.find name (Assoc.erase name fields) = none
    rw [Assoc.find_erase hsorted, if_pos rfl]
  have hslot : Vacant (doc.setValue m.base (.node (Assoc.erase name fields))).1 (m.base.childName name) := by
    rw [Vacant, VPath.segments_childName hname]
    exact .inl (Value.slot_child hset rfl hnone)
  have hstore := puts_store hdefs t d _ h _ hslot
  rw [VPath.segments_childName hname, Value.setIn_child hset rfl] at hstore
  change Value.setIn doc m.base.segments (.node (Assoc.insert name _ (Assoc.erase name fields))) = _ at hstore
  rw [Assoc.insert_erase hsorted, Value.setValue_descend hmap] at hstore
  change (doc.apply (.remove (m.base.childName name))).applyAll _ = _
  rw [hcleared]
  exact (Option.some.inj hstore).symm

end Plain

/-- **The entries of a map are independent of each other and of the document around them exactly if no key,
neither that of the entry nor one in the value that is inserted, stands for a path or its parent.** -/
theorem map_entries_independent (hdefs : ∀ n, (defs n).WF) (hdoc : doc.WF) (hbase : m.base.Sound)
    (hmap : doc.subtree m.base = some (.node fields)) (h : Typed defs t d) :
    m.Independent defs t doc fields name d ↔ ¬ VPath.Reserved name ∧ d.reserved = 0 := by
  constructor
  · intro hind
    have hname : ¬ VPath.Reserved name :=
      fun hreserved => not_entry_of_reserved hmap hreserved (MapMut.get_bind.symm.trans hind.get)
    refine ⟨hname, ?_⟩
    -- The calls of the store bring in no reserved name, but the tree of the value is there afterwards.
    have hsorted := (Value.wf_node.1 (hdoc.descend hmap)).1
    have hremoved : doc.apply (.remove (m.base.childName name)) =
        (doc.setValue m.base (.node (Assoc.erase name fields))).1 := by
      rw [MapMut.apply_remove, hind.remove]
    have hle := Value.reserved_applyAll_le (hdoc.apply (.remove (m.base.childName name)))
      (sound_store hdefs h (hbase.childName name))
    change (doc.applyAll (m.insert defs t name d)).reserved ≤ _ at hle
    rw [hind.insert, hremoved] at hle
    have herased := Value.reserved_setIn hdoc hmap (Value.setValue_descend (x := .node (Assoc.erase name fields)) hmap)
    have hinserted := Value.reserved_setIn hdoc hmap
      (Value.setValue_descend (x := .node (Assoc.insert name (toValue defs t d) fields)) hmap)
    rw [reserved_insert_erase hsorted hname, reserved_toValue hdefs t d h] at hinserted
    omega
  · rintro ⟨hname, hkeys⟩
    have hof := of_typed t d h hkeys
    have hremove := MapMut.remove_plain hdoc hmap hname
    have hinsert := MapMut.insert_plain hdoc hmap hname hdefs hof
    refine ⟨?_, hremove, hinsert, ?_, ?_⟩
    · rw [MapMut.get_bind, Value.subtree_childName hmap hname]
      rfl
    · intro a ha ha'
      have hsorted := (Value.wf_node.1 (hdoc.descend hmap)).1
      rw [hremove, hinsert]
      constructor
      · exact Value.descend_setIn_other hmap (Value.setValue_descend hmap) (fun _ => child_erase_ne hsorted) ha ha'
      · exact Value.descend_setIn_other hmap (Value.setValue_descend hmap) (fun _ => child_insert_ne) ha ha'
    · intro ht r hr fuel hfuel
      have hthere : (doc.applyAll (m.insert defs t name d)).subtree (m.base.childName name) =
          some (toValue defs t d) := by
        have hbase' := Value.descend_setIn (Value.setValue_descend
          (x := .node (Assoc.insert name (toValue defs t d) fields)) hmap)
        rw [hinsert, Value.subtree_childName hbase' hname]
        change Assoc.find name (Assoc.insert name _ fields) = _
        rw [Assoc.find_insert, if_pos rfl]
      refine ⟨m.base.childName name, ?_, recovers hdefs hr fuel t d _ ht hof hfuel hthere⟩
      unfold MapMut.get Value.existsAt
      rw [hthere]
      rfl

end Maps

/-! ## Lists of options -/

/-- A read/write accessor for a list: the path of the list. -/
structure SeqMut where
  base : VPath

/-- A read/write accessor for an optional value: the path it would occupy. -/
structure OptMut where
  base : VPath

/-- The path of an accessor for the element at an index, or `none` if out of range. -/
def SeqMut.get (m : SeqMut) (doc : Value) (index : Nat) : AdbResult (Option VPath) := do
  let len ← doc.lenAt m.base
  if len ≤ index then return none
  return some (m.base.childIndex (.ofNat index))

/-- The calls that set the option, clearing whatever was there first. -/
def OptMut.set (o : OptMut) (defs : Nat → Definition) (t : DataType) (value : Option Data) : List WriterOp :=
  .remove o.base ::
    match value with
    | none => [.putScalar o.base .null]
    | some d => store defs t d o.base

/-- The calls that clear the option to `none`. -/
def OptMut.clear (o : OptMut) (defs : Nat → Definition) (t : DataType) : List WriterOp := o.set defs t none

/-- An option as data. -/
def optData : Option Data → Data
  | none => .none
  | some d => .some d

/-- An option set through the accessor for an element; to `none`, it is cleared. -/
structure OptEdit where
  index : Nat
  value : Option Data

namespace SeqMut

variable (m : SeqMut) (defs : Nat → Definition) (t : DataType)

/-- The calls of some edits, in order. -/
def calls (edits : List OptEdit) : List WriterOp :=
  edits.flatMap fun edit => OptMut.set ⟨m.base.childIndex (.ofNat edit.index)⟩ defs t edit.value

/-- The elements with each edit made in its place. -/
def edited (items : List Value) (edits : List OptEdit) : List Value :=
  edits.foldl (fun items edit => items.set edit.index (toValue defs (.option t) (optData edit.value))) items

/-- After some edits, the document has every element in its place, and the last that was set is found. -/
structure Kept (doc : Value) (items : List Value) (edits : List OptEdit) : Prop where
  document : doc.applyAll (m.calls defs t edits) = (doc.setValue m.base (.list (edited defs t items edits))).1
  found : ∀ done edit, edits = done ++ [edit] → (DataType.option t).WF →
    ∀ r : TreeReader, r.Reads (doc.applyAll (m.calls defs t edits)) → ∀ fuel, (optData edit.value).depth ≤ fuel →
      ∃ path, m.get (doc.applyAll (m.calls defs t edits)) edit.index = .ok (some path) ∧
        load defs r fuel (.option t) path = .ok (optData edit.value)

end SeqMut

section Lists

variable {m : SeqMut} {defs : Nat → Definition} {t : DataType} {doc : Value} {items : List Value} {edit : OptEdit}
  {i : UInt64} {a rest : List Segment}

/-! ### One edit -/

/-- Setting below a list makes it no longer than to the index. -/
theorem Value.setIn_list {v w x : Value} (hlist : v.descend a = some (.list items))
    (h : setIn v (a ++ .index i :: rest) x = some w) :
    ∃ items', w.descend a = some (.list items') ∧ items'.length ≤ max items.length (i.toNat + 1) := by
  rw [setIn_append hlist] at h
  obtain ⟨w', hw', hset⟩ := Option.bind_eq_some_iff.1 h
  rw [descend_setIn hset]
  rw [setIn] at hw'
  split at hw'
  · obtain ⟨c, -, rfl⟩ := Option.map_eq_some_iff.1 hw'
    exact ⟨_, rfl, by rw [List.length_set]; omega⟩
  · split at hw'
    · obtain ⟨c, -, rfl⟩ := Option.map_eq_some_iff.1 hw'
      exact ⟨_, rfl, by rw [List.length_append, List.length_singleton]; omega⟩
    · cases hw'

theorem Value.removeIn_list {v w : Value} (hlist : v.descend a = some (.list items))
    (h : removeIn v (a ++ .index i :: rest) = some w) :
    ∃ items', w.descend a = some (.list items') ∧ items'.length ≤ items.length := by
  rw [removeIn_append hlist (List.cons_ne_nil _ _)] at h
  obtain ⟨w', hw', hset⟩ := Option.bind_eq_some_iff.1 h
  rw [descend_setIn hset]
  cases rest with
  | nil =>
    rw [removeIn] at hw'
    split at hw'
    · cases hw'
      exact ⟨_, rfl, List.length_eraseIdx_le items i.toNat⟩
    · cases hw'
  | cons seg rest =>
    rw [removeIn] at hw'
    · obtain ⟨c, -, hmap⟩ := Option.bind_eq_some_iff.1 hw'
      obtain ⟨c', -, rfl⟩ := Option.map_eq_some_iff.1 hmap
      exact ⟨_, rfl, by rw [List.length_set]⟩
    · intro hnil
      cases hnil

/-- A call at an element or below makes the list no longer than to the element. -/
theorem Value.apply_list {v : Value} {op : WriterOp} {n : Nat} (hlist : v.descend a = some (.list items))
    (hop : a ++ [.index i] <+: op.path.segments) (hn : items.length ≤ n) (hi : i.toNat < n) :
    ∃ items', (v.apply op).descend a = some (.list items') ∧ items'.length ≤ n := by
  obtain ⟨rest, hrest⟩ := hop
  rw [List.append_assoc, List.singleton_append] at hrest
  have hset : ∀ {x : Value}, ∃ items', (v.setValue op.path x).1.descend a = some (.list items') ∧
      items'.length ≤ n := by
    intro x
    unfold setValue
    split
    · rename_i w hw
      rw [← hrest] at hw
      obtain ⟨items', hitems', hlen⟩ := setIn_list hlist hw
      exact ⟨items', hitems', hlen.trans (max_le hn hi)⟩
    · exact ⟨items, hlist, hn⟩
  cases op with
  | putScalar path s => exact hset
  | ensureContainer path isList =>
    rw [apply, ensured]
    split
    · exact ⟨items, hlist, hn⟩
    · exact hset
  | remove path =>
    rw [apply, removeValue]
    split
    · rename_i w hw
      change a ++ .index i :: rest = path.segments at hrest
      rw [← hrest] at hw
      obtain ⟨items', hitems', hlen⟩ := removeIn_list hlist hw
      exact ⟨items', hitems', hlen.trans hn⟩
    · exact ⟨items, hlist, hn⟩

theorem Value.applyAll_list {v : Value} {ops : List WriterOp} {n : Nat} (hlist : v.descend a = some (.list items))
    (hops : CallsAt (fun p => a ++ [.index i] <+: p.segments) ops) (hn : items.length ≤ n) (hi : i.toNat < n) :
    ∃ items', (v.applyAll ops).descend a = some (.list items') ∧ items'.length ≤ n := by
  induction ops generalizing v items with
  | nil => exact ⟨items, hlist, hn⟩
  | cons op ops ih =>
    obtain ⟨items', hlist', hn'⟩ := apply_list hlist (hops op List.mem_cons_self) hn hi
    exact ih hlist' (fun op' hop' => hops op' (List.mem_cons_of_mem _ hop')) hn'

theorem OptMut.set_eq {o : OptMut} {value : Option Data} :
    o.set defs t value = .remove o.base :: store defs (.option t) (optData value) o.base := by
  cases value <;> rfl

theorem SeqMut.reserved_setValue (hdoc : doc.WF) (hlist : doc.subtree m.base = some (.list items))
    (items' : List Value) : (doc.setValue m.base (.list items')).1.reserved + Value.reservedItems items =
      doc.reserved + Value.reservedItems items' :=
  Value.reserved_setIn hdoc hlist (Value.setValue_descend hlist)

section Edit

variable (hdefs : ∀ n, (defs n).WF) (hdoc : doc.WF) (hlist : doc.subtree m.base = some (.list items))
  (hlen : items.length < 2 ^ 64) (hi : edit.index < items.length)
include hlist hlen hi

/-- Clearing an element takes it out of the list. -/
theorem SeqMut.apply_remove : doc.apply (.remove (m.base.childIndex (.ofNat edit.index))) =
    (doc.setValue m.base (.list (items.eraseIdx edit.index))).1 := by
  have hnat : (UInt64.ofNat edit.index).toNat = edit.index := UInt64.toNat_ofNat_of_lt' (hi.trans hlen)
  have hremove : Value.removeIn doc (m.base.childIndex (.ofNat edit.index)).segments =
      some (doc.setValue m.base (.list (items.eraseIdx edit.index))).1 := by
    rw [VPath.childIndex, Value.removeIn_append hlist (List.cons_ne_nil _ _), Value.removeIn, hnat, if_pos hi,
      Option.bind_some]
    exact Value.setValue_descend hlist
  rw [Value.apply, Value.removeValue, hremove]

include hdefs in
/-- Setting the last element keeps the others. -/
theorem SeqMut.set_last (hlast : edit.index + 1 = items.length) (h : Of defs (.option t) (optData edit.value)) :
    doc.applyAll (OptMut.set ⟨m.base.childIndex (.ofNat edit.index)⟩ defs t edit.value) =
      (doc.setValue m.base (.list (items.set edit.index (toValue defs (.option t) (optData edit.value))))).1 := by
  have hset := Value.setValue_descend (x := .list (items.eraseIdx edit.index)) hlist
  have hshort : (items.eraseIdx edit.index).length = edit.index := by
    rw [List.length_eraseIdx_of_lt hi]
    omega
  -- What is stored comes behind the elements that are left.
  have hstored := (puts_store hdefs (.option t) (optData edit.value) _ h).index (hi.trans hlen) hshort _ _ hset
  have hlist' : items.eraseIdx edit.index ++ [toValue defs (.option t) (optData edit.value)] =
      items.set edit.index (toValue defs (.option t) (optData edit.value)) := by
    rw [List.eraseIdx_eq_take_drop_succ, List.set_eq_take_append_cons_drop, if_pos hi, hlast, List.drop_length,
      List.append_nil]
  rw [hlist', Value.setValue_descend hlist] at hstored
  rw [OptMut.set_eq]
  change (doc.apply (.remove (m.base.childIndex (.ofNat edit.index)))).applyAll _ = _
  rw [SeqMut.apply_remove hlist hlen hi]
  exact (Option.some.inj hstored).symm

include hdefs hdoc in
/-- Setting any other element loses one. -/
theorem SeqMut.set_iff (hbase : m.base.Sound) (h : Typed defs (.option t) (optData edit.value)) :
    doc.applyAll (OptMut.set ⟨m.base.childIndex (.ofNat edit.index)⟩ defs t edit.value) =
      (doc.setValue m.base (.list (items.set edit.index (toValue defs (.option t) (optData edit.value))))).1 ↔
    edit.index + 1 = items.length ∧ (optData edit.value).reserved = 0 := by
  constructor
  · intro hsame
    have hnat : (UInt64.ofNat edit.index).toNat = edit.index := UInt64.toNat_ofNat_of_lt' (hi.trans hlen)
    have hpath : (m.base.childIndex (.ofNat edit.index)).Sound := hbase.childIndex _
    have hcleared := SeqMut.apply_remove hlist hlen hi
    rw [OptMut.set_eq] at hsame
    change (doc.apply (.remove (m.base.childIndex (.ofNat edit.index)))).applyAll _ = _ at hsame
    have hkeys : (optData edit.value).reserved = 0 := by
      have hle := Value.reserved_applyAll_le (hdoc.apply (.remove (m.base.childIndex (.ofNat edit.index))))
        (sound_store hdefs h hpath)
      rw [hsame, hcleared] at hle
      have herased := SeqMut.reserved_setValue hdoc hlist (items.eraseIdx edit.index)
      have hset := SeqMut.reserved_setValue hdoc hlist
        (items.set edit.index (toValue defs (.option t) (optData edit.value)))
      have hout := Value.reservedItems_eraseIdx (List.getElem?_eq_getElem hi)
      have hin := Value.reservedItems_set (c := toValue defs (.option t) (optData edit.value))
        (List.getElem?_eq_getElem hi)
      rw [reserved_toValue hdefs _ _ h] at hin
      omega
    refine ⟨?_, hkeys⟩
    by_contra hne
    have hshort : (items.eraseIdx edit.index).length ≤ items.length - 1 := by
      rw [List.length_eraseIdx_of_lt hi]
    have hat := Value.descend_setIn (Value.setValue_descend (x := .list (items.eraseIdx edit.index)) hlist)
    rw [← hcleared] at hat
    have hcalls : CallsAt (fun p => m.base.segments ++ [.index (.ofNat edit.index)] <+: p.segments)
        (store defs (.option t) (optData edit.value) (m.base.childIndex (.ofNat edit.index))) :=
      below_store hdefs h hkeys
    obtain ⟨items', hitems', hlen'⟩ := Value.applyAll_list hat hcalls hshort (by rw [hnat]; omega)
    rw [hsame, Value.descend_setIn (Value.setValue_descend hlist)] at hitems'
    cases hitems'
    rw [List.length_set] at hlen'
    omega
  · rintro ⟨hlast, hkeys⟩
    exact SeqMut.set_last hdefs hlist hlen hi hlast (of_typed _ _ h hkeys)

end Edit

/-! ### A run of edits -/

section Run

variable {done : List OptEdit}

theorem SeqMut.length_edited (edits : List OptEdit) : (edited defs t items edits).length = items.length := by
  induction edits generalizing items with
  | nil => rfl
  | cons edit edits ih => exact ih.trans List.length_set

theorem SeqMut.edited_concat : edited defs t items (done ++ [edit]) =
    (edited defs t items done).set edit.index (toValue defs (.option t) (optData edit.value)) := by
  unfold edited
  rw [List.foldl_append]
  rfl

theorem Value.setValue_setValue {path : VPath} {w x y : Value} (h : doc.subtree path = some w) :
    ((doc.setValue path x).1.setValue path y).1 = (doc.setValue path y).1 := by
  have hfirst := setValue_descend (x := x) h
  have hsecond : setIn (doc.setValue path x).1 path.segments y = some ((doc.setValue path x).1.setValue path y).1 :=
    setValue_descend (descend_setIn hfirst)
  rw [setIn_setIn hfirst, setValue_descend h] at hsecond
  exact (Option.some.inj hsecond).symm

variable (hdefs : ∀ n, (defs n).WF) (hdoc : doc.WF) (hbase : m.base.Sound)
  (hlist : doc.subtree m.base = some (.list items)) (hlen : items.length < 2 ^ 64)
include hdefs hdoc hbase hlist hlen

/-- After edits that kept the list, one more keeps it if it sets the last element. -/
theorem SeqMut.document_concat (hi : edit.index < items.length) (h : Typed defs (.option t) (optData edit.value))
    (hdone : doc.applyAll (m.calls defs t done) = (doc.setValue m.base (.list (edited defs t items done))).1) :
    doc.applyAll (m.calls defs t (done ++ [edit])) =
        (doc.setValue m.base (.list (edited defs t items (done ++ [edit])))).1 ↔
      edit.index + 1 = items.length ∧ (optData edit.value).reserved = 0 := by
  have hlength : (edited defs t items done).length = items.length := length_edited done
  have hat : (doc.setValue m.base (.list (edited defs t items done))).1.subtree m.base =
      some (.list (edited defs t items done)) := Value.descend_setIn (Value.setValue_descend hlist)
  have hwf := hdoc.applyAll (m.calls defs t done)
  rw [hdone] at hwf
  have hstep := set_iff hdefs hwf hat (hlength ▸ hlen) (hlength ▸ hi) hbase h
  rw [hlength, Value.setValue_setValue hlist, ← edited_concat] at hstep
  unfold calls at hdone ⊢
  rw [List.flatMap_append, Value.applyAll_append, hdone, List.flatMap_singleton]
  exact hstep

omit hdoc hbase in
/-- What was set is found. -/
theorem SeqMut.found_concat (hi : edit.index < items.length) (h : Of defs (.option t) (optData edit.value))
    (hdocument : doc.applyAll (m.calls defs t (done ++ [edit])) =
      (doc.setValue m.base (.list (edited defs t items (done ++ [edit])))).1)
    (ht : (DataType.option t).WF) {r : TreeReader} (hr : r.Reads (doc.applyAll (m.calls defs t (done ++ [edit]))))
    {fuel : Nat} (hfuel : (optData edit.value).depth ≤ fuel) :
    ∃ path, m.get (doc.applyAll (m.calls defs t (done ++ [edit]))) edit.index = .ok (some path) ∧
      load defs r fuel (.option t) path = .ok (optData edit.value) := by
  have hlength : (edited defs t items (done ++ [edit])).length = items.length := length_edited (done ++ [edit])
  have hat : (doc.applyAll (m.calls defs t (done ++ [edit]))).subtree m.base =
      some (.list (edited defs t items (done ++ [edit]))) := by
    rw [hdocument]
    exact Value.descend_setIn (Value.setValue_descend hlist)
  refine ⟨m.base.childIndex (.ofNat edit.index), ?_, ?_⟩
  · unfold get Value.lenAt
    rw [hat]
    change (if (edited defs t items (done ++ [edit])).length ≤ edit.index then _ else _) = _
    rw [if_neg (by omega)]
    rfl
  · apply recovers hdefs hr fuel _ _ _ ht h hfuel
    rw [Value.subtree_childIndex hat (hi.trans hlen)]
    change (edited defs t items (done ++ [edit]))[edit.index]? = _
    rw [edited_concat, List.getElem?_set_self (by rw [length_edited]; exact hi)]

/-- **Options of a list that are set or cleared one by one keep the list and every other element exactly if
each is the last element**, and no value has a reserved key. -/
theorem optional_elements_kept {edits : List OptEdit} (hi : ∀ edit ∈ edits, edit.index < items.length)
    (h : ∀ edit ∈ edits, Typed defs (.option t) (optData edit.value)) :
    (∀ done rest, edits = done ++ rest → m.Kept defs t doc items done) ↔
      ∀ edit ∈ edits, edit.index + 1 = items.length ∧ (optData edit.value).reserved = 0 := by
  constructor
  · intro hkept edit hedit
    obtain ⟨done, rest, rfl⟩ := List.append_of_mem hedit
    have hbefore := (hkept done (edit :: rest) rfl).document
    have hafter := (hkept (done ++ [edit]) rest (by rw [List.append_assoc]; rfl)).document
    exact (SeqMut.document_concat hdefs hdoc hbase hlist hlen (hi edit hedit) (h edit hedit) hbefore).1 hafter
  · intro hlast done rest hedits
    have hmem : ∀ edit ∈ done, edit ∈ edits := fun edit hedit => hedits ▸ List.mem_append_left _ hedit
    clear hedits
    have hdocument : doc.applyAll (m.calls defs t done) =
        (doc.setValue m.base (.list (SeqMut.edited defs t items done))).1 := by
      induction done using List.reverseRecOn with
      | nil => exact Option.some.inj ((Value.setIn_descend hdoc hlist).symm.trans (Value.setValue_descend hlist))
      | append_singleton done edit ih =>
        have hedit := hmem edit (List.mem_append_right _ List.mem_cons_self)
        have hdone := ih fun e he => hmem e (List.mem_append_left _ he)
        have hstep := SeqMut.document_concat hdefs hdoc hbase hlist hlen (hi edit hedit) (h edit hedit) hdone
        exact hstep.2 (hlast edit hedit)
    refine ⟨hdocument, ?_⟩
    rintro done' edit rfl ht r hr fuel hfuel
    have hedit := hmem edit (List.mem_append_right _ List.mem_cons_self)
    have hof := of_typed _ _ (h edit hedit) (hlast edit hedit).2
    exact SeqMut.found_concat hdefs hlist hlen (hi edit hedit) hof hdocument ht hr hfuel

end Run

end Lists

end Accessors

/-! ### Keys of all kinds -/

/-- A document with a map of one entry. -/
def mapDoc : @Value Reference.externals :=
  letI := Reference.externals
  .node [(⟨"m"⟩, .node [(⟨"a"⟩, .leaf (.bool true))])]

/-- An entry under the empty name, or one with the syntax of paths in it, is independent. -/
theorem map_entries_independent_odd : letI := Reference.externals
    MapMut.Independent ⟨⟨[.name ⟨"m"⟩]⟩⟩ sampleDefs (.scalar .bool) mapDoc [(⟨"a"⟩, .leaf (.bool true))] ⟨""⟩
        (.scalar (.bool false)) ∧
      MapMut.Independent ⟨⟨[.name ⟨"m"⟩]⟩⟩ sampleDefs (.scalar .bool) mapDoc [(⟨"a"⟩, .leaf (.bool true))] ⟨"../[0]"⟩
        (.scalar (.bool false)) := by
  let _ := Reference.externals
  have hdoc : mapDoc.WF := by decide
  have hbase : VPath.Sound ⟨[.name ⟨"m"⟩]⟩ := VPath.Sound.root.childName ⟨"m"⟩
  have h : Typed sampleDefs (.scalar .bool) (.scalar (.bool false)) := rfl
  constructor
  · exact (map_entries_independent (m := ⟨⟨[.name ⟨"m"⟩]⟩⟩) sampleDefs_wf hdoc hbase rfl h).2 ⟨by decide, rfl⟩
  · exact (map_entries_independent (m := ⟨⟨[.name ⟨"m"⟩]⟩⟩) sampleDefs_wf hdoc hbase rfl h).2 ⟨by decide, rfl⟩

/-- Inserting under the name of a path replaces the map, and removing under the name of its parent removes all. -/
theorem map_entry_dots : letI := Reference.externals
    let m : MapMut := ⟨⟨[.name ⟨"m"⟩]⟩⟩
    (mapDoc.applyAll (m.insert sampleDefs (.scalar .bool) ⟨"."⟩ (.scalar (.bool false))) =
        .node [(⟨"m"⟩, .leaf (.bool false))] ∧
      m.remove mapDoc ⟨".."⟩ = (.default, true)) ∧
    ¬ m.Independent sampleDefs (.scalar .bool) mapDoc [(⟨"a"⟩, .leaf (.bool true))] ⟨"."⟩ (.scalar (.bool false)) ∧
    ¬ m.Independent sampleDefs (.scalar .bool) mapDoc [(⟨"a"⟩, .leaf (.bool true))] ⟨".."⟩ (.scalar (.bool false)) := by
  let _ := Reference.externals
  refine ⟨⟨rfl, rfl⟩, ?_, ?_⟩
  · intro h
    cases h.get
  · intro h
    cases h.get

/-! ### Elements of a list of two -/

def optionDoc : @Value Reference.externals :=
  letI := Reference.externals
  .list [.leaf (.bool true), .leaf (.bool true)]

/-- The last element may be set and cleared again. -/
theorem optional_elements_kept_last : letI := Reference.externals
    SeqMut.Kept ⟨.root⟩ sampleDefs (.scalar .bool) optionDoc [.leaf (.bool true), .leaf (.bool true)]
      [⟨1, some (.scalar (.bool false))⟩, ⟨1, none⟩] := by
  let _ := Reference.externals
  have hdoc : optionDoc.WF := by decide
  refine (optional_elements_kept (m := ⟨.root⟩) sampleDefs_wf hdoc VPath.Sound.root rfl (by decide) ?_ ?_).2 ?_ _ [] rfl
  · decide
  · intro edit hedit
    rcases List.mem_cons.1 hedit with rfl | hedit
    · exact rfl
    · cases List.mem_singleton.1 hedit
      exact trivial
  · intro edit hedit
    rcases List.mem_cons.1 hedit with rfl | hedit
    · exact ⟨rfl, rfl⟩
    · cases List.mem_singleton.1 hedit
      exact ⟨rfl, rfl⟩

/-- Setting the first of two elements loses the second. -/
theorem optional_element_lost : letI := Reference.externals
    let m : SeqMut := ⟨.root⟩
    let edits : List OptEdit := [⟨0, some (.scalar (.bool false))⟩]
    optionDoc.applyAll (m.calls sampleDefs (.scalar .bool) edits) = .list [.leaf (.bool false)] ∧
      ¬ ∀ done rest, edits = done ++ rest → m.Kept sampleDefs (.scalar .bool) optionDoc
        [.leaf (.bool true), .leaf (.bool true)] done := by
  let _ := Reference.externals
  refine ⟨rfl, ?_⟩
  intro hkept
  cases (hkept [⟨0, some (.scalar (.bool false))⟩] [] rfl).document

end ArborDb
