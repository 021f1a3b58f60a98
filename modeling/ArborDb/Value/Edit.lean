import ArborDb.Value

/-!
# Laws of the path-addressed updates

An update at a path rebuilds the containers on the way. What it does below a vnode that is there is
an update of that vnode; what it creates is found there afterwards.
-/

namespace ArborDb

namespace Value

variable [Externals] {v v' w x y c d : Value} {seg seg' : Segment} {a b rest : List Segment}

/-! ## Children -/

/-- Puts a child in its place: over the one that is there, or as a new one. -/
def putChild : Value → Segment → Value → Value
  | .node fields, .name n, c => .node (Assoc.insert n c fields)
  | .list items, .index i, c =>
    if i.toNat < items.length then .list (items.set i.toNat c) else .list (items ++ [c])
  | v, _, _ => v

/-- Drops a child; what follows it in a list moves up. -/
def dropChild : Value → Segment → Value
  | .node fields, .name n => .node (Assoc.erase n fields)
  | .list items, .index i => .list (items.eraseIdx i.toNat)
  | v, _ => v

/-- Whether a container has a place for the segment: a name in an object, an index up to the length
in a list. -/
def room : Value → Segment → Bool
  | .node _, .name _ => true
  | .list items, .index i => i.toNat ≤ items.length
  | _, _ => false

theorem room_of_child (h : v.child seg = some c) : v.room seg = true := by
  cases v with
  | leaf s => cases seg <;> cases h
  | list items =>
    cases seg with
    | name n => cases h
    | index i =>
      obtain ⟨hi, -⟩ := List.getElem?_eq_some_iff.1 h
      exact decide_eq_true (Nat.le_of_lt hi)
  | node fields =>
    cases seg with
    | name n => rfl
    | index i => cases h

theorem child_putChild (h : v.room seg = true) : (v.putChild seg c).child seg = some c := by
  cases v with
  | leaf s => cases seg <;> cases h
  | list items =>
    cases seg with
    | name n => cases h
    | index i =>
      have hi : i.toNat ≤ items.length := of_decide_eq_true h
      rw [putChild]
      split
      · exact List.getElem?_set_self ‹_›
      · have heq : i.toNat = items.length := by omega
        change (items ++ [c])[i.toNat]? = some c
        rw [heq, List.getElem?_append_right (Nat.le_refl _), Nat.sub_self]
        rfl
  | node fields =>
    cases seg with
    | name n =>
      change Assoc.find n (Assoc.insert n c fields) = some c
      rw [Assoc.find_insert, if_pos rfl]
    | index i => cases h

theorem putChild_putChild (h : v.room seg = true) :
    (v.putChild seg c).putChild seg d = v.putChild seg d := by
  cases v with
  | leaf s => cases seg <;> cases h
  | list items =>
    cases seg with
    | name n => cases h
    | index i =>
      have hi : i.toNat ≤ items.length := of_decide_eq_true h
      rw [putChild]
      split
      · rw [putChild, putChild, if_pos (by rwa [List.length_set]), List.set_set, if_pos ‹_›]
      · have heq : i.toNat = items.length := by omega
        simp [putChild, heq]
  | node fields =>
    cases seg with
    | name n => exact congrArg Value.node Assoc.insert_insert
    | index i => cases h

theorem putChild_child (hv : v.WF) (h : v.child seg = some c) : v.putChild seg c = v := by
  cases v with
  | leaf s => cases seg <;> cases h
  | list items =>
    cases seg with
    | name n => cases h
    | index i =>
      obtain ⟨hi, rfl⟩ := List.getElem?_eq_some_iff.1 h
      rw [putChild]
      rw [if_pos hi, List.set_getElem_self]
  | node fields =>
    cases seg with
    | name n => exact congrArg Value.node (Assoc.insert_find (wf_node.1 hv).1 h)
    | index i => cases h

/-- The other children stay. -/
theorem child_putChild_ne (hne : seg' ≠ seg) (h : v.room seg = true) :
    (v.putChild seg c).child seg' = v.child seg' := by
  cases v with
  | leaf s => cases seg <;> cases h
  | list items =>
    cases seg with
    | name n => cases h
    | index i =>
      have hi : i.toNat ≤ items.length := of_decide_eq_true h
      cases seg' with
      | name n =>
        rw [putChild]
        split <;> rfl
      | index j =>
        have hij : i.toNat ≠ j.toNat := fun heq => hne (congrArg Segment.index (UInt64.toNat_inj.1 heq.symm))
        rw [putChild]
        split
        · exact List.getElem?_set_ne hij
        · change (items ++ [c])[j.toNat]? = items[j.toNat]?
          rw [List.getElem?_append]
          split
          · rfl
          · rw [List.getElem?_eq_none (by rw [List.length_singleton]; omega), List.getElem?_eq_none (by omega)]
  | node fields =>
    cases seg with
    | name n =>
      cases seg' with
      | name m =>
        change Assoc.find m (Assoc.insert n c fields) = Assoc.find m fields
        rw [Assoc.find_insert, if_neg fun heq => hne (congrArg Segment.name heq)]
      | index j => rfl
    | index i => cases h

/-! ## Setting, one segment at a time -/

@[simp] theorem setIn_nil : setIn v [] x = some x := by
  cases v <;> rfl

theorem setIn_cons_some (h : v.child seg = some c) :
    setIn v (seg :: rest) x = (setIn c rest x).map (v.putChild seg) := by
  cases v with
  | leaf s => cases seg <;> cases h
  | list items =>
    cases seg with
    | name n => cases h
    | index i =>
      obtain ⟨hi, -⟩ := List.getElem?_eq_some_iff.1 h
      rw [setIn, show items[i.toNat]? = some c from h]
      refine Option.map_congr fun c' _ => ?_
      exact (if_pos hi).symm
  | node fields =>
    cases seg with
    | name n =>
      rw [setIn, show Assoc.find n fields = some c from h]
      rfl
    | index i => cases h

theorem setIn_cons_none (h : v.child seg = none) :
    setIn v (seg :: rest) x =
      if v.room seg then (buildFresh rest x).map (v.putChild seg) else none := by
  cases v with
  | leaf s => cases seg <;> rfl
  | list items =>
    cases seg with
    | name n => rfl
    | index i =>
      have hi : items.length ≤ i.toNat := List.getElem?_eq_none_iff.1 h
      rw [setIn, show items[i.toNat]? = none from h]
      dsimp only
      by_cases heq : i.toNat = items.length
      · rw [if_pos heq, if_pos (show room (.list items) (.index i) = true from decide_eq_true (by omega))]
        refine Option.map_congr fun c' _ => ?_
        exact (if_neg (by omega)).symm
      · rw [if_neg heq, if_neg]
        intro hroom
        exact heq (Nat.le_antisymm (of_decide_eq_true hroom) hi)
  | node fields =>
    cases seg with
    | name n =>
      rw [setIn, show Assoc.find n fields = none from h]
      rfl
    | index i => rfl

/-! ## When a path fits -/

/-- A path that can be built from nothing: every index in it is 0. -/
def fitsFresh : List Segment → Bool
  | [] => true
  | .name _ :: rest => fitsFresh rest
  | .index i :: rest => i = 0 && fitsFresh rest

/-- Whether a path fits a value: as far as its vnodes are there they are containers of the kind the
next segment needs, the first that is missing has its place, and what follows can be built. -/
def fits : Value → List Segment → Bool
  | _, [] => true
  | v, seg :: rest =>
    match v.child seg with
    | some c => c.fits rest
    | none => v.room seg && fitsFresh rest

theorem buildFresh_isSome : (buildFresh a x).isSome = fitsFresh a := by
  induction a with
  | nil => rfl
  | cons seg rest ih =>
    cases seg with
    | name n => rw [buildFresh, Option.isSome_map, ih, fitsFresh]
    | index i =>
      rw [buildFresh, fitsFresh]
      split
      · rename_i hi
        rw [Option.isSome_map, ih, decide_eq_true hi, Bool.true_and]
      · rename_i hi
        rw [decide_eq_false hi]
        rfl

/-- An update applies exactly if its path fits. -/
theorem setIn_isSome : (setIn v a x).isSome = v.fits a := by
  induction a generalizing v with
  | nil => rfl
  | cons seg rest ih =>
    rw [fits]
    cases hc : v.child seg with
    | some c => rw [setIn_cons_some hc, Option.isSome_map, ih]
    | none =>
      rw [setIn_cons_none hc]
      dsimp only
      cases v.room seg with
      | true => rw [if_pos rfl, Option.isSome_map, buildFresh_isSome, Bool.true_and]
      | false => rfl

/-! ## What an update leaves -/

theorem descend_append : v.descend (a ++ b) = (v.descend a).bind (·.descend b) := by
  induction a generalizing v with
  | nil => rfl
  | cons seg rest ih =>
    rw [List.cons_append, descend, descend]
    cases v.child seg with
    | none => rfl
    | some c => exact ih

theorem descend_buildFresh (h : buildFresh a x = some w) : w.descend a = some x := by
  induction a generalizing w with
  | nil => exact h.symm
  | cons seg rest ih =>
    cases seg with
    | name n =>
      obtain ⟨sub, hsub, rfl⟩ := Option.map_eq_some_iff.1 h
      rw [descend, show child (.node [(n, sub)]) (.name n) = some sub from if_pos rfl]
      exact ih hsub
    | index i =>
      rw [buildFresh] at h
      split at h
      · rename_i hi
        obtain ⟨sub, hsub, rfl⟩ := Option.map_eq_some_iff.1 h
        subst hi
        exact ih hsub
      · cases h

/-- An update that applies is found at its path. -/
theorem descend_setIn (h : setIn v a x = some v') : v'.descend a = some x := by
  induction a generalizing v v' with
  | nil =>
    rw [setIn_nil] at h
    exact h.symm
  | cons seg rest ih =>
    cases hc : v.child seg with
    | some c =>
      rw [setIn_cons_some hc] at h
      obtain ⟨c', hc', rfl⟩ := Option.map_eq_some_iff.1 h
      rw [descend, child_putChild (room_of_child hc)]
      exact ih hc'
    | none =>
      rw [setIn_cons_none hc] at h
      split at h
      · obtain ⟨c', hc', rfl⟩ := Option.map_eq_some_iff.1 h
        rw [descend, child_putChild ‹_›]
        exact descend_buildFresh hc'
      · cases h

theorem setIn_buildFresh (h : buildFresh a x = some w) : setIn w a y = buildFresh a y := by
  induction a generalizing w with
  | nil => rfl
  | cons seg rest ih =>
    cases seg with
    | name n =>
      obtain ⟨sub, hsub, rfl⟩ := Option.map_eq_some_iff.1 h
      rw [setIn_cons_some (show child (.node [(n, sub)]) (.name n) = some sub from if_pos rfl), ih hsub, buildFresh]
      refine Option.map_congr fun c' _ => ?_
      simp [putChild, Assoc.insert]
    | index i =>
      rw [buildFresh] at h ⊢
      split at h
      · rename_i hi
        obtain ⟨sub, hsub, rfl⟩ := Option.map_eq_some_iff.1 h
        subst hi
        rw [setIn_cons_some (show child (.list [sub]) (.index 0) = some sub from rfl), ih hsub, if_pos rfl]
        exact Option.map_congr fun c' _ => rfl
      · cases h

/-- The second of two updates at one path counts. -/
theorem setIn_setIn (h : setIn v a x = some v') : setIn v' a y = setIn v a y := by
  induction a generalizing v v' with
  | nil => rw [setIn_nil, setIn_nil]
  | cons seg rest ih =>
    cases hc : v.child seg with
    | some c =>
      rw [setIn_cons_some hc] at h
      obtain ⟨c', hc', rfl⟩ := Option.map_eq_some_iff.1 h
      have hroom := room_of_child hc
      rw [setIn_cons_some (child_putChild hroom), setIn_cons_some hc, ih hc']
      exact Option.map_congr fun d _ => putChild_putChild hroom
    | none =>
      rw [setIn_cons_none hc] at h
      split at h
      · rename_i hroom
        obtain ⟨c', hc', rfl⟩ := Option.map_eq_some_iff.1 h
        rw [setIn_cons_some (child_putChild hroom), setIn_cons_none hc, if_pos hroom, setIn_buildFresh hc']
        exact Option.map_congr fun d _ => putChild_putChild hroom
      · cases h

/-- Below a vnode that is there, an update is an update of that vnode. -/
theorem setIn_append (h : v.descend a = some w) :
    setIn v (a ++ b) x = (setIn w b x).bind fun w' => setIn v a w' := by
  induction a generalizing v with
  | nil =>
    cases Option.some.inj h
    simp only [List.nil_append, setIn_nil, Option.bind_fun_some]
  | cons seg rest ih =>
    obtain ⟨c, hc, hrest⟩ := Option.bind_eq_some_iff.1 h
    rw [List.cons_append, setIn_cons_some hc, ih hrest]
    cases setIn w b x with
    | none => rfl
    | some w' => exact (setIn_cons_some hc).symm

theorem fits_of_descend (h : v.descend a = some w) : v.fits a = true := by
  induction a generalizing v with
  | nil => rfl
  | cons seg rest ih =>
    obtain ⟨c, hc, hrest⟩ := Option.bind_eq_some_iff.1 h
    rw [fits, hc]
    exact ih hrest

/-- Setting what is there changes nothing. -/
theorem setIn_descend (hv : v.WF) (h : v.descend a = some w) : setIn v a w = some v := by
  induction a generalizing v with
  | nil => exact h.symm
  | cons seg rest ih =>
    obtain ⟨c, hc, hrest⟩ := Option.bind_eq_some_iff.1 h
    rw [setIn_cons_some hc, ih (hv.child hc) hrest]
    exact congrArg some (putChild_child hv hc)

/-- A container that replaces one with the same children but for `seg` changes what is at `seg` and below. -/
theorem descend_setIn_other (h : v.descend a = some c) (hset : setIn v a d = some v')
    (hother : ∀ seg', seg' ≠ seg → d.child seg' = c.child seg') (hb : ¬ b <+: a ++ [seg]) (hb' : ¬ a ++ [seg] <+: b) :
    v'.descend b = v.descend b := by
  induction a generalizing v v' b with
  | nil =>
    rw [setIn_nil] at hset
    cases hset
    cases h
    cases b with
    | nil => exact absurd (List.nil_prefix) hb
    | cons seg' b =>
      have hne : seg' ≠ seg := by
        rintro rfl
        exact hb' (List.prefix_append [seg'] b)
      rw [descend, descend, hother seg' hne]
  | cons seg' rest ih =>
    obtain ⟨e, he, hrest⟩ := Option.bind_eq_some_iff.1 h
    rw [setIn_cons_some he] at hset
    obtain ⟨e', he', rfl⟩ := Option.map_eq_some_iff.1 hset
    cases b with
    | nil => exact absurd (List.nil_prefix) hb
    | cons seg'' b =>
      by_cases heq : seg'' = seg'
      · subst heq
        rw [List.cons_append, List.cons_prefix_cons] at hb hb'
        rw [descend, descend, child_putChild (room_of_child he), he, Option.bind_some, Option.bind_some]
        exact ih hrest he' (fun h => hb ⟨rfl, h⟩) fun h => hb' ⟨rfl, h⟩
      · rw [descend, descend, child_putChild_ne heq (room_of_child he)]

/-- A vnode is not below itself. -/
theorem sizeOf_child_lt (h : v.child seg = some c) : sizeOf c < sizeOf v := by
  cases v with
  | leaf s => cases seg <;> cases h
  | list items =>
    cases seg with
    | name n => cases h
    | index i =>
      have hlt := List.sizeOf_lt_of_mem (List.mem_of_getElem? h)
      rw [list.sizeOf_spec]
      omega
  | node fields =>
    cases seg with
    | name n =>
      have hlt := List.sizeOf_lt_of_mem (Assoc.mem_of_find h)
      rw [Prod.mk.sizeOf_spec] at hlt
      rw [node.sizeOf_spec]
      omega
    | index i => cases h

theorem sizeOf_descend_le (h : v.descend a = some w) : sizeOf w ≤ sizeOf v := by
  induction a generalizing v with
  | nil =>
    cases h
    exact Nat.le_refl _
  | cons seg rest ih =>
    obtain ⟨c, hc, hrest⟩ := Option.bind_eq_some_iff.1 h
    exact (ih hrest).trans (Nat.le_of_lt (sizeOf_child_lt hc))

/-! ## Removing -/

theorem removeIn_singleton :
    removeIn v [seg] = if (v.child seg).isSome then some (v.dropChild seg) else none := by
  cases v with
  | leaf s => cases seg <;> rfl
  | list items =>
    cases seg with
    | name n => rfl
    | index i =>
      rw [removeIn]
      by_cases hi : i.toNat < items.length
      · rw [if_pos hi, if_pos (show (child (.list items) (.index i)).isSome = true by simp [child, at?, hi])]
        rfl
      · rw [if_neg hi, if_neg (by simp [child, at?, hi])]
  | node fields =>
    cases seg with
    | name n => rfl
    | index i => rfl

theorem removeIn_cons (hrest : rest ≠ []) :
    removeIn v (seg :: rest) = (v.child seg).bind fun c => (removeIn c rest).map (v.putChild seg) := by
  obtain ⟨next, rest, rfl⟩ := List.exists_cons_of_ne_nil hrest
  cases v with
  | leaf s => cases seg <;> rfl
  | list items =>
    cases seg with
    | name n => rfl
    | index i =>
      rw [removeIn]
      · cases hc : child (.list items) (.index i) with
        | none =>
          rw [show items[i.toNat]? = none from hc]
          rfl
        | some c =>
          obtain ⟨hi, -⟩ := List.getElem?_eq_some_iff.1 hc
          rw [show items[i.toNat]? = some c from hc, Option.bind_some, Option.bind_some]
          refine Option.map_congr fun c' _ => ?_
          exact (if_pos hi).symm
      · exact fun h => absurd h hrest
  | node fields =>
    cases seg with
    | name n =>
      rw [removeIn]
      · rfl
      · exact fun h => absurd h hrest
    | index i => rfl

/-- Below a vnode that is there, a removal is a removal in that vnode. -/
theorem removeIn_append (h : v.descend a = some w) (hb : b ≠ []) :
    removeIn v (a ++ b) = (removeIn w b).bind fun w' => setIn v a w' := by
  induction a generalizing v with
  | nil =>
    cases Option.some.inj h
    simp only [List.nil_append, setIn_nil, Option.bind_fun_some]
  | cons seg rest ih =>
    obtain ⟨c, hc, hrest⟩ := Option.bind_eq_some_iff.1 h
    rw [List.cons_append, removeIn_cons (by simp [hb]), hc, Option.bind_some, ih hrest]
    cases removeIn w b with
    | none => rfl
    | some w' => exact (setIn_cons_some hc).symm

/-- A removal applies exactly if the path is there; the root always is. -/
theorem removeIn_isSome : (removeIn v a).isSome = (v.descend a).isSome := by
  induction a generalizing v with
  | nil => cases v <;> rfl
  | cons seg rest ih =>
    by_cases hrest : rest = []
    · subst hrest
      rw [removeIn_singleton, descend]
      cases v.child seg <;> rfl
    · rw [removeIn_cons hrest, descend]
      cases v.child seg with
      | none => rfl
      | some c => rw [Option.bind_some, Option.isSome_map, ih, Option.bind_some]

/-- Taking a child out of the place it was put in. -/
theorem dropChild_putChild (hroom : v.room seg = true) (hnone : v.child seg = none) :
    (v.putChild seg c).dropChild seg = v := by
  cases v with
  | leaf s => cases seg <;> cases hroom
  | list items =>
    cases seg with
    | name n => cases hroom
    | index i =>
      have hi : items.length ≤ i.toNat := List.getElem?_eq_none_iff.1 hnone
      have heq : i.toNat = items.length := Nat.le_antisymm (of_decide_eq_true hroom) hi
      rw [putChild, if_neg (by omega), dropChild, heq, List.eraseIdx_append_of_length_le (Nat.le_refl _), Nat.sub_self]
      exact congrArg Value.list (List.append_nil items)
  | node fields =>
    cases seg with
    | name n => exact congrArg Value.node (Assoc.erase_insert_absent hnone)
    | index i => cases hroom

/-- The empty container that a segment leads into. -/
def emptyFor : Segment → Value
  | .name _ => .node []
  | .index _ => .list []

theorem child_emptyFor : (emptyFor seg).child seg = none := by
  cases seg <;> rfl

theorem buildFresh_eq_setIn : buildFresh (seg :: rest) x = setIn (emptyFor seg) (seg :: rest) x := by
  rw [setIn_cons_none child_emptyFor]
  cases seg with
  | name n => rfl
  | index i =>
    rw [buildFresh]
    by_cases hi : i = 0
    · subst hi
      rfl
    · have hroom : (emptyFor (.index i)).room (.index i) = false := by
        have hne : i.toNat ≠ 0 := fun h => hi (UInt64.toNat_inj.1 h)
        exact decide_eq_false (by simpa using hne)
      rw [if_neg hi, hroom]
      rfl

/-! ## Places where nothing is yet -/

/-- Nothing is at the path, and something can be put there. -/
def Slot (v : Value) (a : List Segment) : Prop := v.descend a = none ∧ v.fits a = true

theorem fits_append (h : v.descend a = some w) : v.fits (a ++ b) = w.fits b := by
  rw [← setIn_isSome (x := w), ← setIn_isSome (x := w), setIn_append h]
  cases setIn w b w with
  | none => rfl
  | some w' => rw [Option.bind_some, setIn_isSome, fits_of_descend h, Option.isSome_some]

theorem fits_child (h : v.room seg = true) (hnone : v.child seg = none) : v.fits [seg] = true := by
  rw [fits, hnone]
  simp [h, fitsFresh]

theorem setIn_singleton (h : v.room seg = true) : setIn v [seg] x = some (v.putChild seg x) := by
  cases hc : v.child seg with
  | some c =>
    rw [setIn_cons_some hc, setIn_nil]
    rfl
  | none =>
    rw [setIn_cons_none hc, if_pos h]
    rfl

/-- Removing what was put in a slot leaves a slot, and what is put there then is put as before. -/
theorem removeIn_setIn (hslot : Slot v a) (ha : a ≠ []) (h : setIn v a x = some v') :
    ∃ w, removeIn v' a = some w ∧ Slot w a ∧ ∀ y, setIn w a y = setIn v a y := by
  induction a generalizing v v' with
  | nil => exact absurd rfl ha
  | cons seg rest ih =>
    obtain ⟨habsent, hfits⟩ := hslot
    have hstep : ∀ {c c' : Value}, Slot c rest → rest ≠ [] → setIn c rest x = some c' → v.room seg = true →
        v' = v.putChild seg c' → (∀ y, setIn v (seg :: rest) y = (setIn c rest y).map (v.putChild seg)) →
        ∃ w, removeIn v' (seg :: rest) = some w ∧ Slot w (seg :: rest) ∧
          ∀ y, setIn w (seg :: rest) y = setIn v (seg :: rest) y := by
      intro c c' hslot hrest hset hroom hv' hsetIn
      obtain ⟨w, hremove, hslotw, hsame⟩ := ih hslot hrest hset
      have hput : v'.putChild seg w = v.putChild seg w := by rw [hv', putChild_putChild hroom]
      have hchild : (v.putChild seg w).child seg = some w := child_putChild hroom
      refine ⟨v.putChild seg w, ?_, ⟨?_, ?_⟩, ?_⟩
      · rw [removeIn_cons hrest, hv', child_putChild hroom, Option.bind_some, hremove, ← hv']
        exact congrArg some hput
      · rw [descend, hchild]
        exact hslotw.1
      · rw [fits, hchild]
        exact hslotw.2
      · intro y
        rw [setIn_cons_some hchild, hsame, hsetIn]
        exact Option.map_congr fun d _ => putChild_putChild hroom
    cases hc : v.child seg with
    | some c =>
      rw [descend, hc] at habsent
      rw [fits, hc] at hfits
      have hrest : rest ≠ [] := by
        rintro rfl
        cases habsent
      rw [setIn_cons_some hc] at h
      obtain ⟨c', hc', rfl⟩ := Option.map_eq_some_iff.1 h
      exact hstep ⟨habsent, hfits⟩ hrest hc' (room_of_child hc) rfl fun y => setIn_cons_some hc
    | none =>
      rw [fits, hc] at hfits
      obtain ⟨hroom, hfresh⟩ := Bool.and_eq_true_iff.1 hfits
      rw [setIn_cons_none hc, if_pos hroom] at h
      obtain ⟨c', hc', rfl⟩ := Option.map_eq_some_iff.1 h
      cases rest with
      | nil =>
        refine ⟨v, ?_, ⟨habsent, ?_⟩, fun y => rfl⟩
        · rw [removeIn_singleton, child_putChild hroom, dropChild_putChild hroom hc]
          rfl
        · exact fits_child hroom hc
      | cons next rest =>
        rw [buildFresh_eq_setIn] at hc'
        have hslot : Slot (emptyFor next) (next :: rest) := by
          refine ⟨?_, ?_⟩
          · rw [descend, child_emptyFor]
            rfl
          · rw [← setIn_isSome (x := x), hc']
            rfl
        apply hstep hslot (List.cons_ne_nil _ _) hc' hroom rfl
        intro y
        rw [setIn_cons_none hc, if_pos hroom, buildFresh_eq_setIn]

section Child

variable (h : setIn v a c = some v')
include h

/-- A container that was just set has a slot where it has room and no child. -/
theorem slot_child (hroom : c.room seg = true) (hnone : c.child seg = none) : Slot v' (a ++ [seg]) := by
  have hdescend := descend_setIn h
  refine ⟨?_, ?_⟩
  · rw [descend_append, hdescend, Option.bind_some, descend, hnone]
    rfl
  · rw [fits_append hdescend]
    exact fits_child hroom hnone

/-- Setting a child of a container that was just set is setting the container with the child. -/
theorem setIn_child (hroom : c.room seg = true) :
    setIn v' (a ++ [seg]) x = setIn v a (c.putChild seg x) := by
  rw [setIn_append (descend_setIn h), setIn_singleton hroom, Option.bind_some, setIn_setIn h]

end Child

/-! ## The paths of children -/

theorem subtree_childName {path : VPath} {name : Str} (h : v.subtree path = some w)
    (hname : ¬ VPath.Reserved name) : v.subtree (path.childName name) = w.child (.name name) := by
  rw [subtree] at h
  rw [subtree, VPath.segments_childName hname, descend_append, h, Option.bind_some, descend]
  cases w.child (.name name) <;> rfl

theorem subtree_childIndex {path : VPath} {i : Nat} (h : v.subtree path = some w) (hi : i < 2 ^ 64) :
    v.subtree (path.childIndex (.ofNat i)) = w.at? i := by
  have hnat : (UInt64.ofNat i).toNat = i := UInt64.toNat_ofNat_of_lt' hi
  have hchild : w.child (.index (.ofNat i)) = w.at? i := by rw [child, hnat]
  rw [subtree] at h
  rw [subtree, VPath.childIndex, descend_append, h, Option.bind_some, descend, hchild]
  cases w.at? i <;> rfl

end Value

end ArborDb
