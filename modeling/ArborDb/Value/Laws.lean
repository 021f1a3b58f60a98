import ArborDb.Value.Edit

/-!
# The laws of editing in place

The updates of a value work on a borrowed tree: they descend into it, and what they leave in the
borrow is the value afterwards, whether they apply or not. An update that does not apply leaves the
tree as it was at every depth (`setValueMut_eq`, `removeValueMut_eq`), and one that applies changes what
its path names and nothing beside it.
-/

namespace ArborDb

namespace Value

variable [Externals]

/-! ## Editing a borrowed value -/

/-- Places `value` at `segments` within a borrowed value: what the borrow then holds, and whether the
update applied. -/
def setInPlace : Value → List Segment → Value → Value × Bool
  | _, [], value => (value, true)
  | .node fields, .name n :: rest, value =>
    match Assoc.find n fields with
    | some c =>
      let (c', applied) := setInPlace c rest value
      (.node (Assoc.insert n c' fields), applied)
    | none =>
      match buildFresh rest value with
      | some sub => (.node (Assoc.insert n sub fields), true)
      | none => (.node fields, false)
  | .list items, .index i :: rest, value =>
    match items[i.toNat]? with
    | some c =>
      let (c', applied) := setInPlace c rest value
      (.list (items.set i.toNat c'), applied)
    | none =>
      if i.toNat = items.length then
        match buildFresh rest value with
        | some sub => (.list (items ++ [sub]), true)
        | none => (.list items, false)
      else (.list items, false)
  | target, _, _ => (target, false)

/-- Descends by mutable reference and edits what is there. -/
def editAt (f : Value → Value × Bool) : Value → List Segment → Value × Bool
  | v, [] => f v
  | .node fields, .name n :: rest =>
    match Assoc.find n fields with
    | some c =>
      let (c', applied) := editAt f c rest
      (.node (Assoc.insert n c' fields), applied)
    | none => (.node fields, false)
  | .list items, .index i :: rest =>
    match items[i.toNat]? with
    | some c =>
      let (c', applied) := editAt f c rest
      (.list (items.set i.toNat c'), applied)
    | none => (.list items, false)
  | v, _ => (v, false)

/-- Drops the last segment from its parent. -/
def removeLast (last : Segment) (parent : Value) : Value × Bool :=
  match last, parent with
  | .name n, .node fields => (.node (Assoc.erase n fields), (Assoc.find n fields).isSome)
  | .index i, .list items =>
    if i.toNat < items.length then (.list (items.eraseIdx i.toNat), true) else (.list items, false)
  | _, parent => (parent, false)

/-- Removes the vnode at `segments` from a borrowed value. An empty path resets it to the default. -/
def removeInPlace (v : Value) (segments : List Segment) : Value × Bool :=
  match segments.getLast? with
  | none => (default, true)
  | some last => editAt (removeLast last) v segments.dropLast

/-- Sets `value` at a path: what the value is afterwards, and whether it applied. -/
def setValueMut (v : Value) (path : VPath) (value : Value) : Value × Bool := setInPlace v path.segments value

/-- Removes the subtree at a path: what the value is afterwards, and whether anything was removed. -/
def removeValueMut (v : Value) (path : VPath) : Value × Bool := removeInPlace v path.segments

variable {v v' w x c : Value} {seg : Segment} {a b rest : List Segment}

/-! ## What is left in the borrow -/

theorem setInPlace_cons_some (h : v.child seg = some c) :
    setInPlace v (seg :: rest) x = (v.putChild seg (setInPlace c rest x).1, (setInPlace c rest x).2) := by
  cases v with
  | leaf s => cases seg <;> cases h
  | list items =>
    cases seg with
    | name n => cases h
    | index i =>
      obtain ⟨hi, -⟩ := List.getElem?_eq_some_iff.1 h
      rw [setInPlace, show items[i.toNat]? = some c from h, putChild, if_pos hi]
  | node fields =>
    cases seg with
    | name n =>
      rw [setInPlace, show Assoc.find n fields = some c from h]
      rfl
    | index i => cases h

theorem setInPlace_cons_none (h : v.child seg = none) :
    setInPlace v (seg :: rest) x =
      match (if v.room seg then buildFresh rest x else none) with
      | some sub => (v.putChild seg sub, true)
      | none => (v, false) := by
  cases v with
  | leaf s => cases seg <;> rfl
  | list items =>
    cases seg with
    | name n => rfl
    | index i =>
      have hi : items.length ≤ i.toNat := List.getElem?_eq_none_iff.1 h
      rw [setInPlace, show items[i.toNat]? = none from h]
      dsimp only
      by_cases heq : i.toNat = items.length
      · rw [if_pos heq, if_pos (show room (.list items) (.index i) = true from decide_eq_true (by omega))]
        cases buildFresh rest x with
        | none => rfl
        | some sub =>
          dsimp only
          rw [putChild, if_neg (by omega)]
      · rw [if_neg heq, if_neg]
        intro hroom
        exact heq (Nat.le_antisymm (of_decide_eq_true hroom) hi)
  | node fields =>
    cases seg with
    | name n =>
      rw [setInPlace, show Assoc.find n fields = none from h]
      rfl
    | index i => rfl

/-- **An update that does not apply leaves the borrow as it was**, and one that applies leaves the
updated tree. -/
theorem setInPlace_eq (hv : v.WF) :
    setInPlace v a x = match setIn v a x with
      | some v' => (v', true)
      | none => (v, false) := by
  induction a generalizing v with
  | nil => cases v <;> rfl
  | cons seg rest ih =>
    cases hc : v.child seg with
    | some c =>
      rw [setInPlace_cons_some hc, setIn_cons_some hc, ih (hv.child hc)]
      cases setIn c rest x with
      | none => exact Prod.ext (putChild_child hv hc) rfl
      | some c' => rfl
    | none =>
      rw [setInPlace_cons_none hc, setIn_cons_none hc]
      cases v.room seg with
      | false => rfl
      | true => cases buildFresh rest x <;> rfl

theorem removeLast_eq :
    removeLast seg v = match removeIn v [seg] with
      | some v' => (v', true)
      | none => (v, false) := by
  cases v with
  | leaf s => cases seg <;> rfl
  | list items =>
    cases seg with
    | name n => rfl
    | index i =>
      rw [removeLast, removeIn]
      split <;> rfl
  | node fields =>
    cases seg with
    | name n =>
      rw [removeLast, removeIn]
      cases hfind : Assoc.find n fields with
      | none =>
        rw [Assoc.erase_of_find_none hfind]
        rfl
      | some c => rfl
    | index i => rfl

section Edit

variable {f : Value → Value × Bool}

theorem editAt_cons_some (h : v.child seg = some c) :
    editAt f v (seg :: rest) = (v.putChild seg (editAt f c rest).1, (editAt f c rest).2) := by
  cases v with
  | leaf s => cases seg <;> cases h
  | list items =>
    cases seg with
    | name n => cases h
    | index i =>
      obtain ⟨hi, -⟩ := List.getElem?_eq_some_iff.1 h
      rw [editAt, show items[i.toNat]? = some c from h, putChild, if_pos hi]
  | node fields =>
    cases seg with
    | name n =>
      rw [editAt, show Assoc.find n fields = some c from h]
      rfl
    | index i => cases h

theorem editAt_cons_none (h : v.child seg = none) : editAt f v (seg :: rest) = (v, false) := by
  cases v with
  | leaf s => cases seg <;> rfl
  | list items =>
    cases seg with
    | name n => rfl
    | index i => rw [editAt, show items[i.toNat]? = none from h]
  | node fields =>
    cases seg with
    | name n => rw [editAt, show Assoc.find n fields = none from h]
    | index i => rfl

theorem editAt_nil : editAt f v [] = f v := by
  cases v <;> rfl

/-- A path that leads nowhere edits nothing. -/
theorem editAt_none (hv : v.WF) (h : v.descend a = none) : editAt f v a = (v, false) := by
  induction a generalizing v with
  | nil => cases h
  | cons seg rest ih =>
    cases hc : v.child seg with
    | none => exact editAt_cons_none hc
    | some c =>
      rw [descend, hc] at h
      rw [editAt_cons_some hc, ih (hv.child hc) h]
      exact Prod.ext (putChild_child hv hc) rfl

/-- What is edited below is written back in its place. -/
theorem editAt_some (h : v.descend a = some w) (hset : setIn v a (f w).1 = some v') :
    editAt f v a = (v', (f w).2) := by
  induction a generalizing v v' with
  | nil =>
    rw [setIn_nil] at hset
    cases hset
    cases h
    rw [editAt_nil]
  | cons seg rest ih =>
    obtain ⟨c, hc, hrest⟩ := Option.bind_eq_some_iff.1 h
    rw [setIn_cons_some hc] at hset
    obtain ⟨c', hc', rfl⟩ := Option.map_eq_some_iff.1 hset
    rw [editAt_cons_some hc, ih hrest hc']

end Edit

/-- **A removal that does not apply leaves the borrow as it was**, and one that applies leaves the tree
without the vnode. -/
theorem removeInPlace_eq (hv : v.WF) :
    removeInPlace v a = match removeIn v a with
      | some v' => (v', true)
      | none => (v, false) := by
  rcases List.eq_nil_or_concat a with rfl | ⟨parent, last, rfl⟩
  · cases v <;> rfl
  · rw [List.concat_eq_append, removeInPlace, List.getLast?_concat, List.dropLast_concat]
    dsimp only
    cases hparent : v.descend parent with
    | none =>
      have hnone : removeIn v (parent ++ [last]) = none := by
        rw [← Option.not_isSome_iff_eq_none, removeIn_isSome, descend_append, hparent]
        exact Bool.false_ne_true
      rw [editAt_none hv hparent, hnone]
    | some w =>
      rw [removeIn_append hparent (List.cons_ne_nil _ _)]
      cases hlast : removeIn w [last] with
      | none =>
        have hedit : (removeLast last w) = (w, false) := by rw [removeLast_eq, hlast]
        have hsame : setIn v parent (removeLast last w).1 = some v := by
          rw [hedit]
          exact setIn_descend hv hparent
        rw [editAt_some hparent hsame, hedit]
        rfl
      | some w' =>
        have hedit : (removeLast last w) = (w', true) := by rw [removeLast_eq, hlast]
        obtain ⟨v', hset⟩ : ∃ v', setIn v parent w' = some v' := by
          rw [← Option.isSome_iff_exists, setIn_isSome]
          exact fits_of_descend hparent
        have hedited : setIn v parent (removeLast last w).1 = some v' := by rw [hedit, hset]
        rw [editAt_some hparent hedited, hedit, Option.bind_some, hset]

/-- Editing in place is updating. -/
theorem setValueMut_eq (hv : v.WF) (path : VPath) : v.setValueMut path x = v.setValue path x := setInPlace_eq hv

theorem removeValueMut_eq (hv : v.WF) (path : VPath) : v.removeValueMut path = v.removeValue path :=
  removeInPlace_eq hv

/-! ## Beside the path -/

/-- In fresh territory there is nothing beside the path. -/
theorem descend_buildFresh_other (h : buildFresh a x = some w) (hb : ¬ b <+: a) (ha : ¬ a <+: b) :
    w.descend b = none := by
  induction a generalizing w b with
  | nil => exact absurd List.nil_prefix ha
  | cons seg rest ih =>
    cases b with
    | nil => exact absurd List.nil_prefix hb
    | cons seg' b =>
      have hbelow : ∀ {sub : Value}, buildFresh rest x = some sub → seg' = seg → sub.descend b = none := by
        intro sub hsub heq
        subst heq
        rw [List.cons_prefix_cons] at hb ha
        exact ih hsub (fun hp => hb ⟨rfl, hp⟩) fun hp => ha ⟨rfl, hp⟩
      rw [buildFresh_eq_setIn, setIn_cons_none child_emptyFor] at h
      split at h
      · rename_i hroom
        obtain ⟨sub, hsub, rfl⟩ := Option.map_eq_some_iff.1 h
        by_cases heq : seg' = seg
        · subst heq
          rw [descend, child_putChild hroom]
          exact hbelow hsub rfl
        · have hempty : (emptyFor seg).child seg' = none := by
            cases seg <;> cases seg' <;> rfl
          rw [descend, child_putChild_ne heq hroom, hempty]
          rfl
      · cases h

/-- An update changes nothing beside its path. -/
theorem descend_setIn_beside (h : setIn v a x = some v') (hb : ¬ b <+: a) (ha : ¬ a <+: b) :
    v'.descend b = v.descend b := by
  induction a generalizing v v' b with
  | nil => exact absurd List.nil_prefix ha
  | cons seg rest ih =>
    cases b with
    | nil => exact absurd List.nil_prefix hb
    | cons seg' b =>
      by_cases heq : seg' = seg
      · subst heq
        rw [List.cons_prefix_cons] at hb ha
        have hb' : ¬ b <+: rest := fun hp => hb ⟨rfl, hp⟩
        have ha' : ¬ rest <+: b := fun hp => ha ⟨rfl, hp⟩
        cases hc : v.child seg' with
        | some c =>
          rw [setIn_cons_some hc] at h
          obtain ⟨c', hc', rfl⟩ := Option.map_eq_some_iff.1 h
          rw [descend, descend, child_putChild (room_of_child hc), hc]
          exact ih hc' hb' ha'
        | none =>
          rw [setIn_cons_none hc] at h
          split at h
          · obtain ⟨c', hc', rfl⟩ := Option.map_eq_some_iff.1 h
            rw [descend, descend, child_putChild ‹_›, hc]
            exact descend_buildFresh_other hc' hb' ha'
          · cases h
      · have hchild : v'.child seg' = v.child seg' := by
          cases hc : v.child seg with
          | some c =>
            rw [setIn_cons_some hc] at h
            obtain ⟨c', -, rfl⟩ := Option.map_eq_some_iff.1 h
            exact child_putChild_ne heq (room_of_child hc)
          | none =>
            rw [setIn_cons_none hc] at h
            split at h
            · obtain ⟨c', -, rfl⟩ := Option.map_eq_some_iff.1 h
              exact child_putChild_ne heq ‹_›
            · cases h
        rw [descend, descend, hchild]

/-! ## When an update applies -/

/-- Every vnode on the way is a container with a place for the next segment, and where nothing is yet
every index is 0. -/
def Settable (v : Value) (segments : List Segment) : Prop :=
  ∀ a seg rest, segments = a ++ seg :: rest →
    (∀ w, v.descend a = some w → w.room seg = true) ∧ (v.descend a = none → ∀ i, seg = .index i → i = 0)

omit [Externals] in
theorem fitsFresh_iff : fitsFresh a = true ↔ ∀ i, .index i ∈ a → i = 0 := by
  induction a with
  | nil => simp [fitsFresh]
  | cons seg rest ih =>
    cases seg with
    | name n => simp [fitsFresh, ih]
    | index j =>
      rw [fitsFresh, Bool.and_eq_true, decide_eq_true_iff, ih]
      constructor
      · intro h i hi
        rcases List.mem_cons.1 hi with hi | hi
        · cases hi
          exact h.1
        · exact h.2 i hi
      · intro h
        exact ⟨h j List.mem_cons_self, fun i hi => h i (List.mem_cons_of_mem _ hi)⟩

theorem fits_iff_settable : v.fits a = true ↔ v.Settable a := by
  induction a generalizing v with
  | nil =>
    refine ⟨fun _ a seg rest h => ?_, fun _ => rfl⟩
    cases a <;> cases h
  | cons seg rest ih =>
    rw [fits]
    cases hc : v.child seg with
    | some c =>
      dsimp only
      rw [ih]
      have hdescend : ∀ a, v.descend (seg :: a) = c.descend a := by
        intro a
        rw [descend, hc]
        rfl
      constructor
      · intro h a seg' rest' heq
        cases a with
        | nil =>
          cases heq
          refine ⟨fun w hw => ?_, fun h => by cases h⟩
          cases hw
          exact room_of_child hc
        | cons seg'' a =>
          cases heq
          rw [hdescend]
          exact h a seg' rest' rfl
      · intro h a seg' rest' heq
        have hstep := h (seg :: a) seg' rest' (by rw [heq]; rfl)
        rwa [hdescend] at hstep
    | none =>
      dsimp only
      rw [Bool.and_eq_true, fitsFresh_iff]
      have hnone : ∀ a, v.descend (seg :: a) = none := by
        intro a
        rw [descend, hc]
        rfl
      constructor
      · rintro ⟨hroom, hfresh⟩ a seg' rest' heq
        cases a with
        | nil =>
          cases heq
          refine ⟨fun w hw => ?_, fun h => by cases h⟩
          cases hw
          exact hroom
        | cons seg'' a =>
          cases heq
          refine ⟨fun w hw => ?_, fun _ i hi => hfresh i ?_⟩
          · rw [hnone] at hw
            cases hw
          · rw [← hi]
            exact List.mem_append_right _ List.mem_cons_self
      · intro h
        refine ⟨(h [] seg rest rfl).1 v rfl, fun i hi => ?_⟩
        obtain ⟨a, rest', heq⟩ := List.append_of_mem hi
        exact (h (seg :: a) (.index i) rest' (by rw [heq]; rfl)).2 (hnone a) i rfl

/-! ## What a removal leaves -/

/-- The root is reset, a field is dropped from its object, and an item from its list, whose later items
move down by one. Nothing else changes. -/
structure Removed (v v' : Value) (segments : List Segment) : Prop where
  root : segments = [] → v' = default
  field : ∀ a n, segments = a ++ [.name n] →
    (∃ fields, v.descend a = some (.node fields) ∧ v'.descend a = some (.node (Assoc.erase n fields))) ∧
    v'.descend segments = none ∧
    ∀ b, ¬ b <+: segments → ¬ segments <+: b → v'.descend b = v.descend b
  item : ∀ a i, segments = a ++ [.index i] →
    (∃ items, v.descend a = some (.list items) ∧ v'.descend a = some (.list (items.eraseIdx i.toNat))) ∧
    (∀ b, ¬ b <+: a → ¬ a <+: b → v'.descend b = v.descend b) ∧
    (∀ j b, j < i → v'.descend (a ++ .index j :: b) = v.descend (a ++ .index j :: b)) ∧
    ∀ j k b, i ≤ j → k.toNat = j.toNat + 1 → v'.descend (a ++ .index j :: b) = v.descend (a ++ .index k :: b)

theorem descend_cons_congr {seg' : Segment} (h : v.child seg = w.child seg') :
    v.descend (seg :: a) = w.descend (seg' :: a) := by
  rw [descend, descend, h]

theorem removed_of_removeIn (hv : v.WF) (h : removeIn v a = some v') : Removed v v' a := by
  -- A removal below the root replaces the parent.
  have hparent : ∀ parent seg, a = parent ++ [seg] → ∃ w w', v.descend parent = some w ∧
      removeIn w [seg] = some w' ∧ v'.descend parent = some w' ∧
      ∀ b, ¬ b <+: parent → ¬ parent <+: b → v'.descend b = v.descend b := by
    intro parent seg heq
    have hsome : (v.descend (parent ++ [seg])).isSome = true := by rw [← heq, ← removeIn_isSome, h]; rfl
    rw [descend_append, Option.isSome_bind] at hsome
    cases hw : v.descend parent with
    | none =>
      rw [hw] at hsome
      cases hsome
    | some w =>
      rw [heq, removeIn_append hw (List.cons_ne_nil _ _)] at h
      obtain ⟨w', hw', hset⟩ := Option.bind_eq_some_iff.1 h
      exact ⟨w, w', rfl, hw', descend_setIn hset, fun b hb hb' => descend_setIn_beside hset hb hb'⟩
  constructor
  · rintro rfl
    cases v <;> exact (Option.some.inj h).symm
  · intro parent n heq
    obtain ⟨w, w', hw, hremove, hw', hother⟩ := hparent parent (.name n) heq
    have hwf := hv.descend hw
    cases w with
    | leaf s => cases hremove
    | list items => cases hremove
    | node fields =>
      rw [removeIn] at hremove
      split at hremove
      · cases hremove
        have hfind : ∀ m, Assoc.find m (Assoc.erase n fields) = if m = n then none else Assoc.find m fields :=
          fun m => Assoc.find_erase (wf_node.1 hwf).1
        refine ⟨⟨fields, hw, hw'⟩, ?_, ?_⟩
        · rw [heq, descend_append, hw', Option.bind_some, descend]
          rw [show child (.node (Assoc.erase n fields)) (.name n) = none from (hfind n).trans (if_pos rfl)]
          rfl
        · intro b hb hb'
          by_cases hprefix : parent <+: b
          · obtain ⟨rest, rfl⟩ := hprefix
            rw [descend_append, descend_append, hw, hw', Option.bind_some, Option.bind_some]
            cases rest with
            | nil =>
              rw [List.append_nil, heq] at hb
              exact absurd (List.prefix_append _ _) hb
            | cons seg rest =>
              apply descend_cons_congr
              cases seg with
              | name m =>
                have hne : m ≠ n := by
                  rintro rfl
                  rw [heq] at hb'
                  exact hb' ⟨rest, by simp⟩
                exact (hfind m).trans (if_neg hne)
              | index j => rfl
          · by_cases hbefore : b <+: parent
            · rw [heq] at hb
              exact absurd (hbefore.trans (List.prefix_append _ _)) hb
            · exact hother b hbefore hprefix
      · cases hremove
  · intro parent i heq
    obtain ⟨w, w', hw, hremove, hw', hother⟩ := hparent parent (.index i) heq
    cases w with
    | leaf s => cases hremove
    | node fields => cases hremove
    | list items =>
      rw [removeIn] at hremove
      split at hremove
      · cases hremove
        refine ⟨⟨items, hw, hw'⟩, hother, ?_, ?_⟩
        · intro j b hj
          rw [descend_append, descend_append, hw, hw', Option.bind_some, Option.bind_some]
          apply descend_cons_congr
          exact List.getElem?_eraseIdx_of_lt (UInt64.lt_iff_toNat_lt.1 hj)
        · intro j k b hj hk
          rw [descend_append, descend_append, hw, hw', Option.bind_some, Option.bind_some]
          apply descend_cons_congr
          change (items.eraseIdx i.toNat)[j.toNat]? = items[k.toNat]?
          rw [List.getElem?_eraseIdx_of_ge (UInt64.le_iff_toNat_le.1 hj), hk]
      · cases hremove

/-! ## The laws -/

/-- Two paths of which neither goes through the other. -/
def Beside (p q : VPath) : Prop := ¬ q.segments <+: p.segments ∧ ¬ p.segments <+: q.segments

/-- **The laws of editing in place.** Setting applies exactly on a settable path, is found there, and
changes nothing beside it; removing applies exactly where something is, and removes just that; an edit
that does not apply changes nothing at all. -/
theorem value_edit_laws (v : Value) (hv : v.WF) (p : VPath) (x : Value) :
    (((v.setValueMut p x).2 = true ↔ v.Settable p.segments) ∧
      ((v.setValueMut p x).2 = true →
        (v.setValueMut p x).1.subtree p = some x ∧
        ∀ q, Beside p q → (v.setValueMut p x).1.subtree q = v.subtree q) ∧
      ((v.setValueMut p x).2 = false → (v.setValueMut p x).1 = v)) ∧
    ((v.removeValueMut p).2 = true ↔ (v.subtree p).isSome = true) ∧
      ((v.removeValueMut p).2 = true → Removed v (v.removeValueMut p).1 p.segments) ∧
      ((v.removeValueMut p).2 = false → (v.removeValueMut p).1 = v) := by
  constructor
  · rw [setValueMut, setInPlace_eq hv, ← fits_iff_settable, ← setIn_isSome (x := x)]
    cases hset : setIn v p.segments x with
    | none => exact ⟨by simp, nofun, fun _ => rfl⟩
    | some v' =>
      refine ⟨by simp, fun _ => ⟨descend_setIn hset, ?_⟩, nofun⟩
      intro q hq
      exact descend_setIn_beside hset hq.1 hq.2
  · rw [removeValueMut, removeInPlace_eq hv, subtree, ← removeIn_isSome]
    cases hremove : removeIn v p.segments with
    | none => exact ⟨by simp, nofun, fun _ => rfl⟩
    | some v' => exact ⟨by simp, fun _ => removed_of_removeIn hv hremove, nofun⟩

end Value

/-- A new field in fresh territory, a gap in a list, and the first item of a list of two. -/
theorem value_edit_laws_list : letI := Reference.externals
    letI v : Value := .node [(⟨"t"⟩, .list [.leaf (.bool true), .leaf .null])]
    (v.setValueMut ⟨[.name ⟨"a"⟩, .index 0]⟩ (.leaf .null)).2 = true ∧
    (v.setValueMut ⟨[.name ⟨"t"⟩, .index 3]⟩ (.leaf .null)).1 = v ∧
    (v.removeValueMut ⟨[.name ⟨"t"⟩, .index 0]⟩).1.descend [.name ⟨"t"⟩, .index 0] =
      some (.leaf .null) := by
  let _ := Reference.externals
  let v : Value := .node [(⟨"t"⟩, .list [.leaf (.bool true), .leaf .null])]
  have hv : v.WF := by decide
  refine ⟨?_, (v.value_edit_laws hv ⟨[.name ⟨"t"⟩, .index 3]⟩ (.leaf .null)).1.2.2 rfl, ?_⟩
  · rfl
  · have hremoved := (v.value_edit_laws hv ⟨[.name ⟨"t"⟩, .index 0]⟩ (.leaf .null)).2.2.1 rfl
    exact (hremoved.item [.name ⟨"t"⟩] 0 rfl).2.2.2 0 1 [] (by decide) rfl

end ArborDb
