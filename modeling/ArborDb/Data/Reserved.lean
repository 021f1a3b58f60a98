import ArborDb.Data.Load

/-!
# Reserved names

A name that stands for a path or its parent is never a segment of a value path: `childName` leads elsewhere
instead. So the calls of a writer never bring such a name into a value, whatever they were meant to store.
`reserved` counts the names of a value that are reserved; a call makes it no larger.
-/

namespace ArborDb

/-! ## Values of any keys -/

/-- 1 if the segment is a reserved name. -/
def Segment.reserved : Segment → Nat
  | .name n => if VPath.Reserved n then 1 else 0
  | .index _ => 0

namespace VPath

/-- No segment is a reserved name, as in every path that is built segment by segment. -/
def Sound (path : VPath) : Prop := ∀ seg ∈ path.segments, seg.reserved = 0

theorem Sound.root : root.Sound := nofun

theorem reserved_name {name : Str} (h : ¬ Reserved name) : (Segment.name name).reserved = 0 := if_neg h

theorem Sound.childName {path : VPath} (h : path.Sound) (name : Str) : (path.childName name).Sound := by
  intro seg hseg
  by_cases hdot : name = ⟨"."⟩
  · rw [VPath.childName, pushName, if_pos hdot] at hseg
    exact h seg hseg
  by_cases hdots : name = ⟨".."⟩
  · rw [VPath.childName, pushName, if_neg hdot, if_pos hdots] at hseg
    exact h seg (List.dropLast_subset _ hseg)
  have hname : ¬ Reserved name := fun hr => hr.elim hdot hdots
  rw [segments_childName hname] at hseg
  rcases List.mem_append.1 hseg with hold | hnew
  · exact h seg hold
  · rw [List.mem_singleton.1 hnew]
    exact reserved_name hname

theorem Sound.childIndex {path : VPath} (h : path.Sound) (i : UInt64) : (path.childIndex i).Sound := by
  intro seg hseg
  rcases List.mem_append.1 hseg with hold | hnew
  · exact h seg hold
  · rw [List.mem_singleton.1 hnew]
    rfl

end VPath

section Typed

variable [Externals] (defs : Nat → Definition)

mutual

/-- The value has the type, whatever the keys of its maps. -/
def Typed : DataType → Data → Prop
  | .scalar t, .scalar s => s.typeStr = t.stored
  | .option _, .none => True
  | .option t, .some d => Typed t d
  | .vec t, .vec items => items.length < 2 ^ 64 ∧ TypedItems t items
  | .map t, .map entries => Assoc.Sorted entries ∧ TypedEntries t entries
  | .derived n, .struct fields =>
    match defs n with
    | .struct fs => TypedFields (fs.map Field.ty) fields
    | .enum _ _ _ => False
  | .derived n, .variant index payload =>
    match defs n with
    | .struct _ => False
    | .enum _ _ variants =>
      match variants[index]? with
      | some v => TypedFields v.fields.types payload
      | none => False
  | _, _ => False

def TypedItems (t : DataType) : List Data → Prop
  | [] => True
  | d :: ds => Typed t d ∧ TypedItems t ds

def TypedEntries (t : DataType) : List (Str × Data) → Prop
  | [] => True
  | (_, d) :: es => Typed t d ∧ TypedEntries t es

def TypedFields : List DataType → List Data → Prop
  | [], [] => True
  | t :: ts, d :: ds => Typed t d ∧ TypedFields ts ds
  | _, _ => False

end

mutual

/-- How many keys of maps in the value are reserved. -/
def Data.reserved : Data → Nat
  | .scalar _ | .none => 0
  | .some d => d.reserved
  | .vec ds | .struct ds | .variant _ ds => reservedData ds
  | .map es => reservedEntries es

def reservedData : List Data → Nat
  | [] => 0
  | d :: ds => d.reserved + reservedData ds

def reservedEntries : List (Str × Data) → Nat
  | [] => 0
  | (name, d) :: es => (Segment.name name).reserved + d.reserved + reservedEntries es

end

variable {defs}

mutual

theorem of_typed : ∀ (t : DataType) (d : Data), Typed defs t d → d.reserved = 0 → Of defs t d
  | .scalar _, .scalar _, h, _ => h
  | .option _, .none, _, _ => trivial
  | .option t, .some d, h, hr => of_typed t d h hr
  | .vec t, .vec ds, h, hr => ⟨h.1, ofItems_typed t ds h.2 hr⟩
  | .map t, .map es, h, hr => ⟨h.1, ofEntries_typed t es h.2 hr⟩
  | .derived n, .struct ds, h, hr => by
    rw [Typed] at h
    rw [Of]
    match hdef : defs n with
    | .enum _ _ _ => rw [hdef] at h; exact h.elim
    | .struct fs =>
      rw [hdef] at h
      exact ofFields_typed _ ds h hr
  | .derived n, .variant index ds, h, hr => by
    rw [Typed] at h
    rw [Of]
    match hdef : defs n with
    | .struct _ => rw [hdef] at h; exact h.elim
    | .enum _ _ variants =>
      rw [hdef] at h
      match hv : variants[index]? with
      | none => simp only [hv] at h
      | some v =>
        simp only [hv] at h ⊢
        exact ofFields_typed _ ds h hr

theorem ofItems_typed (t : DataType) : ∀ ds : List Data, TypedItems defs t ds → reservedData ds = 0 → OfItems defs t ds
  | [], _, _ => trivial
  | d :: ds, h, hr => by
    obtain ⟨hd, hds⟩ := Nat.add_eq_zero_iff.1 hr
    exact ⟨of_typed t d h.1 hd, ofItems_typed t ds h.2 hds⟩

theorem ofEntries_typed (t : DataType) : ∀ es : List (Str × Data), TypedEntries defs t es → reservedEntries es = 0 →
    OfEntries defs t es
  | [], _, _ => trivial
  | (name, d) :: es, h, hr => by
    obtain ⟨hhead, hes⟩ := Nat.add_eq_zero_iff.1 hr
    obtain ⟨hname, hd⟩ := Nat.add_eq_zero_iff.1 hhead
    refine ⟨?_, of_typed t d h.1 hd, ofEntries_typed t es h.2 hes⟩
    intro hreserved
    rw [Segment.reserved, if_pos hreserved] at hname
    cases hname

theorem ofFields_typed : ∀ (ts : List DataType) (ds : List Data), TypedFields defs ts ds → reservedData ds = 0 →
    OfFields defs ts ds
  | [], [], _, _ => trivial
  | t :: ts, d :: ds, h, hr => by
    obtain ⟨hd, hds⟩ := Nat.add_eq_zero_iff.1 hr
    exact ⟨of_typed t d h.1 hd, ofFields_typed ts ds h.2 hds⟩

end

end Typed

/-! ## The names of a tree -/

namespace Value

section Names

variable [Externals] {v v' w x c c' old : Value} {seg : Segment} {a b : List Segment}

mutual

/-- How many names in the tree are reserved. -/
def reserved : Value → Nat
  | .leaf _ => 0
  | .list items => reservedItems items
  | .node fields => reservedFields fields

def reservedItems : List Value → Nat
  | [] => 0
  | v :: vs => v.reserved + reservedItems vs

def reservedFields : List (Str × Value) → Nat
  | [] => 0
  | (name, v) :: fs => (Segment.name name).reserved + v.reserved + reservedFields fs

end

theorem reservedItems_append (l m : List Value) : reservedItems (l ++ m) = reservedItems l + reservedItems m := by
  induction l with
  | nil => exact (Nat.zero_add _).symm
  | cons v l ih => rw [List.cons_append, reservedItems, reservedItems, ih, Nat.add_assoc]

theorem reservedItems_set {items : List Value} {i : Nat} (h : items[i]? = some old) :
    reservedItems (items.set i c) + old.reserved = reservedItems items + c.reserved := by
  induction items generalizing i with
  | nil => cases h
  | cons v items ih =>
    cases i with
    | zero =>
      cases h
      rw [List.set_cons_zero, reservedItems, reservedItems]
      omega
    | succ i =>
      have hrest := ih h
      rw [List.set_cons_succ, reservedItems, reservedItems]
      omega

theorem reservedItems_eraseIdx {items : List Value} {i : Nat} (h : items[i]? = some old) :
    reservedItems (items.eraseIdx i) + old.reserved = reservedItems items := by
  induction items generalizing i with
  | nil => cases h
  | cons v items ih =>
    cases i with
    | zero =>
      cases h
      rw [List.eraseIdx_cons_zero, reservedItems]
      omega
    | succ i =>
      have hrest := ih h
      rw [List.eraseIdx_cons_succ, reservedItems, reservedItems]
      omega

theorem reservedFields_insert {fields : List (Str × Value)} {n : Str} (hs : Assoc.Sorted fields)
    (h : Assoc.find n fields = some old) :
    reservedFields (Assoc.insert n c fields) + old.reserved = reservedFields fields + c.reserved := by
  induction fields with
  | nil => cases h
  | cons f fields ih =>
    obtain ⟨n', v⟩ := f
    obtain ⟨hlt, hs⟩ := Assoc.sorted_cons.1 hs
    rw [Assoc.find] at h
    split at h
    · rename_i heq
      cases h
      subst heq
      rw [Assoc.insert, if_neg (lt_irrefl n), if_pos rfl, reservedFields, reservedFields]
      omega
    · rename_i hne
      have hafter : ¬ n < n' := fun hbefore => lt_asymm hbefore (hlt _ (Assoc.mem_of_find h))
      have hrest := ih hs h
      rw [Assoc.insert, if_neg hafter, if_neg hne, reservedFields, reservedFields]
      omega

theorem reservedFields_insert_new {fields : List (Str × Value)} {n : Str} (h : Assoc.find n fields = none) :
    reservedFields (Assoc.insert n c fields) = reservedFields fields + (Segment.name n).reserved + c.reserved := by
  induction fields with
  | nil =>
    change (Segment.name n).reserved + c.reserved + 0 = 0 + (Segment.name n).reserved + c.reserved
    omega
  | cons f fields ih =>
    obtain ⟨n', v⟩ := f
    rw [Assoc.find] at h
    split at h
    · cases h
    · rename_i hne
      have hrest := ih h
      rw [Assoc.insert, if_neg hne]
      split
      · rw [reservedFields]
        omega
      · rw [reservedFields, reservedFields]
        omega

theorem reservedFields_erase {fields : List (Str × Value)} {n : Str} (h : Assoc.find n fields = some old) :
    reservedFields (Assoc.erase n fields) + (Segment.name n).reserved + old.reserved = reservedFields fields := by
  induction fields with
  | nil => cases h
  | cons f fields ih =>
    obtain ⟨n', v⟩ := f
    rw [Assoc.find] at h
    split at h
    · rename_i heq
      cases h
      subst heq
      rw [Assoc.erase, if_pos rfl, reservedFields]
      omega
    · rename_i hne
      have hrest := ih h
      rw [Assoc.erase, if_neg hne, reservedFields, reservedFields]
      omega

/-! ### One child -/

theorem reserved_putChild (hv : v.WF) (h : v.child seg = some old) :
    (v.putChild seg c).reserved + old.reserved = v.reserved + c.reserved := by
  cases v with
  | leaf s => cases seg <;> cases h
  | list items =>
    cases seg with
    | name n => cases h
    | index i =>
      obtain ⟨hi, -⟩ := List.getElem?_eq_some_iff.1 h
      rw [putChild, if_pos hi]
      exact reservedItems_set h
  | node fields =>
    cases seg with
    | name n => exact reservedFields_insert (wf_node.1 hv).1 h
    | index i => cases h

theorem reserved_putChild_new (hroom : v.room seg = true) (h : v.child seg = none) :
    (v.putChild seg c).reserved = v.reserved + seg.reserved + c.reserved := by
  cases v with
  | leaf s => cases seg <;> cases hroom
  | list items =>
    cases seg with
    | name n => cases hroom
    | index i =>
      have hi : items.length ≤ i.toNat := List.getElem?_eq_none_iff.1 h
      rw [putChild, if_neg (Nat.not_lt.2 hi)]
      exact reservedItems_append items [c]
  | node fields =>
    cases seg with
    | name n => exact reservedFields_insert_new h
    | index i => cases hroom

theorem reserved_dropChild (h : v.child seg = some old) :
    (v.dropChild seg).reserved + seg.reserved + old.reserved = v.reserved := by
  cases v with
  | leaf s => cases seg <;> cases h
  | list items =>
    cases seg with
    | name n => cases h
    | index i => exact reservedItems_eraseIdx h
  | node fields =>
    cases seg with
    | name n => exact reservedFields_erase h
    | index i => cases h

theorem reserved_child_le (h : v.child seg = some c) : c.reserved ≤ v.reserved := by
  have hdrop := reserved_dropChild h
  omega

/-! ### At a path -/

/-- Setting what is there replaces the names of what was there. -/
theorem reserved_setIn (hv : v.WF) (h : v.descend a = some old) (hset : setIn v a x = some v') :
    v'.reserved + old.reserved = v.reserved + x.reserved := by
  induction a generalizing v v' with
  | nil =>
    rw [setIn_nil] at hset
    cases hset
    cases h
    exact Nat.add_comm _ _
  | cons seg rest ih =>
    obtain ⟨c, hc, hrest⟩ := Option.bind_eq_some_iff.1 h
    rw [setIn_cons_some hc] at hset
    obtain ⟨c', hc', rfl⟩ := Option.map_eq_some_iff.1 hset
    have hchild := reserved_putChild (c := c') hv hc
    have hbelow := ih (hv.child hc) hrest hc'
    omega

theorem reserved_buildFresh (hsound : ∀ seg ∈ a, seg.reserved = 0) (h : buildFresh a x = some v) :
    v.reserved = x.reserved := by
  induction a generalizing v with
  | nil => exact congrArg reserved (Option.some.inj h).symm
  | cons seg rest ih =>
    have hrest : ∀ seg' ∈ rest, seg'.reserved = 0 := fun seg' hseg' => hsound seg' (List.mem_cons_of_mem _ hseg')
    cases seg with
    | name n =>
      obtain ⟨c, hc, rfl⟩ := Option.map_eq_some_iff.1 h
      have hn : (Segment.name n).reserved = 0 := hsound _ List.mem_cons_self
      change (Segment.name n).reserved + c.reserved + 0 = x.reserved
      rw [hn, ih hrest hc, Nat.zero_add, Nat.add_zero]
    | index i =>
      rw [buildFresh] at h
      split at h
      · obtain ⟨c, hc, rfl⟩ := Option.map_eq_some_iff.1 h
        exact (Nat.add_zero _).trans (ih hrest hc)
      · cases h

/-- Setting at a path without reserved names adds no more than the names of what is set. -/
theorem reserved_setIn_le (hv : v.WF) (hsound : ∀ seg ∈ a, seg.reserved = 0) (h : setIn v a x = some v') :
    v'.reserved ≤ v.reserved + x.reserved := by
  induction a generalizing v v' with
  | nil =>
    rw [setIn_nil] at h
    cases h
    exact Nat.le_add_left _ _
  | cons seg rest ih =>
    have hrest : ∀ seg' ∈ rest, seg'.reserved = 0 := fun seg' hseg' => hsound seg' (List.mem_cons_of_mem _ hseg')
    cases hc : v.child seg with
    | some c =>
      rw [setIn_cons_some hc] at h
      obtain ⟨c', hc', rfl⟩ := Option.map_eq_some_iff.1 h
      have hchild := reserved_putChild (c := c') hv hc
      have hbelow := ih (hv.child hc) hrest hc'
      omega
    | none =>
      rw [setIn_cons_none hc] at h
      split at h
      · obtain ⟨c', hc', rfl⟩ := Option.map_eq_some_iff.1 h
        rw [reserved_putChild_new ‹_› hc, hsound seg List.mem_cons_self, reserved_buildFresh hrest hc', Nat.add_zero]
      · cases h

/-- Removing takes the names of what is removed. -/
theorem reserved_removeIn (hv : v.WF) (ha : a ≠ []) (hsound : ∀ seg ∈ a, seg.reserved = 0)
    (h : v.descend a = some old) (hremove : removeIn v a = some w) : w.reserved + old.reserved = v.reserved := by
  induction a generalizing v w with
  | nil => exact absurd rfl ha
  | cons seg rest ih =>
    obtain ⟨c, hc, hdescend⟩ := Option.bind_eq_some_iff.1 h
    by_cases hnil : rest = []
    · subst hnil
      cases hdescend
      rw [removeIn_singleton, hc, if_pos (show (some old).isSome = true from rfl)] at hremove
      cases hremove
      have hdrop := reserved_dropChild hc
      have hseg := hsound seg List.mem_cons_self
      omega
    · rw [removeIn_cons hnil, hc, Option.bind_some] at hremove
      obtain ⟨c', hc', rfl⟩ := Option.map_eq_some_iff.1 hremove
      have hchild := reserved_putChild (c := c') hv hc
      have hbelow := ih (hv.child hc) hnil (fun seg' hseg' => hsound seg' (List.mem_cons_of_mem _ hseg')) hdescend hc'
      omega

theorem reserved_removeIn_le (hv : v.WF) (h : removeIn v a = some w) : w.reserved ≤ v.reserved := by
  induction a generalizing v w with
  | nil =>
    have hw : w = .default := by
      cases v <;> exact (Option.some.inj h).symm
    rw [hw]
    exact Nat.zero_le _
  | cons seg rest ih =>
    by_cases hnil : rest = []
    · subst hnil
      rw [removeIn_singleton] at h
      split at h
      · rename_i hsome
        obtain ⟨c, hc⟩ := Option.isSome_iff_exists.1 hsome
        cases h
        have hdrop := reserved_dropChild hc
        omega
      · cases h
    · rw [removeIn_cons hnil] at h
      obtain ⟨c, hc, hmap⟩ := Option.bind_eq_some_iff.1 h
      obtain ⟨c', hc', rfl⟩ := Option.map_eq_some_iff.1 hmap
      have hchild := reserved_putChild (c := c') hv hc
      have hbelow := ih (hv.child hc) hc'
      omega

end Names

end Value

/-! ## The calls of a writer -/

section Calls

variable [Externals]

/-- Where a call works. -/
def WriterOp.path : WriterOp → VPath
  | .putScalar path _ => path
  | .ensureContainer path _ => path
  | .remove path => path

namespace Value

variable {v : Value}

theorem reserved_setValue_le {path : VPath} {x : Value} (hv : v.WF) (hsound : path.Sound) :
    (v.setValue path x).1.reserved ≤ v.reserved + x.reserved := by
  unfold setValue
  split
  · exact reserved_setIn_le hv hsound ‹_›
  · exact Nat.le_add_right _ _

/-- **A call brings in no reserved name.** -/
theorem reserved_apply_le {op : WriterOp} (hv : v.WF) (hsound : op.path.Sound) :
    (v.apply op).reserved ≤ v.reserved := by
  cases op with
  | putScalar path s => exact reserved_setValue_le hv hsound
  | ensureContainer path isList =>
    rw [apply, ensured]
    split
    · exact Nat.le_refl _
    · have hempty : (emptyContainer isList).reserved = 0 := by
        cases isList <;> rfl
      have hset := reserved_setValue_le (x := emptyContainer isList) hv hsound
      rw [hempty] at hset
      exact hset
  | remove path =>
    rw [apply, removeValue]
    split
    · exact reserved_removeIn_le hv ‹_›
    · exact Nat.le_refl _

theorem reserved_applyAll_le {ops : List WriterOp} (hv : v.WF) (hsound : ∀ op ∈ ops, op.path.Sound) :
    (v.applyAll ops).reserved ≤ v.reserved := by
  induction ops generalizing v with
  | nil => exact le_rfl
  | cons op ops ih =>
    have hrest := ih (hv.apply op) fun op' hop' => hsound op' (List.mem_cons_of_mem _ hop')
    exact hrest.trans (reserved_apply_le hv (hsound op List.mem_cons_self))

end Value

/-! ## Where a store works -/

/-- Every call of a list works at such a path. -/
def CallsAt (P : VPath → Prop) (ops : List WriterOp) : Prop := ∀ op ∈ ops, P op.path

/-- Paths from which elements lead to such paths, and so do fields of some names. -/
structure Closed (P : VPath → Prop) (Q : Str → Prop) : Prop where
  index : ∀ {path : VPath} (i : UInt64), P path → P (path.childIndex i)
  name : ∀ {path : VPath} {name : Str}, P path → Q name → P (path.childName name)
  plain : ∀ {name : Str}, ¬ VPath.Reserved name → Q name

namespace CallsAt

variable {P : VPath → Prop} {Q : Str → Prop} {op : WriterOp} {ops rest : List WriterOp} {path : VPath}

theorem nil : CallsAt P [] := nofun

theorem cons (h : P op.path) (hrest : CallsAt P rest) : CallsAt P (op :: rest) := by
  intro op' hop'
  rcases List.mem_cons.1 hop' with rfl | hold
  · exact h
  · exact hrest op' hold

theorem append (h : CallsAt P ops) (hrest : CallsAt P rest) : CallsAt P (ops ++ rest) := by
  intro op hop
  rcases List.mem_append.1 hop with hold | hnew
  · exact h op hold
  · exact hrest op hnew

section Arm

variable {repr : EnumRepr} {v : Variant} {fields : Fields} {named newtype unnamed : VPath → List WriterOp}
  (hnamed : ∀ path, P path → CallsAt P (named path)) (hnewtype : ∀ path, P path → CallsAt P (newtype path))
  (hunnamed : ∀ path, P path → CallsAt P (unnamed path))

include hnamed hnewtype hunnamed

theorem payloadStore (hpath : P path) : CallsAt P (fields.payloadStore path named newtype unnamed) :=
  match fields with
  | .unit => nil
  | .unnamed [_] => hnewtype path hpath
  | .unnamed [] | .unnamed (_ :: _ :: _) => cons hpath (hunnamed path hpath)
  | .named _ => cons hpath (hnamed path hpath)

/-- The calls for one variant. -/
theorem storeArm (hclosed : Closed P Q) (hv : v.WF repr) (hrepr : repr.WF) (hpath : P path) :
    CallsAt P (repr.storeArm v path named newtype unnamed) := by
  match repr, hv, hrepr with
  | .internal tag, hv, _ =>
    have htag := hclosed.plain (hv.names.2 tag List.mem_cons_self)
    exact (cons (hclosed.name hpath htag) nil).append (hnamed path hpath)
  | .external, hv, _ =>
    have htag : P (path.childName v.tag) := hclosed.name hpath (hclosed.plain hv.tag)
    rcases eq_or_ne v.fields .unit with hunit | hunit
    · rw [EnumRepr.storeArm_unit hunit rfl]
      exact cons htag nil
    · rw [EnumRepr.storeArm_external hunit]
      exact payloadStore hnamed hnewtype hunnamed htag
  | .adjacent tag content, _, hrepr =>
    have htag : CallsAt P [.putScalar (path.childName tag) (.str v.tag)] :=
      cons (hclosed.name hpath (hclosed.plain (hrepr.2 tag List.mem_cons_self))) nil
    have hcontent : P (path.childName content) :=
      hclosed.name hpath (hclosed.plain (hrepr.2 content (List.mem_cons_of_mem _ List.mem_cons_self)))
    rcases eq_or_ne v.fields .unit with hunit | hunit
    · rw [EnumRepr.storeArm_unit hunit rfl]
      exact htag
    · rw [EnumRepr.storeArm_adjacent hunit]
      exact htag.append (payloadStore hnamed hnewtype hunnamed hcontent)

end Arm

end CallsAt

section Store

variable {defs : Nat → Definition} {P : VPath → Prop} {Q : Str → Prop}

/-- The keys of the maps in a value are names to go on by. -/
def KeysFit (Q : Str → Prop) (reserved : Nat) : Prop := (∀ name, Q name) ∨ reserved = 0

omit [Externals] in
theorem KeysFit.left {m k : Nat} (h : KeysFit Q (m + k)) : KeysFit Q m := h.imp id fun h => (Nat.add_eq_zero_iff.1 h).1

omit [Externals] in
theorem KeysFit.right {m k : Nat} (h : KeysFit Q (m + k)) : KeysFit Q k := h.imp id fun h => (Nat.add_eq_zero_iff.1 h).2

omit [Externals] in
theorem KeysFit.name {name : Str} (h : KeysFit Q (Segment.name name).reserved) (hclosed : Closed P Q) : Q name := by
  rcases h with hall | hzero
  · exact hall name
  · apply hclosed.plain
    intro hreserved
    rw [Segment.reserved, if_pos hreserved] at hzero
    cases hzero

mutual

/-- Storing a value at a path calls the writer at paths that lead on from there. -/
theorem calls_store (hdefs : ∀ n, (defs n).WF) (hclosed : Closed P Q) : ∀ (t : DataType) (d : Data) (path : VPath),
    Typed defs t d → KeysFit Q d.reserved → P path → CallsAt P (store defs t d path)
  | .scalar _, .scalar _, _, _, _, hpath => .cons hpath .nil
  | .option _, .none, _, _, _, hpath => .cons hpath .nil
  | .option t, .some d, path, h, hkeys, hpath => calls_store hdefs hclosed t d path h hkeys hpath
  | .vec t, .vec ds, path, ⟨_, h⟩, hkeys, hpath =>
    .cons hpath (calls_storeItems hdefs hclosed t ds 0 path h hkeys hpath)
  | .map t, .map es, path, ⟨_, h⟩, hkeys, hpath =>
    .cons hpath (calls_storeEntries hdefs hclosed t es path h hkeys hpath)
  | .derived n, .struct ds, path, h, hkeys, hpath => by
    have hn := hdefs n
    rw [Typed] at h
    rw [store]
    match hdef : defs n with
    | .enum _ _ _ => exact .nil
    | .struct fs =>
      rw [hdef] at h hn
      have hnames : (fs.map Field.entry).map Prod.fst = fs.map Field.name := by rw [List.map_map]; rfl
      have htypes : (fs.map Field.entry).map Prod.snd = fs.map Field.ty := by rw [List.map_map]; rfl
      have hplain : ∀ name ∈ (fs.map Field.entry).map Prod.fst, ¬ VPath.Reserved name := hnames ▸ hn.1.2
      exact .cons hpath (calls_storeNamed hdefs hclosed _ ds path (htypes ▸ h) hplain hkeys hpath)
  | .derived n, .variant index ds, path, h, hkeys, hpath => by
    have hn := hdefs n
    rw [Typed] at h
    rw [store]
    match hdef : defs n with
    | .struct _ => exact .nil
    | .enum repr _ variants =>
      rw [hdef] at h hn
      match hv : variants[index]? with
      | none => simp only [hv] at h
      | some v =>
        simp only [hv] at h ⊢
        have hwf : v.WF repr := hn.2.1 v (List.mem_of_getElem? hv)
        have hflat : TypedFields defs (v.fields.flattened.map Prod.snd) ds := by rwa [Fields.snd_flattened]
        have hensure : CallsAt P [.ensureContainer path false] := .cons hpath .nil
        have hclear : CallsAt P [.remove path, .ensureContainer path false] := .cons hpath hensure
        apply hclear.append
        apply CallsAt.storeArm _ _ _ hclosed hwf hn.1 hpath
        · exact fun p hp => calls_storeNamed hdefs hclosed _ ds p hflat hwf.stored.2 hkeys hp
        · exact fun p hp => calls_storeNewtype hdefs hclosed _ ds p h hkeys hp
        · exact fun p hp => calls_storeUnnamed hdefs hclosed _ ds 0 p h hkeys hp

theorem calls_storeItems (hdefs : ∀ n, (defs n).WF) (hclosed : Closed P Q) (t : DataType) : ∀ (ds : List Data)
    (i : Nat) (path : VPath), TypedItems defs t ds → KeysFit Q (reservedData ds) → P path →
    CallsAt P (storeItems defs t ds i path)
  | [], _, _, _, _, _ => .nil
  | d :: ds, i, path, ⟨hd, hds⟩, hkeys, hpath =>
    (calls_store hdefs hclosed t d _ hd hkeys.left (hclosed.index _ hpath)).append
      (calls_storeItems hdefs hclosed t ds (i + 1) path hds hkeys.right hpath)

theorem calls_storeEntries (hdefs : ∀ n, (defs n).WF) (hclosed : Closed P Q) (t : DataType) :
    ∀ (es : List (Str × Data)) (path : VPath), TypedEntries defs t es → KeysFit Q (reservedEntries es) → P path →
    CallsAt P (storeEntries defs t es path)
  | [], _, _, _, _ => .nil
  | (_, d) :: es, path, ⟨hd, hes⟩, hkeys, hpath =>
    (calls_store hdefs hclosed t d _ hd hkeys.left.right (hclosed.name hpath (hkeys.left.left.name hclosed))).append
      (calls_storeEntries hdefs hclosed t es path hes hkeys.right hpath)

theorem calls_storeNamed (hdefs : ∀ n, (defs n).WF) (hclosed : Closed P Q) : ∀ (fs : List (Str × DataType))
    (ds : List Data) (path : VPath), TypedFields defs (fs.map Prod.snd) ds →
    (∀ name ∈ fs.map Prod.fst, ¬ VPath.Reserved name) → KeysFit Q (reservedData ds) → P path →
    CallsAt P (storeNamed defs fs ds path)
  | [], [], _, _, _, _, _ => .nil
  | (name, t) :: fs, d :: ds, _, ⟨hd, hds⟩, hnames, hkeys, hpath =>
    (calls_store hdefs hclosed t d _ hd hkeys.left
      (hclosed.name hpath (hclosed.plain (hnames name List.mem_cons_self)))).append
      (calls_storeNamed hdefs hclosed fs ds _ hds (fun name' h => hnames name' (List.mem_cons_of_mem _ h))
        hkeys.right hpath)

theorem calls_storeUnnamed (hdefs : ∀ n, (defs n).WF) (hclosed : Closed P Q) : ∀ (ts : List DataType)
    (ds : List Data) (i : Nat) (path : VPath), TypedFields defs ts ds → KeysFit Q (reservedData ds) → P path →
    CallsAt P (storeUnnamed defs ts ds i path)
  | [], [], _, _, _, _, _ => .nil
  | t :: ts, d :: ds, i, path, ⟨hd, hds⟩, hkeys, hpath =>
    (calls_store hdefs hclosed t d _ hd hkeys.left (hclosed.index _ hpath)).append
      (calls_storeUnnamed hdefs hclosed ts ds (i + 1) path hds hkeys.right hpath)

theorem calls_storeNewtype (hdefs : ∀ n, (defs n).WF) (hclosed : Closed P Q) : ∀ (ts : List DataType)
    (ds : List Data) (path : VPath), TypedFields defs ts ds → KeysFit Q (reservedData ds) → P path →
    CallsAt P (storeNewtype defs ts ds path)
  | [], [], _, _, _, _ => .nil
  | [t], [d], path, ⟨hd, _⟩, hkeys, hpath => calls_store hdefs hclosed t d path hd hkeys.left hpath
  | _ :: _ :: _, _ :: _ :: _, _, _, _, _ => .nil

end

/-- Whatever the keys of the maps in it, a value is stored by calls that bring in no reserved name. -/
theorem sound_store (hdefs : ∀ n, (defs n).WF) {t : DataType} {d : Data} {path : VPath} (h : Typed defs t d)
    (hpath : path.Sound) : CallsAt VPath.Sound (store defs t d path) :=
  calls_store hdefs (Q := fun _ => True) ⟨fun i h => h.childIndex i, fun h _ => h.childName _, fun _ => trivial⟩
    t d path h (.inl fun _ => trivial) hpath

/-- Without reserved keys, it is stored by calls at the path and below. -/
theorem below_store (hdefs : ∀ n, (defs n).WF) {t : DataType} {d : Data} {path : VPath} (h : Typed defs t d)
    (hkeys : d.reserved = 0) : CallsAt (fun p => path.segments <+: p.segments) (store defs t d path) := by
  refine calls_store hdefs (Q := fun name => ¬ VPath.Reserved name) ⟨?_, ?_, id⟩ t d path h (.inr hkeys)
    (List.prefix_refl _)
  · exact fun i h => h.trans (List.prefix_append _ _)
  · intro p name h hname
    rw [VPath.segments_childName hname]
    exact h.trans (List.prefix_append _ _)

end Store

/-! ## The tree of a value -/

section Trees

open Value (reservedItems reservedFields)

variable {defs : Nat → Definition}

theorem reservedFields_insertAll {acc fields : List (Str × Value)} (hnodup : (fields.map Prod.fst).Nodup)
    (hacc : ∀ f ∈ fields, Assoc.find f.1 acc = none) :
    reservedFields (Assoc.insertAll acc fields) = reservedFields acc + reservedFields fields := by
  induction fields generalizing acc with
  | nil => rfl
  | cons f fields ih =>
    obtain ⟨name, v⟩ := f
    obtain ⟨hhead, hnodup⟩ := List.nodup_cons.1 hnodup
    have hname : reservedFields (Assoc.insert name v acc) =
        reservedFields acc + (Segment.name name).reserved + v.reserved :=
      Value.reservedFields_insert_new (hacc (name, v) List.mem_cons_self)
    have hclear : ∀ f ∈ fields, Assoc.find f.1 (Assoc.insert name v acc) = none := by
      intro f hf
      have hne : f.1 ≠ name := fun heq => hhead (List.mem_map.2 ⟨f, hf, heq⟩)
      rw [Assoc.find_insert, if_neg hne]
      exact hacc f (List.mem_cons_of_mem _ hf)
    change reservedFields (Assoc.insertAll (Assoc.insert name v acc) fields) = _
    rw [ih hnodup hclear, hname, reservedFields]
    omega

theorem reserved_object {fields : List (Str × Value)} (hnodup : (fields.map Prod.fst).Nodup) :
    (Value.object fields).reserved = reservedFields fields :=
  (reservedFields_insertAll hnodup fun _ _ => rfl).trans (Nat.zero_add _)

theorem keys_named : ∀ {fs : List (Str × DataType)} {ds : List Data}, TypedFields defs (fs.map Prod.snd) ds →
    (namedValues defs fs ds).map Prod.fst = fs.map Prod.fst
  | [], [], _ => rfl
  | (name, _) :: _, _ :: _, ⟨_, h⟩ => congrArg (name :: ·) (keys_named h)

/-- A payload brings in the names of its parts. -/
theorem reserved_tree {fields : Fields} {ds : List Data} {named : List (Str × Value)} {unnamed : List Value}
    (hds : TypedFields defs fields.types ds) (hnodup : (named.map Prod.fst).Nodup)
    (hnamed : reservedFields named = reservedData ds) (hunnamed : reservedItems unnamed = reservedData ds)
    (hlen : unnamed.length = ds.length) : (fields.tree named unnamed).reserved = reservedData ds := by
  match fields, unnamed with
  | .unit, _ =>
    match ds, hds with
    | [], _ => rfl
  | .unnamed [_], [x] => exact hunnamed
  | .unnamed [_], [] =>
    match ds, hds with
    | [_], _ => cases hlen
  | .unnamed [_], _ :: _ :: _ =>
    match ds, hds with
    | [_], _ => cases hlen
  | .unnamed [], _ => exact hunnamed
  | .unnamed (_ :: _ :: _), _ => exact hunnamed
  | .named _, _ => exact (reserved_object hnodup).trans hnamed

/-- And so does a variant. -/
theorem reserved_entries {repr : EnumRepr} {v : Variant} {ds : List Data} {named : List (Str × Value)}
    {unnamed : List Value} (hv : v.WF repr) (hrepr : repr.WF) (hds : TypedFields defs v.fields.types ds)
    (hkeys : named.map Prod.fst = v.fields.flattened.map Prod.fst) (hnamed : reservedFields named = reservedData ds)
    (hunnamed : reservedItems unnamed = reservedData ds) (hlen : unnamed.length = ds.length) :
    reservedFields (repr.entries v.tag v.fields named unnamed) = reservedData ds := by
  have htree : (v.fields.tree named unnamed).reserved = reservedData ds :=
    reserved_tree hds (hkeys ▸ hv.stored.1) hnamed hunnamed hlen
  match repr, hv, hrepr with
  | .internal tag, hv, _ =>
    have htag := VPath.reserved_name (hv.names.2 tag List.mem_cons_self)
    change (Segment.name tag).reserved + 0 + reservedFields named = _
    rw [htag, hnamed, Nat.zero_add]
  | .external, hv, _ =>
    change (Segment.name v.tag).reserved + (v.fields.tree named unnamed).reserved + 0 = _
    rw [VPath.reserved_name hv.tag, htree, Nat.zero_add, Nat.add_zero]
  | .adjacent tag content, _, hrepr =>
    have htag := VPath.reserved_name (hrepr.2 tag List.mem_cons_self)
    have hcontent := VPath.reserved_name (hrepr.2 content (List.mem_cons_of_mem _ List.mem_cons_self))
    rcases eq_or_ne v.fields .unit with hunit | hunit
    · rw [hunit] at hds ⊢
      match ds, hds with
      | [], _ =>
        change (Segment.name tag).reserved + 0 + 0 = 0
        rw [htag]
    · rw [EnumRepr.entries_adjacent hunit]
      change (Segment.name tag).reserved + 0 +
        ((Segment.name content).reserved + (v.fields.tree named unnamed).reserved + 0) = _
      rw [htag, hcontent, htree, Nat.zero_add, Nat.zero_add, Nat.add_zero]

theorem length_unnamedValues : ∀ {ts : List DataType} {ds : List Data}, TypedFields defs ts ds →
    (unnamedValues defs ts ds).length = ds.length
  | [], [], _ => rfl
  | _ :: _, _ :: _, ⟨_, h⟩ => congrArg Nat.succ (length_unnamedValues h)

mutual

/-- **The reserved names of a tree are the keys of the maps in its value.** -/
theorem reserved_toValue (hdefs : ∀ n, (defs n).WF) : ∀ (t : DataType) (d : Data), Typed defs t d →
    (toValue defs t d).reserved = d.reserved
  | .scalar _, .scalar _, _ => rfl
  | .option _, .none, _ => rfl
  | .option t, .some d, h => reserved_toValue hdefs t d h
  | .vec t, .vec ds, ⟨_, h⟩ => reserved_itemValues hdefs t ds h
  | .map t, .map es, ⟨_, h⟩ => reserved_entryValues hdefs t es h
  | .derived n, .struct ds, h => by
    have hn := hdefs n
    rw [Typed] at h
    rw [toValue]
    match hdef : defs n with
    | .enum _ _ _ => rw [hdef] at h; exact h.elim
    | .struct fs =>
      rw [hdef] at h hn
      obtain ⟨⟨hnodup, hreserved⟩, -⟩ := hn
      have hnames : (fs.map Field.entry).map Prod.fst = fs.map Field.name := by rw [List.map_map]; rfl
      have htypes : (fs.map Field.entry).map Prod.snd = fs.map Field.ty := by rw [List.map_map]; rfl
      have hds : TypedFields defs ((fs.map Field.entry).map Prod.snd) ds := htypes ▸ h
      have hkeys := keys_named hds
      apply (reserved_object (hkeys.trans hnames ▸ hnodup)).trans
      apply reserved_namedValues hdefs _ ds hds
      intro f hf
      rw [← hnames] at hreserved
      exact hreserved f.1 (List.mem_map_of_mem hf)
  | .derived n, .variant index ds, h => by
    have hn := hdefs n
    rw [Typed] at h
    rw [toValue]
    match hdef : defs n with
    | .struct _ => rw [hdef] at h; exact h.elim
    | .enum repr _ variants =>
      rw [hdef] at h hn
      match hv : variants[index]? with
      | none => simp only [hv] at h
      | some v =>
        simp only [hv] at h ⊢
        have hwf : v.WF repr := hn.2.1 v (List.mem_of_getElem? hv)
        have hflat : TypedFields defs (v.fields.flattened.map Prod.snd) ds := by rwa [Fields.snd_flattened]
        have hkeys := keys_named hflat
        apply (reserved_object (nodup_entries _ hwf hn.1 hkeys)).trans
        apply reserved_entries hwf hn.1 h hkeys _ (reserved_unnamedValues hdefs _ ds h) (length_unnamedValues h)
        apply reserved_namedValues hdefs _ ds hflat
        exact fun f hf => hwf.stored.2 f.1 (List.mem_map_of_mem hf)

theorem reserved_itemValues (hdefs : ∀ n, (defs n).WF) (t : DataType) : ∀ ds : List Data, TypedItems defs t ds →
    reservedItems (itemValues defs t ds) = reservedData ds
  | [], _ => rfl
  | d :: ds, ⟨hd, hds⟩ => by
    rw [itemValues, reservedItems, reservedData, reserved_toValue hdefs t d hd, reserved_itemValues hdefs t ds hds]

theorem reserved_entryValues (hdefs : ∀ n, (defs n).WF) (t : DataType) : ∀ es : List (Str × Data),
    TypedEntries defs t es → reservedFields (entryValues defs t es) = reservedEntries es
  | [], _ => rfl
  | (name, d) :: es, ⟨hd, hes⟩ => by
    rw [entryValues, reservedFields, reservedEntries, reserved_toValue hdefs t d hd,
      reserved_entryValues hdefs t es hes]

theorem reserved_namedValues (hdefs : ∀ n, (defs n).WF) : ∀ (fs : List (Str × DataType)) (ds : List Data),
    TypedFields defs (fs.map Prod.snd) ds → (∀ f ∈ fs, ¬ VPath.Reserved f.1) →
    reservedFields (namedValues defs fs ds) = reservedData ds
  | [], [], _, _ => rfl
  | (name, t) :: fs, d :: ds, ⟨hd, hds⟩, hnames => by
    have hname := VPath.reserved_name (hnames (name, t) List.mem_cons_self)
    have hrest := reserved_namedValues hdefs fs ds hds fun f hf => hnames f (List.mem_cons_of_mem _ hf)
    rw [namedValues, reservedFields, reservedData, reserved_toValue hdefs t d hd, hrest, hname, Nat.zero_add]

theorem reserved_unnamedValues (hdefs : ∀ n, (defs n).WF) : ∀ (ts : List DataType) (ds : List Data),
    TypedFields defs ts ds → reservedItems (unnamedValues defs ts ds) = reservedData ds
  | [], [], _ => rfl
  | t :: ts, d :: ds, ⟨hd, hds⟩ => by
    rw [unnamedValues, reservedItems, reservedData, reserved_toValue hdefs t d hd,
      reserved_unnamedValues hdefs ts ds hds]

end

end Trees

end Calls

end ArborDb
