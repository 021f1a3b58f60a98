import ArborDb.Data.Load

/-!
# Flattened fields

A flattened field is stored at the vnode of its struct, so that its own calls run between those of its
siblings. A struct only makes sure that the vnode is there; an enum clears it first, and one without a
tag field is read by the first name of the vnode. So a value is loaded as it was stored if nothing is
stored before a flattened enum and an external tag comes first in name order (`structImpl_keeps`). The
types of the other fields are given by what stores and loads them.
-/

namespace ArborDb

section Flattened

variable [Externals]

/-! ## Implementations of a type -/

/-- What stores and loads the values of a type. -/
structure Impl where
  store : Data → VPath → List WriterOp
  load : TreeReader → VPath → AdbResult Data

/-- A value is kept as a tree: storing puts the tree in any vacant place, and wherever the tree is, loading
gives the value. -/
structure Impl.Keeps (I : Impl) (d : Data) (x : Value) : Prop where
  puts : ∀ path, Puts path x (I.store d path)
  loads : ∀ {r : TreeReader} {root : Value} {path : VPath}, r.Reads root → root.subtree path = some x →
    I.load r path = .ok d

/-- Loading a value where nothing is stored fails. -/
def Impl.Needs (I : Impl) (d : Data) : Prop :=
  ∀ {r : TreeReader} {root : Value} {path : VPath}, r.Reads root → root.subtree path = none → I.load r path ≠ .ok d

/-- The implementation of a type whose values decompose into vnodes. -/
def typedImpl (defs : Nat → Definition) (fuel : Nat) (t : DataType) : Impl :=
  ⟨store defs t, fun r path => load defs r fuel t path⟩

/-- Typed data is kept as its tree. -/
theorem typedImpl_keeps {defs : Nat → Definition} (hdefs : ∀ n, (defs n).WF) {fuel : Nat} {t : DataType} {d : Data}
    (ht : t.WF) (hd : Of defs t d) (hdepth : d.depth ≤ fuel) :
    (typedImpl defs fuel t).Keeps d (toValue defs t d) where
  puts path := puts_store hdefs t d path hd
  loads hr hpath := recovers hdefs hr fuel t d _ ht hd hdepth hpath

/-- A scalar is needed. -/
theorem typedImpl_needs {defs : Nat → Definition} {fuel : Nat} {t : ScalarType} {d : Data} :
    (typedImpl defs fuel (.scalar t)).Needs d := by
  intro r root path hr hnone hload
  cases fuel with
  | zero => cases hload
  | succ fuel =>
    have hscalar : r.scalarAt path = .ok none := by
      rw [hr.scalarAt, Value.scalarAt, hnone]
      rfl
    change load defs r (fuel + 1) (.scalar t) path = _ at hload
    rw [load, hscalar] at hload
    cases hload

/-! ## Members of a struct -/

/-- A field of a struct: one with a vnode of its own, or a flattened struct or enum. -/
inductive Member where
  | plain (f : Field)
  | struct (members : List Member)
  | enum (repr : EnumRepr) (expecting : Option String) (variants : List Variant)

section Calls

variable (impl : DataType → Impl)

/-- The calls for the fields of a payload, by name. -/
def implNamed : List (Str × DataType) → List Data → VPath → List WriterOp
  | (name, t) :: fs, d :: ds, path => (impl t).store d (path.childName name) ++ implNamed fs ds path
  | _, _, _ => []

/-- The calls for the fields of a payload, by position. -/
def implUnnamed : List DataType → List Data → Nat → VPath → List WriterOp
  | t :: ts, d :: ds, i, path => (impl t).store d (path.childIndex (.ofNat i)) ++ implUnnamed ts ds (i + 1) path
  | _, _, _, _ => []

/-- The calls for the one element of a newtype. -/
def implNewtype : List DataType → List Data → VPath → List WriterOp
  | [t], [d], path => (impl t).store d path
  | _, _, _ => []

mutual

/-- The calls that store a member of the vnode at a path. -/
def Member.store : Member → Data → VPath → List WriterOp
  | .plain f, d, path => (impl f.ty).store d (path.childName f.name)
  | .struct members, .struct ds, path => .ensureContainer path false :: storeMembers members ds path
  | .enum repr _ variants, .variant index ds, path =>
    match variants[index]? with
    | none => []
    | some v =>
      [.remove path, .ensureContainer path false] ++
        repr.storeArm v path (fun p => implNamed impl v.fields.flattened ds p)
          (fun p => implNewtype impl v.fields.types ds p) (fun p => implUnnamed impl v.fields.types ds 0 p)
  | _, _, _ => []

def storeMembers : List Member → List Data → VPath → List WriterOp
  | m :: ms, d :: ds, path => m.store d path ++ storeMembers ms ds path
  | _, _, _ => []

end

/-- Reconstructs an enum from the vnode at a path. -/
def loadEnum (repr : EnumRepr) (expecting : Option String) (variants : List Variant) (r : TreeReader)
    (path : VPath) : AdbResult Data := do
  let tag ← repr.tagLoad r path
  match matchTag variants tag with
  | none => throw (.corrupt (expecting.getD ("unknown enum variant tag: " ++ tag.text)))
  | some (v, index) =>
    if v.other then
      return .variant index []
    let payload ← repr.loadArm v.fields tag path fun t p => (impl t).load r p
    return .variant index payload

mutual

/-- Reconstructs a member from the vnode at a path. -/
def Member.load : Member → TreeReader → VPath → AdbResult Data
  | .plain f, r, path => f.load r path ((impl f.ty).load r)
  | .struct members, r, path => do
    let ds ← loadMembers members r path
    return .struct ds
  | .enum repr expecting variants, r, path => loadEnum impl repr expecting variants r path

def loadMembers : List Member → TreeReader → VPath → AdbResult (List Data)
  | [], _, _ => return []
  | m :: ms, r, path => do
    let d ← m.load r path
    let ds ← loadMembers ms r path
    return d :: ds

end

/-- The implementation of a struct with these members. -/
def structImpl (members : List Member) : Impl where
  store d path := Member.store impl (.struct members) d path
  load r path := Member.load impl (.struct members) r path

end Calls

/-! ## The names of a vnode -/

/-- The names that a variant is stored under. -/
def EnumRepr.keys (repr : EnumRepr) (v : Variant) : List Str :=
  match repr, v.fields with
  | .internal tag, fields => tag :: fields.flattened.map Prod.fst
  | .external, _ => [v.tag]
  | .adjacent tag _, .unit => [tag]
  | .adjacent tag content, _ => [tag, content]

/-- The name that says which variant is stored. -/
def EnumRepr.lead (repr : EnumRepr) (v : Variant) : Str :=
  match repr with
  | .internal tag | .adjacent tag _ => tag
  | .external => v.tag

mutual

/-- The names that a member is stored under. -/
def Member.keys : Member → Data → List Str
  | .plain f, _ => [f.name]
  | .struct members, .struct ds => memberKeys members ds
  | .enum repr _ variants, .variant index _ =>
    match variants[index]? with
    | some v => repr.keys v
    | none => []
  | _, _ => []

def memberKeys : List Member → List Data → List Str
  | m :: ms, d :: ds => m.keys d ++ memberKeys ms ds
  | _, _ => []

end

mutual

/-- Nothing is stored in the vnode before a flattened enum, and an external tag comes before every name of
the vnode; `before` are the names stored earlier. -/
def Member.Clear (all : List Str) : Member → Data → List Str → Prop
  | .plain _, _, _ => True
  | .struct members, .struct ds, before => MembersClear all members ds before
  | .enum repr _ variants, .variant index _, before =>
    before = [] ∧ (repr = .external → ∀ v, variants[index]? = some v → ∀ name ∈ all, v.tag ≤ name)
  | _, _, _ => True

def MembersClear (all : List Str) : List Member → List Data → List Str → Prop
  | m :: ms, d :: ds, before => m.Clear all d before ∧ MembersClear all ms ds (before ++ m.keys d)
  | _, _, _ => True

end

/-- Storing the flattened fields of a value disturbs none of its siblings. -/
def Undisturbed (members : List Member) (ds : List Data) : Prop :=
  MembersClear (memberKeys members ds) members ds []

section Trees

variable (impl : DataType → Impl) (tree : DataType → Data → Value)

mutual

/-- Each part of the value with a vnode of its own is kept as its tree. -/
def Member.Holds : Member → Data → Prop
  | .plain f, d => (impl f.ty).Keeps d (tree f.ty d)
  | .struct members, .struct ds => MembersHold members ds
  | .enum repr expecting variants, .variant index ds =>
    (Definition.enum repr expecting variants).WF ∧ ∃ v, variants[index]? = some v ∧
      List.Forall₂ (fun t d => (impl t).Keeps d (tree t d)) v.fields.types ds
  | _, _ => False

def MembersHold : List Member → List Data → Prop
  | [], [] => True
  | m :: ms, d :: ds => m.Holds d ∧ MembersHold ms ds
  | _, _ => False

end

mutual

/-- Nothing stands in for a part that is missing: a field has no other name and no default and is needed,
and a variant is read from its own tag alone. -/
def Member.Needed : Member → Data → Prop
  | .plain f, d => f.aliases = [] ∧ f.default = none ∧ (impl f.ty).Needs d
  | .struct members, .struct ds => MembersNeeded members ds
  | .enum _ _ variants, .variant index _ => ∀ v, variants[index]? = some v → v.other = false ∧ v.aliases = []
  | _, _ => True

def MembersNeeded : List Member → List Data → Prop
  | m :: ms, d :: ds => m.Needed d ∧ MembersNeeded ms ds
  | _, _ => True

end

def namedTrees (fs : List (Str × DataType)) (ds : List Data) : List (Str × Value) :=
  List.zipWith (fun f d => (f.1, tree f.2 d)) fs ds

def unnamedTrees (ts : List DataType) (ds : List Data) : List Value := List.zipWith tree ts ds

/-- The fields that a variant is stored as. -/
def armEntries (repr : EnumRepr) (v : Variant) (ds : List Data) : List (Str × Value) :=
  repr.entries v.tag v.fields (namedTrees tree v.fields.flattened ds) (unnamedTrees tree v.fields.types ds)

mutual

/-- The fields of the vnode after a member is stored. -/
def Member.after : Member → Data → List (Str × Value) → List (Str × Value)
  | .plain f, d, fields => Assoc.insert f.name (tree f.ty d) fields
  | .struct members, .struct ds, fields => membersAfter members ds fields
  | .enum repr _ variants, .variant index ds, fields =>
    match variants[index]? with
    | some v => Assoc.insertAll [] (armEntries tree repr v ds)
    | none => fields
  | _, _, fields => fields

def membersAfter : List Member → List Data → List (Str × Value) → List (Str × Value)
  | m :: ms, d :: ds, fields => membersAfter ms ds (m.after d fields)
  | _, _, fields => fields

end

end Trees

/-! ## Storing over what is there -/

open Value (setIn Slot)

/-- What calls do to a container that was put in a vacant place: they take it from `c` to `x`. -/
def Builds (path : VPath) (c x : Value) (ops : List WriterOp) : Prop :=
  ∀ v₀ v : Value, Vacant v₀ path → setIn v₀ path.segments c = some v →
    setIn v₀ path.segments x = some (v.applyAll ops)

section Builds

variable {path : VPath} {c x y : Value} {ops rest : List WriterOp} {acc : List (Str × Value)}

theorem Fills.builds (h : Fills path c x ops) : Builds path c x ops := fun v₀ v _ hv => h v₀ v hv

theorem Builds.append (h : Builds path c x ops) (hrest : Builds path x y rest) : Builds path c y (ops ++ rest) := by
  intro v₀ v hvacant hv
  rw [Value.applyAll_append]
  exact hrest v₀ _ hvacant (h v₀ v hvacant hv)

/-- An object that is there stays. -/
theorem Builds.ensure : Builds path (.node acc) (.node acc) [.ensureContainer path false] := by
  intro v₀ v _ hv
  have hthere : v.hasContainer path false = true := by
    rw [Value.hasContainer, Value.subtree, Value.descend_setIn hv]
    rfl
  change _ = some (v.ensured path false)
  rw [Value.ensured, if_pos hthere]
  exact hv

/-- Clearing the vnode drops what was stored. -/
theorem Builds.reset : Builds path (.node acc) (.node []) [.remove path, .ensureContainer path false] := by
  intro v₀ v hvacant hv
  rcases hvacant with hslot | ⟨rfl, rfl⟩
  · have hne : path.segments ≠ [] := by
      intro hnil
      rw [hnil] at hslot
      cases hslot.1
    obtain ⟨w, hremove, hslotw, hsame⟩ := Value.removeIn_setIn hslot hne hv
    have hremoved : v.apply (.remove path) = w := by
      change (v.removeValue path).1 = w
      rw [Value.removeValue, hremove]
    change _ = some ((v.apply (.remove path)).apply (.ensureContainer path false))
    have hensured : setIn w path.segments (Value.emptyContainer false) = _ := Value.setIn_ensured hslotw
    rw [hremoved, ← hsame]
    exact hensured
  · cases Option.some.inj (Value.setIn_nil.symm.trans hv)
    rfl

theorem Builds.puts (h : Builds path (.node []) x ops) : Puts path x (.ensureContainer path false :: ops) := by
  intro v hvacant
  have hensured : setIn v path.segments (Value.emptyContainer false) = _ := hvacant.ensure
  exact h v _ hvacant hensured

end Builds

/-! ## What a store leaves -/

section Storing

variable {impl : DataType → Impl} {tree : DataType → Data → Value}

theorem Fields.forall₂_flattened {P : DataType → Data → Prop} {fields : Fields} {ds : List Data}
    (h : List.Forall₂ P fields.types ds) : List.Forall₂ (fun f d => P f.2 d) fields.flattened ds := by
  rw [← Fields.snd_flattened, List.forall₂_map_left_iff] at h
  exact h

variable (tree) in
theorem keys_namedTrees {P : Str × DataType → Data → Prop} {fs : List (Str × DataType)} {ds : List Data}
    (h : List.Forall₂ P fs ds) : (namedTrees tree fs ds).map Prod.fst = fs.map Prod.fst := by
  induction h with
  | nil => rfl
  | @cons f d fs ds _ _ ih => exact congrArg (f.1 :: ·) ih

variable (tree) in
theorem keys_armEntries {P : DataType → Data → Prop} {repr : EnumRepr} {v : Variant} {ds : List Data}
    (h : List.Forall₂ P v.fields.types ds) : (armEntries tree repr v ds).map Prod.fst = repr.keys v := by
  have hnamed := keys_namedTrees tree (Fields.forall₂_flattened h)
  unfold armEntries EnumRepr.keys
  cases repr with
  | internal tag => exact congrArg (tag :: ·) hnamed
  | external => rfl
  | adjacent tag content => cases v.fields <;> rfl

theorem fills_implNamed {fs : List (Str × DataType)} {ds : List Data}
    (h : List.Forall₂ (fun f d => (impl f.2).Keeps d (tree f.2 d)) fs ds) (acc : List (Str × Value)) (path : VPath)
    (hnames : StoredNames (fs.map Prod.fst)) (hacc : ∀ f ∈ fs, Assoc.find f.1 acc = none) :
    Fills path (.node acc) (.node (Assoc.insertAll acc (namedTrees tree fs ds))) (implNamed impl fs ds path) := by
  induction h generalizing acc with
  | nil => exact Fills.nil
  | @cons f d fs ds hd _ ih =>
    obtain ⟨hnodup, hreserved⟩ := hnames
    obtain ⟨hhead, hnodup⟩ := List.nodup_cons.1 hnodup
    apply ((hd.puts _).name (hreserved f.1 List.mem_cons_self) (hacc f List.mem_cons_self)).append
    apply ih _ ⟨hnodup, fun n hn => hreserved n (List.mem_cons_of_mem _ hn)⟩
    intro g hg
    have hne : g.1 ≠ f.1 := fun heq => hhead (List.mem_map.2 ⟨g, hg, heq⟩)
    rw [Assoc.find_insert, if_neg hne]
    exact hacc g (List.mem_cons_of_mem _ hg)

theorem fills_implUnnamed {ts : List DataType} {ds : List Data}
    (h : List.Forall₂ (fun t d => (impl t).Keeps d (tree t d)) ts ds) (done : List Value) (i : Nat) (path : VPath)
    (hi : done.length = i) (hlen : i + ts.length < 2 ^ 64) :
    Fills path (.list done) (.list (done ++ unnamedTrees tree ts ds)) (implUnnamed impl ts ds i path) := by
  induction h generalizing done i with
  | nil =>
    rw [unnamedTrees, List.zipWith_nil_left, List.append_nil]
    exact Fills.nil
  | @cons t d ts ds hd _ ih =>
    rw [List.length_cons] at hlen
    apply ((hd.puts _).index (by omega) hi).append
    have hrest := ih (done ++ [tree t d]) (i + 1) (by rw [List.length_append, hi]; rfl) (by omega)
    rwa [List.append_assoc] at hrest

/-- One variant, written into an empty object. -/
theorem fills_arm {repr : EnumRepr} {v : Variant} {ds : List Data} {path : VPath} (hv : v.WF repr) (hrepr : repr.WF)
    (h : List.Forall₂ (fun t d => (impl t).Keeps d (tree t d)) v.fields.types ds) :
    Fills path (.node []) (.object (armEntries tree repr v ds))
      (repr.storeArm v path (fun p => implNamed impl v.fields.flattened ds p)
        (fun p => implNewtype impl v.fields.types ds p) (fun p => implUnnamed impl v.fields.types ds 0 p)) := by
  apply fills_storeArm hv hrepr
  · intro p acc hacc
    exact fills_implNamed (Fields.forall₂_flattened h) acc p hv.stored hacc
  · intro t ht
    have htypes : v.fields.types = [t] := by rw [ht]; rfl
    rw [htypes] at h ⊢
    cases h with
    | @cons _ d _ _ hd hrest =>
      cases hrest
      exact ⟨tree t d, rfl, hd.puts⟩
  · intro p
    exact fills_implUnnamed h [] 0 p rfl (by rw [Nat.zero_add]; exact hv.arity)

mutual

/-- A name that a member is not stored under is not there after it, unless it was there before. -/
theorem Member.find_after : ∀ (m : Member) (d : Data) (acc : List (Str × Value)) {k : Str}, m.Holds impl tree d →
    k ∉ m.keys d → Assoc.find k acc = none → Assoc.find k (m.after tree d acc) = none
  | .plain f, d, acc, k, _, hk, hacc => by
    rw [Member.keys, List.mem_singleton] at hk
    rw [Member.after, Assoc.find_insert, if_neg hk]
    exact hacc
  | .struct ms, .struct ds, acc, k, h, hk, hacc => find_membersAfter ms ds acc h hk hacc
  | .enum repr expecting variants, .variant index ds, acc, k, ⟨hdef, v, hv, hds⟩, hk, hacc => by
    rw [Member.keys, hv] at hk
    rw [Member.after, hv]
    change k ∉ repr.keys v at hk
    change Assoc.find k (Assoc.insertAll [] (armEntries tree repr v ds)) = none
    rw [← keys_armEntries tree hds] at hk
    have hnodup : ((armEntries tree repr v ds).map Prod.fst).Nodup :=
      nodup_entries _ (hdef.2.1 v (List.mem_of_getElem? hv)) hdef.1
        (keys_namedTrees tree (Fields.forall₂_flattened hds))
    rw [Assoc.find_insertAll hnodup, Option.or_eq_none_iff]
    refine ⟨Assoc.find_eq_none.2 fun b hb heq => ?_, rfl⟩
    exact hk (List.mem_map.2 ⟨b, hb, heq⟩)

theorem find_membersAfter : ∀ (ms : List Member) (ds : List Data) (acc : List (Str × Value)) {k : Str},
    MembersHold impl tree ms ds → k ∉ memberKeys ms ds → Assoc.find k acc = none →
      Assoc.find k (membersAfter tree ms ds acc) = none
  | [], [], acc, k, _, _, hacc => hacc
  | m :: ms, d :: ds, acc, k, ⟨hm, hms⟩, hk, hacc => by
    rw [memberKeys, List.mem_append, not_or] at hk
    exact find_membersAfter ms ds _ hms hk.2 (Member.find_after m d acc hm hk.1 hacc)

end

mutual

/-- Storing a member in the vnode of its struct. -/
theorem Member.builds : ∀ (m : Member) (d : Data) (acc : List (Str × Value)) (path : VPath), m.Holds impl tree d →
    StoredNames (m.keys d) → (∀ k ∈ m.keys d, Assoc.find k acc = none) →
      Builds path (.node acc) (.node (m.after tree d acc)) (m.store impl d path)
  | .plain f, d, acc, path, h, hnames, hacc =>
    ((h.puts _).name (hnames.2 f.name List.mem_cons_self) (hacc f.name List.mem_cons_self)).builds
  | .struct ms, .struct ds, acc, path, h, hnames, hacc =>
    Builds.ensure.append (builds_members ms ds acc path h hnames hacc)
  | .enum repr expecting variants, .variant index ds, acc, path, ⟨hdef, v, hv, hds⟩, hnames, hacc => by
    rw [Member.after, Member.store, hv]
    exact Builds.reset.append (fills_arm (hdef.2.1 v (List.mem_of_getElem? hv)) hdef.1 hds).builds

theorem builds_members : ∀ (ms : List Member) (ds : List Data) (acc : List (Str × Value)) (path : VPath),
    MembersHold impl tree ms ds → StoredNames (memberKeys ms ds) → (∀ k ∈ memberKeys ms ds, Assoc.find k acc = none) →
      Builds path (.node acc) (.node (membersAfter tree ms ds acc)) (storeMembers impl ms ds path)
  | [], [], acc, path, _, _, _ => Fills.nil.builds
  | m :: ms, d :: ds, acc, path, ⟨hm, hms⟩, ⟨hnodup, hreserved⟩, hacc => by
    rw [memberKeys] at hnodup hreserved hacc
    obtain ⟨hmnodup, hmsnodup, hdisjoint⟩ := List.nodup_append.1 hnodup
    have hmnames : StoredNames (m.keys d) := ⟨hmnodup, fun k hk => hreserved k (List.mem_append_left _ hk)⟩
    have hmsnames : StoredNames (memberKeys ms ds) := ⟨hmsnodup, fun k hk => hreserved k (List.mem_append_right _ hk)⟩
    apply (Member.builds m d acc path hm hmnames fun k hk => hacc k (List.mem_append_left _ hk)).append
    apply builds_members ms ds _ path hms hmsnames
    intro k hk
    exact Member.find_after m d acc hm (fun hkm => hdisjoint k hkm k hk rfl) (hacc k (List.mem_append_right _ hk))

end

end Storing

/-! ## Loading from a vnode with siblings -/

section Loading

variable {impl : DataType → Impl} {tree : DataType → Data → Value} {r : TreeReader} {root : Value} {path : VPath}
  {fields : List (Str × Value)}

theorem named_loads {fs : List (Str × DataType)} {ds : List Data} (hr : r.Reads root)
    (hobject : root.subtree path = some (.node fields))
    (h : List.Forall₂ (fun f d => (impl f.2).Keeps d (tree f.2 d)) fs ds)
    (hfind : ∀ x ∈ namedTrees tree fs ds, Assoc.find x.1 fields = some x.2)
    (hreserved : ∀ f ∈ fs, ¬ VPath.Reserved f.1) :
    List.Forall₂ (fun f d => (impl f.2).load r (path.childName f.1) = .ok d) fs ds := by
  induction h with
  | nil => exact .nil
  | @cons f d fs ds hd _ ih =>
    have hrest := ih (fun x hx => hfind x (List.mem_cons_of_mem _ hx)) fun g hg =>
      hreserved g (List.mem_cons_of_mem _ hg)
    refine List.Forall₂.cons ?_ hrest
    apply hd.loads hr
    rw [Value.subtree_childName hobject (hreserved f List.mem_cons_self)]
    exact hfind (f.1, tree f.2 d) List.mem_cons_self

theorem unnamed_loads {ts : List DataType} {ds : List Data} {items : List Value} (hr : r.Reads root)
    (hlist : root.subtree path = some (.list items))
    (h : List.Forall₂ (fun t d => (impl t).Keeps d (tree t d)) ts ds) (k : Nat)
    (hitems : items.drop k = unnamedTrees tree ts ds) (hlen : k + ts.length < 2 ^ 64) :
    List.Forall₂ (fun x d => (impl x.1).load r (path.childIndex (.ofNat x.2)) = .ok d) (ts.zipIdx k) ds := by
  induction h generalizing k with
  | nil => exact .nil
  | @cons t d ts ds hd _ ih =>
    rw [List.length_cons] at hlen
    rw [List.zipIdx_cons]
    have hitem : items[k]? = some (tree t d) := by
      rw [← List.head?_drop, hitems]
      rfl
    have htail : items.drop (k + 1) = unnamedTrees tree ts ds := by
      rw [← List.tail_drop, hitems]
      rfl
    refine List.Forall₂.cons ?_ (ih (k + 1) htail (by omega))
    apply hd.loads hr
    rw [Value.subtree_childIndex hlist (by omega)]
    exact hitem

/-- The payload of a variant, from its own vnode. -/
theorem payload_loads {repr : EnumRepr} {v : Variant} {ds : List Data} (hr : r.Reads root) (hv : v.WF repr)
    (h : List.Forall₂ (fun t d => (impl t).Keeps d (tree t d)) v.fields.types ds)
    (hpath : root.subtree path =
      some (v.fields.tree (namedTrees tree v.fields.flattened ds) (unnamedTrees tree v.fields.types ds))) :
    v.fields.payloadLoad path (fun t p => (impl t).load r p) = .ok ds := by
  have hstored := hv.stored
  have harity := hv.arity
  have hnamed := Fields.forall₂_flattened h
  obtain ⟨tag, aliases, other, fields⟩ := v
  match fields, ds, h with
  | .unit, [], _ => rfl
  | .unnamed [t], [d], .cons hd _ =>
    rw [Fields.payloadLoad, hd.loads hr hpath]
    rfl
  | .unnamed [], ds, h => exact Except.mapM_forall₂ (unnamed_loads hr hpath h 0 rfl (by rwa [Nat.zero_add]))
  | .unnamed (t :: t' :: ts), d :: d' :: ds, h =>
    exact Except.mapM_forall₂ (unnamed_loads hr hpath h 0 rfl (by rwa [Nat.zero_add]))
  | .named fields, ds, h =>
    have hkeys : (namedTrees tree fields ds).map Prod.fst = fields.map Prod.fst := keys_namedTrees tree hnamed
    have hnodup : ((namedTrees tree fields ds).map Prod.fst).Nodup := by
      rw [hkeys]
      exact hstored.1
    refine Except.mapM_forall₂ (named_loads hr hpath hnamed ?_ fun f hf => hstored.2 f.1 (List.mem_map_of_mem hf))
    intro x hx
    exact child_object hnodup hx

/-- The payload of a variant, from a vnode that has its entries among others. -/
theorem arm_loads {repr : EnumRepr} {v : Variant} {ds : List Data} (hr : r.Reads root) (hv : v.WF repr)
    (hrepr : repr.WF) (hobject : root.subtree path = some (.node fields))
    (h : List.Forall₂ (fun t d => (impl t).Keeps d (tree t d)) v.fields.types ds)
    (hfind : ∀ x ∈ armEntries tree repr v ds, Assoc.find x.1 fields = some x.2) :
    repr.loadArm v.fields v.tag path (fun t p => (impl t).load r p) = .ok ds := by
  match repr, hv, hrepr with
  | .internal tag, hv, _ =>
    have hreserved : ∀ f ∈ v.fields.flattened, ¬ VPath.Reserved f.1 :=
      fun f hf => hv.stored.2 f.1 (List.mem_map_of_mem hf)
    exact Except.mapM_forall₂ (named_loads hr hobject (Fields.forall₂_flattened h)
      (fun x hx => hfind x (List.mem_cons_of_mem _ hx)) hreserved)
  | .external, hv, _ =>
    apply payload_loads hr hv h
    rw [Value.subtree_childName hobject hv.tag]
    exact hfind _ List.mem_cons_self
  | .adjacent tag content, hv, hrepr =>
    rcases eq_or_ne v.fields .unit with hunit | hunit
    · rw [hunit] at h ⊢
      cases h
      rfl
    · apply payload_loads hr hv h
      rw [armEntries, EnumRepr.entries_adjacent hunit] at hfind
      rw [Value.subtree_childName hobject (hrepr.2 content (List.mem_cons_of_mem _ List.mem_cons_self))]
      exact hfind (content, _) (List.mem_cons_of_mem _ List.mem_cons_self)

/-- An enum is loaded from a vnode that has its entries, an external tag first. -/
theorem loadEnum_eq {repr : EnumRepr} {expecting : Option String} {variants : List Variant} {index : Nat}
    {v : Variant} {ds : List Data} (hr : r.Reads root) (hdef : (Definition.enum repr expecting variants).WF)
    (hv : variants[index]? = some v) (hobject : root.subtree path = some (.node fields))
    (h : List.Forall₂ (fun t d => (impl t).Keeps d (tree t d)) v.fields.types ds)
    (hfind : ∀ x ∈ armEntries tree repr v ds, Assoc.find x.1 fields = some x.2)
    (hfirst : repr = .external → (fields.map Prod.fst).head? = some v.tag) :
    loadEnum impl repr expecting variants r path = .ok (.variant index ds) := by
  have hwf : v.WF repr := hdef.2.1 v (List.mem_of_getElem? hv)
  have htag : repr.tagLoad r path = .ok v.tag := by
    match repr, hwf, hdef.1 with
    | .internal tag, hwf, _ =>
      apply hr.loadStr_of
      rw [Value.subtree_childName hobject (hwf.names.2 tag List.mem_cons_self)]
      exact hfind (tag, _) List.mem_cons_self
    | .external, _, _ =>
      rw [EnumRepr.tagLoad, hr.keysAt path _ hobject]
      cases hkeys : fields.map Prod.fst with
      | nil =>
        rw [hkeys] at hfirst
        cases hfirst rfl
      | cons k ks =>
        rw [hkeys] at hfirst
        cases hfirst rfl
        rfl
    | .adjacent tag content, _, hrepr =>
      apply hr.loadStr_of
      rw [Value.subtree_childName hobject (hrepr.2 tag List.mem_cons_self)]
      apply hfind (tag, _)
      unfold armEntries
      cases v.fields <;> exact List.mem_cons_self
  have harm := arm_loads hr hwf hdef.1 hobject h hfind
  unfold loadEnum
  rw [htag, Except.ok_bind, matchTag_stored hdef hv]
  cases hother : v.other with
  | true =>
    rw [hwf.other hother] at h
    cases h
    simp only [hother, if_true]
    rfl
  | false =>
    simp only [hother, harm]
    rfl

end Loading

/-! ## Where nothing is disturbed -/

section Undisturbed

variable {impl : DataType → Impl} {tree : DataType → Data → Value}

variable (tree) in
mutual

/-- The object has the entries that a member is stored as. -/
def Member.In (fields : List (Str × Value)) : Member → Data → Prop
  | .plain f, d => Assoc.find f.name fields = some (tree f.ty d)
  | .struct members, .struct ds => MembersIn fields members ds
  | .enum repr _ variants, .variant index ds => ∀ v, variants[index]? = some v →
    ∀ x ∈ armEntries tree repr v ds, Assoc.find x.1 fields = some x.2
  | _, _ => True

def MembersIn (fields : List (Str × Value)) : List Member → List Data → Prop
  | m :: ms, d :: ds => m.In fields d ∧ MembersIn fields ms ds
  | _, _ => True

end

mutual

theorem Member.in_congr {fields fields' : List (Str × Value)} : ∀ (m : Member) (d : Data), m.Holds impl tree d →
    (∀ k ∈ m.keys d, Assoc.find k fields' = Assoc.find k fields) → m.In tree fields d → m.In tree fields' d
  | .plain f, d, _, hsame, hin => (hsame f.name List.mem_cons_self).trans hin
  | .struct ms, .struct ds, h, hsame, hin => membersIn_congr ms ds h hsame hin
  | .enum repr expecting variants, .variant index ds, ⟨_, v, hv, hds⟩, hsame, hin => by
    intro w hw x hx
    cases hv.symm.trans hw
    rw [Member.keys, hv] at hsame
    have hkey : x.1 ∈ repr.keys v := by
      rw [← keys_armEntries tree hds]
      exact List.mem_map_of_mem hx
    exact (hsame x.1 hkey).trans (hin v hv x hx)

theorem membersIn_congr {fields fields' : List (Str × Value)} : ∀ (ms : List Member) (ds : List Data),
    MembersHold impl tree ms ds → (∀ k ∈ memberKeys ms ds, Assoc.find k fields' = Assoc.find k fields) →
      MembersIn tree fields ms ds → MembersIn tree fields' ms ds
  | [], [], _, _, _ => trivial
  | m :: ms, d :: ds, ⟨hm, hms⟩, hsame, ⟨hin, hins⟩ =>
    ⟨Member.in_congr m d hm (fun k hk => hsame k (List.mem_append_left _ hk)) hin,
      membersIn_congr ms ds hms (fun k hk => hsame k (List.mem_append_right _ hk)) hins⟩

end

mutual

/-- After something is stored, no member clears the vnode. -/
theorem Member.find_kept {all : List Str} {k : Str} : ∀ (m : Member) (d : Data) (acc : List (Str × Value))
    (before : List Str), m.Clear all d before → before ≠ [] → k ∉ m.keys d → m.Holds impl tree d →
      Assoc.find k (m.after tree d acc) = Assoc.find k acc
  | .plain f, d, acc, before, _, _, hk, _ => by
    rw [Member.keys, List.mem_singleton] at hk
    rw [Member.after, Assoc.find_insert, if_neg hk]
  | .struct ms, .struct ds, acc, before, hclear, hbefore, hk, h => find_membersKept ms ds acc before hclear hbefore hk h
  | .enum repr expecting variants, .variant index ds, acc, before, hclear, hbefore, hk, _ => absurd hclear.1 hbefore

theorem find_membersKept {all : List Str} {k : Str} : ∀ (ms : List Member) (ds : List Data)
    (acc : List (Str × Value)) (before : List Str), MembersClear all ms ds before → before ≠ [] →
      k ∉ memberKeys ms ds → MembersHold impl tree ms ds →
        Assoc.find k (membersAfter tree ms ds acc) = Assoc.find k acc
  | [], [], acc, before, _, _, _, _ => rfl
  | m :: ms, d :: ds, acc, before, ⟨hm, hms⟩, hbefore, hk, ⟨h, hs⟩ => by
    rw [memberKeys, List.mem_append, not_or] at hk
    rw [membersAfter, find_membersKept ms ds _ _ hms (by simp [hbefore]) hk.2 hs,
      Member.find_kept m d acc before hm hbefore hk.1 h]

end

mutual

/-- Every member is in the vnode after it is stored. -/
theorem Member.in_after {all : List Str} : ∀ (m : Member) (d : Data) (acc : List (Str × Value)) (before : List Str),
    m.Clear all d before → (m.keys d).Nodup → m.Holds impl tree d → m.In tree (m.after tree d acc) d
  | .plain f, d, acc, before, _, _, _ => by
    rw [Member.In, Member.after, Assoc.find_insert, if_pos rfl]
  | .struct ms, .struct ds, acc, before, hclear, hnodup, h => membersIn_after ms ds acc before hclear hnodup h
  | .enum repr expecting variants, .variant index ds, acc, before, _, _, ⟨hdef, v, hv, hds⟩ => by
    intro w hw x hx
    cases hv.symm.trans hw
    rw [Member.after, hv]
    change Assoc.find x.1 (Assoc.insertAll [] (armEntries tree repr v ds)) = some x.2
    have hnodup : ((armEntries tree repr v ds).map Prod.fst).Nodup :=
      nodup_entries _ (hdef.2.1 v (List.mem_of_getElem? hv)) hdef.1
        (keys_namedTrees tree (Fields.forall₂_flattened hds))
    exact child_object hnodup hx

theorem membersIn_after {all : List Str} : ∀ (ms : List Member) (ds : List Data) (acc : List (Str × Value))
    (before : List Str), MembersClear all ms ds before → (memberKeys ms ds).Nodup → MembersHold impl tree ms ds →
      MembersIn tree (membersAfter tree ms ds acc) ms ds
  | [], [], acc, before, _, _, _ => trivial
  | m :: ms, d :: ds, acc, before, ⟨hm, hms⟩, hnodup, ⟨h, hs⟩ => by
    obtain ⟨hmnodup, hmsnodup, hdisjoint⟩ := List.nodup_append.1 hnodup
    refine ⟨?_, membersIn_after ms ds _ _ hms hmsnodup hs⟩
    apply Member.in_congr m d h _ (Member.in_after m d acc before hm hmnodup h)
    intro k hk
    have hstored : before ++ m.keys d ≠ [] := List.append_ne_nil_of_right_ne_nil _ (List.ne_nil_of_mem hk)
    exact find_membersKept ms ds _ _ hms hstored (fun hks => hdisjoint k hk k hks rfl) hs

end

mutual

theorem Member.sorted_after : ∀ (m : Member) (d : Data) {acc : List (Str × Value)}, Assoc.Sorted acc →
    Assoc.Sorted (m.after tree d acc)
  | .plain f, d, acc, h => Assoc.sorted_insert h
  | .struct ms, d, acc, h => by
    cases d with
    | struct ds => exact sorted_membersAfter ms ds h
    | _ => exact h
  | .enum repr expecting variants, d, acc, h => by
    cases d with
    | variant index ds =>
      rw [Member.after]
      split
      · exact Assoc.sorted_insertAll Assoc.sorted_nil
      · exact h
    | _ => exact h

theorem sorted_membersAfter : ∀ (ms : List Member) (ds : List Data) {acc : List (Str × Value)}, Assoc.Sorted acc →
    Assoc.Sorted (membersAfter tree ms ds acc)
  | [], ds, acc, h => by
    cases ds <;> exact h
  | m :: ms, ds, acc, h => by
    cases ds with
    | nil => exact h
    | cons d ds => exact sorted_membersAfter ms ds (Member.sorted_after m d h)

end

/-- The least name of an object is its first one. -/
theorem head_of_least {fields : List (Str × Value)} {name : Str} {x : Value} (hs : Assoc.Sorted fields)
    (hfind : Assoc.find name fields = some x) (hleast : ∀ k ∈ fields.map Prod.fst, name ≤ k) :
    (fields.map Prod.fst).head? = some name := by
  have hmem := List.mem_map_of_mem (f := Prod.fst) (Assoc.mem_of_find hfind)
  cases fields with
  | nil => cases hfind
  | cons b fields =>
    obtain ⟨hhead, -⟩ := List.pairwise_cons.1 hs
    have hb : name ≤ b.1 := hleast b.1 List.mem_cons_self
    rcases List.mem_cons.1 hmem with heq | hmem
    · exact congrArg some heq.symm
    · exact absurd (hhead name hmem) (not_lt.2 hb)

mutual

/-- A member whose entries are in the vnode is loaded from it. -/
theorem Member.loads {r : TreeReader} {root : Value} {path : VPath} {fields : List (Str × Value)} {all : List Str}
    (hr : r.Reads root) (hobject : root.subtree path = some (.node fields)) (hs : Assoc.Sorted fields)
    (hall : ∀ k ∈ fields.map Prod.fst, k ∈ all) : ∀ (m : Member) (d : Data) (before : List Str),
      m.Clear all d before → (∀ k ∈ m.keys d, ¬ VPath.Reserved k) → m.Holds impl tree d → m.In tree fields d →
        m.load impl r path = .ok d
  | .plain f, d, before, _, hreserved, h, hin => by
    have hchild : root.subtree (path.childName f.name) = some (tree f.ty d) := by
      rw [Value.subtree_childName hobject (hreserved f.name List.mem_cons_self)]
      exact hin
    rw [Member.load, Field.load_of_present hr hchild]
    exact h.loads hr hchild
  | .struct ms, .struct ds, before, hclear, hreserved, h, hin => by
    rw [Member.load, loads_members hr hobject hs hall ms ds before hclear hreserved h hin]
    rfl
  | .enum repr expecting variants, .variant index ds, before, hclear, hreserved, ⟨hdef, v, hv, hds⟩, hin => by
    apply loadEnum_eq hr hdef hv hobject hds (hin v hv)
    rintro rfl
    have htag := hin v hv _ List.mem_cons_self
    exact head_of_least hs htag fun k hk => hclear.2 rfl v hv k (hall k hk)

theorem loads_members {r : TreeReader} {root : Value} {path : VPath} {fields : List (Str × Value)} {all : List Str}
    (hr : r.Reads root) (hobject : root.subtree path = some (.node fields)) (hs : Assoc.Sorted fields)
    (hall : ∀ k ∈ fields.map Prod.fst, k ∈ all) : ∀ (ms : List Member) (ds : List Data) (before : List Str),
      MembersClear all ms ds before → (∀ k ∈ memberKeys ms ds, ¬ VPath.Reserved k) → MembersHold impl tree ms ds →
        MembersIn tree fields ms ds → loadMembers impl ms r path = .ok ds
  | [], [], before, _, _, _, _ => rfl
  | m :: ms, d :: ds, before, ⟨hm, hms⟩, hreserved, ⟨h, hs'⟩, ⟨hin, hins⟩ => by
    rw [loadMembers, Member.loads hr hobject hs hall m d before hm
        (fun k hk => hreserved k (List.mem_append_left _ hk)) h hin, Except.ok_bind,
      loads_members hr hobject hs hall ms ds _ hms (fun k hk => hreserved k (List.mem_append_right _ hk)) hs' hins]
    rfl

end

variable {ms : List Member} {ds : List Data}

/-- The names of the vnode are among those that are stored. -/
theorem keys_membersAfter (h : MembersHold impl tree ms ds) :
    ∀ k ∈ (membersAfter tree ms ds []).map Prod.fst, k ∈ memberKeys ms ds := by
  intro k hk
  by_contra hnot
  obtain ⟨b, hb, rfl⟩ := List.mem_map.1 hk
  exact Assoc.find_eq_none.1 (find_membersAfter ms ds [] h hnot rfl) b hb rfl

/-- **A struct with flattened fields is kept, as a part of whatever holds it, if none is disturbed.** -/
theorem structImpl_keeps (h : MembersHold impl tree ms ds) (hnames : StoredNames (memberKeys ms ds))
    (hclear : Undisturbed ms ds) :
    (structImpl impl ms).Keeps (.struct ds) (.node (membersAfter tree ms ds [])) where
  puts path := (builds_members ms ds [] path h hnames fun _ _ => rfl).puts
  loads hr hpath := by
    have hin := membersIn_after ms ds [] [] hclear hnames.1 h
    have hs : Assoc.Sorted (membersAfter tree ms ds []) := sorted_membersAfter ms ds Assoc.sorted_nil
    change Member.load impl (.struct ms) _ _ = _
    rw [Member.load, loads_members hr hpath hs (keys_membersAfter h) ms ds [] hclear hnames.2 h hin]
    rfl

end Undisturbed

end Flattened

end ArborDb
