import ArborDb.Data.Encode

/-!
# Loading typed data

What a typed value is read back from, vnode by vnode, through any reader. A reader over the tree of
a value loads the value (`load_toValue`), and so does one over the blob that the direct encoder
writes.
-/

namespace ArborDb

section Typed

variable [Externals]

/-! ## Reading the parts -/

/-- A string, as the tag of an enum is stored. -/
def loadStr (r : TreeReader) (path : VPath) : AdbResult Str := do
  match ← r.scalarAt path with
  | some (.str tag) => return tag
  | some s => throw (.typeMismatch "str" s.typeStr)
  | none => throw (.pathNotFound path)

namespace EnumRepr

/-- The tag of the variant that is stored. -/
def tagLoad (repr : EnumRepr) (r : TreeReader) (path : VPath) : AdbResult Str :=
  match repr with
  | .external => do
    match ← r.keysAt path with
    | tag :: _ => return tag
    | [] => throw (.corrupt "enum vnode has no variant tag")
  | .adjacent tag _ | .internal tag => loadStr r (path.childName tag)

end EnumRepr

/-- Whether a variant has a match arm of its own for a tag; the catch-all has none. -/
def Variant.accepts (v : Variant) (tag : Str) : Bool := !v.other && (v.tag == tag || v.aliases.contains tag)

/-- The variant that a tag is read as: one that accepts it, or else the catch-all. -/
def matchTag (variants : List Variant) (tag : Str) : Option (Variant × Nat) :=
  (variants.zipIdx.find? fun v => v.1.accepts tag).or (variants.zipIdx.find? fun v => v.1.other)

/-- The name a field is stored under: its own, or else an alias that exists. -/
def Field.choose (f : Field) (r : TreeReader) (path : VPath) : AdbResult (Option Str) :=
  (f.name :: f.aliases).foldlM (fun chosen candidate => do
    match chosen with
    | some _ => return chosen
    | none => return if ← r.existsAt (path.childName candidate) then some candidate else none) none

section Load

variable (defs : Nat → Definition)

/-- A field of a struct, given what loads its type at a path. -/
def Field.load (f : Field) (r : TreeReader) (path : VPath) (load : VPath → AdbResult Data) : AdbResult Data := do
  if f.aliases.isEmpty && f.default.isNone then
    load (path.childName f.name)
  else
    match ← f.choose r path with
    | some candidate => load (path.childName candidate)
    | none =>
      match f.default with
      | some d => return d
      | none => load (path.childName f.name)

/-- A payload with a vnode of its own, given what loads a type at a path. -/
def Fields.payloadLoad (fields : Fields) (path : VPath) (load : DataType → VPath → AdbResult Data) :
    AdbResult (List Data) :=
  match fields with
  | .unit => return []
  | .unnamed [t] => do return [← load t path]
  | .unnamed types => types.zipIdx.mapM fun x => load x.1 (path.childIndex (.ofNat x.2))
  | .named fields => fields.mapM fun f => load f.2 (path.childName f.1)

/-- The payload of a variant. -/
def EnumRepr.loadArm (repr : EnumRepr) (fields : Fields) (tag : Str) (path : VPath)
    (load : DataType → VPath → AdbResult Data) : AdbResult (List Data) :=
  match repr with
  | .external => fields.payloadLoad (path.childName tag) load
  | .adjacent _ content => fields.payloadLoad (path.childName content) load
  | .internal _ => fields.flattened.mapM fun f => load f.2 (path.childName f.1)

/-- Reconstructs a value of a type from the subtree at a path; the first argument bounds the depth
of the recursion. -/
def load (r : TreeReader) : Nat → DataType → VPath → AdbResult Data
  | 0, _, _ => throw .stackOverflow
  | fuel + 1, t, path =>
    match t with
    | .scalar t => do
      match ← r.scalarAt path with
      | some s => return .scalar (← t.fromScalar s)
      | none => throw (.pathNotFound path)
    | .option t => do
      if !(← r.existsAt path) then
        return .none
      match ← r.scalarAt path with
      | some .null => return .none
      | _ => return .some (← load r fuel t path)
    | .vec t => do
      let len ← r.lenAt path
      let items ← (List.range len).mapM fun i => load r fuel t (path.childIndex (.ofNat i))
      return .vec items
    | .map t => do
      let names ← r.keysAt path
      let entries ← names.foldlM (fun entries name => do
        let d ← load r fuel t (path.childName name)
        return Assoc.insert name d entries) []
      return .map entries
    | .derived n =>
      match defs n with
      | .struct fs => do
        let ds ← fs.mapM fun f => f.load r path (load r fuel f.ty)
        return .struct ds
      | .enum repr expecting variants => do
        let tag ← repr.tagLoad r path
        match matchTag variants tag with
        | none => throw (.corrupt (expecting.getD ("unknown enum variant tag: " ++ tag.text)))
        | some (v, index) =>
          if v.other then
            return .variant index []
          let payload ← repr.loadArm v.fields tag path (load r fuel)
          return .variant index payload

end Load

/-! ## Depth -/

mutual

/-- How deep values are nested in a value. -/
def Data.depth : Data → Nat
  | .scalar _ | .none => 1
  | .some d => d.depth + 1
  | .vec ds | .struct ds | .variant _ ds => depths ds + 1
  | .map es => entryDepths es + 1

def depths : List Data → Nat
  | [] => 0
  | d :: ds => max d.depth (depths ds)

def entryDepths : List (Str × Data) → Nat
  | [] => 0
  | (_, d) :: es => max d.depth (entryDepths es)

end

theorem depth_le_depths {d : Data} {ds : List Data} (h : d ∈ ds) : d.depth ≤ depths ds := by
  induction ds with
  | nil => cases h
  | cons e ds ih =>
    rw [depths]
    rcases List.mem_cons.1 h with rfl | h
    · exact Nat.le_max_left _ _
    · exact Nat.le_trans (ih h) (Nat.le_max_right _ _)

theorem depth_le_entryDepths {e : Str × Data} {es : List (Str × Data)} (h : e ∈ es) :
    e.2.depth ≤ entryDepths es := by
  induction es with
  | nil => cases h
  | cons f es ih =>
    obtain ⟨name, d⟩ := f
    rw [entryDepths]
    rcases List.mem_cons.1 h with rfl | h
    · exact Nat.le_max_left _ _
    · exact Nat.le_trans (ih h) (Nat.le_max_right _ _)

theorem depth_pos (d : Data) : 0 < d.depth := by
  cases d <;> exact Nat.succ_pos _

/-! ## The children of a tree -/

section Children

variable {defs : Nat → Definition} {t : DataType}

theorem itemValues_eq {ds : List Data} : itemValues defs t ds = ds.map (toValue defs t) := by
  induction ds with
  | nil => rfl
  | cons d ds ih => exact congrArg (toValue defs t d :: ·) ih

theorem entryValues_eq {es : List (Str × Data)} :
    entryValues defs t es = es.map fun e => (e.1, toValue defs t e.2) := by
  induction es with
  | nil => rfl
  | cons e es ih => exact congrArg ((e.1, toValue defs t e.2) :: ·) ih

theorem forall₂_namedValues {fs : List (Str × DataType)} {ds : List Data} (h : OfFields defs (fs.map Prod.snd) ds) :
    List.Forall₂ (fun f d => f ∈ fs ∧ d ∈ ds ∧ Of defs f.2 d ∧
      (f.1, toValue defs f.2 d) ∈ namedValues defs fs ds) fs ds := by
  induction fs generalizing ds with
  | nil =>
    cases ds with
    | nil => exact .nil
    | cons d ds => exact h.elim
  | cons f fs ih =>
    cases ds with
    | nil => exact h.elim
    | cons d ds =>
      obtain ⟨hd, hds⟩ := h
      apply List.Forall₂.cons ⟨List.mem_cons_self, List.mem_cons_self, hd, List.mem_cons_self⟩
      apply (ih hds).imp
      intro f e he
      obtain ⟨hf, hmem, he, hvalue⟩ := he
      exact ⟨List.mem_cons_of_mem _ hf, List.mem_cons_of_mem _ hmem, he, List.mem_cons_of_mem _ hvalue⟩

theorem forall₂_unnamedValues : ∀ {ts : List DataType} {ds : List Data} (k : Nat), OfFields defs ts ds →
    List.Forall₂ (fun x d => x.1 ∈ ts ∧ d ∈ ds ∧ Of defs x.1 d ∧ k ≤ x.2 ∧ x.2 < k + ts.length ∧
      (unnamedValues defs ts ds)[x.2 - k]? = some (toValue defs x.1 d)) (ts.zipIdx k) ds
  | [], [], k, _ => .nil
  | t :: ts, d :: ds, k, ⟨hd, hds⟩ => by
    rw [List.zipIdx_cons]
    apply List.Forall₂.cons
    · have hk : k < k + (t :: ts).length := Nat.lt_add_of_pos_right (Nat.succ_pos _)
      exact ⟨List.mem_cons_self, List.mem_cons_self, hd, Nat.le_refl k, hk, by rw [Nat.sub_self]; rfl⟩
    · apply (forall₂_unnamedValues (k + 1) hds).imp
      intro x e he
      obtain ⟨hx, hmem, he, hle, hlt, hget⟩ := he
      refine ⟨List.mem_cons_of_mem _ hx, List.mem_cons_of_mem _ hmem, he, by omega,
        by rw [List.length_cons]; omega, ?_⟩
      rw [show x.2 - k = x.2 - (k + 1) + 1 by omega]
      exact hget

theorem child_object {fields : List (Str × Value)} {name : Str} {x : Value} (hnodup : (fields.map Prod.fst).Nodup)
    (hx : (name, x) ∈ fields) : (Value.object fields).child (.name name) = some x := by
  change Assoc.find name (Assoc.insertAll [] fields) = some x
  rw [Assoc.find_insertAll hnodup, Assoc.find_of_mem_nodup hnodup hx]
  rfl

/-- The tree of a type that is never `null` is no `null` leaf. -/
theorem asLeaf_ne_null {d : Data} (ht : t.NeverNull) (h : Of defs t d) :
    (toValue defs t d).asLeaf ≠ some .null := by
  match t, d, ht, h with
  | .scalar t, .scalar s, _, h =>
    intro hnull
    cases Option.some.inj hnull
    exact t.stored_ne_null h.symm
  | .vec _, .vec _, _, _ =>
    intro hnull
    cases hnull
  | .map _, .map _, _, _ =>
    intro hnull
    cases hnull
  | .derived n, .struct ds, _, h =>
    rw [Of] at h
    rw [toValue]
    cases hdef : defs n with
    | enum _ _ _ => rw [hdef] at h; exact h.elim
    | struct fs =>
      intro hnull
      cases hnull
  | .derived n, .variant index ds, _, h =>
    rw [Of] at h
    rw [toValue]
    cases hdef : defs n with
    | struct _ => rw [hdef] at h; exact h.elim
    | enum repr _ variants =>
      rw [hdef] at h
      cases hv : variants[index]? with
      | none => simp only [hv] at h
      | some v =>
        simp only [hv]
        intro hnull
        cases hnull

end Children

/-! ## Loading what is there -/

section Reads

variable {r : TreeReader} {root w : Value} {path : VPath}

theorem TreeReader.Reads.scalarAt_of (hr : r.Reads root) (h : root.subtree path = some w) :
    r.scalarAt path = .ok w.asLeaf := by
  rw [hr.scalarAt, Value.scalarAt, h]
  rfl

theorem TreeReader.Reads.existsAt_of (hr : r.Reads root) (h : root.subtree path = some w) :
    r.existsAt path = .ok true := by
  rw [hr.existsAt, Value.existsAt, h]
  rfl

theorem TreeReader.Reads.loadStr_of {s : Str} (hr : r.Reads root) (h : root.subtree path = some (.leaf (.str s))) :
    loadStr r path = .ok s := by
  rw [loadStr, hr.scalarAt_of h]
  rfl

end Reads

section Recover

variable (defs : Nat → Definition) (r : TreeReader) (root : Value)

/-- Every value nested at most so deep is loaded from where its tree is. -/
def Recovers (fuel : Nat) : Prop :=
  ∀ (t : DataType) (d : Data) (path : VPath), t.WF → Of defs t d → d.depth ≤ fuel →
    root.subtree path = some (toValue defs t d) → load defs r fuel t path = .ok d

variable {defs r root} {fuel : Nat} {path : VPath} {ds : List Data}

theorem Recovers.named (h : Recovers defs r root fuel) {fs : List (Str × DataType)} {fields : List (Str × Value)}
    (hds : OfFields defs (fs.map Prod.snd) ds) (hdepth : depths ds ≤ fuel)
    (hobject : root.subtree path = some (.object fields)) (hnodup : (fields.map Prod.fst).Nodup)
    (hsub : ∀ x ∈ namedValues defs fs ds, x ∈ fields) (hreserved : ∀ f ∈ fs, ¬ VPath.Reserved f.1)
    (hwf : ∀ f ∈ fs, f.2.WF) :
    List.Forall₂ (fun f d => root.subtree (path.childName f.1) = some (toValue defs f.2 d) ∧
      load defs r fuel f.2 (path.childName f.1) = .ok d) fs ds := by
  apply (forall₂_namedValues hds).imp
  intro f d hd
  obtain ⟨hf, hmem, hd, hvalue⟩ := hd
  have hchild : root.subtree (path.childName f.1) = some (toValue defs f.2 d) := by
    rw [Value.subtree_childName hobject (hreserved f hf)]
    exact child_object hnodup (hsub _ hvalue)
  exact ⟨hchild, h f.2 d _ (hwf f hf) hd (Nat.le_trans (depth_le_depths hmem) hdepth) hchild⟩

theorem Recovers.unnamed (h : Recovers defs r root fuel) {ts : List DataType}
    (hds : OfFields defs ts ds) (hdepth : depths ds ≤ fuel) (hlen : ts.length < 2 ^ 64)
    (hlist : root.subtree path = some (.list (unnamedValues defs ts ds))) (hwf : ∀ t ∈ ts, t.WF) :
    List.Forall₂ (fun x d => load defs r fuel x.1 (path.childIndex (.ofNat x.2)) = .ok d) ts.zipIdx ds := by
  apply (forall₂_unnamedValues 0 hds).imp
  intro x d hd
  obtain ⟨hx, hmem, hd, -, hlt, hget⟩ := hd
  rw [Nat.zero_add] at hlt
  rw [Nat.sub_zero] at hget
  apply h x.1 d _ (hwf x.1 hx) hd (Nat.le_trans (depth_le_depths hmem) hdepth)
  rw [Value.subtree_childIndex hlist (Nat.lt_trans hlt hlen)]
  exact hget

theorem Recovers.items (h : Recovers defs r root fuel) {t : DataType} (hds : OfItems defs t ds)
    (hdepth : depths ds ≤ fuel) (hlen : ds.length < 2 ^ 64)
    (hlist : root.subtree path = some (.list (itemValues defs t ds))) (hwf : t.WF) {i : Nat} {d : Data}
    (hd : ds[i]? = some d) : load defs r fuel t (path.childIndex (.ofNat i)) = .ok d := by
  have hmem : d ∈ ds := List.mem_of_getElem? hd
  obtain ⟨hi, -⟩ := List.getElem?_eq_some_iff.1 hd
  apply h t d _ hwf (ofItems_iff.1 hds d hmem) (Nat.le_trans (depth_le_depths hmem) hdepth)
  rw [Value.subtree_childIndex hlist (Nat.lt_trans hi hlen), itemValues_eq]
  change (ds.map (toValue defs t))[i]? = _
  rw [List.getElem?_map, hd]
  rfl

theorem Recovers.entry (h : Recovers defs r root fuel) {t : DataType} {es : List (Str × Data)}
    (hes : OfEntries defs t es) (hsorted : Assoc.Sorted es) (hdepth : entryDepths es ≤ fuel)
    (hobject : root.subtree path = some (.node (entryValues defs t es))) (hwf : t.WF) {e : Str × Data}
    (he : e ∈ es) : load defs r fuel t (path.childName e.1) = .ok e.2 := by
  obtain ⟨hname, hd⟩ := ofEntries_iff.1 hes e he
  apply h t e.2 _ hwf hd (Nat.le_trans (depth_le_entryDepths he) hdepth)
  rw [Value.subtree_childName hobject hname]
  apply Assoc.find_of_mem (sorted_entryValues hsorted)
  rw [entryValues_eq]
  exact List.mem_map_of_mem he

/-- A field of a struct that is there is read from its own name. -/
theorem Field.load_of_present {f : Field} {x : Value} {load : VPath → AdbResult Data} (hr : r.Reads root)
    (h : root.subtree (path.childName f.name) = some x) : f.load r path load = load (path.childName f.name) := by
  have hchoose : f.choose r path = .ok (some f.name) := by
    rw [Field.choose, List.foldlM_cons]
    simp only [hr.existsAt_of h, Except.ok_bind, if_true]
    have hrest : ∀ names : List Str, names.foldlM (m := Except AdbError) (fun chosen candidate => do
        match chosen with
        | some _ => return chosen
        | none => return if ← r.existsAt (path.childName candidate) then some candidate else none)
        (some f.name) = .ok (some f.name) := by
      intro names
      induction names with
      | nil => rfl
      | cons name names ih => exact ih
    exact hrest f.aliases
  rw [Field.load, hchoose]
  split <;> rfl

/-- A stored tag is read as the variant it was stored for. -/
theorem matchTag_stored {repr : EnumRepr} {expecting : Option String} {variants : List Variant} {index : Nat}
    {v : Variant} (hdef : (Definition.enum repr expecting variants).WF) (hv : variants[index]? = some v) :
    matchTag variants v.tag = some (v, index) := by
  obtain ⟨-, -, hpairs⟩ := hdef
  rw [List.pairwise_iff_getElem] at hpairs
  obtain ⟨hindex, rfl⟩ := List.getElem?_eq_some_iff.1 hv
  have haccepts : ∀ w : Variant, ¬ w.Claims variants[index].tag → w.accepts variants[index].tag = false := by
    intro w hw
    rw [Variant.Claims] at hw
    rw [Variant.accepts]
    cases hother : w.other with
    | true => rfl
    | false => simpa [hother, not_or] using hw
  cases hother : variants[index].other with
  | false =>
    have hself : variants[index].accepts variants[index].tag = true := by simp [Variant.accepts, hother]
    have hbefore : ∀ j w, j < index → variants[j]? = some w → w.accepts variants[index].tag = false := by
      intro j w hj hw
      obtain ⟨hj', rfl⟩ := List.getElem?_eq_some_iff.1 hw
      exact haccepts _ (hpairs j index hj' hindex hj).1
    rw [matchTag, List.find?_zipIdx (fun w : Variant => w.accepts variants[index].tag) hv hself hbefore, Nat.zero_add]
    rfl
  | true =>
    have hnone : ∀ w ∈ variants, w.accepts variants[index].tag = false := by
      intro w hw
      obtain ⟨j, hj, rfl⟩ := List.getElem_of_mem hw
      rcases Nat.lt_trichotomy j index with hlt | rfl | hgt
      · exact haccepts _ (hpairs j index hj hindex hlt).1
      · rw [Variant.accepts, hother]
        rfl
      · exact haccepts _ (hpairs index j hindex hj hgt).2.1
    have hbefore : ∀ j w, j < index → variants[j]? = some w → w.other = false := by
      intro j w hj hw
      obtain ⟨hj', rfl⟩ := List.getElem?_eq_some_iff.1 hw
      exact Bool.eq_false_iff.2 fun hw' => (hpairs j index hj' hindex hj).2.2 ⟨hw', hother⟩
    rw [matchTag, List.find?_zipIdx_none (fun w : Variant => w.accepts variants[index].tag) hnone,
      List.find?_zipIdx Variant.other hv hother hbefore, Nat.zero_add]
    rfl

section Variants

variable {repr : EnumRepr} {v : Variant}

theorem nodup_entries {named : List (Str × Value)} (unnamed : List Value) (hv : v.WF repr) (hrepr : repr.WF)
    (hkeys : named.map Prod.fst = v.fields.flattened.map Prod.fst) :
    ((repr.entries v.tag v.fields named unnamed).map Prod.fst).Nodup := by
  match repr, hv, hrepr with
  | .internal tag, hv, _ =>
    change (tag :: named.map Prod.fst).Nodup
    rw [hkeys]
    exact hv.names.1
  | .external, _, _ => exact List.nodup_singleton _
  | .adjacent tag content, _, hrepr =>
    rcases eq_or_ne v.fields .unit with hunit | hunit
    · rw [hunit]
      exact List.nodup_singleton _
    · rw [EnumRepr.entries_adjacent hunit]
      exact hrepr.1

variable (hv : v.WF repr) (hrepr : repr.WF)
include hv hrepr

/-- The tag is read back. -/
theorem tagLoad_stored {named : List (Str × Value)} {unnamed : List Value} (hr : r.Reads root)
    (hkeys : named.map Prod.fst = v.fields.flattened.map Prod.fst)
    (hobject : root.subtree path = some (.object (repr.entries v.tag v.fields named unnamed))) :
    repr.tagLoad r path = .ok v.tag := by
  have hnodup := nodup_entries unnamed hv hrepr hkeys
  match repr, hv, hrepr with
  | .internal tag, hv, _ =>
    apply hr.loadStr_of
    rw [Value.subtree_childName hobject (hv.names.2 tag List.mem_cons_self)]
    exact child_object hnodup List.mem_cons_self
  | .external, _, _ =>
    rw [EnumRepr.tagLoad, hr.keysAt path _ hobject]
    rfl
  | .adjacent tag content, _, hrepr =>
    apply hr.loadStr_of
    rw [Value.subtree_childName hobject (hrepr.2 tag List.mem_cons_self)]
    apply child_object hnodup
    cases v.fields <;> exact List.mem_cons_self

omit hrepr in
theorem Recovers.payload (h : Recovers defs r root fuel) (hds : OfFields defs v.fields.types ds)
    (hdepth : depths ds ≤ fuel) (hpayload : root.subtree path = some
      (v.fields.tree (namedValues defs v.fields.flattened ds) (unnamedValues defs v.fields.types ds))) :
    v.fields.payloadLoad path (load defs r fuel) = .ok ds := by
  obtain ⟨tag, aliases, other, fields⟩ := v
  have htypes := hv.types
  have hstored := hv.stored
  have harity := hv.arity
  match fields, ds, hds with
  | .unit, [], _ => rfl
  | .unnamed [t], [d], ⟨hd, _⟩ =>
    have hdepth : d.depth ≤ fuel := Nat.le_trans (depth_le_depths List.mem_cons_self) hdepth
    rw [Fields.payloadLoad, h t d path (htypes t List.mem_cons_self) hd hdepth hpayload]
    rfl
  | .unnamed [], ds, hds => exact Except.mapM_forall₂ (h.unnamed hds hdepth harity hpayload htypes)
  | .unnamed (t :: t' :: ts), d :: d' :: ds, hds =>
    exact Except.mapM_forall₂ (h.unnamed hds hdepth harity hpayload htypes)
  | .named fields, ds, hds =>
    obtain ⟨hnodup, hreserved⟩ := hstored
    apply Except.mapM_forall₂ ((h.named hds hdepth hpayload _ (fun _ hx => hx) _ _).imp fun _ _ h => h.2)
    · have hkeys : (namedValues defs fields ds).map Prod.fst = fields.map Prod.fst := keys_namedValues hds
      change ((namedValues defs fields ds).map Prod.fst).Nodup
      rw [hkeys]
      exact hnodup
    · exact fun f hf => hreserved f.1 (List.mem_map_of_mem hf)
    · exact fun f hf => htypes f.2 (List.mem_map_of_mem hf)

theorem Recovers.arm (h : Recovers defs r root fuel) (hds : OfFields defs v.fields.types ds)
    (hdepth : depths ds ≤ fuel) (hobject : root.subtree path = some (.object (repr.entries v.tag v.fields
      (namedValues defs v.fields.flattened ds) (unnamedValues defs v.fields.types ds)))) :
    repr.loadArm v.fields v.tag path (load defs r fuel) = .ok ds := by
  have hflat : OfFields defs (v.fields.flattened.map Prod.snd) ds := by rwa [Fields.snd_flattened]
  have hkeys := keys_namedValues hflat
  have hnodup := nodup_entries (unnamedValues defs v.fields.types ds) hv hrepr hkeys
  match repr, hv, hrepr with
  | .internal tag, hv, _ =>
    have hnamed := h.named hflat hdepth hobject hnodup (fun _ hx => List.mem_cons_of_mem _ hx) ?_ ?_
    · exact Except.mapM_forall₂ (hnamed.imp fun _ _ h => h.2)
    · exact fun f hf => hv.stored.2 f.1 (List.mem_map_of_mem hf)
    · intro f hf
      apply hv.types
      rw [← Fields.snd_flattened]
      exact List.mem_map_of_mem hf
  | .external, hv, _ =>
    apply Recovers.payload hv h hds hdepth
    rw [Value.subtree_childName hobject hv.tag]
    exact child_object hnodup List.mem_cons_self
  | .adjacent tag content, hv, hrepr =>
    rcases eq_or_ne v.fields .unit with hunit | hunit
    · rw [hunit] at hds ⊢
      cases ds with
      | nil => rfl
      | cons d ds => exact hds.elim
    · apply Recovers.payload hv h hds hdepth
      rw [EnumRepr.entries_adjacent hunit] at hobject hnodup
      rw [Value.subtree_childName hobject (hrepr.2 content (List.mem_cons_of_mem _ List.mem_cons_self))]
      exact child_object hnodup (List.mem_cons_of_mem _ List.mem_cons_self)

end Variants

theorem foldlM_insert (load : Str → AdbResult Data) {es : List (Str × Data)}
    (h : ∀ e ∈ es, load e.1 = .ok e.2) (acc : List (Str × Data)) :
    (es.map Prod.fst).foldlM (fun entries name => do
      let d ← load name
      return Assoc.insert name d entries) acc = (.ok (Assoc.insertAll acc es) : AdbResult _) := by
  induction es generalizing acc with
  | nil => rfl
  | cons e es ih =>
    rw [List.map_cons, List.foldlM_cons, h e List.mem_cons_self]
    exact ih (fun e' he' => h e' (List.mem_cons_of_mem _ he')) _

/-- Every value is loaded from where its tree is, by induction on how deep it is nested. -/
theorem recovers (hdefs : ∀ n, (defs n).WF) (hr : r.Reads root) (fuel : Nat) : Recovers defs r root fuel := by
  induction fuel with
  | zero =>
    intro t d path _ _ hdepth
    exact absurd (depth_pos d) (Nat.not_lt.2 hdepth)
  | succ fuel ih =>
    intro t d path ht hd hdepth hpath
    match t, d, hd with
    | .scalar t, .scalar s, hd =>
      have hfrom : t.fromScalar s = .ok s := if_pos hd
      rw [load, hr.scalarAt_of hpath]
      change (do return Data.scalar (← t.fromScalar s) : AdbResult Data) = _
      rw [hfrom]
      rfl
    | .option t, .none, hd =>
      rw [load, hr.existsAt_of hpath, hr.scalarAt_of hpath]
      rfl
    | .option t, .some d, hd =>
      obtain ⟨hnever, ht⟩ := ht
      have hinner : load defs r fuel t path = .ok d := ih t d path ht hd (Nat.le_of_succ_le_succ hdepth) hpath
      have hnull : (toValue defs t d).asLeaf ≠ some .null := asLeaf_ne_null hnever hd
      rw [load, hr.existsAt_of hpath, hr.scalarAt_of hpath]
      change (match (toValue defs t d).asLeaf with
        | some .null => .ok .none
        | _ => do return .some (← load defs r fuel t path) : AdbResult Data) = _
      split
      · exact absurd ‹_› hnull
      · rw [hinner]
        rfl
    | .vec t, .vec items, ⟨hlen, hd⟩ =>
      have hmapM := Except.mapM_range fun i d h =>
        ih.items hd (Nat.le_of_succ_le_succ hdepth) hlen hpath ht (i := i) (d := d) h
      have hcount : r.lenAt path = .ok items.length := by
        rw [hr.lenAt path _ hpath, itemValues_eq, List.length_map]
      rw [load, hcount, Except.ok_bind, hmapM]
      rfl
    | .map t, .map es, ⟨hsorted, hd⟩ =>
      have hentries : ∀ e ∈ es, load defs r fuel t (path.childName e.1) = .ok e.2 :=
        fun e he => ih.entry hd hsorted (Nat.le_of_succ_le_succ hdepth) hpath ht he
      have hfoldlM := foldlM_insert (fun name => load defs r fuel t (path.childName name)) hentries []
      rw [load, hr.keysAt path _ hpath, keys_entryValues, Except.ok_bind, hfoldlM, Assoc.insertAll_sorted hsorted]
      rfl
    | .derived n, .struct ds, hd =>
      have hn := hdefs n
      rw [Of] at hd
      rw [toValue] at hpath
      rw [load]
      cases hdef : defs n with
      | enum _ _ _ => rw [hdef] at hd; exact hd.elim
      | struct fs =>
        rw [hdef] at hd hn hpath
        obtain ⟨⟨hnodup, hreserved⟩, hwf⟩ := hn
        have hkeys : (fs.map Field.entry).map Prod.fst = fs.map Field.name := by rw [List.map_map]; rfl
        have htypes : (fs.map Field.entry).map Prod.snd = fs.map Field.ty := by rw [List.map_map]; rfl
        change OfFields defs (fs.map Field.ty) ds at hd
        rw [← htypes] at hd
        rw [← hkeys, ← keys_namedValues hd] at hnodup
        have hnamed := ih.named hd (Nat.le_of_succ_le_succ hdepth) hpath hnodup (fun _ hx => hx) ?_ ?_
        · rw [List.forall₂_map_left_iff] at hnamed
          have hfields : List.Forall₂ (fun f d => f.load r path (load defs r fuel f.ty) = .ok d) fs ds := by
            apply hnamed.imp
            intro f d h
            rw [Field.load_of_present hr h.1]
            exact h.2
          change (do return Data.struct (← fs.mapM fun f => f.load r path (load defs r fuel f.ty)) : AdbResult Data) = _
          rw [Except.mapM_forall₂ hfields]
          rfl
        · intro f hf
          obtain ⟨g, hg, rfl⟩ := List.mem_map.1 hf
          exact hreserved g.name (List.mem_map_of_mem hg)
        · intro f hf
          obtain ⟨g, hg, rfl⟩ := List.mem_map.1 hf
          exact hwf g hg
    | .derived n, .variant index ds, hd =>
      have hn := hdefs n
      rw [Of] at hd
      rw [toValue] at hpath
      rw [load]
      cases hdef : defs n with
      | struct _ => rw [hdef] at hd; exact hd.elim
      | enum repr expecting variants =>
        rw [hdef] at hd hn hpath
        cases hv : variants[index]? with
        | none => simp only [hv] at hd
        | some v =>
          simp only [hv] at hd hpath ⊢
          have hwf : v.WF repr := hn.2.1 v (List.mem_of_getElem? hv)
          have hflat : OfFields defs (v.fields.flattened.map Prod.snd) ds := by rwa [Fields.snd_flattened]
          have htag := tagLoad_stored hwf hn.1 hr (keys_namedValues hflat) hpath
          have harm := ih.arm hwf hn.1 hd (Nat.le_of_succ_le_succ hdepth) hpath
          rw [htag, Except.ok_bind, matchTag_stored hn hv]
          cases hother : v.other with
          | true =>
            rw [hwf.other hother] at hd
            cases ds with
            | nil => simp only [hother, if_true]; rfl
            | cons d ds => exact hd.elim
          | false =>
            simp only [hother, harm]
            rfl

end Recover

/-! ## The round trip -/

section RoundTrip

open Codec

variable [LawfulExternals] {defs : Nat → Definition} {t : DataType} {d : Data}

omit [LawfulExternals] in
/-- The length of a byte string wraps: this many bytes are stored as none, with others behind them. -/
theorem encode_bytes_wrap {b : Bytes} (hb : b.length = 2 ^ 32) :
    (Scalar.bytes b).encode = (Scalar.bytes []).encode ++ b := by
  have hwrap : putU32 (2 ^ 32) = putU32 0 := by decide
  rw [Scalar.encode, Scalar.encode, putBytes, hb, hwrap, Scalar.tagged, Scalar.tagged, putBytes, List.length_nil,
    List.append_nil, List.append_assoc]

omit [LawfulExternals] in
theorem encode_leaf (s : Scalar) :
    encode (.leaf s) = Bytes.be 1 formatVersion ++ putU32 5 ++ Bytes.be 1 leafTag ++ s.encode := rfl

omit [Externals] [LawfulExternals] in
theorem new_append {blob : Bytes} {root : Nat} (h : ArchivedValue.new blob = .ok ⟨blob, root⟩) (post : Bytes) :
    ArchivedValue.new (blob ++ post) = .ok ⟨blob ++ post, root⟩ := by
  cases blob with
  | nil => cases h
  | cons version rest =>
    rw [ArchivedValue.new] at h
    rw [List.cons_append, ArchivedValue.new]
    split at h
    · cases h
    · obtain ⟨root', hroot, h⟩ := Except.bind_eq_ok.1 h
      cases h
      rw [if_neg ‹_›, ← List.cons_append, readU32_mono hroot post]
      rfl

theorem load_bytes_wrap {b : Bytes} (hb : b.length = 2 ^ 32) :
    ∃ r, ArchivedReader.new (encodeData defs (.scalar .bytes) (.scalar (.bytes b))) 0 = .ok r ∧
      ∀ fuel, load defs r.toTreeReader (fuel + 1) (.scalar .bytes) .root = .ok (.scalar (.bytes [])) := by
  have hempty : (Scalar.bytes []).encode.length < 2 ^ 32 := by
    rw [Scalar.encode, Scalar.length_tagged, length_putBytes]
    decide
  have hsize : (encode (.leaf (.bytes []))).length < 2 ^ 32 := by
    rw [encode_leaf, Scalar.encode]
    decide
  have hblob : encodeData defs (.scalar .bytes) (.scalar (.bytes b)) = encode (.leaf (.bytes [])) ++ b := by
    have hleaf : encodeData defs (.scalar .bytes) (.scalar (.bytes b)) = encode (.leaf (.bytes b)) := rfl
    rw [hleaf, encode_leaf, encode_leaf, encode_bytes_wrap hb, List.append_assoc _ _ b]
  obtain ⟨root, hnew, hstored⟩ := stored_encode hsize
  have hnew := new_append hnew b
  obtain ⟨body, reader, hbody, hdecode, -⟩ := (hstored.mono b).decode_leaf hempty
  rw [← hblob] at hnew hbody
  have htag : readU8 (encodeData defs (.scalar .bytes) (.scalar (.bytes b))) root = .ok leafTag := by
    rw [hblob]
    exact (hstored.mono b).tag
  refine ⟨⟨encodeData defs (.scalar .bytes) (.scalar (.bytes b)), 0, root⟩, ?_, ?_⟩
  · simp [ArchivedReader.new, ArchivedReader.payload, hnew]
  · intro fuel
    have hscalar : ArchivedReader.scalarAt ⟨encodeData defs (.scalar .bytes) (.scalar (.bytes b)), 0, root⟩ .root =
        .ok (some (.bytes [])) := by
      simp [ArchivedReader.scalarAt, ArchivedReader.readAt, ArchivedReader.find, ArchivedReader.view,
        ArchivedReader.payload, ArchivedValue.root, ArchivedNode.navigate, VPath.root, ArchivedNode.descend,
        ArchivedNode.scalarIfLeaf, htag, hbody, hdecode]
    rw [load]
    change (do
      match ← ArchivedReader.scalarAt ⟨encodeData defs (.scalar .bytes) (.scalar (.bytes b)), 0, root⟩ .root with
      | some s => return Data.scalar (← ScalarType.bytes.fromScalar s)
      | none => throw (.pathNotFound VPath.root) : AdbResult Data) = _
    rw [hscalar]
    rfl

end RoundTrip

end Typed

/-- A struct of a list and an enum with its tag beside its payload; the enum has a catch-all. -/
def sampleDefs (n : Nat) : @Definition Reference.externals :=
  letI := Reference.externals
  match n with
  | 0 => .struct [⟨⟨"b"⟩, [], none, .vec (.option (.scalar .i32))⟩, ⟨⟨"a"⟩, [⟨"c"⟩], none, .derived 1⟩]
  | _ => .enum (.internal ⟨"t"⟩) none
      [⟨⟨"V"⟩, [⟨"W"⟩], false, .unnamed [.scalar .bool]⟩, ⟨⟨"O"⟩, [], true, .unit⟩]

theorem sampleDefs_wf : letI := Reference.externals
    ∀ n, (sampleDefs n).WF := by
  let _ := Reference.externals
  intro n
  match n with
  | 0 =>
    refine ⟨⟨by decide, by decide⟩, ?_⟩
    intro f hf
    rcases List.mem_cons.1 hf with rfl | hf
    · exact ⟨trivial, trivial⟩
    · cases List.mem_singleton.1 hf
      exact trivial
  | _ + 1 =>
    refine ⟨trivial, ?_, ?_⟩
    · intro v hv
      rcases List.mem_cons.1 hv with rfl | hv
      · refine ⟨by decide, nofun, by decide, ?_, by decide, by decide⟩
        intro t ht
        cases List.mem_singleton.1 ht
        exact trivial
      · cases List.mem_singleton.1 hv
        exact ⟨by decide, fun _ => rfl, by decide, nofun, by decide, by decide⟩
    · rw [List.pairwise_pair]
      simp [Variant.Claims]

/-- The sample with a list of an absent and a present number. -/
def sampleData : @Data Reference.externals :=
  letI := Reference.externals
  .struct [.vec [.none, .some (.scalar (.i32 5))], .variant 0 [.scalar (.bool true)]]

end ArborDb
