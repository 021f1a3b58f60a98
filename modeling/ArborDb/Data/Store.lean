import ArborDb.Access.Writer
import ArborDb.Data.Definition

/-!
# Storing typed data

What a value does to a writer (`store`), and the tree it stands for (`toValue`). In a slot of a
value in memory, storing puts the tree there.
-/

namespace ArborDb

variable [Externals]

/-! ## The calls of a store -/

/-- The calls for a payload with a vnode of its own. -/
def Fields.payloadStore (fields : Fields) (path : VPath) (named newtype unnamed : VPath → List WriterOp) :
    List WriterOp :=
  match fields with
  | .unit => []
  | .unnamed [_] => newtype path
  | .unnamed _ => .ensureContainer path true :: unnamed path
  | .named _ => .ensureContainer path false :: named path

namespace EnumRepr

/-- Whether the tag is among the fields of the payload. -/
def isInternal : EnumRepr → Bool
  | .internal _ => true
  | _ => false

/-- The call that writes the tag, where it is apart from the payload. -/
def tagStore (repr : EnumRepr) (variantTag : Str) (path : VPath) : List WriterOp :=
  match repr with
  | .external => []
  | .adjacent tag _ | .internal tag => [.putScalar (path.childName tag) (.str variantTag)]

/-- The calls for a variant without payload. -/
def unitStore (repr : EnumRepr) (variantTag : Str) (path : VPath) : List WriterOp :=
  match repr with
  | .external => [.putScalar (path.childName variantTag) .null]
  | _ => repr.tagStore variantTag path

/-- The name under which a payload that is not flattened is written. -/
def payloadName (repr : EnumRepr) (variantTag : Str) : Str :=
  match repr with
  | .adjacent _ content => content
  | _ => variantTag

/-- The calls for one variant, given those that write its payload at a path: by name, as the one
element of a newtype, or by position. -/
def storeArm (repr : EnumRepr) (v : Variant) (path : VPath) (named newtype unnamed : VPath → List WriterOp) :
    List WriterOp :=
  match repr, v.fields with
  | .internal _, _ => repr.tagStore v.tag path ++ named path
  | _, .unit => repr.unitStore v.tag path
  | _, fields =>
    repr.tagStore v.tag path ++
      fields.payloadStore (path.childName (repr.payloadName v.tag)) named newtype unnamed

end EnumRepr

section Store

variable (defs : Nat → Definition)

mutual

/-- The calls that write a value at a path. -/
def store : DataType → Data → VPath → List WriterOp
  | .scalar _, .scalar s, path => [.putScalar path s]
  | .option _, .none, path => [.putScalar path .null]
  | .option t, .some d, path => store t d path
  | .vec t, .vec items, path => .ensureContainer path true :: storeItems t items 0 path
  | .map t, .map entries, path => .ensureContainer path false :: storeEntries t entries path
  | .derived n, .struct ds, path =>
    match defs n with
    | .struct fs => .ensureContainer path false :: storeNamed (fs.map Field.entry) ds path
    | .enum _ _ _ => []
  | .derived n, .variant index ds, path =>
    match defs n with
    | .struct _ => []
    | .enum repr _ variants =>
      match variants[index]? with
      | none => []
      | some v =>
        [.remove path, .ensureContainer path false] ++
          repr.storeArm v path (fun p => storeNamed v.fields.flattened ds p)
            (fun p => storeNewtype v.fields.types ds p) (fun p => storeUnnamed v.fields.types ds 0 p)
  | _, _, _ => []

def storeItems (t : DataType) : List Data → Nat → VPath → List WriterOp
  | [], _, _ => []
  | d :: ds, i, path => store t d (path.childIndex (.ofNat i)) ++ storeItems t ds (i + 1) path

def storeEntries (t : DataType) : List (Str × Data) → VPath → List WriterOp
  | [], _ => []
  | (name, d) :: es, path => store t d (path.childName name) ++ storeEntries t es path

def storeNamed : List (Str × DataType) → List Data → VPath → List WriterOp
  | (name, t) :: fs, d :: ds, path => store t d (path.childName name) ++ storeNamed fs ds path
  | _, _, _ => []

def storeUnnamed : List DataType → List Data → Nat → VPath → List WriterOp
  | t :: ts, d :: ds, i, path => store t d (path.childIndex (.ofNat i)) ++ storeUnnamed ts ds (i + 1) path
  | _, _, _, _ => []

def storeNewtype : List DataType → List Data → VPath → List WriterOp
  | [t], [d], path => store t d path
  | _, _, _ => []

end

end Store

/-! ## The tree of a value -/

/-- An object with some fields, in name order. -/
def Value.object (fields : List (Str × Value)) : Value := .node (Assoc.insertAll [] fields)

/-- The tree of a payload with a vnode of its own. -/
def Fields.tree (fields : Fields) (named : List (Str × Value)) (unnamed : List Value) : Value :=
  match fields, unnamed with
  | .unit, _ => .leaf .null
  | .unnamed [_], [x] => x
  | .unnamed _, xs => .list xs
  | .named _, _ => .object named

/-- The fields of the object that a variant is stored as. -/
def EnumRepr.entries (repr : EnumRepr) (variantTag : Str) (fields : Fields) (named : List (Str × Value))
    (unnamed : List Value) : List (Str × Value) :=
  match repr, fields with
  | .internal tag, _ => (tag, .leaf (.str variantTag)) :: named
  | .external, _ => [(variantTag, fields.tree named unnamed)]
  | .adjacent tag _, .unit => [(tag, .leaf (.str variantTag))]
  | .adjacent tag content, _ => [(tag, .leaf (.str variantTag)), (content, fields.tree named unnamed)]

section ToValue

variable (defs : Nat → Definition)

mutual

/-- The tree a value stands for. -/
def toValue : DataType → Data → Value
  | .scalar _, .scalar s => .leaf s
  | .option _, .none => .leaf .null
  | .option t, .some d => toValue t d
  | .vec t, .vec items => .list (itemValues t items)
  | .map t, .map entries => .node (entryValues t entries)
  | .derived n, .struct ds =>
    match defs n with
    | .struct fs => .object (namedValues (fs.map Field.entry) ds)
    | .enum _ _ _ => .default
  | .derived n, .variant index ds =>
    match defs n with
    | .struct _ => .default
    | .enum repr _ variants =>
      match variants[index]? with
      | none => .default
      | some v =>
        .object (repr.entries v.tag v.fields (namedValues v.fields.flattened ds) (unnamedValues v.fields.types ds))
  | _, _ => .default

def itemValues (t : DataType) : List Data → List Value
  | [] => []
  | d :: ds => toValue t d :: itemValues t ds

def entryValues (t : DataType) : List (Str × Data) → List (Str × Value)
  | [] => []
  | (name, d) :: es => (name, toValue t d) :: entryValues t es

def namedValues : List (Str × DataType) → List Data → List (Str × Value)
  | (name, t) :: fs, d :: ds => (name, toValue t d) :: namedValues fs ds
  | _, _ => []

def unnamedValues : List DataType → List Data → List Value
  | t :: ts, d :: ds => toValue t d :: unnamedValues ts ds
  | _, _ => []

end

end ToValue

/-! ## Storing in a slot -/

open Value (Slot setIn setIn_ensured setIn_child slot_child)

/-- A place to store a value at: a slot, or the root of a new builder. -/
def Vacant (v : Value) (path : VPath) : Prop := Slot v path.segments ∨ path = .root ∧ v = .node []

/-- The calls put a tree in every place that is vacant. -/
def Puts (path : VPath) (x : Value) (ops : List WriterOp) : Prop :=
  ∀ v : Value, Vacant v path → setIn v path.segments x = some (v.applyAll ops)

/-- What calls that fill a container do: they take it from `c` to `x`. -/
def Fills (path : VPath) (c x : Value) (ops : List WriterOp) : Prop :=
  ∀ v₀ v : Value, setIn v₀ path.segments c = some v → setIn v₀ path.segments x = some (v.applyAll ops)

section Slots

variable {v x y c : Value} {path : VPath} {seg : Segment} {ops rest : List WriterOp}

theorem Vacant.setIn_eq (h : Vacant v path) : setIn v path.segments x = some (v.setValue path x).1 := by
  rcases h with hslot | ⟨rfl, rfl⟩
  · exact Value.setIn_of_fits hslot.2
  · rfl

theorem Vacant.ensure {isList : Bool} (h : Vacant v path) :
    setIn v path.segments (Value.emptyContainer isList) = some (v.apply (.ensureContainer path isList)) := by
  rcases h with hslot | ⟨rfl, rfl⟩
  · exact setIn_ensured hslot
  · cases isList <;> rfl

/-- Clearing the place first changes nothing. -/
theorem Vacant.clear (h : Vacant v path) :
    setIn v path.segments (.node []) = some (v.applyAll [.remove path, .ensureContainer path false]) := by
  rcases h with hslot | ⟨rfl, rfl⟩
  · change _ = some ((v.removeValue path).1.apply (.ensureContainer path false))
    rw [Value.removeValue_of_absent hslot.1]
    have hempty : Value.emptyContainer false = .node [] := rfl
    rw [← hempty]
    exact setIn_ensured hslot
  · rfl

theorem Puts.scalar {s : Scalar} : Puts path (.leaf s) [.putScalar path s] :=
  fun _ hvacant => hvacant.setIn_eq

theorem Fills.nil : Fills path c c [] := fun _ _ h => h

theorem Fills.append (h : Fills path c x ops) (hrest : Fills path x y rest) : Fills path c y (ops ++ rest) := by
  intro v₀ v hv
  rw [Value.applyAll_append]
  exact hrest v₀ _ (h v₀ v hv)

/-- Calls that make a container and fill it. -/
theorem Puts.container (isList : Bool) (h : Fills path (Value.emptyContainer isList) x ops) :
    Puts path x (.ensureContainer path isList :: ops) :=
  fun v hvacant => h v _ hvacant.ensure

theorem Puts.reset (h : Fills path (.node []) x ops) :
    Puts path x ([.remove path, .ensureContainer path false] ++ ops) := by
  intro v hvacant
  rw [Value.applyAll_append]
  exact h v _ hvacant.clear

/-- Calls that fill a slot of a container. -/
theorem Puts.child {a : VPath} (h : Puts a x ops) (ha : a.segments = path.segments ++ [seg])
    (hroom : c.room seg = true) (hnone : c.child seg = none) : Fills path c (c.putChild seg x) ops := by
  intro v₀ v hv
  rw [← setIn_child hv hroom, ← ha]
  apply h
  rw [Vacant, ha]
  exact .inl (slot_child hv hroom hnone)

theorem Puts.name {name : Str} {acc : List (Str × Value)} (h : Puts (path.childName name) x ops)
    (hname : ¬ VPath.Reserved name) (hnone : Assoc.find name acc = none) :
    Fills path (.node acc) (.node (Assoc.insert name x acc)) ops :=
  h.child (VPath.segments_childName hname) rfl hnone

theorem Puts.index {i : Nat} {done : List Value} (h : Puts (path.childIndex (.ofNat i)) x ops)
    (hi : i < 2 ^ 64) (hdone : done.length = i) : Fills path (.list done) (.list (done ++ [x])) ops := by
  have hnat : (UInt64.ofNat i).toNat = i := UInt64.toNat_ofNat_of_lt' hi
  have hput : (Value.list done).putChild (.index (.ofNat i)) x = .list (done ++ [x]) := by
    rw [Value.putChild, if_neg (by rw [hnat]; omega)]
  have hroom : (Value.list done).room (.index (.ofNat i)) = true := decide_eq_true (by rw [hnat]; omega)
  have hnone : (Value.list done).child (.index (.ofNat i)) = none :=
    List.getElem?_eq_none (by rw [hnat]; omega)
  rw [← hput]
  exact h.child rfl hroom hnone

end Slots

section Arm

variable {repr : EnumRepr} {v : Variant} {fields : Fields} {path : VPath} {fs : List (Str × Value)}
  {xs : List Value} {named newtype unnamed : VPath → List WriterOp}

/-- A payload with a vnode of its own. -/
theorem puts_payloadStore (hunit : fields ≠ .unit)
    (hnamed : Fills path (.node []) (.object fs) (named path))
    (hnewtype : ∀ t, fields = .unnamed [t] → ∃ x, xs = [x] ∧ Puts path x (newtype path))
    (hunnamed : Fills path (.list []) (.list xs) (unnamed path)) :
    Puts path (fields.tree fs xs) (fields.payloadStore path named newtype unnamed) := by
  match fields, hunit with
  | .unnamed [t], _ =>
    obtain ⟨x, rfl, hx⟩ := hnewtype t rfl
    exact hx
  | .unnamed [], _ => exact Puts.container true hunnamed
  | .unnamed (_ :: _ :: _), _ => exact Puts.container true hunnamed
  | .named _, _ => exact Puts.container false hnamed

theorem EnumRepr.storeArm_unit (hunit : v.fields = .unit) (hrepr : repr.isInternal = false) :
    repr.storeArm v path named newtype unnamed = repr.unitStore v.tag path := by
  obtain ⟨tag, aliases, other, fields⟩ := v
  change fields = .unit at hunit
  subst hunit
  cases repr with
  | internal tag => cases hrepr
  | external => rfl
  | adjacent tag content => rfl

theorem EnumRepr.storeArm_external (hunit : v.fields ≠ .unit) :
    EnumRepr.external.storeArm v path named newtype unnamed =
      v.fields.payloadStore (path.childName v.tag) named newtype unnamed := by
  obtain ⟨tag, aliases, other, fields⟩ := v
  cases fields with
  | unit => exact absurd rfl hunit
  | unnamed types => rfl
  | named fields => rfl

theorem EnumRepr.storeArm_adjacent {tag content : Str} (hunit : v.fields ≠ .unit) :
    (EnumRepr.adjacent tag content).storeArm v path named newtype unnamed =
      [.putScalar (path.childName tag) (.str v.tag)] ++
        v.fields.payloadStore (path.childName content) named newtype unnamed := by
  obtain ⟨tag', aliases, other, fields⟩ := v
  cases fields with
  | unit => exact absurd rfl hunit
  | unnamed types => rfl
  | named fields => rfl

theorem EnumRepr.entries_adjacent {tag content variantTag : Str} (hunit : fields ≠ .unit) :
    (EnumRepr.adjacent tag content).entries variantTag fields fs xs =
      [(tag, .leaf (.str variantTag)), (content, fields.tree fs xs)] := by
  cases fields with
  | unit => exact absurd rfl hunit
  | unnamed types => rfl
  | named fields => rfl

/-- One variant, written into an empty object. -/
theorem fills_storeArm (hv : v.WF repr) (hrepr : repr.WF)
    (hnamed : ∀ path acc, (∀ f ∈ v.fields.flattened, Assoc.find f.1 acc = none) →
      Fills path (.node acc) (.node (Assoc.insertAll acc fs)) (named path))
    (hnewtype : ∀ t, v.fields = .unnamed [t] → ∃ x, xs = [x] ∧ ∀ path, Puts path x (newtype path))
    (hunnamed : ∀ path, Fills path (.list []) (.list xs) (unnamed path)) :
    Fills path (.node []) (.object (repr.entries v.tag v.fields fs xs))
      (repr.storeArm v path named newtype unnamed) := by
  have hpayload : ∀ path, v.fields ≠ .unit →
      Puts path (v.fields.tree fs xs) (v.fields.payloadStore path named newtype unnamed) := by
    intro path hunit
    apply puts_payloadStore hunit (hnamed path [] fun f _ => rfl) _ (hunnamed path)
    intro t ht
    obtain ⟨x, hx, hputs⟩ := hnewtype t ht
    exact ⟨x, hx, hputs path⟩
  have hstr : ∀ {path : VPath} {s : Str}, Puts path (.leaf (.str s)) [.putScalar path (.str s)] := Puts.scalar
  match repr, hv, hrepr with
  | .internal tag, hv, hrepr =>
    obtain ⟨hnodup, hreserved⟩ := hv.names
    rw [List.nodup_cons] at hnodup
    apply (hstr.name (hreserved tag List.mem_cons_self) rfl).append
    apply hnamed
    intro f hf
    have hne : f.1 ≠ tag := fun heq => hnodup.1 (heq ▸ List.mem_map_of_mem hf)
    rw [Assoc.find_insert, if_neg hne]
    rfl
  | .external, hv, hrepr =>
    rcases eq_or_ne v.fields .unit with hunit | hunit
    · rw [EnumRepr.storeArm_unit hunit rfl, hunit]
      exact Puts.scalar.name hv.tag rfl
    · rw [EnumRepr.storeArm_external hunit]
      exact (hpayload _ hunit).name hv.tag rfl
  | .adjacent tag content, hv, hrepr =>
    obtain ⟨hnodup, hreserved⟩ := hrepr
    have hcontent : ¬ VPath.Reserved content := hreserved content (List.mem_cons_of_mem _ List.mem_cons_self)
    have htag : Fills path (.node []) (.node [(tag, .leaf (.str v.tag))])
        [.putScalar (path.childName tag) (.str v.tag)] :=
      hstr.name (hreserved tag List.mem_cons_self) rfl
    rcases eq_or_ne v.fields .unit with hunit | hunit
    · rw [EnumRepr.storeArm_unit hunit rfl, hunit]
      exact htag
    · rw [EnumRepr.storeArm_adjacent hunit, EnumRepr.entries_adjacent hunit]
      apply htag.append
      apply (hpayload _ hunit).name hcontent
      rw [Assoc.find_eq_none]
      intro b hb
      rw [List.mem_singleton.1 hb]
      exact fun heq => (List.nodup_cons.1 hnodup).1 (heq ▸ List.mem_cons_self)

end Arm

/-! ## What a store builds -/

section Build

variable {defs : Nat → Definition}

omit [Externals] in
theorem Fields.snd_flattened (fields : Fields) : fields.flattened.map Prod.snd = fields.types := by
  cases fields with
  | unit => rfl
  | unnamed types =>
    rw [flattened, List.map_map]
    exact List.zipIdx_map_fst 0 types
  | named fields => rfl

theorem keys_entryValues {t : DataType} {es : List (Str × Data)} :
    (entryValues defs t es).map Prod.fst = es.map Prod.fst := by
  induction es with
  | nil => rfl
  | cons e es ih => exact congrArg (e.1 :: ·) ih

theorem sorted_entryValues {t : DataType} {es : List (Str × Data)} (h : Assoc.Sorted es) :
    Assoc.Sorted (entryValues defs t es) := by
  rw [Assoc.Sorted, keys_entryValues]
  exact h

mutual

/-- Storing a value in a slot puts its tree there. -/
theorem puts_store (hdefs : ∀ n, (defs n).WF) : ∀ (t : DataType) (d : Data) (path : VPath), Of defs t d →
    Puts path (toValue defs t d) (store defs t d path)
  | .scalar t, .scalar s, path, h => Puts.scalar
  | .option _, .none, path, h => Puts.scalar
  | .option t, .some d, path, h => puts_store hdefs t d path h
  | .vec t, .vec items, path, ⟨hlen, h⟩ =>
    Puts.container true (fills_storeItems hdefs t items [] 0 path h rfl (by rwa [Nat.zero_add]))
  | .map t, .map entries, path, ⟨hsorted, h⟩ => by
    have hnodup : (entries.map Prod.fst).Nodup := hsorted.imp ne_of_lt
    have hfills := fills_storeEntries hdefs t entries [] path h hnodup fun e _ => rfl
    rw [Assoc.insertAll_sorted (sorted_entryValues hsorted)] at hfills
    exact Puts.container false hfills
  | .derived n, .struct ds, path, h => by
    have hn := hdefs n
    rw [Of] at h
    rw [toValue, store]
    match hdef : defs n with
    | .enum _ _ _ => rw [hdef] at h; exact h.elim
    | .struct fs =>
      rw [hdef] at h hn
      obtain ⟨hnames, -⟩ := hn
      have hkeys : (fs.map Field.entry).map Prod.fst = fs.map Field.name := by rw [List.map_map]; rfl
      have htypes : (fs.map Field.entry).map Prod.snd = fs.map Field.ty := by rw [List.map_map]; rfl
      apply Puts.container false
      exact fills_storeNamed hdefs (fs.map Field.entry) ds [] path (htypes ▸ h) (hkeys ▸ hnames) fun f _ => rfl
  | .derived n, .variant index ds, path, h => by
    have hn := hdefs n
    rw [Of] at h
    rw [toValue, store]
    match hdef : defs n with
    | .struct _ => rw [hdef] at h; exact h.elim
    | .enum repr _ variants =>
      rw [hdef] at h hn
      obtain ⟨hrepr, hvariants, -⟩ := hn
      match hv : variants[index]? with
      | none => simp only [hv] at h
      | some v =>
        simp only [hv] at h ⊢
        have hwf := hvariants v (List.mem_of_getElem? hv)
        have hflat : OfFields defs (v.fields.flattened.map Prod.snd) ds := by rwa [Fields.snd_flattened]
        apply Puts.reset
        apply fills_storeArm hwf hrepr
        · intro p acc hacc
          exact fills_storeNamed hdefs v.fields.flattened ds acc p hflat hwf.stored hacc
        · intro t ht
          have htypes : v.fields.types = [t] := by rw [ht]; rfl
          rw [htypes] at h ⊢
          exact puts_storeNewtype hdefs t ds h
        · intro p
          exact fills_storeUnnamed hdefs v.fields.types ds [] 0 p h rfl (by rw [Nat.zero_add]; exact hwf.arity)

/-- Storing items behind those already there. -/
theorem fills_storeItems (hdefs : ∀ n, (defs n).WF) (t : DataType) : ∀ (ds : List Data) (done : List Value)
    (i : Nat) (path : VPath), OfItems defs t ds → done.length = i → i + ds.length < 2 ^ 64 →
      Fills path (.list done) (.list (done ++ itemValues defs t ds)) (storeItems defs t ds i path)
  | [], done, i, path, h, hi, hlen => by
    rw [itemValues, List.append_nil]
    exact Fills.nil
  | d :: ds, done, i, path, ⟨hd, hds⟩, hi, hlen => by
    rw [List.length_cons] at hlen
    apply ((puts_store hdefs t d _ hd).index (by omega) hi).append
    have hrest := fills_storeItems hdefs t ds (done ++ [toValue defs t d]) (i + 1) path hds
      (by rw [List.length_append, hi]; rfl) (by omega)
    rwa [List.append_assoc] at hrest

theorem fills_storeEntries (hdefs : ∀ n, (defs n).WF) (t : DataType) : ∀ (es : List (Str × Data))
    (acc : List (Str × Value)) (path : VPath), OfEntries defs t es → (es.map Prod.fst).Nodup →
      (∀ e ∈ es, Assoc.find e.1 acc = none) →
        Fills path (.node acc) (.node (Assoc.insertAll acc (entryValues defs t es))) (storeEntries defs t es path)
  | [], acc, path, h, hnodup, hacc => Fills.nil
  | (name, d) :: es, acc, path, ⟨hname, hd, hes⟩, hnodup, hacc => by
    obtain ⟨hhead, hnodup⟩ := List.nodup_cons.1 hnodup
    apply ((puts_store hdefs t d _ hd).name hname (hacc (name, d) List.mem_cons_self)).append
    apply fills_storeEntries hdefs t es _ path hes hnodup
    intro e he
    have hne : e.1 ≠ name := fun heq => hhead (List.mem_map.2 ⟨e, he, heq⟩)
    rw [Assoc.find_insert, if_neg hne]
    exact hacc e (List.mem_cons_of_mem _ he)

theorem fills_storeNamed (hdefs : ∀ n, (defs n).WF) : ∀ (fs : List (Str × DataType)) (ds : List Data)
    (acc : List (Str × Value)) (path : VPath), OfFields defs (fs.map Prod.snd) ds →
      StoredNames (fs.map Prod.fst) → (∀ f ∈ fs, Assoc.find f.1 acc = none) →
        Fills path (.node acc) (.node (Assoc.insertAll acc (namedValues defs fs ds))) (storeNamed defs fs ds path)
  | [], [], acc, path, h, hnames, hacc => Fills.nil
  | (name, t) :: fs, d :: ds, acc, path, ⟨hd, hds⟩, hnames, hacc => by
    obtain ⟨hnodup, hreserved⟩ := hnames
    obtain ⟨hhead, hnodup⟩ := List.nodup_cons.1 hnodup
    have hname : ¬ VPath.Reserved name := hreserved name List.mem_cons_self
    apply ((puts_store hdefs t d _ hd).name hname (hacc (name, t) List.mem_cons_self)).append
    apply fills_storeNamed hdefs fs ds _ path hds ⟨hnodup, fun n hn => hreserved n (List.mem_cons_of_mem _ hn)⟩
    intro f hf
    have hne : f.1 ≠ name := fun heq => hhead (List.mem_map.2 ⟨f, hf, heq⟩)
    rw [Assoc.find_insert, if_neg hne]
    exact hacc f (List.mem_cons_of_mem _ hf)

theorem fills_storeUnnamed (hdefs : ∀ n, (defs n).WF) : ∀ (ts : List DataType) (ds : List Data)
    (done : List Value) (i : Nat) (path : VPath), OfFields defs ts ds → done.length = i →
      i + ts.length < 2 ^ 64 →
        Fills path (.list done) (.list (done ++ unnamedValues defs ts ds)) (storeUnnamed defs ts ds i path)
  | [], [], done, i, path, h, hi, hlen => by
    change Fills path (.list done) (.list (done ++ [])) []
    rw [List.append_nil]
    exact Fills.nil
  | t :: ts, d :: ds, done, i, path, ⟨hd, hds⟩, hi, hlen => by
    rw [List.length_cons] at hlen
    apply ((puts_store hdefs t d _ hd).index (by omega) hi).append
    have hrest := fills_storeUnnamed hdefs ts ds (done ++ [toValue defs t d]) (i + 1) path hds
      (by rw [List.length_append, hi]; rfl) (by omega)
    rwa [List.append_assoc] at hrest

theorem puts_storeNewtype (hdefs : ∀ n, (defs n).WF) : ∀ (t : DataType) (ds : List Data), OfFields defs [t] ds →
    ∃ x, unnamedValues defs [t] ds = [x] ∧ ∀ path, Puts path x (storeNewtype defs [t] ds path)
  | t, [d], ⟨hd, _⟩ => ⟨toValue defs t d, rfl, fun path => puts_store hdefs t d path hd⟩

end

end Build

end ArborDb
