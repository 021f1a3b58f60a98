import ArborDb.Codec.Stored
import ArborDb.Lib.Emits
import ArborDb.Serde.Serializer

/-!
# What a serialised blob stores

A value that is handed to the serialiser denotes a tree of vnodes (`denote`): a struct is an object, an
enum is a name or an object of one field. The blob that the serialiser writes stores that tree
(`stored_toBlob`), in whatever order its vnodes are written, and a dynamic value is written exactly as the
value codec writes it (`toBlob_valueData`).
-/

namespace ArborDb.Serde

open Codec

variable [Externals] [Printers]

/-! ## The tree of a value -/

/-- The field name of a key, where there is one. -/
def Key.name (k : Key) : Str :=
  match k.text with
  | .ok name => name
  | .error _ => ⟨""⟩

mutual

/-- The tree that a value is stored as. -/
def denote : Data → Value
  | .prim p => .leaf p.scalar
  | .none => .leaf .null
  | .some d => denote d
  | .seq items => .list (denoteItems items)
  | .tuple items => .list (denoteItems items)
  | .map entries => .node (Assoc.insertAll [] (denoteEntries entries))
  | .unitStruct => .leaf .null
  | .newtypeStruct d => denote d
  | .struct fields => .node (Assoc.insertAll [] (denoteFields fields))
  | .unitVariant variant => .leaf (.str variant)
  | .newtypeVariant variant d => .node [(variant, denote d)]
  | .tupleVariant variant items => .node [(variant, .list (denoteItems items))]
  | .structVariant variant fields => .node [(variant, .node (Assoc.insertAll [] (denoteFields fields)))]

def denoteItems : List Data → List Value
  | [] => []
  | d :: rest => denote d :: denoteItems rest

def denoteFields : List (Str × Data) → List (Str × Value)
  | [] => []
  | (name, d) :: rest => (name, denote d) :: denoteFields rest

def denoteEntries : List (Key × Data) → List (Str × Value)
  | [] => []
  | (key, d) :: rest => (key.name, denote d) :: denoteEntries rest

end

mutual

/-- Every map key of the value has a text. -/
def Keyed : Data → Prop
  | .prim _ => True
  | .none => True
  | .some d => Keyed d
  | .seq items => KeyedItems items
  | .tuple items => KeyedItems items
  | .map entries => KeyedEntries entries
  | .unitStruct => True
  | .newtypeStruct d => Keyed d
  | .struct fields => KeyedFields fields
  | .unitVariant _ => True
  | .newtypeVariant _ d => Keyed d
  | .tupleVariant _ items => KeyedItems items
  | .structVariant _ fields => KeyedFields fields

def KeyedItems : List Data → Prop
  | [] => True
  | d :: rest => Keyed d ∧ KeyedItems rest

def KeyedFields : List (Str × Data) → Prop
  | [] => True
  | (_, d) :: rest => Keyed d ∧ KeyedFields rest

def KeyedEntries : List (Key × Data) → Prop
  | [] => True
  | (key, d) :: rest => (∃ name, key.text = .ok name) ∧ Keyed d ∧ KeyedEntries rest

end

omit [Printers] in
theorem Primitive.native_scalar (p : Primitive) : p.scalar.Native := by
  cases p with
  | int k v => cases k <;> trivial
  | _ => trivial

/-- A leaf of the tree is a primitive. -/
theorem native_denote {s : Scalar} : ∀ {d : Data}, denote d = .leaf s → s.Native
  | .prim p, h => by
    cases h
    exact p.native_scalar
  | .none, h => by
    cases h
    trivial
  | .some d, h => native_denote (d := d) h
  | .unitStruct, h => by
    cases h
    trivial
  | .newtypeStruct d, h => native_denote (d := d) h
  | .unitVariant variant, h => by
    cases h
    trivial
  | .seq _, h => nomatch h
  | .tuple _, h => nomatch h
  | .map _, h => nomatch h
  | .struct _, h => nomatch h
  | .newtypeVariant _ _, h => nomatch h
  | .tupleVariant _ _, h => nomatch h
  | .structVariant _ _, h => nomatch h

/-! ## Parts -/

theorem keyedItems_iff {items : List Data} : KeyedItems items ↔ ∀ d ∈ items, Keyed d := by
  induction items with
  | nil => simp [KeyedItems]
  | cons d rest ih => simp [KeyedItems, ih]

theorem keyedFields_iff {fields : List (Str × Data)} : KeyedFields fields ↔ ∀ f ∈ fields, Keyed f.2 := by
  induction fields with
  | nil => simp [KeyedFields]
  | cons f rest ih => simp [KeyedFields, ih]

theorem keyedEntries_iff {entries : List (Key × Data)} :
    KeyedEntries entries ↔ ∀ e ∈ entries, (∃ name, e.1.text = .ok name) ∧ Keyed e.2 := by
  induction entries with
  | nil => simp [KeyedEntries]
  | cons e rest ih => simp [KeyedEntries, ih, and_assoc]

/-! ## Writers -/

/-- A child that is in the buffer. -/
def Held (buf : Bytes) (off : Nat) (v : Value) : Prop := off < buf.length ∧ Stored buf off v

omit [Printers] in
theorem Held.mono {buf : Bytes} {off : Nat} {v : Value} (h : Held buf off v) (out : Bytes) :
    Held (buf ++ out) off v := by
  refine ⟨?_, h.2.mono out⟩
  have hlt := h.1
  rw [List.length_append]
  omega

/-- The writer writes a vnode of the value. -/
def Writes (f : Bytes → AdbResult (Nat × Bytes)) (v : Value) : Prop :=
  Emits (2 ^ 32) (fun _ => True) f fun buf off => Stored buf off v

omit [Printers] in
theorem Writes.held {f : Bytes → AdbResult (Nat × Bytes)} {v : Value} (h : Writes f v) :
    Emits (2 ^ 32) (fun _ => True) f fun buf off => Held buf off v :=
  h.imp fun _ _ hstored => ⟨hstored.lt_length, hstored⟩

/-- The entries of an object, with the values that are stored for them. -/
def HeldFields (buf : Bytes) (entries : List (Str × Nat)) (fields : List (Str × Value)) : Prop :=
  List.Forall₂ (fun (e : Str × Nat) (f : Str × Value) => e.1 = f.1 ∧ Held buf e.2 f.2) entries fields

omit [Printers] in
theorem HeldFields.mono {buf : Bytes} {entries : List (Str × Nat)} {fields : List (Str × Value)}
    (h : HeldFields buf entries fields) (out : Bytes) : HeldFields (buf ++ out) entries fields :=
  h.imp fun _ _ hef => ⟨hef.1, hef.2.mono out⟩

omit [Externals] [Printers] in
/-- A writer that cannot fail. -/
theorem emits_of_appends {α : Type} {P : Bytes → Prop} {f : Bytes → α × Bytes} {Q : Bytes → α → Prop}
    (hf : Appends f) (hQ : ∀ buf, P buf → (f buf).2.length < 2 ^ 32 → Q (f buf).2 (f buf).1) :
    Emits (2 ^ 32) P (fun buf => (.ok (f buf) : AdbResult _)) Q := by
  intro n
  obtain ⟨a, out, hout⟩ := hf n
  refine ⟨a, out, ?_⟩
  intro buf hbuf
  have hrun := hout buf hbuf
  refine ⟨congrArg Except.ok hrun, ?_⟩
  intro hP hlimit
  have hQ := hQ buf hP
  rw [hrun] at hQ
  exact hQ hlimit

omit [Printers] in
theorem writes_leaf (s : Scalar) : Writes (fun buf => .ok (pushLeaf buf s)) (.leaf s) :=
  emits_of_appends (appends_pushLeaf s) fun _ _ h => stored_pushLeaf h

omit [Printers] in
theorem emits_pushList (offs : List Nat) (items : List Value) :
    Emits (2 ^ 32) (fun buf => List.Forall₂ (Held buf) offs items)
      (fun buf => (.ok (pushList buf offs) : AdbResult _)) fun buf off => Stored buf off (.list items) :=
  emits_of_appends (appends_pushList offs) fun _ hitems h => stored_pushList hitems h

omit [Printers] in
theorem emits_pushObject (entries : List (Str × Nat)) (fields : List (Str × Value)) :
    Emits (2 ^ 32) (fun buf => HeldFields buf entries fields)
      (fun buf => (.ok (pushObject buf entries) : AdbResult _)) fun buf off => Stored buf off (.node fields) :=
  emits_of_appends (appends_pushObject entries) fun _ hfields h => stored_pushObject hfields h

omit [Printers] in
theorem emits_wrapVariant (variant : Str) (payload : Nat) (v : Value) :
    Emits (2 ^ 32) (fun buf => Stored buf payload v) (fun buf => (.ok (wrapVariant buf variant payload) : AdbResult _))
      fun buf off => Stored buf off (.node [(variant, v)]) := by
  apply emits_of_appends (appends_pushObject _)
  intro buf hv h
  exact stored_pushObject (.cons ⟨rfl, hv.lt_length, hv⟩ .nil) h

mutual

/-- **Serialising writes the tree of the value.** -/
theorem writes_serialize : ∀ d : Data, Keyed d → Writes (serialize d) (denote d)
  | .prim p, _ => by
    simp only [serialize, denote]
    exact writes_leaf p.scalar
  | .none, _ => by
    simp only [serialize, denote]
    exact writes_leaf .null
  | .some d, h => by
    simp only [serialize, denote]
    exact writes_serialize d h
  | .seq items, h => by
    simp only [serialize, denote]
    exact (emits_serializeItems items h).bind fun offs => emits_pushList offs _
  | .tuple items, h => by
    simp only [serialize, denote]
    exact (emits_serializeItems items h).bind fun offs => emits_pushList offs _
  | .map entries, h => by
    simp only [serialize, denote]
    apply (emits_serializeEntries entries h [] []).weaken (fun _ _ => .nil) |>.bind
    intro offs
    exact emits_pushObject offs _
  | .unitStruct, _ => by
    simp only [serialize, denote]
    exact writes_leaf .null
  | .newtypeStruct d, h => by
    simp only [serialize, denote]
    exact writes_serialize d h
  | .struct fields, h => by
    simp only [serialize, denote]
    apply (emits_serializeFields fields h [] []).weaken (fun _ _ => .nil) |>.bind
    intro offs
    exact emits_pushObject offs _
  | .unitVariant variant, _ => by
    simp only [serialize, denote]
    exact writes_leaf (.str variant)
  | .newtypeVariant variant d, h => by
    simp only [serialize, denote]
    exact (writes_serialize d h).bind fun payload => emits_wrapVariant variant payload _
  | .tupleVariant variant items, h => by
    simp only [serialize, denote]
    apply (emits_serializeItems items h).bind
    intro offs
    exact (emits_pushList offs _).bind (g := fun x => .ok (wrapVariant x.2 variant x.1)) fun list =>
      emits_wrapVariant variant list _
  | .structVariant variant fields, h => by
    simp only [serialize, denote]
    apply (emits_serializeFields fields h [] []).weaken (fun _ _ => .nil) |>.bind
    intro entries
    exact (emits_pushObject entries _).bind (g := fun x => .ok (wrapVariant x.2 variant x.1)) fun object =>
      emits_wrapVariant variant object _

theorem emits_serializeItems : ∀ items : List Data, KeyedItems items →
    Emits (2 ^ 32) (fun _ => True) (serializeItems items) fun buf offs =>
      List.Forall₂ (Held buf) offs (denoteItems items)
  | [], _ => Emits.pure fun _ _ => .nil
  | d :: rest, h => by
    simp only [serializeItems, denoteItems]
    apply (writes_serialize d h.1).held.bind
    intro off
    have hrest := ((emits_serializeItems rest h.2).frame (F := fun buf => Held buf off (denote d))
      fun buf out hheld => hheld.mono out).weaken fun buf hheld => ⟨trivial, hheld⟩
    apply hrest.map (g := (off :: ·))
    intro buf offs hoffs
    exact .cons hoffs.2 hoffs.1

theorem emits_serializeFields : ∀ (fields : List (Str × Data)), KeyedFields fields →
    ∀ (entries : List (Str × Nat)) (before : List (Str × Value)),
    Emits (2 ^ 32) (fun buf => HeldFields buf entries before) (serializeFields fields entries)
      fun buf offs => HeldFields buf offs (Assoc.insertAll before (denoteFields fields))
  | [], _, _, _ => Emits.pure fun _ h => h
  | (key, d) :: rest, h, entries, before => by
    simp only [serializeFields, denoteFields]
    apply (writes_serialize d h.1).held.frame (F := fun buf => HeldFields buf entries before)
      (fun buf out hheld => hheld.mono out) |>.weaken (fun buf hheld => ⟨trivial, hheld⟩) |>.bind
    intro off
    apply (emits_serializeFields rest h.2 (Assoc.insert key off entries) (Assoc.insert key (denote d) before)).weaken
    intro buf hbuf
    exact Assoc.forall₂_insert hbuf.2 hbuf.1

theorem emits_serializeEntries : ∀ (fields : List (Key × Data)), KeyedEntries fields →
    ∀ (entries : List (Str × Nat)) (before : List (Str × Value)),
    Emits (2 ^ 32) (fun buf => HeldFields buf entries before) (serializeEntries fields entries)
      fun buf offs => HeldFields buf offs (Assoc.insertAll before (denoteEntries fields))
  | [], _, _, _ => Emits.pure fun _ h => h
  | (key, d) :: rest, h, entries, before => by
    obtain ⟨⟨name, hname⟩, hd, hrest⟩ := h
    have hkey : key.name = name := by rw [Key.name, hname]
    simp only [serializeEntries, denoteEntries, hname, Except.ok_bind, hkey]
    apply (writes_serialize d hd).held.frame (F := fun buf => HeldFields buf entries before)
      (fun buf out hheld => hheld.mono out) |>.weaken (fun buf hheld => ⟨trivial, hheld⟩) |>.bind
    intro off
    apply (emits_serializeEntries rest hrest (Assoc.insert name off entries)
      (Assoc.insert name (denote d) before)).weaken
    intro buf hbuf
    exact Assoc.forall₂_insert hbuf.2 hbuf.1

end

omit [Externals] [Printers] in
theorem patchRoot_beginBlob (root : Nat) (out : Bytes) :
    patchRoot (beginBlob ++ out) root = Bytes.be 1 formatVersion ++ putU32 root ++ out := by
  have htake : (beginBlob ++ out).take 1 = Bytes.be 1 formatVersion := rfl
  have hdrop : (beginBlob ++ out).drop headerLen = out := rfl
  rw [patchRoot, htake, hdrop]

omit [Externals] [Printers] in
/-- The header of a blob says where its root is. -/
theorem new_patchRoot {root : Nat} (out : Bytes) (h : root < 2 ^ 32) :
    ArchivedValue.new (patchRoot (beginBlob ++ out) root) = .ok ⟨patchRoot (beginBlob ++ out) root, root⟩ := by
  have hread : readU32 (1 :: (putU32 root ++ out)) 1 = .ok root := readU32_append h [1] out
  have hcons : patchRoot (beginBlob ++ out) root = 1 :: (putU32 root ++ out) := patchRoot_beginBlob root out
  have hnew (blob : Bytes) : ArchivedValue.new (1 :: blob) = (do
      let root ← readU32 (1 :: blob) 1
      return ⟨1 :: blob, root⟩) := rfl
  rw [hcons, hnew, hread]
  rfl

/-- **The blob of a value stores its tree.** -/
theorem stored_toBlob {d : Data} (h : Keyed d) : ∃ blob, toBlob d = .ok blob ∧
    (blob.length < 2 ^ 32 → ∃ root, ArchivedValue.new blob = .ok ⟨blob, root⟩ ∧ Stored blob root (denote d)) := by
  obtain ⟨root, out, hout⟩ := writes_serialize d h 5
  refine ⟨patchRoot (beginBlob ++ out) root, ?_, ?_⟩
  · rw [toBlob, (hout beginBlob rfl).1]
    rfl
  · intro hlen
    have hstored := (hout (Bytes.be 1 formatVersion ++ putU32 root) (by simp)).2 trivial
      (by rwa [← patchRoot_beginBlob])
    rw [← patchRoot_beginBlob] at hstored
    exact ⟨root, new_patchRoot out (hstored.lt_length.trans hlen), hstored⟩

/-! ## Dynamic values -/

mutual

/-- Every leaf is a primitive. -/
def Native : Value → Prop
  | .leaf s => s.Native
  | .list items => NativeItems items
  | .node fields => NativeFields fields

def NativeItems : List Value → Prop
  | [] => True
  | v :: vs => Native v ∧ NativeItems vs

def NativeFields : List (Str × Value) → Prop
  | [] => True
  | (_, v) :: fs => Native v ∧ NativeFields fs

end

omit [Printers] in
theorem nativeItems_iff {items : List Value} : NativeItems items ↔ ∀ v ∈ items, Native v := by
  induction items with
  | nil => simp [NativeItems]
  | cons v vs ih => simp [NativeItems, ih]

omit [Printers] in
theorem nativeFields_iff {fields : List (Str × Value)} : NativeFields fields ↔ ∀ f ∈ fields, Native f.2 := by
  induction fields with
  | nil => simp [NativeFields]
  | cons f fs ih => simp [NativeFields, ih]

theorem scalar_scalarData {s : Scalar} (h : s.Native) : (scalarData s).scalar = s := by
  cases s <;> first | rfl | exact h.elim

mutual

/-- **A dynamic value is written as the value codec writes it.** -/
theorem serialize_valueData : ∀ {v : Value}, v.WF → Native v → ∀ buf,
    serialize (valueData v) buf = .ok (pushValue v buf)
  | .leaf s, _, h, buf => by
    rw [valueData, serialize, scalar_scalarData h, pushValue]
  | .list items, hv, h, buf => by
    rw [valueData, serialize, serializeItems_valueItems (Value.wfItems_iff.2 (Value.wf_list.1 hv)) h, pushValue]
    rfl
  | .node fields, hv, h, buf => by
    have hwf := Value.wf_node.1 hv
    have hsorted : ((([] : List (Str × Nat)).map Prod.fst) ++ fields.map Prod.fst).Pairwise (· < ·) := hwf.1
    rw [valueData, serialize, serializeEntries_valueFields hsorted (Value.wfFields_iff.2 hwf.2) h, pushValue]
    rfl

theorem serializeItems_valueItems : ∀ {items : List Value}, Value.WFItems items → NativeItems items → ∀ buf,
    serializeItems (valueItems items) buf = .ok (pushItems items buf)
  | [], _, _, _ => rfl
  | v :: vs, hv, h, buf => by
    have hrest := serializeItems_valueItems hv.2 h.2 (pushValue v buf).2
    simp only [valueItems, serializeItems, serialize_valueData hv.1 h.1, Except.ok_bind, hrest, pushItems]
    rfl

theorem serializeEntries_valueFields : ∀ {fields : List (Str × Value)} {before : List (Str × Nat)},
    ((before.map Prod.fst) ++ fields.map Prod.fst).Pairwise (· < ·) → Value.WFFields fields → NativeFields fields →
    ∀ buf, serializeEntries (valueFields fields) before buf =
      .ok (before ++ (pushFields fields buf).1, (pushFields fields buf).2)
  | [], before, _, _, _, buf => by
    rw [valueFields, serializeEntries, pushFields, List.append_nil]
  | (name, v) :: fs, before, hsorted, hv, h, buf => by
    have hlast : Assoc.insert name (pushValue v buf).1 before = before ++ [(name, (pushValue v buf).1)] := by
      apply Assoc.insert_append
      intro b hb
      exact (List.pairwise_append.1 hsorted).2.2 b.1 (List.mem_map_of_mem hb) name List.mem_cons_self
    have hsorted' : ((before ++ [(name, (pushValue v buf).1)]).map Prod.fst ++ fs.map Prod.fst).Pairwise (· < ·) := by
      simpa using hsorted
    have hrest := serializeEntries_valueFields hsorted' hv.2 h.2 (pushValue v buf).2
    simp only [valueFields, serializeEntries, Key.text, serialize_valueData hv.1 h.1, Except.ok_bind, hlast, hrest,
      pushFields, List.append_assoc, List.singleton_append]

end

theorem toBlob_valueData {v : Value} (hv : v.WF) (h : Native v) : toBlob (valueData v) = .ok (encode v) := by
  rw [toBlob, serialize_valueData hv h]
  rfl

end ArborDb.Serde
