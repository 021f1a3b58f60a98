import ArborDb.Serde.RoundTrip

/-!
# The two directions of the bridge

A dynamic value of primitives is written as the value codec writes it and is read back as it was
(`valueFromBlob_encode`). A value of any other type is read back too, with its maps in the order of the names
of their keys, which is the same value (`same_byName`). Both need a blob whose lengths fit their `u32` fields:
a text of 2^32 bytes is written with a length of zero.
-/

namespace ArborDb.Serde

open Codec

/-! ## Values that differ in the order of their map entries -/

/-- The same value: a map has no order. -/
inductive Same : Data → Data → Prop where
  | prim (p : Primitive) : Same (.prim p) (.prim p)
  | none : Same .none .none
  | some {d d' : Data} : Same d d' → Same (.some d) (.some d')
  | seq {ds ds' : List Data} : List.Forall₂ Same ds ds' → Same (.seq ds) (.seq ds')
  | tuple {ds ds' : List Data} : List.Forall₂ Same ds ds' → Same (.tuple ds) (.tuple ds')
  | map {es fs es' : List (Key × Data)} : es.Perm fs → fs.map Prod.fst = es'.map Prod.fst →
      List.Forall₂ Same (fs.map Prod.snd) (es'.map Prod.snd) → Same (.map es) (.map es')
  | unitStruct : Same .unitStruct .unitStruct
  | newtypeStruct {d d' : Data} : Same d d' → Same (.newtypeStruct d) (.newtypeStruct d')
  | struct {fs fs' : List (Str × Data)} : fs.map Prod.fst = fs'.map Prod.fst →
      List.Forall₂ Same (fs.map Prod.snd) (fs'.map Prod.snd) → Same (.struct fs) (.struct fs')
  | unitVariant (variant : Str) : Same (.unitVariant variant) (.unitVariant variant)
  | newtypeVariant (variant : Str) {d d' : Data} : Same d d' →
      Same (.newtypeVariant variant d) (.newtypeVariant variant d')
  | tupleVariant (variant : Str) {ds ds' : List Data} : List.Forall₂ Same ds ds' →
      Same (.tupleVariant variant ds) (.tupleVariant variant ds')
  | structVariant (variant : Str) {fs fs' : List (Str × Data)} : fs.map Prod.fst = fs'.map Prod.fst →
      List.Forall₂ Same (fs.map Prod.snd) (fs'.map Prod.snd) →
      Same (.structVariant variant fs) (.structVariant variant fs')

section Same

variable [Externals] [Printers]

theorem same_items {items : List Data} (ih : ∀ d ∈ items, Same d (byName d)) :
    List.Forall₂ Same items (byNameItems items) := by
  rw [byNameItems_eq, List.forall₂_map_right_iff, List.forall₂_same]
  exact ih

theorem same_fields {fields : List (Str × Data)} (ih : ∀ f ∈ fields, Same f.2 (byName f.2)) :
    fields.map Prod.fst = (byNameFields fields).map Prod.fst ∧
      List.Forall₂ Same (fields.map Prod.snd) ((byNameFields fields).map Prod.snd) := by
  rw [byNameFields_eq, List.map_map, List.map_map]
  refine ⟨rfl, ?_⟩
  rw [List.forall₂_map_left_iff, List.forall₂_map_right_iff, List.forall₂_same]
  exact ih

/-- Sorting the entries of a map permutes them. -/
theorem same_entries {entries : List (Key × Data)} (ih : ∀ e ∈ entries, Same e.2 (byName e.2)) :
    Same (.map entries) (byName (.map entries)) := by
  let renamed := entries.map fun e => (e.1.name, e)
  let order : Str × (Key × Data) → Str × (Key × Data) → Bool := fun a b => decide (a.1 ≤ b.1)
  have hperm : entries.Perm ((renamed.mergeSort order).map Prod.snd) := by
    have hsort := (List.mergeSort_perm renamed order).symm.map Prod.snd
    rwa [List.map_map, show (Prod.snd ∘ fun e : Key × Data => (e.1.name, e)) = id from rfl, List.map_id] at hsort
  have hnamed : (byNameEntries entries).mergeSort (fun a b => decide (a.1 ≤ b.1)) =
      (renamed.mergeSort order).map fun x => (x.1, (x.2.1, byName x.2.2)) := by
    have hsort := List.map_mergeSort (r := order) (s := order) (f := fun x => (x.1, (x.2.1, byName x.2.2)))
      (l := renamed) fun _ _ _ _ => rfl
    rw [hsort, byNameEntries_eq, List.map_map]
    rfl
  rw [byName, hnamed, List.map_map]
  apply Same.map hperm
  · rw [List.map_map, List.map_map]
    rfl
  · rw [List.map_map, List.map_map, List.forall₂_map_left_iff, List.forall₂_map_right_iff, List.forall₂_same]
    intro x hx
    have hentry : x.2 ∈ entries := hperm.mem_iff.2 (List.mem_map_of_mem hx)
    exact ih x.2 hentry

/-- **Listing maps by the names of their keys leaves a value the same.** -/
theorem inductive_same : Inductive fun d => Same d (byName d) where
  prim p := by
    rw [byName]
    exact .prim p
  none := by
    rw [byName]
    exact .none
  some d ih := by
    rw [byName]
    exact .some ih
  seq items ih := by
    rw [byName]
    exact .seq (same_items ih)
  tuple items ih := by
    rw [byName]
    exact .tuple (same_items ih)
  map entries ih := same_entries ih
  unitStruct := by
    rw [byName]
    exact .unitStruct
  newtypeStruct d ih := by
    rw [byName]
    exact .newtypeStruct ih
  struct fields ih := by
    rw [byName]
    exact .struct (same_fields ih).1 (same_fields ih).2
  unitVariant variant := by
    rw [byName]
    exact .unitVariant variant
  newtypeVariant variant d ih := by
    rw [byName]
    exact .newtypeVariant variant ih
  tupleVariant variant items ih := by
    rw [byName]
    exact .tupleVariant variant (same_items ih)
  structVariant variant fields ih := by
    rw [byName]
    exact .structVariant variant (same_fields ih).1 (same_fields ih).2

end Same

/-! ## The dynamic value -/

section Dynamic

variable [Externals] {blob : Bytes} {off : Nat} {v : Value}

/-- A scalar that a visitor takes for a primitive is the one of that primitive. -/
theorem scalarInto_native {f : ArchivedNode → AdbResult Value} {s : Scalar} (h : s.Native) :
    scalarInto s (valueVisitor f) = .ok (.leaf s) := by
  cases s <;> first | rfl | exact h.elim

/-- **A stored vnode of primitives is read into the value it stores.** The children of a vnode lie below it,
so the offset bounds the depth of the recursion. -/
theorem deserializeValue_stored {fuel : Nat} (hb : blob.length < 2 ^ 32) (h : Stored blob off v) (hv : v.WF)
    (hnative : Native v) (hfuel : off < fuel) : deserializeValue fuel ⟨blob, off⟩ = .ok v := by
  induction fuel generalizing off v with
  | zero => omega
  | succ fuel ih =>
    rw [deserializeValue]
    cases v with
    | leaf s => rw [any_leaf hnative (h.scalar_length hb) h, scalarInto_native hnative]
    | list items =>
      have hchild : ∀ i w, items[i]? = some w → ∃ child, ArchivedNode.at? ⟨blob, off⟩ (0 + i) = .ok (some child) ∧
          deserializeValue fuel child = .ok w := by
        intro i w hw
        obtain ⟨c, hc, hlt, hstored⟩ := stored_element h hw
        have hmem := List.mem_of_getElem? hw
        rw [Nat.zero_add]
        exact ⟨_, hc, ih hstored (Value.wf_list.1 hv w hmem) (nativeItems_iff.1 hnative w hmem) (by omega)⟩
      have hall := readAll_eq (Nat.zero_add items.length) hchild
      rw [any_list h]
      simp only [valueVisitor, Nat.sub_zero, hall, Except.ok_bind]
      rfl
    | node fields =>
      obtain ⟨hsorted, hwf⟩ := Value.wf_node.1 hv
      obtain ⟨es, -, hany, hall⟩ := any_node (α := Value) h
      have hread : List.Forall₂ (fun e f => e.1 = f.1 ∧ deserializeValue fuel e.2 = .ok f.2) es fields := by
        apply hall.imp_of_mem
        rintro e f hf ⟨hname, c, hc, hlt, hstored⟩
        rw [hc]
        exact ⟨hname, ih hstored (hwf f hf) (nativeFields_iff.1 hnative f hf) (by omega)⟩
      have hloop := foldlM_fields hread []
      rw [Assoc.foldl_insert_sorted (by simpa using hsorted), List.nil_append] at hloop
      rw [hany]
      simp only [valueVisitor, hloop, Except.ok_bind]
      rfl

/-- **A dynamic value of primitives is read back from its encoding.** -/
theorem valueFromBlob_encode (hv : v.WF) (hnative : Native v) (h : (encode v).length < 2 ^ 32) :
    valueFromBlob (encode v) = .ok v := by
  obtain ⟨root, hnew, hstored⟩ := stored_encode h
  rw [valueFromBlob, hnew, Except.ok_bind]
  exact deserializeValue_stored h hstored hv hnative (Nat.lt_succ_of_lt hstored.lt_length)

end Dynamic

/-! ## Any type -/

section Any

variable [Externals] [Printers] [PrimitiveVisitors] [LawfulVisitors]

/-- **The bridge loses nothing.** A dynamic value of primitives is written as the value codec writes it and
read back as it was; a value of any other type is read back the same, given as many steps as it nests deep. -/
theorem bridge_loses_nothing :
    (∀ v : Value, v.WF → Native v → (encode v).length < 2 ^ 32 →
      toBlob (valueData v) = .ok (encode v) ∧ valueFromBlob (encode v) = .ok v) ∧
    ∀ (decls : Nat → Decl) (t : Ty) (x : Data), (∀ n, (decls n).WF decls) → t.WF decls → Of decls x t →
      ∃ blob, toBlob x = .ok blob ∧ (blob.length < 2 ^ 32 →
        ∃ y, Same x y ∧ ∀ fuel, depth x < fuel → fromBlob decls fuel t blob = .ok y) := by
  constructor
  · intro v hv hnative h
    exact ⟨toBlob_valueData hv hnative, valueFromBlob_encode hv hnative h⟩
  · intro decls t x hdecls ht hof
    obtain ⟨blob, hblob, hstored⟩ := stored_toBlob (inductive_keyed.all x t hof)
    refine ⟨blob, hblob, ?_⟩
    intro hlen
    obtain ⟨root, hnew, hroot⟩ := hstored hlen
    refine ⟨byName x, inductive_same.all x, ?_⟩
    intro fuel hfuel
    rw [fromBlob, hnew, Except.ok_bind]
    exact (inductive_readBack hlen hdecls).all x hof ht hfuel hroot

/-! ## Long texts -/

/-- **A byte string of 2^32 bytes is written with a length of zero,** and so it is read back empty. -/
theorem toBlob_long {decls : Nat → Decl} {b : Bytes} (h : b.length = 2 ^ 32) :
    ∃ blob, toBlob (.prim (.bytes b)) = .ok blob ∧
      ∀ fuel, fromBlob decls (fuel + 1) (.prim .bytes) blob = .ok (.prim (.bytes [])) := by
  have hencode : (Scalar.bytes b).encode = (Scalar.bytes []).encode ++ b := by
    have hput : putU32 b.length = putU32 0 := by
      rw [h]
      rfl
    simp only [Scalar.encode, Scalar.tagged, putBytes, hput, List.append_nil, List.append_assoc, List.length_nil]
  let out := Bytes.be 1 leafTag ++ (Scalar.bytes b).encode
  have hblob : toBlob (.prim (.bytes b)) = .ok (patchRoot (beginBlob ++ out) 5) := by
    simp only [toBlob, serialize, pushLeaf, Except.ok_bind, List.append_assoc]
    rfl
  have hstored : Stored (patchRoot (beginBlob ++ out) 5) 5 (.leaf (Primitive.bytes []).scalar) := by
    rw [patchRoot_beginBlob, Stored]
    refine ⟨rfl, b, ?_⟩
    rw [show out = Bytes.be 1 leafTag ++ (Scalar.bytes b).encode from rfl, hencode]
    rfl
  refine ⟨_, hblob, ?_⟩
  intro fuel
  rw [fromBlob, new_patchRoot out (by decide), Except.ok_bind, deserialize]
  have hlen : (Primitive.bytes []).scalar.encode.length < 2 ^ 32 := by
    simp only [Primitive.scalar, Scalar.encode]
    decide
  exact readPrim hlen hstored

end Any

/-- A byte string of 2^32 zeros is not read back. -/
theorem bridge_loses_long_bytes :
    letI := Reference.externals; letI := Reference.printers; letI := Reference.visitors
    let decls : Nat → Decl := fun _ => .unitStruct
    let x : Data := .prim (.bytes (List.replicate (2 ^ 32) 0))
    Of decls x (.prim .bytes) ∧ ∃ blob, toBlob x = .ok blob ∧
      ∀ fuel y, fromBlob decls (fuel + 1) (.prim .bytes) blob = .ok y → ¬ Same x y := by
  let _ := Reference.externals
  let _ := Reference.printers
  let _ := Reference.visitors
  have _ := Reference.lawfulVisitors
  have hlength : (List.replicate (2 ^ 32) (0 : UInt8)).length = 2 ^ 32 := List.length_replicate
  generalize List.replicate (2 ^ 32) (0 : UInt8) = b at hlength
  intro decls x
  obtain ⟨blob, hblob, hread⟩ := @toBlob_long _ _ _ _ decls _ hlength
  refine ⟨rfl, blob, hblob, ?_⟩
  intro fuel y hy
  rw [hread fuel] at hy
  obtain rfl := Except.ok.inj hy
  have hdiffer : ¬ Same (.prim (.bytes b)) (.prim (.bytes [])) := by
    intro hsame
    cases hsame
    cases hlength
  exact hdiffer

/-- A struct of shapes with an optional name, and an enum with every kind of variant, one of which holds
structs by number. -/
def sampleDecls : Nat → Decl
  | 0 => .struct [(⟨"shapes"⟩, .seq (.named 1)), (⟨"name"⟩, .option (.prim .str))]
  | _ => .enum [(⟨"Empty"⟩, .unit), (⟨"Disc"⟩, .newtype (.prim (.int .u8))),
      (⟨"Box"⟩, .tuple [.prim .bool, .prim .char]),
      (⟨"Cell"⟩, .struct [(⟨"of"⟩, .map (.prim (.int .i8)) (.named 0))])]

def sampleData : Data :=
  .struct [
    (⟨"shapes"⟩, .seq [.unitVariant ⟨"Empty"⟩, .newtypeVariant ⟨"Disc"⟩ (.prim (.int .u8 7)),
      .tupleVariant ⟨"Box"⟩ [.prim (.bool true), .prim (.char 'é')],
      .structVariant ⟨"Cell"⟩ [(⟨"of"⟩, .map [
        (.prim (.int .i8 (-1)), .struct [(⟨"shapes"⟩, .seq []), (⟨"name"⟩, .none)])])]]),
    (⟨"name"⟩, .some (.prim (.str ⟨"é"⟩)))]

theorem sampleDecls_wf : letI := Reference.externals; letI := Reference.printers
    ∀ n, (sampleDecls n).WF sampleDecls := by
  let _ := Reference.externals
  let _ := Reference.printers
  -- A text is not stored as `null`.
  have hname : (Ty.option (.prim .str)).WF sampleDecls := by
    refine ⟨?_, trivial⟩
    intro d hd hnull
    cases d with
    | prim p =>
      cases p with
      | str v => cases hnull
      | _ => cases hd
    | _ => exact False.elim hd
  intro n
  cases n with
  | zero =>
    refine ⟨by decide, ?_⟩
    simp only [List.forall_mem_cons, List.not_mem_nil, false_imp_iff, implies_true, and_true]
    exact ⟨trivial, hname⟩
  | succ n =>
    simp only [sampleDecls, Decl.WF, List.forall_mem_cons, List.not_mem_nil, false_imp_iff, implies_true, and_true,
      Payload.WF, WFFields, Ty.WF]
    decide

theorem bridge_loses_nothing_sample :
    letI := Reference.externals; letI := Reference.printers; letI := Reference.visitors
    let v : Value := .node [(⟨"a"⟩, .list [.leaf (.i8 (-1)), .leaf .null])]
    valueFromBlob (encode v) = .ok v ∧ ∃ blob, toBlob sampleData = .ok blob ∧ blob.length < 2 ^ 32 ∧
      ∃ y, Same sampleData y ∧ fromBlob sampleDecls 10 (.named 0) blob = .ok y := by
  let _ := Reference.externals
  let _ := Reference.printers
  let _ := Reference.visitors
  have _ := Reference.lawfulVisitors
  let v : Value := .node [(⟨"a"⟩, .list [.leaf (.i8 (-1)), .leaf .null])]
  have hbridge := bridge_loses_nothing
  have hof : Of sampleDecls sampleData (.named 0) := by
    simp [Of, OfItems, OfTuple, OfFields, OfEntries, KeyOf, sampleData, sampleDecls, Assoc.find, Primitive.kind]
  have hlength : (toBlob sampleData).toOption.map List.length = some 257 := by decide +kernel
  obtain ⟨blob, hblob, hread⟩ := hbridge.2 sampleDecls (.named 0) sampleData sampleDecls_wf trivial hof
  rw [hblob] at hlength
  have hlen : blob.length < 2 ^ 32 := by
    rw [Option.some.inj hlength]
    decide
  obtain ⟨y, hsame, hy⟩ := hread hlen
  refine ⟨(hbridge.1 v (by decide) ⟨⟨trivial, trivial, trivial⟩, trivial⟩ (by decide)).2, blob, hblob, hlen, y, hsame,
    hy 10 ?_⟩
  simp [depth, depthItems, depthFields, depthEntries, sampleData]

end ArborDb.Serde
