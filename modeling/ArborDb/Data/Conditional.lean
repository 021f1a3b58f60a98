import ArborDb.Data.Encode

/-!
# Fields that are stored conditionally

A derived struct may leave a field out for some of its values (`skip_store_if`). The direct encoder
emits the fields in name order, whichever of them are left out, and writes what the calls of `store`
build in memory (`Shaped.encodeData_matches`).
-/

namespace ArborDb

open Codec

section Direct

variable [Externals]

/-- A stored field of a derived struct, with the predicate for leaving it out. -/
structure ShapeField where
  name : Str
  ty : DataType
  skipStoreIf : Option (Data → Bool)

/-- Whether the field is left out for a value. -/
def ShapeField.skips (f : ShapeField) (d : Data) : Bool :=
  match f.skipStoreIf with
  | some predicate => predicate d
  | none => false

namespace Shaped

/-! ## The two ways to a blob -/

section Code

variable (shapes : Nat → List ShapeField)

mutual

/-- The calls that write a value at a path. -/
def store : DataType → Data → VPath → List WriterOp
  | .scalar _, .scalar s, path => [.putScalar path s]
  | .option _, .none, path => [.putScalar path .null]
  | .option t, .some d, path => store t d path
  | .vec t, .vec items, path => .ensureContainer path true :: storeItems t items 0 path
  | .map t, .map entries, path => .ensureContainer path false :: storeEntries t entries path
  | .derived n, .struct ds, path => .ensureContainer path false :: storeFields (shapes n) ds path
  | _, _, _ => []

def storeItems (t : DataType) : List Data → Nat → VPath → List WriterOp
  | [], _, _ => []
  | d :: ds, i, path => store t d (path.childIndex (.ofNat i)) ++ storeItems t ds (i + 1) path

def storeEntries (t : DataType) : List (Str × Data) → VPath → List WriterOp
  | [], _ => []
  | (name, d) :: es, path => store t d (path.childName name) ++ storeEntries t es path

def storeFields : List ShapeField → List Data → VPath → List WriterOp
  | f :: fs, d :: ds, path =>
    (if f.skips d then [] else store f.ty d (path.childName f.name)) ++ storeFields fs ds path
  | _, _, _ => []

end

/-- Emits the vnodes of the fields that are not left out. -/
def runFields : List (Str × Option (Bytes → Nat × Bytes)) → Bytes → List (Str × Nat) × Bytes
  | [], buf => ([], buf)
  | (_, none) :: fs, buf => runFields fs buf
  | (name, some emit) :: fs, buf =>
    let (off, buf) := emit buf
    let (entries, buf) := runFields fs buf
    ((name, off) :: entries, buf)

mutual

/-- Emits a value as one vnode, children first: its offset, and the grown buffer. -/
def encodeNode : DataType → Data → Bytes → Nat × Bytes
  | .scalar _, .scalar s, buf => pushLeaf buf s
  | .option _, .none, buf => pushLeaf buf .null
  | .option t, .some d, buf => encodeNode t d buf
  | .vec t, .vec items, buf =>
    let (offsets, buf) := encodeItems t items buf
    pushList buf offsets
  | .map t, .map es, buf =>
    let (entries, buf) := encodeEntries t es buf
    pushObject buf entries
  | .derived n, .struct ds, buf =>
    let sorted := (fieldEncoders (shapes n) ds).mergeSort fun a b => decide (a.1 ≤ b.1)
    let (entries, buf) := runFields sorted buf
    pushObject buf entries
  | _, _, buf => (0, buf)

def encodeItems (t : DataType) : List Data → Bytes → List Nat × Bytes
  | [], buf => ([], buf)
  | d :: ds, buf =>
    let (off, buf) := encodeNode t d buf
    let (offs, buf) := encodeItems t ds buf
    (off :: offs, buf)

def encodeEntries (t : DataType) : List (Str × Data) → Bytes → List (Str × Nat) × Bytes
  | [], buf => ([], buf)
  | (name, d) :: es, buf =>
    let (off, buf) := encodeNode t d buf
    let (entries, buf) := encodeEntries t es buf
    ((name, off) :: entries, buf)

/-- What emits each field, in the order of their declaration; nothing for one that is left out. -/
def fieldEncoders : List ShapeField → List Data → List (Str × Option (Bytes → Nat × Bytes))
  | f :: fs, d :: ds =>
    (f.name, if f.skips d then none else some fun buf => encodeNode f.ty d buf) :: fieldEncoders fs ds
  | _, _ => []

end

/-- Encodes a value straight into a blob. -/
def encodeData (t : DataType) (d : Data) : Bytes :=
  let (root, buf) := encodeNode shapes t d beginBlob
  patchRoot buf root

end Code

/-! ## Typing -/

section Typing

variable (shapes : Nat → List ShapeField)

mutual

/-- The value has the type; no key of a map in it is one of the two reserved names. -/
def Of : DataType → Data → Prop
  | .scalar t, .scalar s => s.typeStr = t.stored
  | .option _, .none => True
  | .option t, .some d => Of t d
  | .vec t, .vec items => items.length < 2 ^ 64 ∧ OfItems t items
  | .map t, .map entries => Assoc.Sorted entries ∧ OfEntries t entries
  | .derived n, .struct ds => OfFields (shapes n) ds
  | _, _ => False

def OfItems (t : DataType) : List Data → Prop
  | [] => True
  | d :: ds => Of t d ∧ OfItems t ds

def OfEntries (t : DataType) : List (Str × Data) → Prop
  | [] => True
  | (name, d) :: es => ¬ VPath.Reserved name ∧ Of t d ∧ OfEntries t es

def OfFields : List ShapeField → List Data → Prop
  | [], [] => True
  | f :: fs, d :: ds => Of f.ty d ∧ OfFields fs ds
  | _, _ => False

end

end Typing

/-! ## The tree of a value -/

section Tree

variable (shapes : Nat → List ShapeField)

mutual

/-- The tree a value stands for; a struct has the fields that are not left out. -/
def toValue : DataType → Data → Value
  | .scalar _, .scalar s => .leaf s
  | .option _, .none => .leaf .null
  | .option t, .some d => toValue t d
  | .vec t, .vec items => .list (itemValues t items)
  | .map t, .map entries => .node (entryValues t entries)
  | .derived n, .struct ds => Value.object (fieldValues (shapes n) ds)
  | _, _ => .leaf .null

def itemValues (t : DataType) : List Data → List Value
  | [] => []
  | d :: ds => toValue t d :: itemValues t ds

def entryValues (t : DataType) : List (Str × Data) → List (Str × Value)
  | [] => []
  | (name, d) :: es => (name, toValue t d) :: entryValues t es

def fieldValues : List ShapeField → List Data → List (Str × Value)
  | f :: fs, d :: ds => if f.skips d then fieldValues fs ds else (f.name, toValue f.ty d) :: fieldValues fs ds
  | _, _ => []

end

variable {shapes}

theorem keys_entryValues {t : DataType} {es : List (Str × Data)} :
    (entryValues shapes t es).map Prod.fst = es.map Prod.fst := by
  induction es with
  | nil => rfl
  | cons e es ih => exact congrArg (e.1 :: ·) ih

theorem sorted_entryValues {t : DataType} {es : List (Str × Data)} (h : Assoc.Sorted es) :
    Assoc.Sorted (entryValues shapes t es) := by
  rw [Assoc.Sorted, keys_entryValues]
  exact h

/-- The stored names are among the names of the fields, in their order. -/
theorem keys_fieldValues : ∀ (fs : List ShapeField) (ds : List Data),
    ((fieldValues shapes fs ds).map Prod.fst).Sublist (fs.map ShapeField.name)
  | [], _ => by
    rw [fieldValues]
    · exact List.Sublist.refl _
    · exact nofun
  | f :: fs, [] => by
    rw [fieldValues]
    · exact List.nil_sublist _
    · exact nofun
  | f :: fs, d :: ds => by
    rw [fieldValues, List.map_cons]
    split
    · exact (keys_fieldValues fs ds).cons _
    · exact (keys_fieldValues fs ds).cons_cons _

end Tree

/-! ## What a store builds -/

section Build

variable {shapes : Nat → List ShapeField} (hshapes : ∀ n, StoredNames ((shapes n).map ShapeField.name))

mutual

/-- Storing a value in a slot puts its tree there. -/
theorem puts_store (hshapes : ∀ n, StoredNames ((shapes n).map ShapeField.name)) :
    ∀ (t : DataType) (d : Data) (path : VPath), Of shapes t d →
      Puts path (toValue shapes t d) (store shapes t d path)
  | .scalar t, .scalar s, path, h => Puts.scalar
  | .option _, .none, path, h => Puts.scalar
  | .option t, .some d, path, h => puts_store hshapes t d path h
  | .vec t, .vec items, path, ⟨hlen, h⟩ =>
    Puts.container true (fills_storeItems hshapes t items [] 0 path h rfl (by rwa [Nat.zero_add]))
  | .map t, .map entries, path, ⟨hsorted, h⟩ => by
    have hnodup : (entries.map Prod.fst).Nodup := hsorted.imp ne_of_lt
    have hfills := fills_storeEntries hshapes t entries [] path h hnodup fun e _ => rfl
    rw [Assoc.insertAll_sorted (sorted_entryValues hsorted)] at hfills
    exact Puts.container false hfills
  | .derived n, .struct ds, path, h => by
    rw [Of] at h
    rw [toValue, store]
    apply Puts.container false
    exact fills_storeFields hshapes (shapes n) ds [] path h (hshapes n) fun f _ => rfl

theorem fills_storeItems (hshapes : ∀ n, StoredNames ((shapes n).map ShapeField.name)) (t : DataType) :
    ∀ (ds : List Data) (done : List Value) (i : Nat) (path : VPath), OfItems shapes t ds → done.length = i →
      i + ds.length < 2 ^ 64 →
        Fills path (.list done) (.list (done ++ itemValues shapes t ds)) (storeItems shapes t ds i path)
  | [], done, i, path, h, hi, hlen => by
    rw [itemValues, List.append_nil]
    exact Fills.nil
  | d :: ds, done, i, path, ⟨hd, hds⟩, hi, hlen => by
    rw [List.length_cons] at hlen
    apply ((puts_store hshapes t d _ hd).index (by omega) hi).append
    have hrest := fills_storeItems hshapes t ds (done ++ [toValue shapes t d]) (i + 1) path hds
      (by rw [List.length_append, hi]; rfl) (by omega)
    rwa [List.append_assoc] at hrest

theorem fills_storeEntries (hshapes : ∀ n, StoredNames ((shapes n).map ShapeField.name)) (t : DataType) :
    ∀ (es : List (Str × Data)) (acc : List (Str × Value)) (path : VPath), OfEntries shapes t es →
      (es.map Prod.fst).Nodup → (∀ e ∈ es, Assoc.find e.1 acc = none) →
        Fills path (.node acc) (.node (Assoc.insertAll acc (entryValues shapes t es)))
          (storeEntries shapes t es path)
  | [], acc, path, h, hnodup, hacc => Fills.nil
  | (name, d) :: es, acc, path, ⟨hname, hd, hes⟩, hnodup, hacc => by
    obtain ⟨hhead, hnodup⟩ := List.nodup_cons.1 hnodup
    apply ((puts_store hshapes t d _ hd).name hname (hacc (name, d) List.mem_cons_self)).append
    apply fills_storeEntries hshapes t es _ path hes hnodup
    intro e he
    have hne : e.1 ≠ name := fun heq => hhead (List.mem_map.2 ⟨e, he, heq⟩)
    rw [Assoc.find_insert, if_neg hne]
    exact hacc e (List.mem_cons_of_mem _ he)

/-- A field that is left out leaves the object as it is. -/
theorem fills_storeFields (hshapes : ∀ n, StoredNames ((shapes n).map ShapeField.name)) :
    ∀ (fs : List ShapeField) (ds : List Data) (acc : List (Str × Value)) (path : VPath), OfFields shapes fs ds →
      StoredNames (fs.map ShapeField.name) → (∀ f ∈ fs, Assoc.find f.name acc = none) →
        Fills path (.node acc) (.node (Assoc.insertAll acc (fieldValues shapes fs ds)))
          (storeFields shapes fs ds path)
  | [], [], acc, path, h, hnames, hacc => Fills.nil
  | f :: fs, d :: ds, acc, path, ⟨hd, hds⟩, hnames, hacc => by
    obtain ⟨hnodup, hreserved⟩ := hnames
    obtain ⟨hhead, hnodup⟩ := List.nodup_cons.1 hnodup
    have hrest : StoredNames (fs.map ShapeField.name) :=
      ⟨hnodup, fun n hn => hreserved n (List.mem_cons_of_mem _ hn)⟩
    rw [storeFields, fieldValues]
    cases hskip : f.skips d with
    | true => exact fills_storeFields hshapes fs ds acc path hds hrest fun g hg => hacc g (List.mem_cons_of_mem _ hg)
    | false =>
      have hname : ¬ VPath.Reserved f.name := hreserved f.name List.mem_cons_self
      apply ((puts_store hshapes f.ty d _ hd).name hname (hacc f List.mem_cons_self)).append
      apply fills_storeFields hshapes fs ds _ path hds hrest
      intro g hg
      have hne : g.name ≠ f.name := fun heq => hhead (List.mem_map.2 ⟨g, hg, heq⟩)
      rw [Assoc.find_insert, if_neg hne]
      exact hacc g (List.mem_cons_of_mem _ hg)

end

include hshapes in
/-- A builder that a value is stored in holds its tree. -/
theorem run_store {t : DataType} {d : Data} (h : Of shapes t d) :
    (MemWriter.new.run (store shapes t d .root)).value = toValue shapes t d := by
  have hputs := puts_store hshapes t d .root h (.node []) (.inr ⟨rfl, rfl⟩)
  rw [show VPath.root.segments = [] from rfl, Value.setIn_nil] at hputs
  exact (Option.some.inj hputs).symm

end Build

/-! ## What the direct encoder writes -/

section Kept

/-- The fields that are not left out. -/
def kept {α : Type} (fs : List (Str × Option α)) : List (Str × α) :=
  fs.filterMap fun f => f.2.map fun x => (f.1, x)

omit [Externals] in
theorem keys_kept {α : Type} (fs : List (Str × Option α)) :
    ((kept fs).map Prod.fst).Sublist (fs.map Prod.fst) := by
  induction fs with
  | nil => exact List.Sublist.refl _
  | cons f fs ih =>
    obtain ⟨name, x⟩ := f
    cases x with
    | none => exact ih.cons name
    | some x => exact ih.cons_cons name

omit [Externals] in
/-- Leaving fields out after sorting by name or before it is the same. -/
theorem kept_mergeSort {α : Type} {fs : List (Str × Option α)} (hnodup : (fs.map Prod.fst).Nodup) :
    kept (fs.mergeSort fun a b => decide (a.1 ≤ b.1)) = (kept fs).mergeSort fun a b => decide (a.1 ≤ b.1) := by
  have hkept : ((kept fs).map Prod.fst).Nodup := hnodup.sublist (keys_kept fs)
  have hperm : (kept fs).Perm (kept (fs.mergeSort fun a b => decide (a.1 ≤ b.1))) :=
    ((List.mergeSort_perm fs _).filterMap _).symm
  apply Assoc.ext_of_find ?_ (Assoc.sorted_mergeSort hkept)
  · intro name
    rw [← Assoc.find_perm hkept hperm, ← Assoc.find_perm hkept (List.mergeSort_perm (kept fs) _).symm]
  · exact List.Pairwise.sublist (keys_kept _) (Assoc.sorted_mergeSort hnodup)

omit [Externals] in
theorem runFields_eq (fs : List (Str × Option (Bytes → Nat × Bytes))) : runFields fs = runEncoders (kept fs) := by
  induction fs with
  | nil => rfl
  | cons f fs ih =>
    obtain ⟨name, emit⟩ := f
    funext buf
    cases emit with
    | none =>
      rw [runFields, ih]
      rfl
    | some emit =>
      rw [runFields, ih]
      rfl

end Kept

section Encode

variable {shapes : Nat → List ShapeField}

theorem keys_fieldEncoders : ∀ {fs : List ShapeField} {ds : List Data}, OfFields shapes fs ds →
    (fieldEncoders shapes fs ds).map Prod.fst = fs.map ShapeField.name
  | [], [], _ => rfl
  | f :: _, _ :: _, ⟨_, h⟩ => congrArg (f.name :: ·) (keys_fieldEncoders h)

mutual

/-- The direct encoder writes the vnodes of the tree. -/
theorem encodeNode_eq (hshapes : ∀ n, StoredNames ((shapes n).map ShapeField.name)) :
    ∀ (t : DataType) (d : Data), Of shapes t d → encodeNode shapes t d = pushValue (toValue shapes t d)
  | .scalar t, .scalar s, h => rfl
  | .option _, .none, h => rfl
  | .option t, .some d, h => encodeNode_eq hshapes t d h
  | .vec t, .vec items, ⟨_, h⟩ => by
    funext buf
    rw [encodeNode, toValue, pushValue, encodeItems_eq hshapes t items h]
  | .map t, .map es, ⟨_, h⟩ => by
    funext buf
    rw [encodeNode, toValue, pushValue, encodeEntries_eq hshapes t es h]
  | .derived n, .struct ds, h => by
    rw [Of] at h
    have hnodup : ((fieldEncoders shapes (shapes n) ds).map Prod.fst).Nodup := by
      rw [keys_fieldEncoders h]
      exact (hshapes n).1
    have hvalues : ((fieldValues shapes (shapes n) ds).map Prod.fst).Nodup :=
      (hshapes n).1.sublist (keys_fieldValues _ _)
    funext buf
    rw [encodeNode, toValue]
    simp only []
    rw [runFields_eq, kept_mergeSort hnodup, kept_fieldEncoders hshapes _ ds h, runEncoders_sorted hvalues,
      Value.object, pushValue]

theorem encodeItems_eq (hshapes : ∀ n, StoredNames ((shapes n).map ShapeField.name)) (t : DataType) :
    ∀ ds : List Data, OfItems shapes t ds → encodeItems shapes t ds = pushItems (itemValues shapes t ds)
  | [], h => rfl
  | d :: ds, ⟨hd, hds⟩ => by
    funext buf
    rw [encodeItems, itemValues, pushItems, encodeNode_eq hshapes t d hd, encodeItems_eq hshapes t ds hds]

theorem encodeEntries_eq (hshapes : ∀ n, StoredNames ((shapes n).map ShapeField.name)) (t : DataType) :
    ∀ es : List (Str × Data), OfEntries shapes t es →
      encodeEntries shapes t es = pushFields (entryValues shapes t es)
  | [], h => rfl
  | (name, d) :: es, ⟨_, hd, hes⟩ => by
    funext buf
    rw [encodeEntries, entryValues, pushFields, encodeNode_eq hshapes t d hd, encodeEntries_eq hshapes t es hes]

/-- The fields that are emitted are those of the tree. -/
theorem kept_fieldEncoders (hshapes : ∀ n, StoredNames ((shapes n).map ShapeField.name)) :
    ∀ (fs : List ShapeField) (ds : List Data), OfFields shapes fs ds →
      kept (fieldEncoders shapes fs ds) = (fieldValues shapes fs ds).map fun f => (f.1, pushValue f.2)
  | [], [], h => rfl
  | f :: fs, d :: ds, ⟨hd, hds⟩ => by
    have hrest := kept_fieldEncoders hshapes fs ds hds
    rw [fieldEncoders, fieldValues]
    cases f.skips d with
    | true => exact hrest
    | false =>
      have hhead : (fun buf => encodeNode shapes f.ty d buf) = pushValue (toValue shapes f.ty d) :=
        encodeNode_eq hshapes f.ty d hd
      exact congr (congrArg List.cons (congrArg (Prod.mk f.name) hhead)) hrest

end

/-- **The direct encoder writes what the value path does**: the blob of a value is the encoding of the
tree that its store builds in a fresh writer. -/
theorem encodeData_matches (shapes : Nat → List ShapeField)
    (hshapes : ∀ n, StoredNames ((shapes n).map ShapeField.name)) (t : DataType) (d : Data) (h : Of shapes t d) :
    encodeData shapes t d = encode (MemWriter.new.run (store shapes t d .root)).value := by
  rw [run_store hshapes h, encodeData, encodeNode_eq hshapes t d h, encode]

end Encode

end Shaped

end Direct

/-- A struct of a list and an optional number that is left out when it is absent. -/
def conditionalShapes (_ : Nat) : List (@ShapeField Reference.externals) :=
  letI := Reference.externals
  [⟨⟨"n"⟩, .option (.scalar .i64), some fun d => match d with
      | .none => true
      | _ => false⟩,
    ⟨⟨"a"⟩, .vec (.scalar .bool), none⟩]

theorem Shaped.encodeData_matches_left_out : letI := Reference.externals
    letI d : Data := .struct [.none, .vec [.scalar (.bool true)]]
    Shaped.encodeData conditionalShapes (.derived 0) d =
      encode (MemWriter.new.run (Shaped.store conditionalShapes (.derived 0) d .root)).value := by
  let _ := Reference.externals
  apply Shaped.encodeData_matches
  · intro _
    show StoredNames [⟨"n"⟩, ⟨"a"⟩]
    exact ⟨by decide, by decide⟩
  · exact ⟨trivial, ⟨⟨by decide, rfl, trivial⟩, trivial⟩⟩

end ArborDb
