import ArborDb.Codec.RoundTrip
import ArborDb.Serde.Blob
import ArborDb.Serde.Deserializer

/-!
# The bridge loses nothing

A value of a type is read back from its blob (`deserialize_stored`), its maps listed by the names of their
keys (`byName`). An option must not be over a type that is stored as `null`, and the fields of a struct must
have distinct names. A dynamic value of primitives is read back as it is (`valueFromBlob_encode`).
-/

namespace ArborDb.Serde

open Codec

/-! ## Induction over values -/

section Induction

variable {P : Data → Prop}

/-- A value has the property if it follows from that of its parts. -/
structure Inductive (P : Data → Prop) : Prop where
  prim : ∀ p, P (.prim p)
  none : P .none
  some : ∀ d, P d → P (.some d)
  seq : ∀ items, (∀ d ∈ items, P d) → P (.seq items)
  tuple : ∀ items, (∀ d ∈ items, P d) → P (.tuple items)
  map : ∀ entries, (∀ e ∈ entries, P e.2) → P (.map entries)
  unitStruct : P .unitStruct
  newtypeStruct : ∀ d, P d → P (.newtypeStruct d)
  struct : ∀ fields, (∀ f ∈ fields, P f.2) → P (.struct fields)
  unitVariant : ∀ variant, P (.unitVariant variant)
  newtypeVariant : ∀ variant d, P d → P (.newtypeVariant variant d)
  tupleVariant : ∀ variant items, (∀ d ∈ items, P d) → P (.tupleVariant variant items)
  structVariant : ∀ variant fields, (∀ f ∈ fields, P f.2) → P (.structVariant variant fields)

mutual

theorem Inductive.all (h : Inductive P) : ∀ d, P d
  | .prim p => h.prim p
  | .none => h.none
  | .some d => h.some d (h.all d)
  | .seq items => h.seq items (h.allItems items)
  | .tuple items => h.tuple items (h.allItems items)
  | .map entries => h.map entries (h.allEntries entries)
  | .unitStruct => h.unitStruct
  | .newtypeStruct d => h.newtypeStruct d (h.all d)
  | .struct fields => h.struct fields (h.allFields fields)
  | .unitVariant variant => h.unitVariant variant
  | .newtypeVariant variant d => h.newtypeVariant variant d (h.all d)
  | .tupleVariant variant items => h.tupleVariant variant items (h.allItems items)
  | .structVariant variant fields => h.structVariant variant fields (h.allFields fields)

theorem Inductive.allItems (h : Inductive P) : ∀ items : List Data, ∀ d ∈ items, P d
  | [] => nofun
  | x :: xs => List.forall_mem_cons.2 ⟨h.all x, h.allItems xs⟩

theorem Inductive.allFields (h : Inductive P) : ∀ fields : List (Str × Data), ∀ f ∈ fields, P f.2
  | [] => nofun
  | (_, x) :: xs => List.forall_mem_cons.2 ⟨h.all x, h.allFields xs⟩

theorem Inductive.allEntries (h : Inductive P) : ∀ entries : List (Key × Data), ∀ e ∈ entries, P e.2
  | [] => nofun
  | (_, x) :: xs => List.forall_mem_cons.2 ⟨h.all x, h.allEntries xs⟩

end

end Induction

/-! ## Values of a type -/

mutual

/-- How deep a value nests. -/
def depth : Data → Nat
  | .prim _ | .none | .unitStruct | .unitVariant _ => 0
  | .some d | .newtypeStruct d | .newtypeVariant _ d => depth d + 1
  | .seq items | .tuple items | .tupleVariant _ items => depthItems items + 1
  | .map entries => depthEntries entries + 1
  | .struct fields | .structVariant _ fields => depthFields fields + 1

def depthItems : List Data → Nat
  | [] => 0
  | d :: rest => max (depth d) (depthItems rest)

def depthFields : List (Str × Data) → Nat
  | [] => 0
  | (_, d) :: rest => max (depth d) (depthFields rest)

def depthEntries : List (Key × Data) → Nat
  | [] => 0
  | (_, d) :: rest => max (depth d) (depthEntries rest)

end

section Typing

variable (decls : Nat → Decl)

/-- The key is one of the type: a text, a character, a truth value, an integer or a unit variant. -/
def KeyOf : Key → Ty → Prop
  | .prim (.str _), .prim .str => True
  | .prim (.char _), .prim .char => True
  | .prim (.bool _), .prim .bool => True
  | .prim (.int k _), .prim (.int k') => k = k'
  | .unitVariant variant, .named n => match decls n with
    | .enum variants => Assoc.find variant variants = some .unit
    | _ => False
  | _, _ => False

mutual

/-- The value is one of the type. -/
def Of : Data → Ty → Prop
  | .prim p, .prim k => p.kind = k
  | .none, .option _ => True
  | .some d, .option t => Of d t
  | .seq items, .seq t => OfItems items t
  | .tuple items, .tuple ts => OfTuple items ts
  | .map entries, .map key t => (entries.map Prod.fst).Nodup ∧ OfEntries entries key t
  | .tuple items, .named n => match decls n with
    | .tupleStruct ts => OfTuple items ts
    | _ => False
  | .unitStruct, .named n => match decls n with
    | .unitStruct => True
    | _ => False
  | .newtypeStruct d, .named n => match decls n with
    | .newtypeStruct t => Of d t
    | _ => False
  | .struct fields, .named n => match decls n with
    | .struct types => OfFields fields types
    | _ => False
  | .unitVariant variant, .named n => match decls n with
    | .enum variants => match Assoc.find variant variants with
      | some .unit => True
      | _ => False
    | _ => False
  | .newtypeVariant variant d, .named n => match decls n with
    | .enum variants => match Assoc.find variant variants with
      | some (.newtype t) => Of d t
      | _ => False
    | _ => False
  | .tupleVariant variant items, .named n => match decls n with
    | .enum variants => match Assoc.find variant variants with
      | some (.tuple ts) => OfTuple items ts
      | _ => False
    | _ => False
  | .structVariant variant fields, .named n => match decls n with
    | .enum variants => match Assoc.find variant variants with
      | some (.struct types) => OfFields fields types
      | _ => False
    | _ => False
  | _, _ => False

def OfItems : List Data → Ty → Prop
  | [], _ => True
  | d :: rest, t => Of d t ∧ OfItems rest t

def OfTuple : List Data → List Ty → Prop
  | [], [] => True
  | d :: rest, t :: ts => Of d t ∧ OfTuple rest ts
  | _, _ => False

def OfFields : List (Str × Data) → List (Str × Ty) → Prop
  | [], [] => True
  | (name, d) :: rest, (name', t) :: ts => name = name' ∧ Of d t ∧ OfFields rest ts
  | _, _ => False

def OfEntries : List (Key × Data) → Ty → Ty → Prop
  | [], _, _ => True
  | (k, d) :: rest, key, t => KeyOf decls k key ∧ Of d t ∧ OfEntries rest key t

end

end Typing

section Lists

variable {decls : Nat → Decl}

theorem ofItems_iff {items : List Data} {t : Ty} : OfItems decls items t ↔ ∀ d ∈ items, Of decls d t := by
  induction items with
  | nil => simp [OfItems]
  | cons d rest ih => simp [OfItems, ih]

theorem ofTuple_iff {items : List Data} {ts : List Ty} : OfTuple decls items ts ↔ List.Forall₂ (Of decls) items ts := by
  induction items generalizing ts with
  | nil =>
    cases ts with
    | nil => exact ⟨fun _ => .nil, fun _ => trivial⟩
    | cons t ts => exact ⟨False.elim, fun h => nomatch h⟩
  | cons d rest ih =>
    cases ts with
    | nil => exact ⟨False.elim, fun h => nomatch h⟩
    | cons t ts => rw [OfTuple, List.forall₂_cons, ih]

theorem ofFields_iff {fields : List (Str × Data)} {types : List (Str × Ty)} :
    OfFields decls fields types ↔ List.Forall₂ (fun f t => f.1 = t.1 ∧ Of decls f.2 t.2) fields types := by
  induction fields generalizing types with
  | nil =>
    cases types with
    | nil => exact ⟨fun _ => .nil, fun _ => trivial⟩
    | cons t types => exact ⟨False.elim, fun h => nomatch h⟩
  | cons f rest ih =>
    cases types with
    | nil => exact ⟨False.elim, fun h => nomatch h⟩
    | cons t types => rw [OfFields, List.forall₂_cons, ih, and_assoc]

theorem ofEntries_iff {entries : List (Key × Data)} {key t : Ty} :
    OfEntries decls entries key t ↔ ∀ e ∈ entries, KeyOf decls e.1 key ∧ Of decls e.2 t := by
  induction entries with
  | nil => simp [OfEntries]
  | cons e rest ih => simp [OfEntries, ih, and_assoc]

theorem depth_le_items {items : List Data} {d : Data} (h : d ∈ items) : depth d ≤ depthItems items := by
  induction items with
  | nil => cases h
  | cons x rest ih =>
    rw [depthItems]
    rcases List.mem_cons.1 h with rfl | h
    · exact le_max_left _ _
    · exact (ih h).trans (le_max_right _ _)

theorem depth_le_fields {fields : List (Str × Data)} {f : Str × Data} (h : f ∈ fields) :
    depth f.2 ≤ depthFields fields := by
  induction fields with
  | nil => cases h
  | cons x rest ih =>
    rw [depthFields]
    rcases List.mem_cons.1 h with rfl | h
    · exact le_max_left _ _
    · exact (ih h).trans (le_max_right _ _)

theorem depth_le_entries {entries : List (Key × Data)} {e : Key × Data} (h : e ∈ entries) :
    depth e.2 ≤ depthEntries entries := by
  induction entries with
  | nil => cases h
  | cons x rest ih =>
    rw [depthEntries]
    rcases List.mem_cons.1 h with rfl | h
    · exact le_max_left _ _
    · exact (ih h).trans (le_max_right _ _)

end Lists

section Named

variable [Externals] [Printers]

mutual

/-- The same value, its maps listed by the names of their keys. -/
def byName : Data → Data
  | .prim p => .prim p
  | .none => .none
  | .some d => .some (byName d)
  | .seq items => .seq (byNameItems items)
  | .tuple items => .tuple (byNameItems items)
  | .map entries => .map (((byNameEntries entries).mergeSort fun a b => decide (a.1 ≤ b.1)).map Prod.snd)
  | .unitStruct => .unitStruct
  | .newtypeStruct d => .newtypeStruct (byName d)
  | .struct fields => .struct (byNameFields fields)
  | .unitVariant variant => .unitVariant variant
  | .newtypeVariant variant d => .newtypeVariant variant (byName d)
  | .tupleVariant variant items => .tupleVariant variant (byNameItems items)
  | .structVariant variant fields => .structVariant variant (byNameFields fields)

def byNameItems : List Data → List Data
  | [] => []
  | d :: rest => byName d :: byNameItems rest

def byNameFields : List (Str × Data) → List (Str × Data)
  | [] => []
  | (name, d) :: rest => (name, byName d) :: byNameFields rest

def byNameEntries : List (Key × Data) → List (Str × (Key × Data))
  | [] => []
  | (key, d) :: rest => (key.name, (key, byName d)) :: byNameEntries rest

end

theorem byNameItems_eq (items : List Data) : byNameItems items = items.map byName := by
  induction items with
  | nil => rfl
  | cons d rest ih => rw [byNameItems, ih, List.map_cons]

theorem byNameFields_eq (fields : List (Str × Data)) :
    byNameFields fields = fields.map fun f => (f.1, byName f.2) := by
  induction fields with
  | nil => rfl
  | cons f rest ih => rw [byNameFields, ih, List.map_cons]

theorem byNameEntries_eq (entries : List (Key × Data)) :
    byNameEntries entries = entries.map fun e => (e.1.name, (e.1, byName e.2)) := by
  induction entries with
  | nil => rfl
  | cons e rest ih => rw [byNameEntries, ih, List.map_cons]

theorem denoteItems_eq (items : List Data) : denoteItems items = items.map denote := by
  induction items with
  | nil => rfl
  | cons d rest ih => rw [denoteItems, ih, List.map_cons]

theorem denoteFields_eq (fields : List (Str × Data)) :
    denoteFields fields = fields.map fun f => (f.1, denote f.2) := by
  induction fields with
  | nil => rfl
  | cons f rest ih => rw [denoteFields, ih, List.map_cons]

theorem denoteEntries_eq (entries : List (Key × Data)) :
    denoteEntries entries = entries.map fun e => (e.1.name, denote e.2) := by
  induction entries with
  | nil => rfl
  | cons e rest ih => rw [denoteEntries, ih, List.map_cons]

end Named

/-! ## Well-formed types -/

section WellFormed

variable [Externals] [Printers] (decls : Nat → Decl)

/-- No value of the type is stored as `null`. -/
def NeverNull (t : Ty) : Prop := ∀ d, Of decls d t → denote d ≠ .leaf .null

mutual

/-- An option is over a type that is never stored as `null`. -/
def Ty.WF : Ty → Prop
  | .prim _ => True
  | .option t => NeverNull decls t ∧ t.WF
  | .seq t => t.WF
  | .tuple ts => Ty.WFAll ts
  | .map _ t => t.WF
  | .named _ => True

def Ty.WFAll : List Ty → Prop
  | [] => True
  | t :: ts => t.WF ∧ Ty.WFAll ts

end

/-- Fields of distinct names. -/
def WFFields (fields : List (Str × Ty)) : Prop := (fields.map Prod.fst).Nodup ∧ ∀ f ∈ fields, f.2.WF decls

def Payload.WF : Payload → Prop
  | .unit => True
  | .newtype t => t.WF decls
  | .tuple ts => ∀ t ∈ ts, t.WF decls
  | .struct fields => WFFields decls fields

def Decl.WF : Decl → Prop
  | .unitStruct => True
  | .newtypeStruct t => t.WF decls
  | .tupleStruct ts => ∀ t ∈ ts, t.WF decls
  | .struct fields => WFFields decls fields
  | .enum variants => ∀ v ∈ variants, v.2.WF decls

theorem wfAll_iff {ts : List Ty} : Ty.WFAll decls ts ↔ ∀ t ∈ ts, t.WF decls := by
  induction ts with
  | nil => simp [Ty.WFAll]
  | cons t ts ih => simp [Ty.WFAll, ih]

end WellFormed

/-! ## Keys -/

theorem IntKind.toInt_bounds (k : IntKind) (v : BitVec k.width) : k.bounds.1 ≤ k.toInt v ∧ k.toInt v < k.bounds.2 := by
  unfold IntKind.bounds IntKind.toInt
  split
  · exact ⟨BitVec.le_toInt v, BitVec.toInt_lt⟩
  · have hlt : (v.toNat : Int) < 2 ^ k.width := by exact_mod_cast v.isLt
    exact ⟨Int.natCast_nonneg _, hlt⟩

theorem IntKind.ofInt_toInt (k : IntKind) (v : BitVec k.width) : BitVec.ofInt k.width (k.toInt v) = v := by
  unfold IntKind.toInt
  split
  · exact BitVec.ofInt_toInt
  · rw [BitVec.ofInt_natCast, BitVec.ofNat_toNat, BitVec.setWidth_eq]

theorem IntKind.parse_display (k : IntKind) (v : BitVec k.width) : k.parse (k.display v) = some v := by
  have hsign : k.signed ∨ 0 ≤ k.toInt v := by
    cases hk : k.signed with
    | true => exact .inl rfl
    | false =>
      right
      rw [IntKind.toInt, hk]
      exact Int.natCast_nonneg _
  rw [IntKind.parse, IntKind.display, intText, String.toList_ofList, parseInt_intChars hsign]
  simp only [if_pos (k.toInt_bounds v), k.ofInt_toInt]

section Keys

variable [Externals] [Printers] [PrimitiveVisitors] [LawfulVisitors] {decls : Nat → Decl}

open LawfulVisitors in
/-- **A key is read back from its text.** -/
theorem deserializeKey_text {k : Key} {key : Ty} (h : KeyOf decls k key) (fuel : Nat) :
    k.text = .ok k.name ∧ deserializeKey decls (fuel + 1) key k.name = .ok k := by
  unfold KeyOf at h
  split at h
  · rename_i v
    have hself := accept_self (.str v)
    refine ⟨rfl, ?_⟩
    simp only [deserializeKey, Key.name, Key.text]
    rw [show PrimitiveVisitors.accept .str (.str v) = _ from hself]
    rfl
  · rename_i c
    refine ⟨rfl, ?_⟩
    simp only [deserializeKey, Key.name, Key.text, accept_char]
    rfl
  · rename_i v
    have hself : PrimitiveVisitors.accept .bool (.bool v) = _ := accept_self (.bool v)
    have hparse : parseBool ⟨toString v⟩ = some v := by
      cases v <;> rfl
    refine ⟨rfl, ?_⟩
    simp only [deserializeKey, Key.name, Key.text, hparse, parseKey, Option.map_some, hself]
    rfl
  · rename_i k v k'
    subst h
    have hself : PrimitiveVisitors.accept (.int k) (.int k v) = _ := accept_self (.int k v)
    refine ⟨rfl, ?_⟩
    simp only [deserializeKey, Key.name, Key.text, IntKind.parse_display, parseKey, Option.map_some, hself]
    rfl
  · split at h
    · rename_i variants hdecl
      refine ⟨rfl, ?_⟩
      simp only [deserializeKey, Key.name, Key.text, hdecl, h]
    · cases h
  · cases h

/-- The keys of a type differ in their names. -/
theorem nodup_names {entries : List (Key × Data)} {key : Ty} (hnodup : (entries.map Prod.fst).Nodup)
    (hof : ∀ e ∈ entries, KeyOf decls e.1 key) : (entries.map fun e => e.1.name).Nodup := by
  have hinj : ∀ k ∈ entries.map Prod.fst, ∀ k' ∈ entries.map Prod.fst, k.name = k'.name → k = k' := by
    intro k hk k' hk' hname
    obtain ⟨e, he, rfl⟩ := List.mem_map.1 hk
    obtain ⟨e', he', rfl⟩ := List.mem_map.1 hk'
    have hread := (deserializeKey_text (hof e he) 0).2
    rw [hname, (deserializeKey_text (hof e' he') 0).2] at hread
    exact (Except.ok.inj hread).symm
  have hnames := hnodup.map_on hinj
  rwa [List.map_map] at hnames

end Keys

/-! ## Reading lists -/

section Reading

variable {α β : Type} {node : ArchivedNode} {i len : Nat}

theorem next_eq {f : ArchivedNode → AdbResult α} {child : ArchivedNode} {a : α} (hi : i < len)
    (hchild : node.at? i = .ok (some child)) (ha : f child = .ok a) :
    SeqReader.next ⟨node, i, len⟩ f = .ok (some (a, ⟨node, i + 1, len⟩)) := by
  simp only [SeqReader.next]
  rw [if_neg (by omega), hchild, Except.ok_bind]
  simp only [ha, Except.ok_bind, Except.pure_eq_ok]

theorem readAll_eq {f : ArchivedNode → AdbResult α} {as : List α} (hlen : i + as.length = len)
    (h : ∀ j a, as[j]? = some a → ∃ child, node.at? (i + j) = .ok (some child) ∧ f child = .ok a) :
    SeqReader.readAll f as.length ⟨node, i, len⟩ = .ok as := by
  induction as generalizing i with
  | nil => rfl
  | cons a as ih =>
    obtain ⟨child, hchild, ha⟩ := h 0 a rfl
    rw [List.length_cons] at hlen
    have hrest := ih (i := i + 1) (by omega) (by
      intro j b hb
      obtain ⟨c, hc, hfb⟩ := h (j + 1) b hb
      exact ⟨c, by rw [← hc]; congr 1; omega, hfb⟩)
    rw [Nat.add_zero] at hchild
    have hnext : SeqReader.next ⟨node, i, len⟩ f = _ := next_eq (by omega) hchild ha
    rw [List.length_cons, SeqReader.readAll, hnext, Except.ok_bind]
    simp only [hrest, Except.ok_bind, Except.pure_eq_ok]

theorem readTuple_eq {f : β → ArchivedNode → AdbResult α} {ts : List β} {as : List α} (hlen : i + as.length ≤ len)
    (hlengths : ts.length = as.length)
    (h : ∀ j t a, ts[j]? = some t → as[j]? = some a →
      ∃ child, node.at? (i + j) = .ok (some child) ∧ f t child = .ok a) :
    SeqReader.readTuple f ts ⟨node, i, len⟩ = .ok as := by
  induction ts generalizing i as with
  | nil =>
    rw [List.length_eq_zero_iff.1 hlengths.symm]
    rfl
  | cons t ts ih =>
    obtain ⟨a, as, rfl⟩ := List.exists_cons_of_length_eq_add_one hlengths.symm
    obtain ⟨child, hchild, ha⟩ := h 0 t a rfl rfl
    rw [List.length_cons] at hlen
    have htail : ∀ j u b, ts[j]? = some u → as[j]? = some b →
        ∃ child, node.at? (i + 1 + j) = .ok (some child) ∧ f u child = .ok b := by
      intro j u b hu hb
      obtain ⟨c, hc, hfb⟩ := h (j + 1) u b hu hb
      exact ⟨c, by rw [← hc]; congr 1; omega, hfb⟩
    have hrest := ih (by omega) (by simpa using hlengths) htail
    rw [Nat.add_zero] at hchild
    have hnext : SeqReader.next ⟨node, i, len⟩ (f t) = _ := next_eq (by omega) hchild ha
    rw [SeqReader.readTuple, hnext, Except.ok_bind]
    simp only [hrest, Except.ok_bind, Except.pure_eq_ok]

end Reading

/-! ## Reading what is stored -/

section Stored

variable [Externals] {α : Type} {blob : Bytes} {off : Nat}

/-- The element of a stored list. -/
theorem stored_element {items : List Value} {i : Nat} {v : Value} (h : Stored blob off (.list items))
    (hi : items[i]? = some v) :
    ∃ c, ArchivedNode.at? ⟨blob, off⟩ i = .ok (some ⟨blob, c⟩) ∧ c < off ∧ Stored blob c v := by
  have hat := h.at? i
  rw [Value.at?, hi] at hat
  exact hat

theorem any_list {items : List Value} {visitor : Visitor α} (h : Stored blob off (.list items)) :
    deserializeAny ⟨blob, off⟩ visitor = visitor.seq ⟨⟨blob, off⟩, 0, items.length⟩ := by
  simp only [deserializeAny, h.kind, h.len, Except.ok_bind, Value.nodeKind]

theorem any_node {fields : List (Str × Value)} (h : Stored blob off (.node fields)) :
    ∃ es : List (Str × ArchivedNode), ArchivedNode.entries ⟨blob, off⟩ = .ok es ∧
      (∀ visitor : Visitor α, deserializeAny ⟨blob, off⟩ visitor = visitor.map es) ∧
      List.Forall₂ (fun e f => e.1 = f.1 ∧ ∃ c, e.2 = ⟨blob, c⟩ ∧ c < off ∧ Stored blob c f.2) es fields := by
  obtain ⟨es, hes, hall⟩ := h.entries
  refine ⟨es, hes, ?_, ?_⟩
  · intro visitor
    simp only [deserializeAny, h.kind, hes, Except.ok_bind, Value.nodeKind]
  · apply hall.imp
    rintro ⟨name, b, c⟩ f ⟨hname, rfl, hlt, hc⟩
    exact ⟨hname, c, rfl, hlt, hc⟩

/-- Where an enum is an object of one field, its variant is read with what is stored in it. -/
theorem enum_node {variant : Str} {v : Value} (h : Stored blob off (.node [(variant, v)])) :
    ∃ c, Stored blob c v ∧ ∀ visit : Str → Option ArchivedNode → AdbResult Data,
      deserializeEnum ⟨blob, off⟩ visit = visit variant (some ⟨blob, c⟩) := by
  obtain ⟨es, hes, -, hall⟩ := any_node (α := Data) h
  cases hall with
  | @cons e f es fields hef hrest =>
    cases hrest
    obtain ⟨name, node⟩ := e
    obtain ⟨hname, c, hc, -, hstored⟩ := hef
    obtain rfl : name = variant := hname
    obtain rfl : node = ⟨blob, c⟩ := hc
    refine ⟨c, hstored, ?_⟩
    intro visit
    simp only [deserializeEnum, h.kind, hes, Except.ok_bind, Value.nodeKind]

theorem any_leaf {s : Scalar} {visitor : Visitor α} (hs : s.Native) (hlen : s.encode.length < 2 ^ 32)
    (h : Stored blob off (.leaf s)) : deserializeAny ⟨blob, off⟩ visitor = scalarInto s visitor := by
  simp only [deserializeAny, h.kind, h.scalar_native hs hlen, Except.ok_bind, Value.nodeKind]

/-- Where it is a bare name, without a payload. -/
theorem enum_leaf {variant : Str} {visit : Str → Option ArchivedNode → AdbResult Data} (hb : blob.length < 2 ^ 32)
    (h : Stored blob off (.leaf (.str variant))) : deserializeEnum ⟨blob, off⟩ visit = visit variant none := by
  have hs : (Scalar.str variant).Native := trivial
  simp only [deserializeEnum, h.kind, h.scalar_native hs (h.scalar_length hb), Except.ok_bind, Value.nodeKind]

/-- An option that holds something is not stored as `null`. -/
theorem option_some {v : Value} {f : ArchivedNode → AdbResult Data} (hb : blob.length < 2 ^ 32)
    (h : Stored blob off v) (hnative : ∀ s, v = .leaf s → s.Native) (hv : v ≠ .leaf .null) :
    deserializeOption ⟨blob, off⟩ (.ok .none) f = f ⟨blob, off⟩ := by
  cases v with
  | leaf s =>
    have hs : s ≠ .null := fun hs => hv (by rw [hs])
    simp only [deserializeOption, h.kind, h.scalar_native (hnative s rfl) (h.scalar_length hb), Except.ok_bind,
      Value.nodeKind]
  | list items => simp only [deserializeOption, h.kind, Except.ok_bind, Value.nodeKind]
  | node fields => simp only [deserializeOption, h.kind, Except.ok_bind, Value.nodeKind]

/-- A primitive is handed to the visitor as it was. -/
theorem scalarInto_scalar {p : Primitive} {visitor : Visitor α} (hp : ∀ c, p ≠ .char c) :
    scalarInto p.scalar visitor = visitor.prim p := by
  cases p with
  | int k v => cases k <;> rfl
  | char c => exact absurd rfl (hp c)
  | _ => rfl

end Stored

/-! ## Reading a value back -/

section ReadBack

variable [Externals] [Printers] [PrimitiveVisitors] {decls : Nat → Decl} {blob : Bytes} {fuel off : Nat}

/-- The value is read back wherever its tree is stored. -/
def ReadBack (decls : Nat → Decl) (blob : Bytes) (d : Data) : Prop :=
  ∀ {t : Ty} {fuel off : Nat}, Of decls d t → t.WF decls → depth d < fuel → Stored blob off (denote d) →
    deserialize decls fuel t ⟨blob, off⟩ = .ok (byName d)

theorem readSeq {items : List Data} {t : Ty} (hread : ∀ d ∈ items, ReadBack decls blob d)
    (hof : OfItems decls items t) (ht : t.WF decls) (hfuel : depthItems items < fuel)
    (h : Stored blob off (.list (denoteItems items))) :
    deserializeAny ⟨blob, off⟩ (seqVisitor (deserialize decls fuel t)) = .ok (byNameItems items) := by
  rw [denoteItems_eq] at h
  have hchild : ∀ j a, (items.map byName)[j]? = some a → ∃ child,
      ArchivedNode.at? ⟨blob, off⟩ (0 + j) = .ok (some child) ∧ deserialize decls fuel t child = .ok a := by
    intro j a ha
    rw [List.getElem?_map] at ha
    obtain ⟨d, hd, rfl⟩ := Option.map_eq_some_iff.1 ha
    obtain ⟨c, hc, -, hstored⟩ := stored_element h (i := j) (v := denote d) (by rw [List.getElem?_map, hd]; rfl)
    have hmem := List.mem_of_getElem? hd
    rw [Nat.zero_add]
    exact ⟨_, hc, hread d hmem (ofItems_iff.1 hof d hmem) ht ((depth_le_items hmem).trans_lt hfuel) hstored⟩
  have hall := readAll_eq (by rw [Nat.zero_add]) hchild
  rw [any_list h, byNameItems_eq]
  rw [List.length_map] at hall ⊢
  exact hall

theorem readTuple {items : List Data} {ts : List Ty} (hread : ∀ d ∈ items, ReadBack decls blob d)
    (hof : OfTuple decls items ts) (ht : ∀ t ∈ ts, t.WF decls) (hfuel : depthItems items < fuel)
    (h : Stored blob off (.list (denoteItems items))) :
    deserializeAny ⟨blob, off⟩ (tupleVisitor (deserialize decls fuel) ts) = .ok (byNameItems items) := by
  rw [denoteItems_eq] at h
  have hof := ofTuple_iff.1 hof
  have hchild : ∀ j t a, ts[j]? = some t → (items.map byName)[j]? = some a → ∃ child,
      ArchivedNode.at? ⟨blob, off⟩ (0 + j) = .ok (some child) ∧ deserialize decls fuel t child = .ok a := by
    intro j t a hj ha
    rw [List.getElem?_map] at ha
    obtain ⟨d, hd, rfl⟩ := Option.map_eq_some_iff.1 ha
    obtain ⟨c, hc, -, hstored⟩ := stored_element h (i := j) (v := denote d) (by rw [List.getElem?_map, hd]; rfl)
    have hmem := List.mem_of_getElem? hd
    have hdt : Of decls d t := by
      obtain ⟨hlt, rfl⟩ := List.getElem?_eq_some_iff.1 hd
      obtain ⟨hlt', rfl⟩ := List.getElem?_eq_some_iff.1 hj
      exact hof.get hlt hlt'
    rw [Nat.zero_add]
    exact ⟨_, hc, hread d hmem hdt (ht t (List.mem_of_getElem? hj)) ((depth_le_items hmem).trans_lt hfuel) hstored⟩
  have hall : SeqReader.readTuple (deserialize decls fuel) ts ⟨⟨blob, off⟩, 0, items.length⟩ = _ :=
    readTuple_eq (by simp) (by rw [List.length_map, hof.length_eq]) hchild
  rw [any_list h, byNameItems_eq, List.length_map]
  exact hall

omit [Externals] [Printers] [PrimitiveVisitors] in
theorem putEntry_eq {k : Key} {d : Data} {acc : List (Key × Data)} (h : k ∉ acc.map Prod.fst) :
    putEntry k d acc = acc ++ [(k, d)] := by
  induction acc with
  | nil => rfl
  | cons e rest ih =>
    rw [List.map_cons, List.mem_cons, not_or] at h
    rw [putEntry, if_neg h.1, ih h.2, List.cons_append]

omit [Externals] [Printers] [PrimitiveVisitors] in
/-- Entries of distinct keys are gathered as they come. -/
theorem readEntries_eq {key : Str → AdbResult Key} {value : ArchivedNode → AdbResult Data} {es : MapReader}
    {read acc : List (Key × Data)}
    (h : List.Forall₂ (fun e r => key e.1 = .ok r.1 ∧ value e.2 = .ok r.2) es read)
    (hnodup : ((acc ++ read).map Prod.fst).Nodup) : readEntries key value es acc = .ok (acc ++ read) := by
  induction h generalizing acc with
  | nil => rw [readEntries, List.append_nil]
  | @cons e r es read her _ ih =>
    have hnew : r.1 ∉ acc.map Prod.fst := by
      intro hmem
      rw [List.map_append, List.map_cons] at hnodup
      exact (List.nodup_append.1 hnodup).2.2 r.1 hmem r.1 List.mem_cons_self rfl
    have hassoc : acc ++ r :: read = acc ++ [r] ++ read := by simp
    rw [hassoc] at hnodup ⊢
    simp only [readEntries, her.1, her.2, Except.ok_bind, putEntry_eq hnew]
    exact ih hnodup

theorem readMap [LawfulVisitors] {entries : List (Key × Data)} {key t : Ty}
    (hread : ∀ e ∈ entries, ReadBack decls blob e.2) (hnodup : (entries.map Prod.fst).Nodup)
    (hof : OfEntries decls entries key t) (ht : t.WF decls) (hfuel : depthEntries entries < fuel)
    (h : Stored blob off (.node (Assoc.insertAll [] (denoteEntries entries)))) :
    deserializeAny ⟨blob, off⟩ (mapVisitor (deserializeKey decls fuel key) (deserialize decls fuel t)) =
      .ok (((byNameEntries entries).mergeSort fun a b => decide (a.1 ≤ b.1)).map Prod.snd) := by
  obtain ⟨fuel, rfl⟩ := Nat.exists_eq_add_of_lt (Nat.zero_lt_of_lt hfuel)
  rw [Nat.zero_add] at hfuel ⊢
  have hof := ofEntries_iff.1 hof
  -- The entries by name, with the keys and values they stand for.
  let named := Assoc.insertAll [] (entries.map fun e => (e.1.name, e))
  have hfields : Assoc.insertAll [] (denoteEntries entries) = named.map fun x => (x.1, denote x.2.2) := by
    rw [Assoc.map_insertAll (f := fun e : Key × Data => denote e.2), List.map_map, denoteEntries_eq]
    rfl
  have hresult : ((byNameEntries entries).mergeSort fun a b => decide (a.1 ≤ b.1)) =
      named.map fun x => (x.1, (x.2.1, byName x.2.2)) := by
    have hnames := nodup_names hnodup fun e he => (hof e he).1
    have hsort : Assoc.insertAll [] (byNameEntries entries) = _ :=
      Assoc.insertAll_eq_mergeSort (by rwa [byNameEntries_eq, List.map_map])
    rw [← hsort, Assoc.map_insertAll (f := fun e : Key × Data => (e.1, byName e.2)), List.map_map, byNameEntries_eq]
    rfl
  have hmem : ∀ x ∈ named, x.2 ∈ entries ∧ x.1 = x.2.1.name := by
    intro x hx
    rcases Assoc.mem_insertAll hx with hx | hx
    · cases hx
    · obtain ⟨e, he, rfl⟩ := List.mem_map.1 hx
      exact ⟨he, rfl⟩
  have hsorted : Assoc.Sorted named := Assoc.sorted_insertAll Assoc.sorted_nil
  rw [hfields] at h
  obtain ⟨es, -, hany, hes⟩ := any_node (α := List (Key × Data)) h
  rw [hany, hresult, List.map_map]
  have hentries : List.Forall₂ (fun e (r : Key × Data) => deserializeKey decls (fuel + 1) key e.1 = .ok r.1 ∧
      deserialize decls (fuel + 1) t e.2 = .ok r.2) es (named.map fun x => (x.2.1, byName x.2.2)) := by
    rw [List.forall₂_map_right_iff] at hes ⊢
    apply hes.imp_of_mem
    rintro e x hx ⟨hname, c, hc, -, hstored⟩
    obtain ⟨hentry, hxname⟩ := hmem x hx
    obtain ⟨hkey, hvalue⟩ := hof x.2 hentry
    rw [hname, hc, hxname]
    exact ⟨(deserializeKey_text hkey fuel).2,
      hread x.2 hentry hvalue ht ((depth_le_entries hentry).trans_lt hfuel) hstored⟩
  have hkeys : ((([] : List (Key × Data)) ++ named.map fun x => (x.2.1, byName x.2.2)).map Prod.fst).Nodup := by
    have hnames : (named.map fun x => x.2.1.name).Nodup := by
      have hsame : (named.map fun x => x.2.1.name) = named.map Prod.fst :=
        List.map_congr_left fun x hx => (hmem x hx).2.symm
      rw [hsame]
      exact hsorted.nodup
    rw [List.nil_append, List.map_map]
    apply List.Nodup.of_map Key.name
    rwa [List.map_map]
  exact readEntries_eq hentries hkeys

omit [Externals] [Printers] [PrimitiveVisitors] in
/-- Fields of distinct names are gathered as they come. -/
theorem readFields_eq {f : Ty → ArchivedNode → AdbResult Data} {ignore : ArchivedNode → AdbResult Unit}
    {types : List (Str × Ty)} {es : MapReader} {read found : List (Str × Data)}
    (h : List.Forall₂ (fun e r => e.1 = r.1 ∧ ∃ t, Assoc.find r.1 types = some t ∧ f t e.2 = .ok r.2) es read)
    (hnodup : ((read.reverse ++ found).map Prod.fst).Nodup) :
    readFields f ignore types es found = .ok (read.reverse ++ found) := by
  induction h generalizing found with
  | nil => rfl
  | @cons e r es read her _ ih =>
    obtain ⟨name, node⟩ := e
    obtain ⟨hname, t, hfind, hread⟩ := her
    obtain rfl : name = r.1 := hname
    have hassoc : (r :: read).reverse ++ found = read.reverse ++ r :: found := by simp
    rw [hassoc] at hnodup ⊢
    have hnew : Assoc.find r.1 found = none := by
      apply Assoc.find_eq_none.2
      intro x hx heq
      rw [List.map_append, List.map_cons] at hnodup
      have hcons := (List.nodup_append.1 hnodup).2.1
      exact (List.nodup_cons.1 hcons).1 (heq ▸ List.mem_map_of_mem hx)
    simp only [readFields, hfind, hnew, hread, Except.ok_bind, Option.isSome_none, Bool.false_eq_true, if_false]
    exact ih hnodup

theorem readStruct {fields : List (Str × Data)} {types : List (Str × Ty)}
    (hread : ∀ f ∈ fields, ReadBack decls blob f.2) (hof : OfFields decls fields types)
    (hwf : WFFields decls types) (hfuel : depthFields fields < fuel) (ignore : ArchivedNode → AdbResult Unit)
    (h : Stored blob off (.node (Assoc.insertAll [] (denoteFields fields)))) :
    deserializeAny ⟨blob, off⟩ (structVisitor (deserialize decls fuel) ignore types) = .ok (byNameFields fields) := by
  have hof := ofFields_iff.1 hof
  have hnames : fields.map Prod.fst = types.map Prod.fst := by
    have hfirst : List.Forall₂ (· = ·) (fields.map Prod.fst) (types.map Prod.fst) := by
      rw [List.forall₂_map_left_iff, List.forall₂_map_right_iff]
      exact hof.imp fun _ _ hft => hft.1
    exact List.forall₂_eq_eq_eq ▸ hfirst
  have hnodup : (fields.map Prod.fst).Nodup := hnames ▸ hwf.1
  -- The fields by name, as the object lists them.
  let named := Assoc.insertAll [] fields
  have hfields : Assoc.insertAll [] (denoteFields fields) = named.map fun x => (x.1, denote x.2) := by
    rw [Assoc.map_insertAll (f := denote), denoteFields_eq]
    rfl
  have hmem : ∀ x ∈ named, x ∈ fields := fun x hx => (Assoc.mem_insertAll hx).resolve_left (by simp)
  have hsorted : Assoc.Sorted named := Assoc.sorted_insertAll Assoc.sorted_nil
  have htype : ∀ x ∈ fields, ∃ t, Assoc.find x.1 types = some t ∧ Of decls x.2 t ∧ t.WF decls := by
    intro x hx
    obtain ⟨t, ht, hname, hxt⟩ := hof.exists_of_mem hx
    rw [hname]
    exact ⟨t.2, Assoc.find_of_mem_nodup hwf.1 ht, hxt, hwf.2 t ht⟩
  rw [hfields] at h
  obtain ⟨es, -, hany, hes⟩ := any_node (α := List (Str × Data)) h
  let read := named.map fun x => (x.1, byName x.2)
  have hreads : List.Forall₂ (fun e (r : Str × Data) => e.1 = r.1 ∧
      ∃ t, Assoc.find r.1 types = some t ∧ deserialize decls fuel t e.2 = .ok r.2) es read := by
    rw [List.forall₂_map_right_iff] at hes ⊢
    apply hes.imp_of_mem
    rintro e x hx ⟨hname, c, hc, -, hstored⟩
    obtain ⟨t, hfind, hxt, ht⟩ := htype x (hmem x hx)
    rw [hc]
    exact ⟨hname, t, hfind,
      hread x (hmem x hx) hxt ht ((depth_le_fields (hmem x hx)).trans_lt hfuel) hstored⟩
  have hfound : (read.map Prod.fst).Nodup := by
    rw [List.map_map]
    exact hsorted.nodup
  have hgathered : readFields (deserialize decls fuel) ignore types es [] = .ok (read.reverse ++ []) :=
    readFields_eq hreads (by simpa using hfound)
  have htaken : List.Forall₂ (fun t (r : Str × Data) => takeField (read.reverse ++ []) t = .ok r) types
      (fields.map fun f => (f.1, byName f.2)) := by
    rw [List.forall₂_map_right_iff]
    apply hof.flip.imp_of_mem
    rintro t x hx ⟨hname, -⟩
    have hin : x ∈ named := by
      apply Assoc.mem_of_find
      rw [Assoc.find_insertAll hnodup, Assoc.find_of_mem_nodup hnodup hx]
      rfl
    have hfind : Assoc.find t.1 (read.reverse ++ []) = some (byName x.2) := by
      rw [← hname]
      apply Assoc.find_of_mem_nodup (by simpa using hfound)
      rw [List.append_nil, List.mem_reverse]
      exact List.mem_map.2 ⟨x, hin, rfl⟩
    rw [takeField, hfind, hname]
  rw [hany, byNameFields_eq]
  simp only [structVisitor, hgathered, Except.ok_bind]
  exact Except.mapM_forall₂ htaken

/-- Reading takes at least one step. -/
theorem ReadBack.of_succ {d : Data} (h : ∀ {t : Ty} {fuel off : Nat}, Of decls d t → t.WF decls → depth d ≤ fuel →
    Stored blob off (denote d) → deserialize decls (fuel + 1) t ⟨blob, off⟩ = .ok (byName d)) :
    ReadBack decls blob d := by
  intro t fuel off hof ht hfuel hstored
  cases fuel with
  | zero => exact absurd hfuel (Nat.not_lt_zero _)
  | succ fuel => exact h hof ht (Nat.le_of_lt_succ hfuel) hstored

omit [Printers] in
open LawfulVisitors in
/-- A primitive is read back by its type. -/
theorem readPrim [LawfulVisitors] {p : Primitive} (hlen : p.scalar.encode.length < 2 ^ 32)
    (h : Stored blob off (.leaf p.scalar)) :
    deserializeAny ⟨blob, off⟩ (primVisitor p.kind) = .ok (.prim p) := by
  rw [any_leaf p.native_scalar hlen h]
  by_cases hp : ∃ c, p = .char c
  · obtain ⟨c, rfl⟩ := hp
    change (PrimitiveVisitors.accept .char (.str ⟨String.singleton c⟩) >>= fun p => Except.ok (Data.prim p)) = _
    rw [accept_char]
    rfl
  · rw [scalarInto_scalar fun c hc => hp ⟨c, hc⟩]
    change (PrimitiveVisitors.accept p.kind p >>= fun p => Except.ok (Data.prim p)) = _
    rw [accept_self]
    rfl

/-- **Every value is read back.** -/
theorem inductive_readBack [LawfulVisitors] (hb : blob.length < 2 ^ 32) (hdecls : ∀ n, (decls n).WF decls) :
    Inductive (ReadBack decls blob) where
  prim p := by
    apply ReadBack.of_succ
    intro t fuel off hof _ _ h
    cases t with
    | prim k =>
      obtain rfl : p.kind = k := hof
      exact readPrim (Codec.Stored.scalar_length hb h) h
    | _ => exact False.elim hof
  none := by
    apply ReadBack.of_succ
    intro t fuel off hof _ _ h
    cases t with
    | option t =>
      have hnull : Stored blob off (.leaf .null) := h
      have hnative : (Scalar.null).Native := trivial
      have hscalar := hnull.scalar_native hnative (hnull.scalar_length hb)
      simp only [deserialize, deserializeOption, hnull.kind, hscalar, Except.ok_bind, Value.nodeKind]
      rfl
    | _ => exact False.elim hof
  some d ih := by
    apply ReadBack.of_succ
    intro t fuel off hof ht hfuel h
    cases t with
    | option t =>
      simp only [denote] at h
      have hsome := option_some (f := fun node => do return .some (← deserialize decls fuel t node)) hb h
        (fun _ => native_denote) (ht.1 d hof)
      simp only [deserialize, hsome, ih hof ht.2 hfuel h, Except.ok_bind]
      rfl
    | _ => exact False.elim hof
  seq items ih := by
    apply ReadBack.of_succ
    intro t fuel off hof ht hfuel h
    cases t with
    | seq t =>
      simp only [deserialize, readSeq ih hof ht hfuel h, Except.ok_bind]
      rfl
    | _ => exact False.elim hof
  tuple items ih := by
    apply ReadBack.of_succ
    intro t fuel off hof ht hfuel h
    cases t with
    | tuple ts =>
      simp only [deserialize, readTuple ih hof ((wfAll_iff decls).1 ht) hfuel h, Except.ok_bind]
      rfl
    | named n =>
      have hdecl := hdecls n
      simp only [Of] at hof
      split at hof
      · rename_i ts hn
        rw [hn] at hdecl
        simp only [deserialize, hn, readTuple ih hof hdecl hfuel h, Except.ok_bind]
        rfl
      · exact False.elim hof
    | _ => exact False.elim hof
  map entries ih := by
    apply ReadBack.of_succ
    intro t fuel off hof ht hfuel h
    cases t with
    | map key t =>
      simp only [deserialize, readMap ih hof.1 hof.2 ht hfuel h, Except.ok_bind]
      rfl
    | _ => exact False.elim hof
  unitStruct := by
    apply ReadBack.of_succ
    intro t fuel off hof ht hfuel h
    cases t with
    | named n =>
      simp only [Of] at hof
      split at hof
      · rename_i hn
        have hnative : (Scalar.null).Native := trivial
        simp only [deserialize, hn, any_leaf hnative (Codec.Stored.scalar_length hb h) h]
        rfl
      · exact False.elim hof
    | _ => exact False.elim hof
  newtypeStruct d ih := by
    apply ReadBack.of_succ
    intro t fuel off hof ht hfuel h
    cases t with
    | named n =>
      have hdecl := hdecls n
      simp only [Of] at hof
      split at hof
      · rename_i t hn
        rw [hn] at hdecl
        simp only [denote] at h
        simp only [deserialize, hn, ih hof hdecl hfuel h, Except.ok_bind]
        rfl
      · exact False.elim hof
    | _ => exact False.elim hof
  struct fields ih := by
    apply ReadBack.of_succ
    intro t fuel off hof ht hfuel h
    cases t with
    | named n =>
      have hdecl := hdecls n
      simp only [Of] at hof
      split at hof
      · rename_i types hn
        rw [hn] at hdecl
        simp only [deserialize, hn, readStruct ih hof hdecl hfuel _ h, Except.ok_bind]
        rfl
      · exact False.elim hof
    | _ => exact False.elim hof
  unitVariant variant := by
    apply ReadBack.of_succ
    intro t fuel off hof _ _ h
    cases t with
    | named n =>
      simp only [Of] at hof
      split at hof
      · rename_i variants hn
        split at hof
        · rename_i hfind
          simp only [deserialize, hn, enum_leaf hb h, readVariant, hfind]
          rfl
        · exact False.elim hof
      · exact False.elim hof
    | _ => exact False.elim hof
  newtypeVariant variant d ih := by
    apply ReadBack.of_succ
    intro t fuel off hof _ hfuel h
    cases t with
    | named n =>
      have hdecl := hdecls n
      simp only [Of] at hof
      split at hof
      · rename_i variants hn
        split at hof
        · rename_i t hfind
          rw [hn] at hdecl
          have ht : t.WF decls := hdecl _ (Assoc.mem_of_find hfind)
          obtain ⟨c, hstored, henum⟩ := enum_node h
          simp only [deserialize, hn, henum, readVariant, hfind, ih hof ht hfuel hstored, Except.ok_bind]
          rfl
        · exact False.elim hof
      · exact False.elim hof
    | _ => exact False.elim hof
  tupleVariant variant items ih := by
    apply ReadBack.of_succ
    intro t fuel off hof _ hfuel h
    cases t with
    | named n =>
      have hdecl := hdecls n
      simp only [Of] at hof
      split at hof
      · rename_i variants hn
        split at hof
        · rename_i ts hfind
          rw [hn] at hdecl
          have hts : ∀ t ∈ ts, t.WF decls := hdecl _ (Assoc.mem_of_find hfind)
          obtain ⟨c, hstored, henum⟩ := enum_node h
          simp only [deserialize, hn, henum, readVariant, hfind, readTuple ih hof hts hfuel hstored, Except.ok_bind]
          rfl
        · exact False.elim hof
      · exact False.elim hof
    | _ => exact False.elim hof
  structVariant variant fields ih := by
    apply ReadBack.of_succ
    intro t fuel off hof _ hfuel h
    cases t with
    | named n =>
      have hdecl := hdecls n
      simp only [Of] at hof
      split at hof
      · rename_i variants hn
        split at hof
        · rename_i types hfind
          rw [hn] at hdecl
          have hwf : WFFields decls types := hdecl _ (Assoc.mem_of_find hfind)
          obtain ⟨c, hstored, henum⟩ := enum_node h
          simp only [deserialize, hn, henum, readVariant, hfind, readStruct ih hof hwf hfuel _ hstored, Except.ok_bind]
          rfl
        · exact False.elim hof
      · exact False.elim hof
    | _ => exact False.elim hof

omit [PrimitiveVisitors] in
theorem keyed_tuple {items : List Data} {ts : List Ty} (ih : ∀ d ∈ items, ∀ t, Of decls d t → Keyed d)
    (hof : OfTuple decls items ts) : KeyedItems items := by
  apply keyedItems_iff.2
  intro d hd
  obtain ⟨t, -, hdt⟩ := (ofTuple_iff.1 hof).exists_of_mem hd
  exact ih d hd t hdt

omit [PrimitiveVisitors] in
theorem keyed_struct {fields : List (Str × Data)} {types : List (Str × Ty)}
    (ih : ∀ f ∈ fields, ∀ t, Of decls f.2 t → Keyed f.2) (hof : OfFields decls fields types) :
    KeyedFields fields := by
  apply keyedFields_iff.2
  intro f hf
  obtain ⟨t, -, -, hft⟩ := (ofFields_iff.1 hof).exists_of_mem hf
  exact ih f hf t.2 hft

/-- The map keys of a value of a type have texts. -/
theorem inductive_keyed [LawfulVisitors] : Inductive fun d => ∀ t, Of decls d t → Keyed d where
  prim _ _ _ := trivial
  none _ _ := trivial
  some d ih t hof := by
    cases t with
    | option t => exact ih t hof
    | _ => exact False.elim hof
  seq items ih t hof := by
    cases t with
    | seq t => exact keyedItems_iff.2 fun d hd => ih d hd t (ofItems_iff.1 hof d hd)
    | _ => exact False.elim hof
  tuple items ih t hof := by
    cases t with
    | tuple ts => exact keyed_tuple ih hof
    | named n =>
      simp only [Of] at hof
      split at hof
      · exact keyed_tuple ih hof
      · exact False.elim hof
    | _ => exact False.elim hof
  map entries ih t hof := by
    cases t with
    | map key t =>
      apply keyedEntries_iff.2
      intro e he
      obtain ⟨hkey, hvalue⟩ := ofEntries_iff.1 hof.2 e he
      exact ⟨⟨_, (deserializeKey_text hkey 0).1⟩, ih e he t hvalue⟩
    | _ => exact False.elim hof
  unitStruct _ _ := trivial
  newtypeStruct d ih t hof := by
    cases t with
    | named n =>
      simp only [Of] at hof
      split at hof
      · exact ih _ hof
      · exact False.elim hof
    | _ => exact False.elim hof
  struct fields ih t hof := by
    cases t with
    | named n =>
      simp only [Of] at hof
      split at hof
      · exact keyed_struct ih hof
      · exact False.elim hof
    | _ => exact False.elim hof
  unitVariant _ _ _ := trivial
  newtypeVariant variant d ih t hof := by
    cases t with
    | named n =>
      simp only [Of] at hof
      split at hof
      · split at hof
        · exact ih _ hof
        · exact False.elim hof
      · exact False.elim hof
    | _ => exact False.elim hof
  tupleVariant variant items ih t hof := by
    cases t with
    | named n =>
      simp only [Of] at hof
      split at hof
      · split at hof
        · exact keyed_tuple ih hof
        · exact False.elim hof
      · exact False.elim hof
    | _ => exact False.elim hof
  structVariant variant fields ih t hof := by
    cases t with
    | named n =>
      simp only [Of] at hof
      split at hof
      · split at hof
        · exact keyed_struct ih hof
        · exact False.elim hof
      · exact False.elim hof
    | _ => exact False.elim hof

end ReadBack

end ArborDb.Serde
