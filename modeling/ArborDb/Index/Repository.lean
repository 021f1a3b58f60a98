import ArborDb.Index.Registry
import ArborDb.Lib.Lists
import ArborDb.Path.Text

/-!
# The stored registry

The registry is one value of the metadata table: the id allocator, a count and the entries. It is
read back in full, or walked for the tables and names alone, or for its count. A definition keeps
its columns as texts, so it is read back exactly if the texts of its columns stand for them
(`IndexDef.reads_decode`, `IndexDef.names_of_decode`).
-/

namespace ArborDb

/-- Reads a length-prefixed text. -/
def readText (msg : String) : ReadM Str := do
  let b ← Reader.bytes
  Scalar.orError (Str.fromUtf8 b) (.corrupt msg)

theorem reads_readText (msg : String) {s : Str} (h : s.bytes.length < 2 ^ 32) :
    Reads (readText msg) (putBytes s.bytes) s :=
  (Reads.bytes h).bind_nil (Scalar.reads_orError (Str.fromUtf8_bytes s))

/-- A result that does not depend on what is read. -/
def ReadM.lift {α : Type} (x : AdbResult α) : ReadM α := fun r => x.map (·, r)

theorem Reads.lift {α : Type} {x : AdbResult α} {a : α} (h : x = .ok a) : Reads (ReadM.lift x) [] a := by
  intro r tail _ _
  rw [ReadM.lift, h]
  rfl

/-! ## Definitions -/

namespace Direction

def toByte : Direction → Nat
  | .asc => 0
  | .desc => 1

def fromByte : Nat → AdbResult Direction
  | 0 => .ok .asc
  | 1 => .ok .desc
  | other => .error (.corrupt ("unknown index direction " ++ toString other))

theorem fromByte_toByte (d : Direction) : fromByte d.toByte = .ok d := by
  cases d <;> rfl

theorem toByte_lt (d : Direction) : d.toByte < 256 ^ 1 := by
  cases d <;> decide

end Direction

namespace IndexColumn

def encode (c : IndexColumn) : Bytes := putBytes (Str.bytes ⟨c.path.display⟩) ++ Bytes.be 1 c.direction.toByte

def decode : ReadM IndexColumn := do
  let text ← readText "invalid utf-8 in index definition"
  let path ← ReadM.lift (VPath.parse text)
  let byte ← Reader.u8
  let direction ← ReadM.lift (Direction.fromByte byte)
  return ⟨path, direction⟩

/-- Goes past a column. -/
def skip : ReadM Unit := do
  let _ ← Reader.bytes
  let _ ← Reader.u8
  return ()

theorem reads_decode {c : IndexColumn} (hnames : VPath.Names c.path.segments)
    (hlen : (Str.bytes ⟨c.path.display⟩).length < 2 ^ 32) : Reads decode c.encode c := by
  refine (reads_readText _ hlen).bind ?_
  refine Reads.nil_bind (Reads.lift (VPath.parse_display_iff.2 hnames)) ?_
  refine Reads.bind_nil (Reads.word c.direction.toByte_lt) ?_
  exact (Reads.lift c.direction.fromByte_toByte).map

theorem reads_skip {c : IndexColumn} (hlen : (Str.bytes ⟨c.path.display⟩).length < 2 ^ 32) :
    Reads skip c.encode () :=
  (Reads.bytes hlen).bind ((Reads.word c.direction.toByte_lt).map (f := fun _ => ()))

end IndexColumn

namespace IndexDef

/-- Appends the registry encoding of a definition. -/
def encode (d : IndexDef) : Bytes :=
  putBytes d.name.bytes ++ (putBytes d.pattern.bytes ++ (Bytes.be 1 d.unique.toNat ++
    (putU32 d.columns.length ++ d.columns.flatMap IndexColumn.encode)))

/-- Decodes a definition. -/
def decode : ReadM IndexDef := do
  let name ← readText "invalid utf-8 in index definition"
  let pattern ← readText "invalid utf-8 in index definition"
  let unique ← Reader.u8
  let count ← Reader.u32
  let columns ← Reader.times IndexColumn.decode count
  return ⟨name, pattern, columns, unique ≠ 0⟩

/-- Reads the name of an encoded definition and goes past the rest, without parsing any path. -/
def decodeName : ReadM Str := do
  let name ← readText "invalid utf-8 in index definition"
  let _ ← Reader.bytes
  let _ ← Reader.u8
  let count ← Reader.u32
  let _ ← Reader.times IndexColumn.skip count
  return name

/-- The lengths of a definition fit their prefixes. -/
structure Fits (d : IndexDef) : Prop where
  name : d.name.bytes.length < 2 ^ 32
  pattern : d.pattern.bytes.length < 2 ^ 32
  count : d.columns.length < 2 ^ 32
  paths : ∀ c ∈ d.columns, (Str.bytes ⟨c.path.display⟩).length < 2 ^ 32

/-- The texts of the columns stand for them. -/
def Readable (d : IndexDef) : Prop := ∀ c ∈ d.columns, VPath.Names c.path.segments

theorem reads_decode {d : IndexDef} (hfits : d.Fits) (hreadable : d.Readable) : Reads decode d.encode d := by
  refine (reads_readText _ hfits.name).bind ?_
  refine (reads_readText _ hfits.pattern).bind ?_
  have hunique : d.unique.toNat < 256 ^ 1 := by
    cases d.unique <;> decide
  refine (Reads.word hunique).bind ?_
  refine (Reads.u32 hfits.count).bind ?_
  have hcolumns : Reads (Reader.times IndexColumn.decode d.columns.length) (d.columns.flatMap IndexColumn.encode)
      (d.columns.map id) :=
    Reads.times fun c hc => IndexColumn.reads_decode (hreadable c hc) (hfits.paths c hc)
  rw [List.map_id] at hcolumns
  refine hcolumns.bind_nil ?_
  have hflag : (⟨d.name, d.pattern, d.columns, decide (d.unique.toNat ≠ 0)⟩ : IndexDef) = d := by
    obtain ⟨name, pattern, columns, unique⟩ := d
    cases unique <;> rfl
  rw [hflag]
  exact Reads.pure d

/-- Going past a definition needs no path to be readable. -/
theorem reads_decodeName {d : IndexDef} (hfits : d.Fits) : Reads decodeName d.encode d.name := by
  refine (reads_readText _ hfits.name).bind ?_
  refine (Reads.bytes hfits.pattern).bind ?_
  have hunique : d.unique.toNat < 256 ^ 1 := by
    cases d.unique <;> decide
  refine (Reads.word hunique).bind ?_
  refine (Reads.u32 hfits.count).bind ?_
  have hskip : Reads (Reader.times IndexColumn.skip d.columns.length) (d.columns.flatMap IndexColumn.encode)
      (d.columns.map fun _ => ()) :=
    Reads.times fun c hc => IndexColumn.reads_skip (hfits.paths c hc)
  exact hskip.bind_nil (Reads.pure d.name)

/-- What is read back has columns that were read from texts. -/
theorem readable_decode : Gives decode Readable := by
  have hcolumn : Gives IndexColumn.decode fun c => VPath.Names c.path.segments := by
    refine Gives.after fun text => ?_
    have hpath : Gives (ReadM.lift (VPath.parse text)) fun path => VPath.Names path.segments := by
      intro r path r' hrun
      rw [ReadM.lift] at hrun
      cases hparse : VPath.parse text with
      | error e =>
        rw [hparse] at hrun
        cases hrun
      | ok p =>
        rw [hparse] at hrun
        cases hrun
        exact VPath.names_parse hparse
    exact hpath.bind fun path hnames => Gives.after fun _ => Gives.after fun _ => Gives.pure hnames
  refine Gives.after fun name => Gives.after fun pattern => Gives.after fun unique => Gives.after fun count => ?_
  exact (hcolumn.times count).bind fun columns hcolumns => Gives.pure hcolumns

end IndexDef

/-! ## The whole registry -/

namespace Registry

def encodeEntry (x : Str × IndexEntry) : Bytes :=
  putBytes x.1.bytes ++ (putU32 x.2.id.val ++ x.2.definition.encode)

/-- Encodes the registry, with its entry count. -/
def encode (registry : Registry) : Bytes :=
  putU32 registry.nextId.val ++ (putU32 registry.entries.length ++ registry.entries.flatMap encodeEntry)

def decodeEntry : ReadM (Str × IndexEntry) := do
  let table ← readText "invalid utf-8 in index registry"
  let id ← Reader.u32
  let d ← IndexDef.decode
  return (table, ⟨Fin.ofNat (2 ^ 32) id, d⟩)

/-- Decodes the registry: the allocator, the count and the entries. -/
def decode : ReadM Registry := do
  let nextId ← Reader.u32
  let count ← Reader.u32
  let entries ← Reader.times decodeEntry count
  return ⟨Fin.ofNat (2 ^ 32) nextId, entries⟩

/-- What is stored of an entry is read back. -/
structure EntryFits (x : Str × IndexEntry) : Prop where
  table : x.1.bytes.length < 2 ^ 32
  definition : x.2.definition.Fits
  readable : x.2.definition.Readable

structure Fits (registry : Registry) : Prop where
  count : registry.entries.length < 2 ^ 32
  entries : ∀ x ∈ registry.entries, EntryFits x

theorem reads_decodeEntry {x : Str × IndexEntry} (h : EntryFits x) : Reads decodeEntry (encodeEntry x) x := by
  obtain ⟨table, id, d⟩ := x
  refine (reads_readText _ h.table).bind ?_
  refine (Reads.u32 id.isLt).bind ?_
  refine (IndexDef.reads_decode h.definition h.readable).bind_nil ?_
  rw [Fin.ofNat_eq_cast, Fin.cast_val_eq_self]
  exact Reads.pure _

theorem reads_decode {registry : Registry} (h : registry.Fits) : Reads decode registry.encode registry := by
  obtain ⟨nextId, entries⟩ := registry
  refine (Reads.u32 nextId.isLt).bind ?_
  refine (Reads.u32 h.count).bind ?_
  have hentries : Reads (Reader.times decodeEntry entries.length) (entries.flatMap encodeEntry) (entries.map id) :=
    Reads.times fun x hx => reads_decodeEntry (h.entries x hx)
  rw [List.map_id] at hentries
  refine hentries.bind_nil ?_
  rw [Fin.ofNat_eq_cast, Fin.cast_val_eq_self]
  exact Reads.pure _

end Registry

/-! ## The repository -/

/-- The value of the metadata table that holds the registry, if it is there. -/
abbrev RegistryBlob := Option Bytes

namespace RegistryRepository

/-- Loads the registry, or an empty one when the metadata key is absent. -/
def load : RegistryBlob → AdbResult Registry
  | some data => (Registry.decode (Reader.new data)).map Prod.fst
  | none => .ok .empty

def lookup (blob : RegistryBlob) (table name : Str) : AdbResult (Option IndexEntry) := do
  let registry ← load blob
  return registry.lookup table name

def forTable (blob : RegistryBlob) (table : Str) : AdbResult (List IndexEntry) := do
  let registry ← load blob
  return registry.forTable table

/-- Whether one of the next entries is the named one, going past their definitions. -/
def hasNext (table name : Str) : Nat → ReadM Bool
  | 0 => return false
  | n + 1 => do
    let entryTable ← readText "invalid utf-8 in index registry"
    let _ ← Reader.u32
    let entryName ← IndexDef.decodeName
    if entryTable = table ∧ entryName = name then return true
    else hasNext table name n

/-- Whether an index of a name is registered on a table, read without its definition. -/
def has (blob : RegistryBlob) (table name : Str) : AdbResult Bool :=
  match blob with
  | none => .ok false
  | some data => (do
      let _ ← Reader.u32
      let count ← Reader.u32
      hasNext table name count : ReadM Bool).run (Reader.new data) |>.map Prod.fst

/-- Whether any index is registered, read from the count alone. -/
def any (blob : RegistryBlob) : AdbResult Bool :=
  match blob with
  | none => .ok false
  | some data => (do
      let _ ← Reader.u32
      let count ← Reader.u32
      return decide (count > 0) : ReadM Bool).run (Reader.new data) |>.map Prod.fst

/-- Persists the registry; the storage engine refuses a value that is longer than `limit`. -/
def store (limit : Nat) (registry : Registry) : AdbResult RegistryBlob := do
  let registry ← registry.store
  if registry.encode.length ≤ limit then return some registry.encode
  else throw (.engine "the value being inserted exceeds the maximum")

/-- Registers a definition; whether it is a new index. -/
def create (limit : Nat) (blob : RegistryBlob) (table : Str) (d : IndexDef) : AdbResult (RegistryBlob × Bool) := do
  let registry ← load blob
  let (registry, created) ← registry.create table d
  if created then
    let blob ← store limit registry
    return (blob, true)
  else return (blob, false)

/-- Removes the index of a name; its entry, if there was one. -/
def delete (limit : Nat) (blob : RegistryBlob) (table name : Str) :
    AdbResult (RegistryBlob × Option IndexEntry) := do
  let registry ← load blob
  let (registry, removed) ← registry.delete table name
  if removed.isSome then
    let blob ← store limit registry
    return (blob, removed)
  else return (blob, none)

end RegistryRepository

/-! ## What a stored registry holds -/

/-- A value shorter than its length prefixes reach holds a registry that is read back. -/
theorem Registry.fits_of_length {registry : Registry} (hlen : registry.encode.length < 2 ^ 32)
    (hreadable : ∀ x ∈ registry.entries, x.2.definition.Readable) : registry.Fits := by
  have hwhole : (registry.entries.flatMap encodeEntry).length < 2 ^ 32 := by
    rw [encode, List.length_append, List.length_append] at hlen
    omega
  constructor
  · have hcount : registry.entries.length ≤ (registry.entries.flatMap encodeEntry).length := by
      refine List.length_le_of_flatMap fun x _ => List.ne_nil_of_length_pos ?_
      rw [encodeEntry, List.length_append, length_putBytes]
      omega
    omega
  · intro x hx
    have hentry := List.length_le_length_flatMap (f := encodeEntry) hx
    rw [encodeEntry, List.length_append, List.length_append, length_putBytes, length_putU32, IndexDef.encode,
      List.length_append, List.length_append, List.length_append, List.length_append, length_putBytes,
      length_putBytes, length_putU32] at hentry
    refine ⟨by omega, ⟨by omega, by omega, ?_, ?_⟩, hreadable x hx⟩
    · have hcount : x.2.definition.columns.length ≤ (x.2.definition.columns.flatMap IndexColumn.encode).length := by
        refine List.length_le_of_flatMap fun c _ => List.ne_nil_of_length_pos ?_
        rw [IndexColumn.encode, List.length_append, length_putBytes]
        omega
      omega
    · intro c hc
      have hcolumn := List.length_le_length_flatMap (f := IndexColumn.encode) hc
      rw [IndexColumn.encode, List.length_append, length_putBytes] at hcolumn
      omega

/-- The value of the metadata table holds a registry. -/
inductive HoldsRegistry : RegistryBlob → Registry → Prop
  | absent : HoldsRegistry none .empty
  | stored {registry : Registry} : registry.Fits → HoldsRegistry (some registry.encode) registry

namespace HoldsRegistry

open RegistryRepository

variable {blob : RegistryBlob} {registry : Registry} (h : HoldsRegistry blob registry) {limit : Nat}

include h

theorem load_eq : load blob = .ok registry := by
  cases h with
  | absent => rfl
  | stored hfits => rw [load, (Registry.reads_decode hfits).run_new, Except.map]

theorem lookup_eq (table name : Str) : lookup blob table name = .ok (registry.lookup table name) := by
  rw [lookup, h.load_eq]
  rfl

theorem forTable_eq (table : Str) : forTable blob table = .ok (registry.forTable table) := by
  rw [forTable, h.load_eq]
  rfl

omit h in
/-- The walk over the entries finds the named one if there is one. -/
theorem hasNext_eq (table name : Str) {entries : List (Str × IndexEntry)}
    (hentries : ∀ x ∈ entries, Registry.EntryFits x) {r : Reader} {tail : Bytes} (hpos : r.pos ≤ r.buf.length)
    (hr : r.rest = entries.flatMap Registry.encodeEntry ++ tail) :
    (hasNext table name entries.length r).map Prod.fst = .ok (entries.any (Registry.isNamed table name)) := by
  induction entries generalizing r with
  | nil => rfl
  | cons x entries ih =>
    have hx := hentries x List.mem_cons_self
    rw [List.flatMap_cons, Registry.encodeEntry, List.append_assoc, List.append_assoc, List.append_assoc] at hr
    obtain ⟨htable, hpos₁, hrest₁⟩ := (reads_readText "invalid utf-8 in index registry" hx.table).run_bind
      (fun entryTable => do
        let _ ← Reader.u32
        let entryName ← IndexDef.decodeName
        if entryTable = table ∧ entryName = name then return true
        else hasNext table name entries.length) hpos hr
    obtain ⟨hid, hpos₂, hrest₂⟩ := (Reads.u32 x.2.id.isLt).run_bind
      (fun _ => do
        let entryName ← IndexDef.decodeName
        if x.1 = table ∧ entryName = name then return true
        else hasNext table name entries.length) hpos₁ hrest₁
    obtain ⟨hname, hpos₃, hrest₃⟩ := (IndexDef.reads_decodeName hx.definition).run_bind
      (fun entryName => if x.1 = table ∧ entryName = name then return true
        else hasNext table name entries.length) hpos₂ hrest₂
    have hwalk : hasNext table name (x :: entries).length r = (if x.1 = table ∧ x.2.definition.name = name then
        (return true : ReadM Bool) else hasNext table name entries.length) _ :=
      htable.trans (hid.trans hname)
    rw [hwalk, List.any_cons]
    by_cases hnamed : x.1 = table ∧ x.2.definition.name = name
    · rw [if_pos hnamed]
      have hnamed' : Registry.isNamed table name x = true := by simp [Registry.isNamed, hnamed.1, hnamed.2]
      rw [hnamed']
      rfl
    · rw [if_neg hnamed, ih (fun y hy => hentries y (List.mem_cons_of_mem _ hy)) hpos₃ hrest₃]
      have hfalse : Registry.isNamed table name x = false := by
        simpa [Registry.isNamed] using hnamed
      rw [hfalse, Bool.false_or]

/-- The walk of the names agrees with the lookup. -/
theorem has_eq (table name : Str) : has blob table name = .ok (registry.lookup table name).isSome := by
  cases h with
  | absent => rfl
  | @stored registry hfits =>
    have hpos : (Reader.new registry.encode).pos ≤ (Reader.new registry.encode).buf.length := Nat.zero_le _
    have hr : (Reader.new registry.encode).rest = putU32 registry.nextId.val ++ (putU32 registry.entries.length ++
        (registry.entries.flatMap Registry.encodeEntry ++ [])) := by
      rw [List.append_nil]
      rfl
    obtain ⟨hid, hpos₁, hrest₁⟩ := (Reads.u32 registry.nextId.isLt).run_bind
      (fun _ => do
        let count ← Reader.u32
        hasNext table name count) hpos hr
    obtain ⟨hcount, hpos₂, hrest₂⟩ := (Reads.u32 hfits.count).run_bind
      (fun count => hasNext table name count) hpos₁ hrest₁
    have hwalk := hasNext_eq table name hfits.entries hpos₂ hrest₂
    change Except.map Prod.fst ((Reader.u32 >>= fun _ => Reader.u32 >>= fun count =>
      hasNext table name count) (Reader.new registry.encode)) = _
    rw [hid, hcount, hwalk, Registry.lookup, Option.isSome_map, List.isSome_find?]

/-- The count agrees with the entries. -/
theorem any_eq : any blob = .ok registry.any := by
  cases h with
  | absent => rfl
  | @stored registry hfits =>
    have hpos : (Reader.new registry.encode).pos ≤ (Reader.new registry.encode).buf.length := Nat.zero_le _
    have hr : (Reader.new registry.encode).rest = putU32 registry.nextId.val ++ (putU32 registry.entries.length ++
        (registry.entries.flatMap Registry.encodeEntry)) := rfl
    obtain ⟨hid, hpos₁, hrest₁⟩ := (Reads.u32 registry.nextId.isLt).run_bind
      (fun _ => do
        let count ← Reader.u32
        return decide (count > 0)) hpos hr
    obtain ⟨hcount, _, _⟩ := (Reads.u32 hfits.count).run_bind
      (fun count => return decide (count > 0)) hpos₁ hrest₁
    change Except.map Prod.fst ((Reader.u32 >>= fun _ => Reader.u32 >>= fun count =>
      pure (decide (count > 0))) (Reader.new registry.encode)) = _
    rw [hid, hcount]
    cases registry with
    | mk nextId entries => cases entries <;> rfl

omit h in
/-- What the engine takes holds the registry. -/
theorem of_store (hlimit : limit < 2 ^ 32) (hreadable : ∀ x ∈ registry.entries, x.2.definition.Readable)
    (hstore : store limit registry = .ok blob) : HoldsRegistry blob registry := by
  obtain ⟨stored, hstored, hstore⟩ := Except.bind_eq_ok.1 hstore
  unfold Registry.store at hstored
  split at hstored
  · cases hstored
    split at hstore
    · rename_i hlen
      cases hstore
      exact .stored (Registry.fits_of_length (by omega) hreadable)
    · cases hstore
  · cases hstored

theorem readable {x : Str × IndexEntry} (hx : x ∈ registry.entries) : x.2.definition.Readable := by
  cases h with
  | absent => cases hx
  | stored hfits => exact (hfits.entries x hx).readable

/-- Registering a definition that is read back keeps the value and the registry in step. -/
theorem create (hlimit : limit < 2 ^ 32) {table : Str} {d : IndexDef} (hd : d.Readable) {after : RegistryBlob}
    {created : Bool} (hcreate : RegistryRepository.create limit blob table d = .ok (after, created)) :
    ∃ registry', registry.create table d = .ok (registry', created) ∧ HoldsRegistry after registry' := by
  unfold RegistryRepository.create at hcreate
  rw [h.load_eq, Except.ok_bind] at hcreate
  obtain ⟨⟨registry', isNew⟩, hregistry, hstored⟩ := Except.bind_eq_ok.1 hcreate
  refine ⟨registry', ?_⟩
  rcases Registry.create_cases hregistry with ⟨rfl, rfl, -⟩ | ⟨rfl, -, -, hentries⟩
  · cases hstored
    exact ⟨hregistry, h⟩
  · obtain ⟨stored, hstore, hstored⟩ := Except.bind_eq_ok.1 hstored
    cases hstored
    refine ⟨hregistry, of_store hlimit ?_ hstore⟩
    intro x hx
    rw [hentries] at hx
    rcases List.mem_append.1 hx with hx | hx
    · exact h.readable hx
    · cases List.mem_singleton.1 hx
      exact hd

/-- So does removing an index. -/
theorem delete (hlimit : limit < 2 ^ 32) {table name : Str} {after : RegistryBlob} {removed : Option IndexEntry}
    (hdelete : RegistryRepository.delete limit blob table name = .ok (after, removed)) :
    ∃ registry', registry.delete table name = .ok (registry', removed) ∧ HoldsRegistry after registry' := by
  unfold RegistryRepository.delete at hdelete
  rw [h.load_eq, Except.ok_bind] at hdelete
  obtain ⟨⟨registry', gone⟩, hregistry, hstored⟩ := Except.bind_eq_ok.1 hdelete
  refine ⟨registry', ?_⟩
  rcases Registry.delete_cases hregistry with ⟨rfl, -, rfl⟩ | ⟨entry, rfl, -, rfl⟩
  · cases hstored
    exact ⟨hregistry, h⟩
  · obtain ⟨stored, hstore, hstored⟩ := Except.bind_eq_ok.1 hstored
    cases hstored
    refine ⟨hregistry, of_store hlimit ?_ hstore⟩
    intro x hx
    exact h.readable (List.mem_of_mem_eraseP hx)

end HoldsRegistry

end ArborDb
