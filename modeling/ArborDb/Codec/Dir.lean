import ArborDb.Codec.RoundTrip
import ArborDb.Key

/-!
# The directory blob

A directory is a name-sorted map from names to keys: a count, that many fixed-width records
`(name offset, name length, child key)`, then the name bytes. A child is found by binary search
over the records. A directory whose blob stays below `2 ^ 32` bytes is read back exactly
(`archivedDir_get`, `archivedDir_entries`); the rest of the development therefore keeps a
directory as its map.
-/

namespace ArborDb

namespace Codec

/-- Bytes per record: name offset, name length and child key. -/
def dirRecordLen := 4 + 4 + 16

/-- The records of a directory whose names are laid out from `nameOff`. -/
def dirTable : Nat → List (Str × AKey) → Bytes
  | _, [] => []
  | nameOff, (name, akey) :: rest =>
    putU32 nameOff ++ putU32 name.bytes.length ++ akey.intoBytes ++
      dirTable (nameOff + name.bytes.length) rest

/-- Serialises a directory's children. -/
def encodeDir (children : SortedMap Str AKey) : Bytes :=
  putU32 children.entries.length ++
    dirTable (4 + children.entries.length * dirRecordLen) children.entries ++
    children.entries.flatMap fun e => e.1.bytes

end Codec

open Codec

/-- A view over a directory blob. -/
structure ArchivedDir where
  blob : Bytes

namespace ArchivedDir

/-- Checks that the count header is present. -/
def new (blob : Bytes) : AdbResult ArchivedDir := do
  let _ ← readU32 blob 0
  return ⟨blob⟩

def len (d : ArchivedDir) : AdbResult Nat := readU32 d.blob 0

/-- The raw name bytes of the record that starts at `entry`. -/
def entryNameBytes (d : ArchivedDir) (entry : Nat) : AdbResult Bytes := do
  let nameOff ← readU32 d.blob entry
  let nameLen ← readU32 d.blob (entry + 4)
  slice d.blob nameOff nameLen

def entryName (d : ArchivedDir) (entry : Nat) : AdbResult Str := do
  let b ← d.entryNameBytes entry
  match Str.fromUtf8 b with
  | some name => return name
  | none => throw (.corrupt "invalid utf-8 in a directory name")

def entryAkey (d : ArchivedDir) (entry : Nat) : AdbResult AKey := do
  let b ← slice d.blob (entry + 8) 16
  return AKey.fromBytes b

/-- The child key named `name`, by binary search over the records. -/
def get (d : ArchivedDir) (name : Str) : AdbResult (Option AKey) := do
  let count ← d.len
  let probe (i : Nat) : AdbResult Ordering := do
    let entryName ← d.entryNameBytes (4 + i * dirRecordLen)
    return cmp entryName name.bytes
  match ← binarySearch probe count 0 count with
  | none => return none
  | some i => return some (← d.entryAkey (4 + i * dirRecordLen))

/-- Every child's name and key, in name order. -/
def entries (d : ArchivedDir) : AdbResult (List (Str × AKey)) := do
  let count ← d.len
  (List.range count).mapM fun i => do
    let name ← d.entryName (4 + i * dirRecordLen)
    let akey ← d.entryAkey (4 + i * dirRecordLen)
    return (name, akey)

end ArchivedDir

/-! ## Reading back -/

section RoundTrip

/-- The record at `entry` names `name` and `akey`. -/
structure DirRecord (blob : Bytes) (entry : Nat) (name : Str) (akey : AKey) : Prop where
  name : ArchivedDir.entryNameBytes ⟨blob⟩ entry = .ok name.bytes
  akey : slice blob (entry + 8) 16 = .ok akey.intoBytes

variable {blob : Bytes}

/-- Every record of a table names its child, where the names follow the table. -/
theorem dirTable_record {l : List (Str × AKey)} (nameOff : Nat) (pre mid : Bytes)
    (hblob : blob = pre ++ dirTable nameOff l ++ mid ++ l.flatMap fun e => e.1.bytes)
    (hoff : (pre ++ dirTable nameOff l ++ mid).length = nameOff) (hlen : blob.length < 2 ^ 32)
    {i : Nat} {name : Str} {akey : AKey} (hi : l[i]? = some (name, akey)) :
    DirRecord blob (pre.length + i * dirRecordLen) name akey := by
  induction l generalizing pre mid nameOff i with
  | nil => simp at hi
  | cons e rest ih =>
    obtain ⟨n, k⟩ := e
    have hnames : nameOff + n.bytes.length ≤ blob.length := by
      rw [hblob, List.length_append, hoff, List.flatMap_cons, List.length_append]
      exact Nat.add_le_add_left (Nat.le_add_right _ _) _
    cases i with
    | zero =>
      cases hi
      have hread1 := readU32_append (n := nameOff) (by omega) pre
        (putU32 name.bytes.length ++ akey.intoBytes ++
          dirTable (nameOff + name.bytes.length) rest ++ mid ++
          ((name, akey) :: rest).flatMap fun e => e.1.bytes)
      have hread2 := readU32_append (n := name.bytes.length) (by omega) (pre ++ putU32 nameOff)
        (akey.intoBytes ++ dirTable (nameOff + name.bytes.length) rest ++ mid ++
          ((name, akey) :: rest).flatMap fun e => e.1.bytes)
      have hread3 := slice_append (pre ++ putU32 nameOff ++ putU32 name.bytes.length)
        akey.intoBytes (dirTable (nameOff + name.bytes.length) rest ++ mid ++
          ((name, akey) :: rest).flatMap fun e => e.1.bytes)
      have hname := slice_append (pre ++ dirTable nameOff ((name, akey) :: rest) ++ mid) name.bytes
        (rest.flatMap fun e => e.1.bytes)
      rw [hoff] at hname
      simp only [dirTable, List.append_assoc, List.flatMap_cons, List.length_append, length_putU32,
        AKey.length_intoBytes] at hblob hread1 hread2 hread3 hname
      rw [← hblob] at hread1 hread2 hread3 hname
      rw [Nat.zero_mul, Nat.add_zero]
      refine ⟨?_, hread3⟩
      simp [ArchivedDir.entryNameBytes, hread1, hread2, hname]
    | succ i =>
      have hrest := ih (nameOff + n.bytes.length) (pre ++ putU32 nameOff ++ putU32 n.bytes.length ++
        k.intoBytes) (mid ++ n.bytes)
        (by rw [hblob]; simp [dirTable, List.append_assoc])
        (by
          simp only [dirTable, List.length_append, length_putU32, AKey.length_intoBytes] at hoff ⊢
          omega)
        hi
      have hpos : pre.length + (i + 1) * dirRecordLen =
          (pre ++ putU32 nameOff ++ putU32 n.bytes.length ++ k.intoBytes).length +
            i * dirRecordLen := by
        simp only [List.length_append, length_putU32, AKey.length_intoBytes, dirRecordLen]
        omega
      rw [hpos]
      exact hrest

theorem length_dirTable (nameOff : Nat) (l : List (Str × AKey)) :
    (dirTable nameOff l).length = l.length * dirRecordLen := by
  induction l generalizing nameOff with
  | nil => simp [dirTable]
  | cons e rest ih =>
    obtain ⟨n, k⟩ := e
    simp only [dirTable, List.length_append, length_putU32, AKey.length_intoBytes, ih,
      List.length_cons, dirRecordLen]
    omega

variable {children : SortedMap Str AKey}

theorem encodeDir_record (h : (encodeDir children).length < 2 ^ 32) {i : Nat} {name : Str}
    {akey : AKey} (hi : children.entries[i]? = some (name, akey)) :
    DirRecord (encodeDir children) (4 + i * dirRecordLen) name akey := by
  have hpos : 4 = (putU32 children.entries.length).length := (length_putU32 _).symm
  rw [hpos]
  refine dirTable_record (4 + children.entries.length * dirRecordLen) _ [] ?_ ?_ h hi
  · rw [List.append_nil]
    rfl
  · rw [List.append_nil, List.length_append, length_dirTable, length_putU32]

theorem encodeDir_len (h : (encodeDir children).length < 2 ^ 32) :
    readU32 (encodeDir children) 0 = .ok children.entries.length := by
  have hcount : children.entries.length < 2 ^ 32 := by
    have htable := length_dirTable (4 + children.entries.length * dirRecordLen) children.entries
    unfold encodeDir at h
    rw [List.length_append, List.length_append, htable, dirRecordLen] at h
    omega
  have hread := readU32_append hcount [] (dirTable
    (4 + children.entries.length * dirRecordLen) children.entries ++
    children.entries.flatMap fun e => e.1.bytes)
  rw [List.nil_append, ← List.append_assoc] at hread
  exact hread

theorem archivedDir_new (h : (encodeDir children).length < 2 ^ 32) :
    ArchivedDir.new (encodeDir children) = .ok ⟨encodeDir children⟩ := by
  rw [ArchivedDir.new, encodeDir_len h]
  rfl

/-- **A child is found in a directory's blob exactly when the directory has it.** -/
theorem archivedDir_get (h : (encodeDir children).length < 2 ^ 32) (name : Str) :
    ArchivedDir.get ⟨encodeDir children⟩ name = .ok (children.get name) := by
  have hprobes : Probes (fun i => do
      let entryName ← ArchivedDir.entryNameBytes ⟨encodeDir children⟩ (4 + i * dirRecordLen)
      return cmp entryName name.bytes : Nat → AdbResult Ordering)
      (children.entries.map fun e => e.1.bytes) name.bytes := by
    intro i hi
    rw [List.length_map] at hi
    have hrec := encodeDir_record h (List.getElem?_eq_getElem hi)
    dsimp only
    rw [hrec.name, List.getElem_map, Except.ok_bind, Except.pure_eq_ok, Except.ok.injEq]
    -- The two sides decide the byte order by different instances.
    congr
  have hs := sorted_bytes children.sorted
  rw [ArchivedDir.get, ArchivedDir.len, encodeDir_len h, Except.ok_bind]
  cases hget : children.get name with
  | none =>
    have hn : name.bytes ∉ children.entries.map fun e => e.1.bytes := by
      intro hmem
      obtain ⟨e, he, hb⟩ := List.mem_map.1 hmem
      exact Assoc.find_eq_none.1 hget e he (Str.bytes_inj hb)
    dsimp only
    rw [binarySearch_of_not_mem hprobes hn _ _ _ (List.length_map _).ge]
    rfl
  | some akey =>
    obtain ⟨i, hi⟩ := List.getElem?_of_mem (Assoc.mem_of_find hget)
    have hlt := (List.getElem?_eq_some_iff.1 hi).1
    have hsearch := binarySearch_of_mem hs hprobes children.entries.length 0
      children.entries.length (k := i) (by simp) (by simp) (Nat.zero_le _) hlt
      (by rw [List.getElem?_map, hi]; rfl)
    have hrec := encodeDir_record h hi
    have hkey : ArchivedDir.entryAkey ⟨encodeDir children⟩ (4 + i * dirRecordLen) = .ok akey := by
      rw [ArchivedDir.entryAkey, hrec.akey, Except.ok_bind, AKey.fromBytes_intoBytes]
      rfl
    dsimp only
    rw [hsearch, Except.ok_bind]
    dsimp only
    rw [hkey]
    rfl

/-- **A directory's blob lists the children of the directory.** -/
theorem archivedDir_entries (h : (encodeDir children).length < 2 ^ 32) :
    ArchivedDir.entries ⟨encodeDir children⟩ = .ok children.entries := by
  rw [ArchivedDir.entries, ArchivedDir.len, encodeDir_len h, Except.ok_bind]
  apply Except.mapM_range
  rintro i ⟨name, akey⟩ hi
  have hrec := encodeDir_record h hi
  simp only [ArchivedDir.entryName, ArchivedDir.entryAkey, hrec.name, hrec.akey, Except.ok_bind,
    Str.fromUtf8_bytes, Except.pure_eq_ok, AKey.fromBytes_intoBytes]

/-- **The directory codec is exact**: what is encoded is listed again in name order, and a name is
looked up as in the map, whether it is there or not. -/
theorem encodeDir_exact (children : SortedMap Str AKey) (h : (encodeDir children).length < 2 ^ 32) :
    ∃ d, ArchivedDir.new (encodeDir children) = .ok d ∧
      d.entries = .ok children.entries ∧
      (children.entries.map Prod.fst).Pairwise (· < ·) ∧
      ∀ name, d.get name = .ok (children.get name) :=
  ⟨_, archivedDir_new h, archivedDir_entries h, children.sorted, archivedDir_get h⟩

/-- A directory with an empty name in it. -/
theorem encodeDir_exact_empty_name :
    ∃ d, ArchivedDir.new (encodeDir ((SortedMap.empty.insert ⟨"a"⟩ (.ofNat 1)).insert ⟨""⟩ (.ofNat 2))) = .ok d ∧
      d.entries = .ok [(⟨""⟩, .ofNat 2), (⟨"a"⟩, .ofNat 1)] ∧
      d.get ⟨"b"⟩ = .ok none := by
  obtain ⟨d, hnew, hentries, -, hget⟩ :=
    encodeDir_exact ((SortedMap.empty.insert ⟨"a"⟩ (.ofNat 1)).insert ⟨""⟩ (.ofNat 2)) (by decide)
  exact ⟨d, hnew, hentries, hget ⟨"b"⟩⟩

end RoundTrip

end ArborDb
