import ArborDb.Codec.RoundTrip
import ArborDb.Txn.Overwrite

/-!
# The file system a table stands for

The abstract state of a table is a finite tree of names: its inner nodes are directories, its
leaves are files with a value, and every node has its key. A transaction on an unprotected database
represents such a tree: its reads answer what the tree says, and its calls change the tree as the
operations of a file system do.
-/

namespace ArborDb

open Prog (Triple)
open Layout (Holds Lays Node Under wipe Made Outside StoredAt Moved CopiedTo mapLeaf)

section

variable [Externals]

/-- A tree of names with values at its leaves. -/
abbrev FsTree := Layout.Tree AKey Str Value

/-- A value that a blob can hold: object fields in order, and offsets that fit. -/
def Storable (x : Value) : Prop := x.WF ∧ (Codec.encode x).length < 2 ^ 32

namespace FsTree

/-- The tree of the blobs that the table holds. -/
def blobs (T : FsTree) : ATree := mapLeaf Codec.encode T

def Valid (T : FsTree) : Prop := ∀ {p : List Str} {k : AKey} {x : Value},
  T p = some ⟨k, some x⟩ → Storable x

/-- The key is that of a node. -/
def Has (T : FsTree) (k : AKey) : Prop := ∃ p a, T p = some a ∧ a.key = k

/-- Whether the node is a directory or a file. -/
def kind (a : Node AKey Value) : EntryKind :=
  match a.leaf with
  | none => .dir
  | some _ => .file

end FsTree

/-- The transaction's state represents the tree. -/
structure Represents (e : Env) (n : Nat) (s : TxState) (T : FsTree) : Prop where
  holds : ∃ v, Sees (.base e) n s.drawn v s ∧ Holds .root v T.blobs
  valid : T.Valid

/-- A table that holds a tree represents it at the start of a transaction. -/
theorem represents_table {e : Env} {n d : Nat} {T : FsTree} {data : SortedMap AKey Entry}
    (hp : e.principal = .unrestricted) (ht : Holds .root data.get T.blobs) (hvalid : T.Valid)
    (hfresh : ∀ i, d ≤ i → i < n → data.get (e.gen i) = none) (inodes : InodeTable)
    (index : SortedMap Bytes Bytes) (buffering : Bool) :
    Represents e n ⟨data, inodes, index, .new buffering, d⟩ T := by
  refine ⟨⟨data.get, ⟨?_, ⟨nofun, nofun, fun _ _ => ⟨rfl, rfl⟩⟩, rfl, hfresh, ?_⟩, ht⟩, hvalid⟩
  · intro k
    unfold observe readVerified readTable verifyIntegrity
    simp only [hp, WriteBuffer.fileGet_eq, WriteBuffer.new, SortedMap.get_empty]
    cases data.get k <;> rfl
  · exact fun hne => absurd hp hne

/-! ## Reads -/

section Reads

variable {e : Env} {n d : Nat} {P : Policy e} {v : View} {s : TxState} {T : FsTree}

omit [Externals] in
/-- The entry a read finds is the one the state shows. -/
theorem Sees.entryBlob (hs : Sees P n d v s) (k : AKey) : Grab.entryBlob s k = v k := by
  unfold Grab.entryBlob
  rw [WriteBuffer.dirGet_eq, WriteBuffer.fileGet_eq]
  cases hv : v k with
  | none =>
    obtain ⟨hd, hdata⟩ := hs.absent hv
    rw [hd, hdata]
    cases hf : s.buffer.files.get k with
    | none => rfl
    | some b =>
      obtain ⟨b', hb'⟩ := hs.coherent.file hf
      rw [hdata] at hb'
      cases hb'
  | some c =>
    obtain ⟨m, hd, rfl⟩ | ⟨hd, b, hf, rfl⟩ | ⟨hd, hf, hdata⟩ := hs.stored hv
    · rw [hd]
    · rw [hd, hf]
    · rw [hd, hf, hdata]

omit [Externals] in
theorem verify_unrestricted (hp : e.principal = .unrestricted) (k : AKey) (c : Entry) :
    Grab.verify e s k c = .ok () := by
  unfold Grab.verify verifyIntegrity
  rw [hp]
  split
  · rfl
  · split <;> rfl

omit [Externals] in
/-- Reads of an unprotected database make no checks. -/
theorem Sees.read_unrestricted (hs : Sees P n d v s) (hp : e.principal = .unrestricted)
    (path : APath) :
    Grab.read e s path = .ok ((Layout.walk v .root path.names).bind v) := by
  have henforced : Grab.enforced e = false := by simp [Grab.enforced, hp]
  unfold Grab.read Grab.resolve Grab.authorize
  simp only [henforced, verify_unrestricted hp, Bool.false_eq_true, if_false, Except.ok_bind, resolveBuffered,
    hs.resolveBuffered_walk, hs.entryBlob]
  cases Layout.walk v .root path.names with
  | none => rfl
  | some k =>
    simp only [Option.bind_some]
    cases v k <;> rfl

omit [Externals] in
theorem Sees.ls_unrestricted (hs : Sees P n d v s) (hp : e.principal = .unrestricted)
    (path : APath) :
    Grab.ls e s path = match Layout.walk v .root path.names with
      | none => .error (.valueNotFound path)
      | some k => match v k with
        | none => .ok []
        | some (.file _) =>
          .error (.cannotAccess ("'" ++ path.display ++ "' is a file, not a directory"))
        | some (.dir children) => Grab.listing s children.entries := by
  have henforced : Grab.enforced e = false := by simp [Grab.enforced, hp]
  unfold Grab.ls Grab.resolve Grab.authorize
  simp only [henforced, verify_unrestricted hp, Bool.false_eq_true, if_false, Except.ok_bind,
    resolveBuffered, hs.resolveBuffered_walk, hs.entryBlob]
  cases Layout.walk v .root path.names with
  | none => rfl
  | some k =>
    simp only
    rcases v k with _ | (_ | _) <;> rfl

omit [Externals] in
/-- What the table holds at a node. -/
theorem holds_at {t : ATree} {p : List Str} (ht : Holds .root v t) :
    (Layout.walk v .root p).bind v = (t p).bind fun a => v a.key := by
  by_cases hp : p = []
  · subst hp
    unfold Layout.walk
    cases hroot : t [] with
    | none => exact ht.eq_none hroot .root
    | some a => rw [ht.top hroot, Option.bind_some, Option.bind_some]
  · rw [ht.walk_root hp]
    cases t p <;> rfl

/-- The answers of the reads at every path are what the tree says. A listing names every child
once, in name order. The root of an empty table lists nothing. -/
structure Answers (e : Env) (s : TxState) (T : FsTree) : Prop where
  loadValue : ∀ path, Grab.loadValue e s path = match T path.names with
    | none => .ok none
    | some ⟨_, some x⟩ => .ok (some x)
    | some ⟨_, none⟩ => .error (Grab.isADirectory path)
  kind : ∀ path, Grab.kind e s path = .ok ((T path.names).map FsTree.kind)
  exists? : ∀ path, Grab.exists? e s path = .ok (T path.names).isSome
  ls : ∀ path, match T path.names with
    | none => Grab.ls e s path = if path.isRoot then .ok [] else .error (.valueNotFound path)
    | some ⟨_, some _⟩ => Grab.ls e s path =
        .error (.cannotAccess ("'" ++ path.display ++ "' is a file, not a directory"))
    | some ⟨_, none⟩ => ∃ l, Grab.ls e s path = .ok l ∧ (l.map Prod.fst).Pairwise (· < ·) ∧
        ∀ name kind, (name, kind) ∈ l ↔
          ∃ a, T (path.names ++ [name]) = some a ∧ FsTree.kind a = kind

variable [LawfulExternals]

theorem decode_storable {x : Value} (h : Storable x) : Codec.decode (Codec.encode x) = .ok x := by
  obtain ⟨root, hnew, hstored⟩ := Codec.stored_encode h.2
  exact hstored.decode h.2 hnew h.1

omit [Externals] [LawfulExternals] in
/-- A listing gives each child's kind. -/
theorem Sees.listing (hs : Sees P n d v s) {l : List (Str × AKey)} {kinds : AKey → EntryKind}
    (hl : ∀ x ∈ l, (v x.2).map Entry.kind = some (kinds x.2)) :
    Grab.listing s l = .ok (l.map fun x => (x.1, kinds x.2)) := by
  induction l with
  | nil => rfl
  | cons x l ih =>
    obtain ⟨name, c⟩ := x
    obtain ⟨entry, hentry, hkind⟩ := Option.map_eq_some_iff.1 (hl (name, c) (by simp))
    unfold Grab.listing
    rw [hs.entryBlob, hentry]
    simp only [ih fun x hx => hl x (by simp [hx]), Except.ok_bind, Except.pure_eq_ok, List.map_cons,
      hkind]

omit [LawfulExternals] in
theorem holds_file {p : List Str} {k : AKey} {x : Value} (ht : Holds .root v T.blobs)
    (hT : T p = some ⟨k, some x⟩) : v k = some (.file (Codec.encode x)) :=
  ht.leaf (Layout.mapLeaf_of_some hT)

omit [LawfulExternals] in
theorem holds_dir {p : List Str} {k : AKey} (ht : Holds .root v T.blobs)
    (hT : T p = some ⟨k, none⟩) :
    ∃ links, v k = some (.dir links) ∧ ∀ name, links.get name = (T (p ++ [name])).map Node.key := by
  obtain ⟨links, hv, hget⟩ := ht.branch (Layout.mapLeaf_of_some hT)
  refine ⟨links, hv, ?_⟩
  intro name
  rw [hget name]
  unfold FsTree.blobs mapLeaf
  rw [Option.map_map]
  rfl

omit [LawfulExternals] in
theorem holds_kind {p : List Str} {a : Node AKey Value} (ht : Holds .root v T.blobs)
    (hT : T p = some a) : (v a.key).map Entry.kind = some (FsTree.kind a) := by
  obtain ⟨k, _ | x⟩ := a
  · obtain ⟨links, hv, -⟩ := holds_dir ht hT
    rw [hv]
    rfl
  · rw [holds_file ht hT]
    rfl

omit [LawfulExternals] in
theorem holds_walk {p : List Str} {a : Node AKey Value} (ht : Holds .root v T.blobs)
    (hT : T p = some a) : Layout.walk v .root p = some a.key := by
  have hb : T.blobs p = some (a.mapLeaf Codec.encode) := Layout.mapLeaf_of_some hT
  by_cases hp : p = []
  · subst hp
    have hkey := congrArg Node.key (ht.top hb)
    exact congrArg some hkey.symm
  · rw [ht.walk_root hp, hb]
    rfl

omit [LawfulExternals] in
/-- A directory's listing names its children in order, each with its kind. -/
theorem Sees.listing_children (hs : Sees P n d v s) (ht : Holds .root v T.blobs) {p : List Str}
    {links : SortedMap Str AKey} (hget : ∀ name, links.get name = (T (p ++ [name])).map Node.key) :
    ∃ l, Grab.listing s links.entries = .ok l ∧ (l.map Prod.fst).Pairwise (· < ·) ∧
      ∀ name kind, (name, kind) ∈ l ↔ ∃ a, T (p ++ [name]) = some a ∧ FsTree.kind a = kind := by
  let kinds : AKey → EntryKind := fun c => ((v c).map Entry.kind).getD .file
  have hchild : ∀ {name : Str} {c : AKey}, (name, c) ∈ links.entries ↔
      ∃ a, T (p ++ [name]) = some a ∧ a.key = c := by
    intro name c
    rw [← SortedMap.get_iff_mem, hget name, Option.map_eq_some_iff]
  have hkinds : ∀ {name : Str} {a : Node AKey Value}, T (p ++ [name]) = some a →
      kinds a.key = FsTree.kind a := by
    intro name a ha
    simp only [kinds, holds_kind ht ha, Option.getD_some]
  refine ⟨links.entries.map fun x => (x.1, kinds x.2), hs.listing ?_, ?_, ?_⟩
  · rintro ⟨name, c⟩ hx
    obtain ⟨a, ha, rfl⟩ := hchild.1 hx
    rw [hkinds ha]
    exact holds_kind ht ha
  · rw [List.map_map]
    exact links.sorted
  · intro name kind
    rw [List.mem_map]
    constructor
    · rintro ⟨⟨name', c⟩, hx, heq⟩
      cases heq
      obtain ⟨a, ha, rfl⟩ := hchild.1 hx
      exact ⟨a, ha, (hkinds ha).symm⟩
    · rintro ⟨a, ha, rfl⟩
      exact ⟨(name, a.key), hchild.2 ⟨a, ha, rfl⟩, by rw [hkinds ha]⟩

/-- The reads of a transaction answer what the tree says. -/
theorem Represents.answers (h : Represents e n s T) (hp : e.principal = .unrestricted) :
    Answers e s T := by
  obtain ⟨⟨v, hs, ht⟩, hvalid⟩ := h
  have hread : ∀ path, Grab.read e s path = .ok ((T path.names).bind fun a => v a.key) := by
    intro path
    rw [hs.read_unrestricted hp, holds_at ht]
    unfold FsTree.blobs mapLeaf
    rw [Option.bind_map]
    rfl
  have hkind : ∀ path, Grab.kind e s path = .ok ((T path.names).map FsTree.kind) := by
    intro path
    unfold Grab.kind
    rw [hread, Except.ok_bind]
    cases hT : T path.names with
    | none => rfl
    | some a => exact congrArg Except.ok (holds_kind ht hT)
  refine ⟨?_, hkind, ?_, ?_⟩
  · intro path
    unfold Grab.loadValue
    rw [hread, Except.ok_bind]
    cases hT : T path.names with
    | none => rfl
    | some a =>
      obtain ⟨k, _ | x⟩ := a
      · obtain ⟨links, hv, -⟩ := holds_dir ht hT
        rw [Option.bind_some, hv]
        rfl
      · rw [Option.bind_some, holds_file ht hT]
        simp only [decode_storable (hvalid hT), Except.ok_bind]
        rfl
  · intro path
    unfold Grab.exists?
    rw [hkind, Except.ok_bind]
    cases T path.names <;> rfl
  · intro path
    rw [hs.ls_unrestricted hp]
    cases hT : T path.names with
    | none =>
      have hnone : T.blobs path.names = none := Layout.mapLeaf_eq_none.2 hT
      obtain ⟨names⟩ := path
      cases names with
      | nil =>
        have hroot : v .root = none := ht.eq_none hnone .root
        simp only [Layout.walk, hroot]
        rfl
      | cons name names =>
        rw [ht.walk_root (List.cons_ne_nil name names), hnone]
        rfl
    | some a =>
      rw [holds_walk ht hT]
      obtain ⟨k, _ | x⟩ := a
      · obtain ⟨links, hv, hget⟩ := holds_dir ht hT
        simp only [hv]
        exact hs.listing_children ht hget
      · simp only [holds_file ht hT]

end Reads

/-! ## Calls -/

section Calls

/-- A file is at the path or on the way to it. -/
def FsTree.FileOn (T : FsTree) (p : List Str) : Prop :=
  ∃ q k x, q <+: p ∧ T q = some ⟨k, some x⟩

/-- The calls of the file system: what they store can be read back, and the paths of a move or a
copy are apart. -/
def Call.InScope : Call → Prop
  | .store _ blob => ∃ x, Storable x ∧ Codec.encode x = blob
  | .storeValue _ value => Storable value
  | .putScalar .. => False
  | .mkdir _ => True
  | .rm _ => True
  | .mv src dst => ¬ src.names <+: dst.names ∧ ¬ dst.names <+: src.names
  | .cp src dst => ¬ src.names <+: dst.names ∧ ¬ dst.names <+: src.names

/-- When the file system can do what a call asks. -/
def Call.Allowed (T : FsTree) : Call → Prop
  | .store path _ => path.isRoot = false ∧ ¬ T.FileOn path.names.dropLast
  | .storeValue path _ => path.isRoot = false ∧ ¬ T.FileOn path.names.dropLast
  | .putScalar .. => True
  | .mkdir path => ¬ T.FileOn path.names
  | .rm path => path.isRoot = false
  | .mv src dst => T src.names ≠ none ∧ ¬ T.FileOn dst.names.dropLast
  | .cp src dst => T src.names ≠ none ∧ ¬ T.FileOn dst.names.dropLast

/-- What a call does to the tree. -/
def Call.Effect (T T' : FsTree) : Call → Prop
  | .store path blob => ∃ x, Codec.encode x = blob ∧ StoredAt T T' path.names x
  | .storeValue path value => StoredAt T T' path.names value
  | .putScalar .. => True
  | .mkdir path => Made T T' path.names ∧ (∃ k, T' path.names = some ⟨k, none⟩) ∧
      ((∃ k, T path.names = some ⟨k, none⟩) → T' = T)
  | .rm path => T' = Layout.prune T path.names
  | .mv src dst => Moved T T' src.names dst.names
  | .cp src dst => CopiedTo T.Has T T' src.names dst.names

/-- Every leaf is the blob of a value. -/
def Encoded (t : ATree) : Prop := ∀ {p : List Str} {k : AKey} {b : Bytes},
  t p = some ⟨k, some b⟩ → ∃ x, Storable x ∧ Codec.encode x = b

/-- The value of a blob. -/
def valueOf (b : Bytes) : Value :=
  match Codec.decode b with
  | .ok x => x
  | .error _ => .default

theorem FsTree.Valid.encoded {T : FsTree} (h : T.Valid) : Encoded T.blobs := by
  intro p k b hp
  obtain ⟨⟨j, _ | x⟩, ha, hb⟩ := Layout.mapLeaf_eq_some hp
  · cases hb
  · cases hb
    exact ⟨x, h ha, rfl⟩

namespace Encoded

variable {t t' : ATree} {p : List Str}

/-- What an operation leaves outside a path is encoded if it was. -/
theorem outside (h : Encoded t) (ho : Outside t t' p)
    (hbelow : ∀ {q : List Str} {k : AKey} {b : Bytes}, t' (p ++ q) = some ⟨k, some b⟩ →
      ∃ x, Storable x ∧ Codec.encode x = b) : Encoded t' := by
  intro q k b hq
  by_cases hpre : p <+: q
  · obtain ⟨r, rfl⟩ := hpre
    exact hbelow hq
  · cases hold : t q with
    | none =>
      obtain ⟨-, hleaf⟩ := ho.made hpre hold hq
      cases hleaf
    | some a =>
      rw [ho.kept hpre hold] at hq
      cases hq
      exact h hold

theorem made (h : Encoded t) (hm : Made t t' p) : Encoded t' := by
  intro q k b hq
  cases hold : t q with
  | none =>
    obtain ⟨-, hleaf⟩ := hm.made hold hq
    cases hleaf
  | some a =>
    rw [hm.kept hold] at hq
    cases hq
    exact h hold

theorem storedAt {v : View} {x : Value} (h : Encoded t) (hx : Storable x) (ht' : Lays v t')
    (hs : StoredAt t t' p (Codec.encode x)) : Encoded t' := by
  refine h.outside hs.toOutside ?_
  intro q k b hq
  obtain ⟨k', hk'⟩ := hs.leaf
  by_cases hnil : q = []
  · rw [hnil, List.append_nil, hk'] at hq
    cases hq
    exact ⟨x, hx, rfl⟩
  · rw [ht'.leaf_append hk' hnil] at hq
    cases hq

theorem moved {src dst : List Str} (h : Encoded t) (hm : Moved t t' src dst) : Encoded t' := by
  intro q k b hq
  by_cases hdst : dst <+: q
  · obtain ⟨r, rfl⟩ := hdst
    rw [hm.moved] at hq
    exact h hq
  · by_cases hsrc : src <+: q
    · obtain ⟨r, rfl⟩ := hsrc
      rw [hm.gone] at hq
      cases hq
    · cases hold : t q with
      | none =>
        obtain ⟨-, hleaf⟩ := hm.made hdst hold hq
        cases hleaf
      | some a =>
        rw [hm.kept hdst hsrc hold] at hq
        cases hq
        exact h hold

theorem copiedTo {used : AKey → Prop} {src dst : List Str} (h : Encoded t)
    (hc : CopiedTo used t t' src dst) : Encoded t' := by
  refine h.outside hc.toOutside ?_
  intro q k b hq
  have hshape := hc.shape q
  rw [hq] at hshape
  obtain ⟨⟨j, leaf⟩, ha, hleaf⟩ := Option.map_eq_some_iff.1 hshape.symm
  cases hleaf
  exact h ha

theorem prune (h : Encoded t) (p : List Str) : Encoded (Layout.prune t p) :=
  fun hq => h (Layout.prune_eq_some hq).2

end Encoded

section Lift

variable [LawfulExternals] {e : Env} {n d : Nat} {s : TxState} {T : FsTree} {t : ATree}

theorem valueOf_encode {x : Value} (h : Storable x) : valueOf (Codec.encode x) = x := by
  unfold valueOf
  rw [decode_storable h]

theorem FsTree.Valid.values_blobs (h : T.Valid) : mapLeaf valueOf T.blobs = T := by
  funext p
  unfold FsTree.blobs mapLeaf
  rw [Option.map_map]
  cases hT : T p with
  | none => rfl
  | some a =>
    obtain ⟨k, _ | x⟩ := a
    · rfl
    · simp [Node.mapLeaf, valueOf_encode (h hT)]

theorem Encoded.blobs_values (h : Encoded t) : FsTree.blobs (mapLeaf valueOf t) = t := by
  funext p
  unfold FsTree.blobs mapLeaf
  rw [Option.map_map]
  cases hT : t p with
  | none => rfl
  | some a =>
    obtain ⟨k, _ | b⟩ := a
    · rfl
    · obtain ⟨x, hx, rfl⟩ := h hT
      simp [Node.mapLeaf, valueOf_encode hx]

theorem Encoded.valid (h : Encoded t) : FsTree.Valid (mapLeaf valueOf t) := by
  intro p k x hp
  obtain ⟨⟨j, _ | b⟩, ha, hb⟩ := Layout.mapLeaf_eq_some hp
  · cases hb
  · obtain ⟨y, hy, rfl⟩ := h ha
    cases hb
    rw [valueOf_encode hy]
    exact hy

/-- A state that shows an encoded tree represents the tree of its values. -/
theorem Shows.represents {R : ATree → Prop} (h : Shows (.base e) n d R s)
    (hR : ∀ {v : View} {t' : ATree}, Lays v t' → R t' → Encoded t') :
    ∃ t', Represents e n s (mapLeaf valueOf t') ∧ R t' := by
  obtain ⟨d', v', t', -, hs', ht', hR'⟩ := h
  have hd := hs'.drawn
  subst hd
  have henc : Encoded t' := hR ht'.toLays hR'
  refine ⟨t', ⟨⟨v', hs', ?_⟩, henc.valid⟩, hR'⟩
  rw [henc.blobs_values]
  exact ht'

omit [LawfulExternals] in
theorem Represents.setIndex (h : Represents e n s T) (index : SortedMap Bytes Bytes) :
    Represents e n { s with index := index } T := by
  obtain ⟨⟨v, hs, ht⟩, hvalid⟩ := h
  exact ⟨⟨v, hs.setIndex index, ht⟩, hvalid⟩

omit [Externals] [LawfulExternals] in
theorem Policy.base_readable (hp : e.principal = .unrestricted) : (Policy.base e).Readable := by
  intro v inodes k _ _
  rw [hp, authorize_unrestricted]

omit [LawfulExternals] in
/-- What bars an unrestricted principal is a file on the way. -/
theorem Barred.fileOn {p : List Str} (h : Barred e T.blobs p) (hp : e.principal = .unrestricted) :
    T.FileOn p := by
  obtain hne | ⟨q, k, b, hpre, hq⟩ := h
  · exact absurd hp hne
  · obtain ⟨⟨j, _ | x⟩, ha, hb⟩ := Layout.mapLeaf_eq_some hq
    · cases hb
    · exact ⟨q, j, x, hpre, ha⟩

/-- The outcome of a call: its effect, or a failure. Without indexes it fails only when the file
system cannot do it, and then changes nothing; the maintenance of an index may fail after the
call's effect. -/
def Call.Outcome (e : Env) (n : Nat) (s : TxState) (T : FsTree) (indexes : List IndexEntry)
    (call : Call) : Except AdbError Unit × TxState → Prop
  | (.ok _, s') => ∃ T', Represents e n s' T' ∧ call.Effect T T'
  | (.error _, s') => (∃ T', Represents e n s' T' ∧ (T' = T ∨ call.Effect T T')) ∧
      (indexes = [] → s' = s ∧ ¬ call.Allowed T)

omit [LawfulExternals] in
/-- A mutation and its bracket. -/
theorem reindexAround_outcome {v : View} {α : Type} {indexes : List IndexEntry}
    {scopes : List APath} {apply : TxM α} {call : Call} {reason : Prop}
    (hs : Sees (.base e) n s.drawn v s) (ht : Holds .root v T.blobs) (hvalid : T.Valid)
    (hreason : reason → ¬ call.Allowed T)
    (happly : ∀ s₁, Ready (.base e) n s.drawn v s s₁ →
      Triple e n (· = s₁) apply (fun _ s' => ∃ T', Represents e n s' T' ∧ call.Effect T T')
        (Refused s₁ reason)) :
    Triple e n (· = s) (reindexAround indexes scopes apply)
      (fun _ s' => ∃ T', Represents e n s' T' ∧ call.Effect T T')
      (fun _ s' => (∃ T', Represents e n s' T' ∧ (T' = T ∨ call.Effect T T')) ∧
        (indexes = [] → s' = s ∧ ¬ call.Allowed T)) := by
  by_cases hnone : indexes = []
  · subst hnone
    refine (happly s ⟨hs, fun _ _ => rfl, rfl⟩).consequence (fun _ h => h) (fun _ _ h => h) ?_
    rintro _ _ ⟨rfl, hr⟩
    exact ⟨⟨T, ⟨⟨v, hs, ht⟩, hvalid⟩, .inl rfl⟩, fun _ => ⟨rfl, hreason hr⟩⟩
  · refine (reindexAround_spec hs ?_ fun s₁ hs₁ => (happly s₁ hs₁).consequence (fun _ h => h)
      (fun _ _ h => h) fun _ _ h => h.1).consequence (fun _ h => h) (fun _ _ h => h) ?_
    · rintro _ s' index ⟨T', hT', heffect⟩
      exact ⟨T', hT'.setIndex index, heffect⟩
    · rintro _ s' (hready | ⟨_, T', hT', heffect⟩)
      · refine ⟨⟨T, ⟨⟨v, ?_, ht⟩, hvalid⟩, .inl rfl⟩, fun h => absurd h hnone⟩
        have hd := hready.sees.drawn
        rw [hd]
        exact hready.sees
      · exact ⟨⟨T', hT', .inr heffect⟩, fun h => absurd h hnone⟩

omit [LawfulExternals] in
/-- A call that is refused before anything else. -/
theorem fail_outcome {indexes : List IndexEntry} {call : Call} {α : Type} {Q : α → TxState → Prop}
    {err : AdbError} (h : Represents e n s T) (hno : ¬ call.Allowed T) :
    Triple e n (· = s) (fail err) Q
      (fun _ s' => (∃ T', Represents e n s' T' ∧ (T' = T ∨ call.Effect T T')) ∧
        (indexes = [] → s' = s ∧ ¬ call.Allowed T)) := by
  apply Triple.fail
  rintro _ rfl
  exact ⟨⟨T, h, .inl rfl⟩, fun _ => ⟨rfl, hno⟩⟩

/-- Storing the blob of a value, in a state that is ready for it. -/
theorem storeBlobInto_effect {v : View} {s₁ : TxState} {path : APath} {x : Value}
    (hdist : Distinct e n) (ht : Holds .root v T.blobs) (hvalid : T.Valid) (hx : Storable x)
    (hs₁ : Sees (.base e) n d v s₁) :
    Triple e n (· = s₁) (storeBlobInto path (Codec.encode x))
      (fun _ s' => ∃ T', Represents e n s' T' ∧ StoredAt T T' path.names x)
      (Refused s₁ (path.isRoot = true ∨ Barred e T.blobs path.names.dropLast)) := by
  refine (storeBlobInto_spec hdist hs₁ ht).post ?_
  intro _ s' hshows
  obtain ⟨t', hT', hR⟩ := hshows.represents fun hl hR => Encoded.storedAt hvalid.encoded hx hl hR
  refine ⟨_, hT', ?_⟩
  have hmap := hR.mapLeaf (f := valueOf)
  rw [hvalid.values_blobs, valueOf_encode hx] at hmap
  exact hmap

/-- Every call has the outcome that the file system gives it. -/
theorem call_outcome {indexes : List IndexEntry} {call : Call} (hp : e.principal = .unrestricted)
    (hdist : Distinct e n) (h : Represents e n s T) (hscope : call.InScope) :
    Triple e n (· = s) (call.prog indexes)
      (fun _ s' => ∃ T', Represents e n s' T' ∧ call.Effect T T')
      (fun _ s' => (∃ T', Represents e n s' T' ∧ (T' = T ∨ call.Effect T T')) ∧
        (indexes = [] → s' = s ∧ ¬ call.Allowed T)) := by
  obtain ⟨⟨v, hs, ht⟩, hvalid⟩ := id h
  have hstored : ∀ {path : APath},
      (path.isRoot = true ∨ Barred e T.blobs path.names.dropLast) →
        ¬ (path.isRoot = false ∧ ¬ T.FileOn path.names.dropLast) := by
    rintro path (hroot | hbarred) ⟨hnot, hfile⟩
    · rw [hroot] at hnot
      cases hnot
    · exact hfile (hbarred.fileOn hp)
  have hroot : ∀ {src dst : APath}, ¬ src.names <+: dst.names → ¬ src.isRoot = true := by
    intro src dst hsd hnil
    exact hsd (by rw [List.isEmpty_iff.1 hnil]; exact List.nil_prefix)
  cases call with
  | store path blob =>
    obtain ⟨x, hx, rfl⟩ := hscope
    rw [Call.prog]
    unfold storeBlobAt
    split
    · rename_i hnil
      exact fail_outcome h (hstored (.inl hnil))
    · refine reindexAround_outcome hs ht hvalid hstored ?_
      intro s₁ hs₁
      refine (storeBlobInto_effect hdist ht hvalid hx hs₁.sees).post ?_
      rintro _ s' ⟨T', hT', heffect⟩
      exact ⟨T', hT', x, rfl, heffect⟩
  | storeValue path value =>
    rw [Call.prog]
    unfold storeValueAt
    split
    · rename_i hnil
      exact fail_outcome h (hstored (.inl hnil))
    · refine reindexAround_outcome hs ht hvalid hstored ?_
      intro s₁ hs₁
      exact storeBlobInto_effect hdist ht hvalid hscope hs₁.sees
  | putScalar path hint vpath scalar => exact hscope.elim
  | mkdir path =>
    rw [Call.prog]
    unfold ArborDb.mkdir
    refine Triple.bind (R := fun _ s' => ∃ T', Represents e n s' T' ∧ Call.Effect T T' (.mkdir path))
      ?_ fun _ => Triple.pure fun _ h => h
    refine (mkdir_spec hdist hs ht).consequence (fun _ h => h) ?_ ?_
    · intro r s' hshows
      obtain ⟨t', hT', hmade, hdir⟩ :=
        hshows.represents fun _ hR => Encoded.made hvalid.encoded hR.1
      have hmap := hmade.mapLeaf (f := valueOf)
      rw [hvalid.values_blobs] at hmap
      refine ⟨_, hT', hmap, ⟨r, Layout.mapLeaf_of_some hdir⟩, ?_⟩
      rintro ⟨k, hk⟩
      rw [hmade.eq_self ht.toLays (Layout.mapLeaf_of_some hk), hvalid.values_blobs]
    · rintro _ _ ⟨rfl, hbarred⟩
      exact ⟨⟨T, h, .inl rfl⟩, fun _ => ⟨rfl, fun hno => hno (hbarred.fileOn hp)⟩⟩
  | rm path =>
    rw [Call.prog]
    unfold ArborDb.rm
    refine Triple.bind (R := fun _ s' => ∃ T', Represents e n s' T' ∧ Call.Effect T T' (.rm path))
      ?_ fun _ => Triple.pure fun _ h => h
    split
    · rename_i hnil
      refine fail_outcome h ?_
      intro hno
      rw [Call.Allowed, hnil] at hno
      cases hno
    · have hreason : (path.isRoot = true ∨ e.principal ≠ .unrestricted) →
          ¬ Call.Allowed T (.rm path) := by
        rintro (hnil | hne) hno
        · rw [Call.Allowed, hnil] at hno
          cases hno
        · exact hne hp
      refine reindexAround_outcome hs ht hvalid hreason ?_
      intro s₁ hs₁
      refine (rmInto_spec hs₁.sees ht).post ?_
      intro removed s' hrm
      cases removed with
      | true =>
        obtain ⟨t', hT', rfl⟩ :=
          hrm.2.represents fun _ hR => hR ▸ Encoded.prune hvalid.encoded path.names
        refine ⟨_, hT', ?_⟩
        rw [Call.Effect, Layout.prune_mapLeaf, hvalid.values_blobs]
      | false =>
        obtain ⟨hnone, rfl⟩ := hrm
        refine ⟨T, ⟨⟨v, ?_, ht⟩, hvalid⟩, ?_⟩
        · rw [hs₁.sees.drawn]
          exact hs₁.sees
        · have hprune := congrArg (mapLeaf valueOf) (Layout.prune_eq_self ht.toLays hnone)
          rw [Layout.prune_mapLeaf, hvalid.values_blobs] at hprune
          exact hprune.symm
  | mv src dst =>
    obtain ⟨hsd, hds⟩ := hscope
    rw [Call.prog]
    unfold ArborDb.mv
    rw [if_neg hsd, if_neg (hroot hsd), if_neg (hroot hds)]
    have hreason : (src.isRoot = true ∨ dst.isRoot = true ∨ T.blobs src.names = none ∨
        Barred e T.blobs dst.names.dropLast) → ¬ Call.Allowed T (.mv src dst) := by
      rintro (hnil | hnil | hnone | hbarred) ⟨hsrc, hfile⟩
      · exact hroot hsd hnil
      · exact hroot hds hnil
      · exact hsrc (Layout.mapLeaf_eq_none.1 hnone)
      · exact hfile (hbarred.fileOn hp)
    refine reindexAround_outcome hs ht hvalid hreason ?_
    intro s₁ hs₁
    refine (mvInto_spec hdist hs₁.sees ht hsd hds).post ?_
    rintro _ s' ⟨-, hshows⟩
    obtain ⟨t', hT', hR⟩ := hshows.represents fun _ hR => Encoded.moved hvalid.encoded hR
    have hmap := hR.mapLeaf (f := valueOf)
    rw [hvalid.values_blobs] at hmap
    exact ⟨_, hT', hmap⟩
  | cp src dst =>
    obtain ⟨hsd, hds⟩ := hscope
    rw [Call.prog]
    unfold ArborDb.cp
    rw [if_neg hsd, if_neg (hroot hds)]
    have hreason : (dst.isRoot = true ∨ T.blobs src.names = none ∨
        Barred e T.blobs dst.names.dropLast) → ¬ Call.Allowed T (.cp src dst) := by
      rintro (hnil | hnone | hbarred) ⟨hsrc, hfile⟩
      · exact hroot hds hnil
      · exact hsrc (Layout.mapLeaf_eq_none.1 hnone)
      · exact hfile (hbarred.fileOn hp)
    refine reindexAround_outcome hs ht hvalid hreason ?_
    intro s₁ hs₁
    refine (cpInto_spec hdist (Policy.base_readable hp) hs₁.sees ht hsd hds).post ?_
    rintro _ s' ⟨-, hshows⟩
    obtain ⟨t', hT', hR⟩ := hshows.represents fun _ hR => Encoded.copiedTo hvalid.encoded hR
    have hmap := hR.mapLeaf (f := valueOf)
    rw [hvalid.values_blobs] at hmap
    refine ⟨_, hT', hmap.mono ?_⟩
    rintro k ⟨p, a, ha, rfl⟩
    exact ht.stored (a := a.mapLeaf Codec.encode) (Layout.mapLeaf_of_some ha)

omit [LawfulExternals] in
/-- A commit keeps the tree, for the transactions that start from it as well. -/
theorem Represents.commit (h : Represents e n s T) (buffering : Bool) :
    Represents e n ((ArborDb.commit.run e s).2.begin buffering) T := by
  obtain ⟨⟨v, hs, ht⟩, hvalid⟩ := h
  have hd : (ArborDb.commit.run e s).2.drawn = s.drawn := commit_drawn e s
  -- A commit draws no key, so a bound below the count of keys does not matter.
  have hs' : Sees (.base e) (max n s.drawn) s.drawn v s :=
    ⟨hs.shows, hs.coherent, rfl, fun i hi hn => hs.fresh i hi (by omega), hs.policy⟩
  have hn : (ArborDb.commit.run e s).2.drawn ≤ max n s.drawn := hd ▸ Nat.le_max_right n s.drawn
  have hrun := commit_spec hs' s rfl hn
  have hflushed : Flushed (.base e) (max n s.drawn) s.drawn v s (ArborDb.commit.run e s).2 := by
    generalize ArborDb.commit.run e s = out at hrun ⊢
    obtain ⟨x, s'⟩ := out
    cases x with
    | error _ => exact hrun.elim
    | ok _ => exact hrun
  refine ⟨⟨v, ⟨?_, ⟨nofun, nofun, fun _ _ => ⟨rfl, rfl⟩⟩, rfl, ?_, hflushed.sees.policy⟩, ht⟩, hvalid⟩
  · intro k
    rw [← hflushed.sees.shows k]
    exact observe_congr (hflushed.clean k).1.symm (hflushed.clean k).2.symm rfl rfl
  · have hbegin : ((ArborDb.commit.run e s).2.begin buffering).drawn = s.drawn := hd
    rw [hbegin]
    exact hs.fresh

end Lift

end Calls

end

end ArborDb
