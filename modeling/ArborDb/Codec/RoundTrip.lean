import ArborDb.Codec.Stored

/-!
# Reading a stored value

Every read of a vnode that stores `v` answers as `v` itself does: its kind, its scalar, its length,
its keys, its children (`Stored.child`), and, following these, any path (`Stored.descend`) and the
whole subtree (`Stored.toValue`).
-/

namespace ArborDb

namespace Codec

section Read

variable [Externals] {blob : Bytes} {off : Nat} {v : Value}

/-- The discriminant of a value. -/
def tagOf : Value → Nat
  | .leaf _ => leafTag
  | .list _ => listTag
  | .node _ => nodeTag

theorem Stored.tag (h : Stored blob off v) : readU8 blob off = .ok (tagOf v) := by
  cases v with
  | leaf s => rw [Stored] at h; exact h.1
  | list items => rw [Stored] at h; exact h.1
  | node fields => rw [Stored] at h; exact h.1

theorem Stored.kind (h : Stored blob off v) : ArchivedNode.kind ⟨blob, off⟩ = .ok v.nodeKind := by
  cases v with
  | leaf s => simp [ArchivedNode.kind, h.tag, tagOf, Value.nodeKind]
  | list items => simp [ArchivedNode.kind, h.tag, tagOf, Value.nodeKind, leafTag, listTag]
  | node fields => simp [ArchivedNode.kind, h.tag, tagOf, Value.nodeKind, leafTag, listTag, nodeTag]

/-! ## Leaves -/

section Leaf

/-- The scalar of a stored leaf is decoded from exactly its own bytes, whatever follows them. -/
theorem Stored.decode_of_reads {s : Scalar} (hs : Reads Scalar.decode s.encode s) (h : Stored blob off (.leaf s)) :
    ∃ body reader, ArchivedNode.body ⟨blob, off⟩ = .ok body ∧
      Scalar.decode (Reader.new body) = .ok (s, reader) ∧ reader.pos = s.encode.length := by
  have hlt := h.lt_length
  rw [Stored] at h
  obtain ⟨-, tail, htail⟩ := h
  have hread := hs (Reader.new (blob.drop (off + 1))) tail (Nat.zero_le _)
    (by simpa [Reader.rest, Reader.new] using htail)
  refine ⟨blob.drop (off + 1), _, ?_, hread, ?_⟩
  · exact if_pos hlt
  · simp [Reader.new]

theorem Stored.scalar_length {s : Scalar} (hb : blob.length < 2 ^ 32) (h : Stored blob off (.leaf s)) :
    s.encode.length < 2 ^ 32 := by
  rw [Stored] at h
  obtain ⟨-, tail, htail⟩ := h
  have := congrArg List.length htail
  rw [List.length_drop, List.length_append] at this
  omega

theorem Stored.scalar_native {s : Scalar} (hs : s.Native) (hlen : s.encode.length < 2 ^ 32)
    (h : Stored blob off (.leaf s)) : ArchivedNode.scalar ⟨blob, off⟩ = .ok s := by
  obtain ⟨body, reader, hbody, hdec, -⟩ := h.decode_of_reads (Scalar.reads_native hs hlen)
  simp [ArchivedNode.scalar, h.tag, tagOf, hbody, hdec]

variable [LawfulExternals]

theorem Stored.decode_leaf {s : Scalar} (hlen : s.encode.length < 2 ^ 32) (h : Stored blob off (.leaf s)) :
    ∃ body reader, ArchivedNode.body ⟨blob, off⟩ = .ok body ∧
      Scalar.decode (Reader.new body) = .ok (s, reader) ∧ reader.pos = s.encode.length :=
  h.decode_of_reads (Scalar.reads_encode hlen)

theorem Stored.decode_scalar {s : Scalar} (hb : blob.length < 2 ^ 32)
    (h : Stored blob off (.leaf s)) : ∃ body reader, ArchivedNode.body ⟨blob, off⟩ = .ok body ∧
      Scalar.decode (Reader.new body) = .ok (s, reader) ∧ reader.pos = s.encode.length :=
  h.decode_leaf (h.scalar_length hb)

theorem Stored.scalar {s : Scalar} (hb : blob.length < 2 ^ 32) (h : Stored blob off (.leaf s)) :
    ArchivedNode.scalar ⟨blob, off⟩ = .ok s := by
  obtain ⟨body, reader, hbody, hdec, -⟩ := h.decode_scalar hb
  simp [ArchivedNode.scalar, h.tag, tagOf, hbody, hdec]

theorem Stored.scalarIfLeaf (hb : blob.length < 2 ^ 32) (h : Stored blob off v) :
    ArchivedNode.scalarIfLeaf ⟨blob, off⟩ = .ok v.asLeaf := by
  cases v with
  | leaf s =>
    obtain ⟨body, reader, hbody, hdec, -⟩ := h.decode_scalar hb
    simp [ArchivedNode.scalarIfLeaf, h.tag, tagOf, hbody, hdec, Value.asLeaf]
  | list items => simp [ArchivedNode.scalarIfLeaf, h.tag, tagOf, leafTag, listTag, Value.asLeaf]
  | node fields => simp [ArchivedNode.scalarIfLeaf, h.tag, tagOf, leafTag, nodeTag, Value.asLeaf]

end Leaf

/-! ## Lists -/

theorem Stored.len {items : List Value} (h : Stored blob off (.list items)) :
    ArchivedNode.len ⟨blob, off⟩ = .ok items.length := by
  have htag := h.tag
  rw [Stored] at h
  simp [ArchivedNode.len, htag, tagOf, h.2.1]

theorem StoredItems.get {items : List Value} {bound table i : Nat}
    (h : StoredItems blob bound table items) (hv : items[i]? = some v) :
    ∃ c, readU32 blob (table + i * 4) = .ok c ∧ c < bound ∧ Stored blob c v := by
  induction items generalizing table i with
  | nil => simp at hv
  | cons w ws ih =>
    rw [StoredItems] at h
    cases i with
    | zero =>
      obtain rfl := Option.some.inj hv
      simpa using h.1
    | succ i =>
      obtain ⟨c, hc⟩ := ih h.2 hv
      refine ⟨c, ?_⟩
      rwa [show table + (i + 1) * 4 = table + 4 + i * 4 by omega]

theorem Stored.at? (h : Stored blob off v) (i : Nat) :
    match v.at? i with
    | some w => ∃ c, ArchivedNode.at? ⟨blob, off⟩ i = .ok (some ⟨blob, c⟩) ∧ c < off ∧
        Stored blob c w
    | none => ArchivedNode.at? ⟨blob, off⟩ i = .ok none := by
  have htag := h.tag
  cases v with
  | leaf s => simp [Value.at?, ArchivedNode.at?, htag, tagOf, leafTag, listTag]
  | node fields => simp [Value.at?, ArchivedNode.at?, htag, tagOf, nodeTag, listTag]
  | list items =>
    rw [Stored] at h
    obtain ⟨-, hlen, hitems⟩ := h
    simp only [Value.at?]
    cases hi : items[i]? with
    | none =>
      have hge := List.getElem?_eq_none_iff.1 hi
      simp [ArchivedNode.at?, htag, tagOf, hlen, hge]
    | some w =>
      obtain ⟨c, hc, hlt, hw⟩ := hitems.get hi
      have hil := (List.getElem?_eq_some_iff.1 hi).1
      exact ⟨c, by simp [ArchivedNode.at?, htag, tagOf, hlen, Nat.not_le.2 hil, hc], hlt, hw⟩

/-! ## Objects -/

theorem StoredFields.get {fields : List (Str × Value)} {bound table i : Nat} {name : Str}
    (h : StoredFields blob bound table fields) (hv : fields[i]? = some (name, v)) :
    ∃ c, StoredRecord blob (table + i * 12) name c ∧ c < bound ∧ Stored blob c v := by
  induction fields generalizing table i with
  | nil => simp at hv
  | cons f fs ih =>
    rw [StoredFields] at h
    cases i with
    | zero =>
      obtain rfl := Option.some.inj hv
      simpa using h.1
    | succ i =>
      obtain ⟨c, hc⟩ := ih h.2 hv
      refine ⟨c, ?_⟩
      rwa [show table + (i + 1) * 12 = table + 12 + i * 12 by omega]

omit [Externals] in
theorem StoredRecord.nameBytes {entry c : Nat} {name : Str} (h : StoredRecord blob entry name c)
    (off : Nat) :
    ArchivedNode.entryNameBytes ⟨blob, off⟩ entry = .ok name.bytes := by
  obtain ⟨nameOff, hoff, hlen, hname, -⟩ := h
  simp [ArchivedNode.entryNameBytes, hoff, hlen, hname]

/-- The entry table answers the binary search as the sorted list of names does. -/
theorem StoredFields.probes {fields : List (Str × Value)} {bound table : Nat}
    (h : StoredFields blob bound table fields) (off : Nat) (name : Str) :
    Probes (fun i => do
      let entryName ← ArchivedNode.entryNameBytes ⟨blob, off⟩ (table + i * 12)
      return cmp entryName name.bytes : Nat → AdbResult Ordering)
      (fields.map fun f => f.1.bytes) name.bytes := by
  intro i hi
  rw [List.length_map] at hi
  obtain ⟨c, hrec, -⟩ := h.get (List.getElem?_eq_getElem hi)
  dsimp only
  rw [hrec.nameBytes, List.getElem_map, Except.ok_bind, Except.pure_eq_ok, Except.ok.injEq]
  -- The two sides decide the byte order by different instances.
  congr

omit [Externals] in
theorem sorted_bytes {V : Type} {fields : List (Str × V)} (h : Assoc.Sorted fields) :
    (fields.map fun f => f.1.bytes).Pairwise (· < ·) := by
  have hmap : (fields.map fun f => f.1.bytes) = (fields.map Prod.fst).map Str.bytes := by
    rw [List.map_map]
    rfl
  rw [hmap, List.pairwise_map]
  exact h

/-- The search for a name ends at the record of its field. -/
theorem Stored.get_record {fields : List (Str × Value)} {k c : Nat} {name : Str} {w : Value}
    (h : Stored blob off (.node fields)) (hv : (Value.node fields).WF) (hk : fields[k]? = some (name, w))
    (hchild : readU32 blob (off + 5 + k * 12 + 8) = .ok c) :
    ArchivedNode.get ⟨blob, off⟩ name = .ok (some ⟨blob, c⟩) := by
  have htag := h.tag
  rw [Stored] at h
  obtain ⟨-, hlen, hfields⟩ := h
  have hs := sorted_bytes (Value.wf_node.1 hv).1
  have hprobes := hfields.probes off name
  have hkl := (List.getElem?_eq_some_iff.1 hk).1
  have hsearch := binarySearch_of_mem hs hprobes fields.length 0 fields.length
    (k := k) (by simp) (by simp) (Nat.zero_le _) hkl
    (by rw [List.getElem?_map, hk]; rfl)
  rw [ArchivedNode.get, htag, Except.ok_bind, if_neg (by simp [tagOf]), hlen, Except.ok_bind]
  dsimp only
  rw [hsearch, Except.ok_bind]
  dsimp only
  rw [hchild]
  rfl

theorem Stored.get (h : Stored blob off v) (hv : v.WF) (name : Str) :
    match v.get name with
    | some w => ∃ c, ArchivedNode.get ⟨blob, off⟩ name = .ok (some ⟨blob, c⟩) ∧ c < off ∧
        Stored blob c w
    | none => ArchivedNode.get ⟨blob, off⟩ name = .ok none := by
  have htag := h.tag
  cases v with
  | leaf s =>
    rw [ArchivedNode.get, htag, Except.ok_bind, if_pos (by simp [tagOf, leafTag, nodeTag])]
    rfl
  | list items =>
    rw [ArchivedNode.get, htag, Except.ok_bind, if_pos (by simp [tagOf, listTag, nodeTag])]
    rfl
  | node fields =>
    have hobject := h
    rw [Stored] at h
    obtain ⟨-, hlen, hfields⟩ := h
    have hprobes := hfields.probes off name
    simp only [Value.get]
    cases hf : Assoc.find name fields with
    | none =>
      have hn : name.bytes ∉ fields.map fun f => f.1.bytes := by
        intro hmem
        obtain ⟨f, hfm, hfb⟩ := List.mem_map.1 hmem
        exact Assoc.find_eq_none.1 hf f hfm (Str.bytes_inj hfb)
      have hsearch := binarySearch_of_not_mem hprobes hn fields.length 0 fields.length
        (by simp)
      rw [ArchivedNode.get, htag, Except.ok_bind, if_neg (by simp [tagOf]), hlen, Except.ok_bind]
      dsimp only
      rw [hsearch]
      rfl
    | some w =>
      obtain ⟨k, hk⟩ := List.getElem?_of_mem (Assoc.mem_of_find hf)
      obtain ⟨c, hrec, hlt, hw⟩ := hfields.get hk
      obtain ⟨-, -, -, -, hchild⟩ := hrec
      exact ⟨c, hobject.get_record hv hk hchild, hlt, hw⟩

/-- The entries of a stored object are its fields, each with a vnode that stores its value. -/
theorem StoredFields.entries {fields : List (Str × Value)} {bound table : Nat}
    (h : StoredFields blob bound table fields) : ∃ es : List (Str × ArchivedNode),
      List.Forall₂ (fun (e : Str × ArchivedNode) (f : Str × Value) =>
        e.1 = f.1 ∧ e.2.blob = blob ∧ e.2.off < bound ∧ Stored blob e.2.off f.2) es fields ∧
      ∀ i e, es[i]? = some e → e.2.blob = blob ∧
        StoredRecord blob (table + i * 12) e.1 e.2.off := by
  induction fields generalizing table with
  | nil => exact ⟨[], List.Forall₂.nil, by simp⟩
  | cons f fs ih =>
    rw [StoredFields] at h
    obtain ⟨⟨c, hrec, hlt, hc⟩, hfs⟩ := h
    obtain ⟨es, hes, hrecs⟩ := ih hfs
    refine ⟨(f.1, ⟨blob, c⟩) :: es, List.Forall₂.cons ⟨rfl, rfl, hlt, hc⟩ hes, ?_⟩
    intro i e he
    cases i with
    | zero =>
      obtain rfl := Option.some.inj he
      simpa using hrec
    | succ i =>
      rw [show table + (i + 1) * 12 = table + 12 + i * 12 by omega]
      exact hrecs i e he

theorem Stored.entries {fields : List (Str × Value)} (h : Stored blob off (.node fields)) :
    ∃ es : List (Str × ArchivedNode), ArchivedNode.entries ⟨blob, off⟩ = .ok es ∧
      List.Forall₂ (fun (e : Str × ArchivedNode) (f : Str × Value) =>
        e.1 = f.1 ∧ e.2.blob = blob ∧ e.2.off < off ∧ Stored blob e.2.off f.2) es fields := by
  have htag := h.tag
  rw [Stored] at h
  obtain ⟨-, hlen, hfields⟩ := h
  obtain ⟨es, hes, hrecs⟩ := hfields.entries
  refine ⟨es, ?_, hes⟩
  · have hbody : ∀ i e, es[i]? = some e → (do
        let name ← ArchivedNode.entryName ⟨blob, off⟩ (off + 5 + i * 12)
        let child ← readU32 blob (off + 5 + i * 12 + 8)
        return (name, (⟨blob, child⟩ : ArchivedNode)) : AdbResult _) = .ok e := by
      intro i e he
      obtain ⟨hblob, hrec⟩ := hrecs i e he
      have hname := hrec.nameBytes off
      obtain ⟨-, -, -, -, hchild⟩ := hrec
      obtain ⟨name, node⟩ := e
      obtain ⟨b, o⟩ := node
      simp only at hblob hname hchild
      subst hblob
      simp [ArchivedNode.entryName, hname, Str.fromUtf8_bytes, hchild]
    have hloop := Except.mapM_range hbody
    rw [hes.length_eq] at hloop
    simp only [ArchivedNode.entries, htag, tagOf, Except.ok_bind, hlen]
    exact hloop
/-! ## Paths and subtrees -/

theorem Stored.child (h : Stored blob off v) (hv : v.WF) (seg : Segment) :
    match v.child seg with
    | some w => ∃ c, ArchivedNode.child ⟨blob, off⟩ seg = .ok (some ⟨blob, c⟩) ∧ c < off ∧
        Stored blob c w
    | none => ArchivedNode.child ⟨blob, off⟩ seg = .ok none := by
  cases seg with
  | name n => exact h.get hv n
  | index i => exact h.at? i.toNat

/-- **Following segments through the blob ends where following them through the value does.** -/
theorem Stored.descend (h : Stored blob off v) (hv : v.WF) (segs : List Segment) :
    match v.descend segs with
    | some w => ∃ c, ArchivedNode.descend ⟨blob, off⟩ segs = .ok (some ⟨blob, c⟩) ∧
        Stored blob c w
    | none => ArchivedNode.descend ⟨blob, off⟩ segs = .ok none := by
  induction segs generalizing off v with
  | nil => exact ⟨off, rfl, h⟩
  | cons seg rest ih =>
    have hchild := h.child hv seg
    rw [Value.descend, ArchivedNode.descend]
    cases hc : v.child seg with
    | none =>
      rw [hc] at hchild
      simp only at hchild
      simp [hchild]
    | some w =>
      rw [hc] at hchild
      obtain ⟨c, hget, -, hw⟩ := hchild
      simp only [hget, Except.ok_bind, Option.bind_some]
      exact ih hw (hv.child hc)

theorem foldlM_fields {f : ArchivedNode → AdbResult Value} {es : List (Str × ArchivedNode)}
    {fields : List (Str × Value)}
    (h : List.Forall₂ (fun (e : Str × ArchivedNode) (x : Str × Value) =>
      e.1 = x.1 ∧ f e.2 = .ok x.2) es fields) (acc : List (Str × Value)) :
    es.foldlM (fun acc e => do
      let v ← f e.2
      return Assoc.insert e.1 v acc) acc =
    (.ok (fields.foldl (fun acc x => Assoc.insert x.1 x.2 acc) acc) : AdbResult _) := by
  induction h generalizing acc with
  | nil => rfl
  | cons hef _ ih =>
    obtain ⟨hname, hval⟩ := hef
    rw [List.foldlM_cons, hval, hname, List.foldl_cons]
    exact ih _

variable [LawfulExternals]

/-- **A stored vnode reads back as the value it stores.** The children of a vnode lie below it, so
the offset bounds the depth of the recursion. -/
theorem Stored.toValue {fuel : Nat} (hb : blob.length < 2 ^ 32) (h : Stored blob off v) (hv : v.WF)
    (hfuel : off < fuel) : ArchivedNode.toValue fuel ⟨blob, off⟩ = .ok v := by
  induction fuel generalizing off v with
  | zero => omega
  | succ fuel ih =>
    rw [ArchivedNode.toValue, h.kind, Except.ok_bind]
    cases v with
    | leaf s => simp [Value.nodeKind, h.scalar hb]
    | list items =>
      have hbody : ∀ i w, items[i]? = some w → (do
          let c ← ArchivedNode.element ⟨blob, off⟩ i
          ArchivedNode.toValue fuel c : AdbResult Value) = .ok w := by
        intro i w hw
        have hat := h.at? i
        rw [Value.at?, hw] at hat
        obtain ⟨c, hget, hlt, hcw⟩ := hat
        have hwwf : w.WF := Value.wf_list.1 hv w (List.mem_of_getElem? hw)
        simp only [ArchivedNode.element, hget, Except.ok_bind, Except.pure_eq_ok]
        exact ih hcw hwwf (by omega)
      have hloop := Except.mapM_range hbody
      simp only [Value.nodeKind, h.len, Except.ok_bind]
      rw [hloop]
      rfl
    | node fields =>
      obtain ⟨es, hes, hall⟩ := h.entries
      obtain ⟨hs, hwf⟩ := Value.wf_node.1 hv
      have hread : List.Forall₂ (fun (e : Str × ArchivedNode) (f : Str × Value) =>
          e.1 = f.1 ∧ e.2.toValue fuel = .ok f.2) es fields := by
        refine hall.imp_of_mem ?_
        rintro ⟨name, b, c⟩ f hf ⟨hname, rfl, hlt, hc⟩
        exact ⟨hname, ih hc (hwf f hf) (Nat.lt_of_lt_of_le hlt (Nat.le_of_lt_succ hfuel))⟩
      have hloop := foldlM_fields hread []
      rw [Assoc.foldl_insert_sorted (by simpa using hs), List.nil_append] at hloop
      simp only [Value.nodeKind, hes, Except.ok_bind]
      rw [hloop]
      rfl

theorem Stored.decode (hb : blob.length < 2 ^ 32) (hnew : ArchivedValue.new blob = .ok ⟨blob, off⟩)
    (h : Stored blob off v) (hv : v.WF) : decode blob = .ok v := by
  rw [Codec.decode, hnew, Except.ok_bind]
  exact h.toValue hb hv (Nat.lt_succ_of_lt h.lt_length)

/-- **Decoding what was encoded gives the value back.** -/
theorem decode_encode (hv : v.WF) (h : (encode v).length < 2 ^ 32) : decode (encode v) = .ok v := by
  obtain ⟨root, hnew, hstored⟩ := stored_encode h
  exact hstored.decode h hnew hv

end Read

/-- An object with an empty field name, a list of a big integer and a float, and an empty object. -/
def sample : @Value Reference.externals :=
  letI := Reference.externals
  .node [(⟨""⟩, .list [.leaf (.bigInt (-129)), .leaf (.f64 0x7ff8000000000001#64)]),
    (⟨"é"⟩, .node [])]

theorem decode_encode_sample : letI := Reference.externals
    sample.WF ∧ (encode sample).length < 2 ^ 32 ∧ decode (encode sample) = .ok sample := by
  let _ := Reference.externals
  have _ := Reference.lawful
  exact ⟨by decide, by decide, decode_encode (by decide) (by decide)⟩

end Codec

end ArborDb
