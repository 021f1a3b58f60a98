import ArborDb.Codec.RoundTrip
import ArborDb.Value.Edit

/-!
# Overwriting a leaf in place

Values that differ in one leaf, whose scalars are encoded in the same width, have blobs that differ
in the bytes of that scalar alone, and following the path of the leaf through either blob ends right
before them. So overwriting these bytes encodes the edited value (`encode_setIn`).
-/

namespace ArborDb

namespace Codec

variable [Externals]

/-! ## Pushing lists piece by piece -/

theorem pushItems_cons (v : Value) (vs : List Value) (buf : Bytes) :
    pushItems (v :: vs) buf =
      ((pushValue v buf).1 :: (pushItems vs (pushValue v buf).2).1, (pushItems vs (pushValue v buf).2).2) := by
  rw [pushItems]

theorem pushFields_cons (name : Str) (v : Value) (fs : List (Str × Value)) (buf : Bytes) :
    pushFields ((name, v) :: fs) buf =
      ((name, (pushValue v buf).1) :: (pushFields fs (pushValue v buf).2).1,
        (pushFields fs (pushValue v buf).2).2) := by
  rw [pushFields]

theorem pushItems_append (xs ys : List Value) (buf : Bytes) :
    pushItems (xs ++ ys) buf =
      ((pushItems xs buf).1 ++ (pushItems ys (pushItems xs buf).2).1, (pushItems ys (pushItems xs buf).2).2) := by
  induction xs generalizing buf with
  | nil => rfl
  | cons x xs ih =>
    rw [List.cons_append, pushItems_cons, pushItems_cons, ih]
    rfl

theorem pushFields_append (fs gs : List (Str × Value)) (buf : Bytes) :
    pushFields (fs ++ gs) buf =
      ((pushFields fs buf).1 ++ (pushFields gs (pushFields fs buf).2).1,
        (pushFields gs (pushFields fs buf).2).2) := by
  induction fs generalizing buf with
  | nil => rfl
  | cons f fs ih =>
    obtain ⟨name, v⟩ := f
    rw [List.cons_append, pushFields_cons, pushFields_cons, ih]
    rfl

theorem length_pushItems (items : List Value) (buf : Bytes) : (pushItems items buf).1.length = items.length := by
  induction items generalizing buf with
  | nil => rfl
  | cons v vs ih => rw [pushItems_cons, List.length_cons, List.length_cons, ih]

theorem map_fst_pushFields (fields : List (Str × Value)) (buf : Bytes) :
    (pushFields fields buf).1.map Prod.fst = fields.map Prod.fst := by
  induction fields generalizing buf with
  | nil => rfl
  | cons f fs ih =>
    obtain ⟨name, v⟩ := f
    rw [pushFields_cons, List.map_cons, List.map_cons, ih]

/-! ## Reading the tables -/

omit [Externals] in
theorem readU32_table {offs : List Nat} {i c : Nat} (hi : offs[i]? = some c) (hc : c < 2 ^ 32)
    (pre post : Bytes) : readU32 (pre ++ offs.flatMap putU32 ++ post) (pre.length + i * 4) = .ok c := by
  induction offs generalizing i pre with
  | nil => cases hi
  | cons o offs ih =>
    rw [List.flatMap_cons]
    cases i with
    | zero =>
      cases Option.some.inj hi
      have hread := readU32_append hc pre (offs.flatMap putU32 ++ post)
      simpa using hread
    | succ i =>
      have hread := ih hi (pre ++ putU32 o)
      rw [List.length_append, length_putU32] at hread
      rw [show pre.length + (i + 1) * 4 = pre.length + 4 + i * 4 by omega]
      simpa using hread

omit [Externals] in
theorem readU32_records {records : List (Nat × Nat × Nat)} {i : Nat} {r : Nat × Nat × Nat}
    (hi : records[i]? = some r) (hc : r.2.2 < 2 ^ 32) (pre post : Bytes) :
    readU32 (pre ++ records.flatMap putRecord ++ post) (pre.length + i * 12 + 8) = .ok r.2.2 := by
  induction records generalizing i pre with
  | nil => cases hi
  | cons q records ih =>
    rw [List.flatMap_cons]
    cases i with
    | zero =>
      cases Option.some.inj hi
      have hread := readU32_append hc (pre ++ putU32 r.1 ++ putU32 r.2.1) (records.flatMap putRecord ++ post)
      rw [List.length_append, List.length_append, length_putU32, length_putU32] at hread
      rw [putRecord, show pre.length + 0 * 12 + 8 = pre.length + 4 + 4 by omega]
      simpa using hread
    | succ i =>
      have hread := ih hi (pre ++ putRecord q)
      rw [List.length_append, putRecord, List.length_append, List.length_append, length_putU32, length_putU32,
        length_putU32] at hread
      rw [putRecord, show pre.length + (i + 1) * 12 + 8 = pre.length + (4 + 4 + 4) + i * 12 + 8 by omega]
      simpa using hread

/-! ## The vnode of a child -/

variable {buf post : Bytes} {off c : Nat} {w : Value}

theorem stored_pushed {v : Value} (hsize : ((pushValue v buf).2 ++ post).length < 2 ^ 32) :
    Stored ((pushValue v buf).2 ++ post) (pushValue v buf).1 v := by
  rw [List.length_append] at hsize
  exact (stored_pushValue v buf (by omega)).mono post

theorem pushValue_list (items : List Value) (buf : Bytes) :
    pushValue (.list items) buf = pushList (pushItems items buf).2 (pushItems items buf).1 := by
  rw [pushValue]

theorem pushValue_node (fields : List (Str × Value)) (buf : Bytes) :
    pushValue (.node fields) buf = pushObject (pushFields fields buf).2 (pushFields fields buf).1 := by
  rw [pushValue]

/-- An element of a list that was pushed is found where it was pushed. -/
theorem at?_pushed {items : List Value} {i : Nat} (hc : (pushItems items buf).1[i]? = some c)
    (hsize : ((pushValue (.list items) buf).2 ++ post).length < 2 ^ 32) :
    ArchivedNode.at? ⟨(pushValue (.list items) buf).2 ++ post, (pushValue (.list items) buf).1⟩ i =
      .ok (some ⟨(pushValue (.list items) buf).2 ++ post, c⟩) := by
  have hstored := stored_pushed hsize
  have htag := hstored.tag
  have hlen := hstored.2.1
  obtain ⟨hi, -⟩ := List.getElem?_eq_some_iff.1 hc
  rw [length_pushItems] at hi
  have hread : readU32 ((pushValue (.list items) buf).2 ++ post) ((pushValue (.list items) buf).1 + 5 + i * 4) =
      .ok c := by
    rw [pushValue_list] at hsize ⊢
    simp only [pushList, List.length_append, Bytes.length_be, length_putU32] at hsize ⊢
    have hoff : offset (pushItems items buf).2 = (pushItems items buf).2.length := Nat.mod_eq_of_lt (by omega)
    have hall := stored_pushItems items buf (by omega)
    obtain ⟨w, hw⟩ : ∃ w, items[i]? = some w := ⟨_, List.getElem?_eq_getElem hi⟩
    have hc32 : c < (pushItems items buf).2.length := (List.forall₂_getElem? hall hc hw).1
    have hread := readU32_table hc (by omega)
      ((pushItems items buf).2 ++ Bytes.be 1 listTag ++ putU32 (pushItems items buf).1.length) post
    rw [hoff]
    simpa using hread
  simp [ArchivedNode.at?, htag, tagOf, hlen, Nat.not_le.2 hi, hread]

/-- A field of an object that was pushed is found where it was pushed. -/
theorem get_pushed {fields : List (Str × Value)} {k : Nat} {name : Str} (hv : (Value.node fields).WF)
    (hc : (pushFields fields buf).1[k]? = some (name, c))
    (hsize : ((pushValue (.node fields) buf).2 ++ post).length < 2 ^ 32) :
    ArchivedNode.get ⟨(pushValue (.node fields) buf).2 ++ post, (pushValue (.node fields) buf).1⟩ name =
      .ok (some ⟨(pushValue (.node fields) buf).2 ++ post, c⟩) := by
  have hstored := stored_pushed hsize
  obtain ⟨w, hw⟩ : ∃ w, fields[k]? = some (name, w) := by
    have hname : (fields.map Prod.fst)[k]? = some name := by
      rw [← map_fst_pushFields fields buf, List.getElem?_map, hc]
      rfl
    rw [List.getElem?_map, Option.map_eq_some_iff] at hname
    obtain ⟨⟨_, w⟩, hw, rfl⟩ := hname
    exact ⟨w, hw⟩
  apply hstored.get_record hv hw
  rw [pushValue_node] at hsize ⊢
  simp only [pushObject, List.length_append, Bytes.length_be, length_putU32] at hsize ⊢
  have hnames := @pushNames_spec (pushFields fields buf).2 (pushFields fields buf).1 (by omega)
  have hgrow := (appends_pushNames (pushFields fields buf).1).length_le (pushFields fields buf).2
  have hall := stored_pushFields fields buf (by omega)
  have hc32 : c < (pushFields fields buf).2.length := (List.forall₂_getElem? hall hc hw).2.1
  generalize hnb : pushNames (pushFields fields buf).2 (pushFields fields buf).1 = named at *
  obtain ⟨records, out⟩ := named
  dsimp only at hsize hgrow hnames
  obtain ⟨hk, -⟩ := List.getElem?_eq_some_iff.1 hc
  obtain ⟨r, hr⟩ : ∃ r, records[k]? = some r := ⟨_, List.getElem?_eq_getElem (hnames.length_eq ▸ hk)⟩
  obtain ⟨-, -, -, hchild, -⟩ := List.forall₂_getElem? hnames hr hc
  have hoff : offset out = out.length := Nat.mod_eq_of_lt (by omega)
  have hread := readU32_records hr (by rw [hchild]; omega)
    (out ++ Bytes.be 1 nodeTag ++ putU32 records.length) post
  rw [hchild] at hread
  rw [hoff]
  simpa using hread

/-! ## Writers that differ in one leaf -/

/-- A leaf vnode. -/
def leafBytes (s : Scalar) : Bytes := Bytes.be 1 leafTag ++ s.encode

/-- The two writers do the same, but that one writes `s'` into the leaf vnode at `off` where the other
writes `s`. -/
def Patched {α : Type} (f f' : Bytes → α × Bytes) (s s' : Scalar) (buf : Bytes) (off : Nat) : Prop :=
  ∃ a pre post, (buf ++ pre).length = off ∧ f buf = (a, buf ++ pre ++ leafBytes s ++ post) ∧
    f' buf = (a, buf ++ pre ++ leafBytes s' ++ post)

section Patched

variable {s s' : Scalar} {α β γ : Type} {f f' : Bytes → α × Bytes}

theorem patched_pushLeaf (buf : Bytes) :
    Patched (pushValue (.leaf s)) (pushValue (.leaf s')) s s' buf buf.length := by
  refine ⟨offset buf, [], [], by rw [List.append_nil], ?_, ?_⟩
  · simp [pushValue, pushLeaf, leafBytes]
  · simp [pushValue, pushLeaf, leafBytes]

/-- What is written after the leaf is the same, where both scalars have one width. -/
theorem Patched.bind {g : α → Bytes → β × Bytes} (h : Patched f f' s s' buf off)
    (hwidth : s'.encode.length = s.encode.length) (hg : ∀ a, Appends (g a)) :
    Patched (fun b => g (f b).1 (f b).2) (fun b => g (f' b).1 (f' b).2) s s' buf off := by
  obtain ⟨a, pre, tail, hoff, hf, hf'⟩ := h
  obtain ⟨b, out, hout⟩ := hg a (buf ++ pre ++ leafBytes s ++ tail).length
  refine ⟨b, pre, tail ++ out, hoff, ?_, ?_⟩
  · dsimp only
    rw [hf, hout _ rfl, List.append_assoc _ tail out]
  · have hlen : (buf ++ pre ++ leafBytes s' ++ tail).length = (buf ++ pre ++ leafBytes s ++ tail).length := by
      simp [leafBytes, hwidth]
    dsimp only
    rw [hf', hout _ hlen, List.append_assoc _ tail out]

/-- What is written before the leaf is the same. -/
theorem Patched.after {h : Bytes → γ × Bytes} {k : γ → α → β} (happ : Appends h)
    (hf : Patched f f' s s' (h buf).2 off) :
    Patched (fun b => (k (h b).1 (f (h b).2).1, (f (h b).2).2)) (fun b => (k (h b).1 (f' (h b).2).1, (f' (h b).2).2))
      s s' buf off := by
  obtain ⟨out, hout⟩ := happ.exists_append buf
  rw [hout] at hf
  obtain ⟨a, pre, tail, hoff, hf, hf'⟩ := hf
  refine ⟨k (h buf).1 a, out ++ pre, tail, ?_, ?_, ?_⟩
  · rw [← hoff, List.append_assoc]
  · dsimp only
    rw [hout, hf, List.append_assoc buf out pre]
  · dsimp only
    rw [hout, hf', List.append_assoc buf out pre]

theorem patched_pushItems {xs ys : List Value} {w' : Value} (hwidth : s'.encode.length = s.encode.length)
    (h : Patched (pushValue w) (pushValue w') s s' (pushItems xs buf).2 off) :
    Patched (pushItems (xs ++ w :: ys)) (pushItems (xs ++ w' :: ys)) s s' buf off := by
  have hrest := h.bind (g := fun c b => (c :: (pushItems ys b).1, (pushItems ys b).2)) hwidth
    fun c => (appends_pushItems ys).bind fun cs => Appends.pure (c :: cs)
  have hall := hrest.after (k := fun cs ds => cs ++ ds) (appends_pushItems xs)
  have hpush (u : Value) : pushItems (xs ++ u :: ys) = fun b =>
      ((pushItems xs b).1 ++ (pushValue u (pushItems xs b).2).1 ::
        (pushItems ys (pushValue u (pushItems xs b).2).2).1, (pushItems ys (pushValue u (pushItems xs b).2).2).2) := by
    funext b
    rw [pushItems_append, pushItems_cons]
  rw [hpush, hpush]
  exact hall

theorem patched_pushFields {fs gs : List (Str × Value)} {name : Str} {w' : Value}
    (hwidth : s'.encode.length = s.encode.length)
    (h : Patched (pushValue w) (pushValue w') s s' (pushFields fs buf).2 off) :
    Patched (pushFields (fs ++ (name, w) :: gs)) (pushFields (fs ++ (name, w') :: gs)) s s' buf off := by
  have hrest := h.bind (g := fun c b => ((name, c) :: (pushFields gs b).1, (pushFields gs b).2)) hwidth
    fun c => (appends_pushFields gs).bind fun cs => Appends.pure ((name, c) :: cs)
  have hall := hrest.after (k := fun cs ds => cs ++ ds) (appends_pushFields fs)
  have hpush (u : Value) : pushFields (fs ++ (name, u) :: gs) = fun b =>
      ((pushFields fs b).1 ++ (name, (pushValue u (pushFields fs b).2).1) ::
        (pushFields gs (pushValue u (pushFields fs b).2).2).1,
        (pushFields gs (pushValue u (pushFields fs b).2).2).2) := by
    funext b
    rw [pushFields_append, pushFields_cons]
  rw [hpush, hpush]
  exact hall

theorem patched_list {items items' : List Value} (hwidth : s'.encode.length = s.encode.length)
    (h : Patched (pushItems items) (pushItems items') s s' buf off) :
    Patched (pushValue (.list items)) (pushValue (.list items')) s s' buf off := by
  have hall := h.bind (g := fun cs b => pushList b cs) hwidth appends_pushList
  have hpush (us : List Value) : pushValue (.list us) = fun b => pushList (pushItems us b).2 (pushItems us b).1 :=
    funext (pushValue_list us)
  rw [hpush, hpush]
  exact hall

theorem patched_node {fields fields' : List (Str × Value)} (hwidth : s'.encode.length = s.encode.length)
    (h : Patched (pushFields fields) (pushFields fields') s s' buf off) :
    Patched (pushValue (.node fields)) (pushValue (.node fields')) s s' buf off := by
  have hall := h.bind (g := fun es b => pushObject b es) hwidth appends_pushObject
  have hpush (us : List (Str × Value)) :
      pushValue (.node us) = fun b => pushObject (pushFields us b).2 (pushFields us b).1 :=
    funext (pushValue_node us)
  rw [hpush, hpush]
  exact hall

end Patched

/-! ## Following the path of the leaf -/

/-- A pushed list holds each element where the elements before it end. -/
theorem at?_split {xs ys : List Value} (hsize : ((pushValue (.list (xs ++ w :: ys)) buf).2 ++ post).length < 2 ^ 32) :
    ∃ out, (pushValue (.list (xs ++ w :: ys)) buf).2 ++ post = (pushValue w (pushItems xs buf).2).2 ++ out ∧
      ArchivedNode.at? ⟨(pushValue (.list (xs ++ w :: ys)) buf).2 ++ post,
          (pushValue (.list (xs ++ w :: ys)) buf).1⟩ xs.length =
        .ok (some ⟨(pushValue (.list (xs ++ w :: ys)) buf).2 ++ post, (pushValue w (pushItems xs buf).2).1⟩) := by
  have hpush : pushItems (xs ++ w :: ys) buf = ((pushItems xs buf).1 ++ (pushValue w (pushItems xs buf).2).1 ::
      (pushItems ys (pushValue w (pushItems xs buf).2).2).1,
      (pushItems ys (pushValue w (pushItems xs buf).2).2).2) := by
    rw [pushItems_append, pushItems_cons]
  have hc : (pushItems (xs ++ w :: ys) buf).1[xs.length]? = some (pushValue w (pushItems xs buf).2).1 := by
    rw [hpush, List.getElem?_append_right (Nat.le_of_eq (length_pushItems xs buf)), length_pushItems, Nat.sub_self]
    rfl
  obtain ⟨out₁, hout₁⟩ := (appends_pushItems ys).exists_append (pushValue w (pushItems xs buf).2).2
  obtain ⟨out₂, hout₂⟩ := (appends_pushList (pushItems (xs ++ w :: ys) buf).1).exists_append
    (pushItems (xs ++ w :: ys) buf).2
  refine ⟨out₁ ++ out₂ ++ post, ?_, at?_pushed hc hsize⟩
  rw [pushValue_list, hout₂, hpush]
  dsimp only
  rw [hout₁]
  simp only [List.append_assoc]

/-- A pushed object holds each field where the fields before it end. -/
theorem get_split {fs gs : List (Str × Value)} {name : Str} (hv : (Value.node (fs ++ (name, w) :: gs)).WF)
    (hsize : ((pushValue (.node (fs ++ (name, w) :: gs)) buf).2 ++ post).length < 2 ^ 32) :
    ∃ out, (pushValue (.node (fs ++ (name, w) :: gs)) buf).2 ++ post = (pushValue w (pushFields fs buf).2).2 ++ out ∧
      ArchivedNode.get ⟨(pushValue (.node (fs ++ (name, w) :: gs)) buf).2 ++ post,
          (pushValue (.node (fs ++ (name, w) :: gs)) buf).1⟩ name =
        .ok (some ⟨(pushValue (.node (fs ++ (name, w) :: gs)) buf).2 ++ post,
          (pushValue w (pushFields fs buf).2).1⟩) := by
  have hpush : pushFields (fs ++ (name, w) :: gs) buf =
      ((pushFields fs buf).1 ++ (name, (pushValue w (pushFields fs buf).2).1) ::
        (pushFields gs (pushValue w (pushFields fs buf).2).2).1,
        (pushFields gs (pushValue w (pushFields fs buf).2).2).2) := by
    rw [pushFields_append, pushFields_cons]
  have hlen : (pushFields fs buf).1.length = fs.length := by
    rw [← List.length_map (f := Prod.fst), map_fst_pushFields, List.length_map]
  have hc : (pushFields (fs ++ (name, w) :: gs) buf).1[fs.length]? =
      some (name, (pushValue w (pushFields fs buf).2).1) := by
    rw [hpush, List.getElem?_append_right (Nat.le_of_eq hlen), hlen, Nat.sub_self]
    rfl
  obtain ⟨out₁, hout₁⟩ := (appends_pushFields gs).exists_append (pushValue w (pushFields fs buf).2).2
  obtain ⟨out₂, hout₂⟩ := (appends_pushObject (pushFields (fs ++ (name, w) :: gs) buf).1).exists_append
    (pushFields (fs ++ (name, w) :: gs) buf).2
  refine ⟨out₁ ++ out₂ ++ post, ?_, get_pushed hv hc hsize⟩
  rw [pushValue_node, hout₂, hpush]
  dsimp only
  rw [hout₁]
  simp only [List.append_assoc]

/-- The writers of a value and of the value with another scalar in one leaf differ in that leaf, and
the path of the leaf ends there. -/
theorem patched_setIn {s s' : Scalar} {segs : List Segment} {v v' : Value} (hv : v.WF)
    (hleaf : v.descend segs = some (.leaf s)) (hset : Value.setIn v segs (.leaf s') = some v')
    (hwidth : s'.encode.length = s.encode.length) (buf : Bytes) :
    ∃ off, Patched (pushValue v) (pushValue v') s s' buf off ∧
      ∀ post, ((pushValue v buf).2 ++ post).length < 2 ^ 32 →
        ArchivedNode.descend ⟨(pushValue v buf).2 ++ post, (pushValue v buf).1⟩ segs =
          .ok (some ⟨(pushValue v buf).2 ++ post, off⟩) := by
  induction segs generalizing v v' buf with
  | nil =>
    cases Option.some.inj hleaf
    cases Option.some.inj hset
    refine ⟨buf.length, patched_pushLeaf buf, ?_⟩
    intro post hsize
    simp only [pushValue, pushLeaf, List.length_append] at hsize ⊢
    rw [show offset buf = buf.length from Nat.mod_eq_of_lt (by omega)]
    rfl
  | cons seg segs ih =>
    obtain ⟨c, hc, hbelow⟩ := Option.bind_eq_some_iff.1 hleaf
    rw [Value.setIn_cons_some hc] at hset
    obtain ⟨c', hedit, rfl⟩ := Option.map_eq_some_iff.1 hset
    have hcv := hv.child hc
    cases v with
    | leaf s => cases seg <;> cases hc
    | list items =>
      cases seg with
      | name n => cases hc
      | index i =>
        obtain ⟨hi, hget⟩ := List.getElem?_eq_some_iff.1 hc
        have hsplit : items = items.take i.toNat ++ c :: items.drop (i.toNat + 1) := by
          rw [← hget, ← List.drop_eq_getElem_cons hi, List.take_append_drop]
        have hxs : (items.take i.toNat).length = i.toNat := List.length_take_of_le (Nat.le_of_lt hi)
        have hput : Value.putChild (.list items) (.index i) c' =
            .list (items.take i.toNat ++ c' :: items.drop (i.toNat + 1)) := by
          rw [Value.putChild, if_pos hi, List.set_eq_take_append_cons_drop, if_pos hi]
        rw [hput]
        generalize items.take i.toNat = xs at *
        generalize items.drop (i.toNat + 1) = ys at *
        subst hsplit
        obtain ⟨off, hpatched, hnav⟩ := ih hcv hbelow hedit (pushItems xs buf).2
        refine ⟨off, patched_list hwidth (patched_pushItems hwidth hpatched), ?_⟩
        intro post hsize
        obtain ⟨out, hout, hat⟩ := at?_split hsize
        rw [hout] at hsize
        rw [ArchivedNode.descend, ArchivedNode.child, ← hxs, hat, hout]
        exact hnav out hsize
    | node fields =>
      cases seg with
      | index i => cases hc
      | name n =>
        obtain ⟨fs, gs, rfl⟩ := Assoc.find_split hc
        rw [Value.putChild, Assoc.insert_split (Value.wf_node.1 hv).1]
        obtain ⟨off, hpatched, hnav⟩ := ih hcv hbelow hedit (pushFields fs buf).2
        refine ⟨off, patched_node hwidth (patched_pushFields hwidth hpatched), ?_⟩
        intro post hsize
        obtain ⟨out, hout, hat⟩ := get_split hv hsize
        rw [hout] at hsize
        rw [ArchivedNode.descend, ArchivedNode.child, hat, hout]
        exact hnav out hsize

/-! ## Overwriting the blob -/

/-- **Overwriting the scalar of a leaf by one of the same width encodes the edited value.** -/
theorem encode_setIn {s s' : Scalar} {segs : List Segment} {v v' : Value} (hv : v.WF)
    (hsize : (encode v).length < 2 ^ 32) (hleaf : v.descend segs = some (.leaf s))
    (hset : Value.setIn v segs (.leaf s') = some v') (hwidth : s'.encode.length = s.encode.length) :
    ∃ root off, ArchivedValue.new (encode v) = .ok ⟨encode v, root⟩ ∧
      ArchivedNode.descend ⟨encode v, root⟩ segs = .ok (some ⟨encode v, off⟩) ∧
      encode v' = (encode v).take (off + 1) ++ s'.encode ++ (encode v).drop (off + 1 + s.encode.length) := by
  obtain ⟨root, hroot⟩ := encode_eq_pushValue v
  obtain ⟨root', hroot'⟩ := encode_eq_pushValue v'
  obtain ⟨off, ⟨a, pre, post, hoff, hpush, hpush'⟩, hnav⟩ :=
    patched_setIn hv hleaf hset hwidth (Bytes.be 1 formatVersion ++ putU32 root)
  have hstart := hnav [] (by simpa [hroot] using hsize)
  obtain ⟨rfl, hv₁⟩ := Prod.mk.inj (hroot.symm.trans hpush)
  -- Both blobs are opened with the same header.
  have hsame : root' = root := by
    obtain ⟨b, out, hout⟩ := appends_pushValue v' 5
    rw [hout _ (by simp)] at hroot' hpush'
    exact (Prod.mk.inj hroot').1.symm.trans (Prod.mk.inj hpush').1
  rw [hsame, hpush'] at hroot'
  have hv₂ := (Prod.mk.inj hroot').2
  rw [hroot, List.append_nil] at hstart
  refine ⟨root, off, (new_of_pushValue hroot hsize).1, hstart, ?_⟩
  generalize Bytes.be 1 formatVersion ++ putU32 root ++ pre = front at *
  subst hoff
  have htag : (front ++ Bytes.be 1 leafTag).length = front.length + 1 := by
    rw [List.length_append, Bytes.length_be]
  rw [← hv₂, hv₁, leafBytes, leafBytes, ← List.append_assoc, ← List.append_assoc,
    List.drop_left' (by rw [List.length_append, htag]), List.append_assoc _ s.encode, List.take_left' htag]

/-! ## The span of a leaf -/

variable [LawfulExternals] {v : Value}

/-- **The span found in a blob is that of the leaf at the path**, and there is none where the path
does not land on a leaf. Decoding the old scalar consumes what encoding it wrote. -/
theorem leafScalarSpan_encode (hv : v.WF) (hsize : (encode v).length < 2 ^ 32) (vpath : VPath) :
    ∃ root, ArchivedValue.new (encode v) = .ok ⟨encode v, root⟩ ∧
    ((∃ old off, v.descend vpath.segments = some (.leaf old) ∧
        ArchivedValue.leafScalarSpan ⟨encode v, root⟩ vpath = .ok (some (off, old.encode.length)) ∧
        ∀ s v', Value.setIn v vpath.segments (.leaf s) = some v' → s.encode.length = old.encode.length →
          encode v' = (encode v).take off ++ s.encode ++ (encode v).drop (off + old.encode.length)) ∨
      (∀ old, v.descend vpath.segments ≠ some (.leaf old)) ∧
        ArchivedValue.leafScalarSpan ⟨encode v, root⟩ vpath = .ok none) := by
  obtain ⟨root, hnew, hstored⟩ := stored_encode hsize
  refine ⟨root, hnew, ?_⟩
  have hdescend := hstored.descend hv vpath.segments
  have hroot : ArchivedValue.root ⟨encode v, root⟩ = ⟨encode v, root⟩ := rfl
  cases hw : v.descend vpath.segments with
  | none =>
    rw [hw] at hdescend
    refine .inr ⟨fun _ h => (by cases h), ?_⟩
    simp [ArchivedValue.leafScalarSpan, ArchivedNode.navigate, hroot, hdescend]
  | some w =>
    rw [hw] at hdescend
    obtain ⟨off, hnav, hat⟩ := hdescend
    have htag := hat.tag
    cases w with
    | list items =>
      refine .inr ⟨fun _ h => (by cases h), ?_⟩
      simp [ArchivedValue.leafScalarSpan, ArchivedNode.navigate, ArchivedNode.leafScalarSpan, hroot, hnav, htag,
        tagOf, leafTag, listTag]
    | node fields =>
      refine .inr ⟨fun _ h => (by cases h), ?_⟩
      simp [ArchivedValue.leafScalarSpan, ArchivedNode.navigate, ArchivedNode.leafScalarSpan, hroot, hnav, htag,
        tagOf, leafTag, nodeTag]
    | leaf old =>
      obtain ⟨body, reader, hbody, hdec, hpos⟩ := hat.decode_scalar hsize
      refine .inl ⟨old, off + 1, rfl, ?_, ?_⟩
      · simp [ArchivedValue.leafScalarSpan, ArchivedNode.navigate, ArchivedNode.leafScalarSpan, hroot, hnav, htag,
          tagOf, hbody, hdec, hpos]
      · intro s v' hset hwidth
        obtain ⟨root', off', hnew', hnav', hpatch⟩ := encode_setIn hv hsize hw hset hwidth
        rw [hnew] at hnew'
        cases hnew'
        rw [hnav] at hnav'
        cases hnav'
        exact hpatch

end Codec

end ArborDb
