import ArborDb.Lib.Lockstep
import ArborDb.Txn.Bracket

/-!
# A transaction that buffers and one that does not

`Mirror P n d v s s'` says that the state `s`, which may buffer, and the state `s'`, which does not, show the
same store `v` and differ in nothing else a mutation looks at. The writes of the context keep it, each in its
own way on either side: where one edits the buffer the other writes the table.
-/

namespace ArborDb

open Prog (Lockstep Triple)

variable {e : Env} {P : Policy e} {n d : Nat} {v : View} {s s' : TxState} {k : AKey}

/-! ## The relation -/

/-- The two states show the same store, and the second one writes straight to the table. -/
structure Mirror (P : Policy e) (n d : Nat) (v : View) (s s' : TxState) : Prop where
  left : Sees P n d v s
  right : Sees P n d v s'
  direct : s'.buffer.buffering = false
  /-- What the table holds under the buffer verifies. -/
  verified : ∀ k c, s.data.get k = some c → verifyIntegrity e s k c = .ok ()
  lists : ∀ k, s'.inodes.readAcl k = s.inodes.readAcl k
  index : s'.index = s.index
  epoch : s'.buffer.epoch = s.buffer.epoch

/-- The states show the same store, whichever it is. -/
def Mirrored (P : Policy e) (n : Nat) (s s' : TxState) : Prop := ∃ d v, Mirror P n d v s s'

/-- A state shows one store. -/
theorem Sees.unique {d' : Nat} {v' : View} (h : Sees P n d v s) {P' : Policy e} (h' : Sees P' n d' v' s) :
    v' = v ∧ d' = d := by
  refine ⟨funext fun j => ?_, h'.drawn.symm.trans h.drawn⟩
  exact Except.ok.inj ((h'.shows j).symm.trans (h.shows j))

theorem dir_of_kind (h : (v k).map Entry.kind = some .dir) : ∃ m, v k = some (.dir m) := by
  cases hv : v k with
  | none =>
    rw [hv] at h
    cases h
  | some entry =>
    cases entry with
    | leaf b =>
      rw [hv] at h
      cases h
    | branch m => exact ⟨m, rfl⟩

namespace Mirror

theorem mirrored (h : Mirror P n d v s s') : Mirrored P n s s' := ⟨d, v, h⟩

/-! ## Reads -/

theorem check (h : Mirror P n d v s s') (k : AKey) (needed : Rights) :
    ArborDb.check e s' k needed = ArborDb.check e s k needed := by
  unfold ArborDb.check
  rw [h.lists]

theorem child (h : Mirror P n d v s s') (k : AKey) (name : Str) :
    ArborDb.child e s k name = .ok (Layout.childOf v k name) ∧
      ArborDb.child e s' k name = .ok (Layout.childOf v k name) := ⟨h.left.child k name, h.right.child k name⟩

theorem kind (h : Mirror P n d v s s') (k : AKey) :
    ArborDb.kind e s k = .ok ((v k).map Entry.kind) ∧ ArborDb.kind e s' k = .ok ((v k).map Entry.kind) :=
  ⟨h.left.kind k, h.right.kind k⟩

theorem dirChildren (h : Mirror P n d v s s') {m : SortedMap Str AKey} (hk : v k = some (.dir m)) :
    ArborDb.dirChildren e s k = .ok m ∧ ArborDb.dirChildren e s' k = .ok m :=
  ⟨h.left.dirChildren hk, h.right.dirChildren hk⟩

/-- The two states have the same a-nodes. -/
theorem size (h : Mirror P n d v s s') : s'.size = s.size := by
  have hkeys : ∀ {t : TxState}, Sees P n d v t →
      ∀ k, k ∈ (t.data.entries.map Prod.fst ++ t.buffer.dirs.entries.map Prod.fst).toFinset ↔ v k ≠ none := by
    intro t ht k
    constructor
    · intro hmem
      have hthere : hasEntry t k = true := by
        unfold hasEntry SortedMap.contains
        rw [WriteBuffer.dirGet_eq, Bool.or_eq_true]
        rcases List.mem_append.1 (List.mem_toFinset.1 hmem) with hmem | hmem
        · obtain ⟨⟨j, c⟩, hj, rfl⟩ := List.mem_map.1 hmem
          right
          rw [SortedMap.get_iff_mem.2 hj]
          rfl
        · obtain ⟨⟨j, m⟩, hj, rfl⟩ := List.mem_map.1 hmem
          left
          rw [SortedMap.get_iff_mem.2 hj]
          rfl
      rw [ht.hasEntry] at hthere
      intro hnone
      rw [hnone] at hthere
      cases hthere
    · intro hk
      obtain ⟨c, hc⟩ := Option.ne_none_iff_exists'.1 hk
      exact ht.mem_keys hc
  unfold TxState.size
  congr 1
  ext k
  rw [hkeys h.right, hkeys h.left]

theorem checkDeletable (h : Mirror P n d v s s') (fuel : Nat) (k : AKey) :
    ArborDb.checkDeletable e s' fuel k = ArborDb.checkDeletable e s fuel k := by
  induction fuel generalizing k with
  | zero => rfl
  | succ fuel ih =>
    unfold ArborDb.checkDeletable
    rw [h.check, (h.kind k).1, (h.kind k).2]
    by_cases hdir : (v k).map Entry.kind = some .dir
    · obtain ⟨m, hm⟩ := dir_of_kind hdir
      have hsame : ArborDb.checkDeletable e s' fuel = ArborDb.checkDeletable e s fuel := funext ih
      rw [(h.dirChildren hm).1, (h.dirChildren hm).2, hsame]
    · simp only [Except.ok_bind, if_neg hdir]

theorem resolveFrom (h : Mirror P n d v s s') (names : List Str) (k : AKey) :
    ArborDb.resolveFrom e s' k names = ArborDb.resolveFrom e s k names := by
  induction names generalizing k with
  | nil => rfl
  | cons name names ih =>
    unfold ArborDb.resolveFrom
    rw [h.check, (h.child k name).1, (h.child k name).2]
    cases Layout.childOf v k name with
    | none => rfl
    | some c =>
      simp only [Except.ok_bind, ih]

theorem resolve (h : Mirror P n d v s s') (path : APath) :
    ArborDb.resolve e s' path = ArborDb.resolve e s path := h.resolveFrom path.names .root

/-! ## Writes -/

/-- An entry that is written verifies, and so does what is left alone. -/
theorem verified_putEntry (h : ∀ j c, s.data.get j = some c → verifyIntegrity e s j c = .ok ()) (c : Entry)
    (j : AKey) (c' : Entry) (hj : (s.putEntry e k c).data.get j = some c') :
    verifyIntegrity e (s.putEntry e k c) j c' = .ok () := by
  change (s.data.insert k c).get j = some c' at hj
  by_cases hjk : j = k
  · subst hjk
    rw [SortedMap.get_insert_self] at hj
    cases hj
    exact verifyIntegrity_record e s.inodes j c
  · rw [SortedMap.get_insert_ne _ _ hjk] at hj
    exact (verifyIntegrity_congr (record_get_ne e s.inodes c hjk) c').trans (h j c' hj)

/-- A write of an entry straight to the table, on both sides. -/
theorem putEntry (h : Mirror P n d v s s') (c : Entry) (hk : Used e n d k) (hdirs : s.buffer.dirs.get k = none) :
    Mirror P n d (Function.update v k (some c)) (s.putEntry e k c) (s'.putEntry e k c) where
  left := h.left.putEntry c hk hdirs
  right := h.right.putEntry c hk (h.right.coherent.off h.direct k).1
  direct := h.direct
  verified := verified_putEntry h.verified c
  lists j := by
    change (e.record s'.inodes k c).readAcl j = (e.record s.inodes k c).readAcl j
    rw [readAcl_record, readAcl_record, h.lists, h.lists]
  index := h.index
  epoch := h.epoch

theorem removeEntry (h : Mirror P n d v s s') (hk : Used e n d k) :
    Mirror P n d (Function.update v k none) (s.removeEntry e k) (s'.removeEntry e k) where
  left := h.left.removeEntry hk
  right := h.right.removeEntry hk
  direct := h.direct
  verified j c hj := by
    change (s.data.erase k).get j = some c at hj
    by_cases hjk : j = k
    · rw [hjk, SortedMap.get_erase_self] at hj
      cases hj
    · rw [SortedMap.get_erase_ne _ hjk] at hj
      refine (verifyIntegrity_congr ?_ c).trans (h.verified j c hj)
      change (if e.build = .plain then s.inodes else s.inodes.forget k).get j = s.inodes.get j
      split
      · rfl
      · exact SortedMap.get_erase_ne _ hjk
  lists j := by
    change (if e.build = .plain then s'.inodes else s'.inodes.forget k).readAcl j =
      (if e.build = .plain then s.inodes else s.inodes.forget k).readAcl j
    split
    · exact h.lists j
    · rw [Policy.readAcl_forget, Policy.readAcl_forget, h.lists]
  index := h.index
  epoch := h.epoch

theorem bumpStructure (h : Mirror P n d v s s') :
    Mirror P n d v { s with buffer := s.buffer.bumpStructure } { s' with buffer := s'.buffer.bumpStructure } where
  left := h.left.bumpStructure
  right := h.right.bumpStructure
  direct := h.direct
  verified := h.verified
  lists := h.lists
  index := h.index
  epoch := congrArg (· + 1) h.epoch

/-- One side buffers a directory, the other one writes it. -/
theorem dirPut (h : Mirror P n d v s s') {m : SortedMap Str AKey} {inodes : InodeTable}
    (hleft : Sees P n d (Function.update v k (some (.dir m)))
      { s with inodes := inodes, buffer := s.buffer.dirPut k m })
    (hk : Used e n d k) (hinodes : ∀ j, j ≠ k → inodes.get j = s.inodes.get j)
    (hkept : inodes.get k = s.inodes.get k ∨ s.data.get k = none)
    (hlists : ∀ j, inodes.readAcl j = if j = k then (s.inodes.readAcl k).or (e.ownAcl k) else s.inodes.readAcl j) :
    Mirror P n d (Function.update v k (some (.dir m))) { s with inodes := inodes, buffer := s.buffer.dirPut k m }
      (s'.putEntry e k (.dir m)) where
  left := hleft
  right := h.right.putEntry _ hk (h.right.coherent.off h.direct k).1
  direct := h.direct
  verified j c hj := by
    have hj : s.data.get j = some c := hj
    refine (verifyIntegrity_congr ?_ c).trans (h.verified j c hj)
    by_cases hjk : j = k
    · subst hjk
      refine hkept.resolve_right fun hnone => ?_
      rw [hnone] at hj
      cases hj
    · exact hinodes j hjk
  lists j := by
    change (e.record s'.inodes k (.dir m)).readAcl j = inodes.readAcl j
    rw [readAcl_record, hlists, h.lists, h.lists]
  index := h.index
  epoch := h.epoch

end Mirror

/-! ## Programs -/

section Programs

variable {E : AdbError → TxState → TxState → Prop}

/-- Both sides generate the same key. -/
theorem generate_mirror (hdist : Distinct e n) : Lockstep e n (Mirror P n d v) generate
    (fun f s s' => Fresh e n d v f ∧ Mirror P n (d + 1) v s s') E := by
  intro s s' h hn
  have hdrawn : s'.drawn = s.drawn := h.right.drawn.trans h.left.drawn.symm
  have hspec : Triple e n (Sees P n d v) (generate >>= fun f => pure f)
      (fun f t => Fresh e n d v f ∧ Sees P n (d + 1) v t) (fun _ _ => False) :=
    generate_spec hdist fun f hf => Triple.pure fun _ ht => ⟨hf, ht⟩
  obtain ⟨hfresh, hleft⟩ := hspec s h.left hn
  have hn' : s'.drawn + 1 ≤ n := hdrawn ▸ hn
  obtain ⟨-, hright⟩ := hspec s' h.right hn'
  exact ⟨congrArg (fun i => Except.ok (e.gen i)) hdrawn, hfresh, hleft, hright, h.direct, h.verified, h.lists, h.index,
    h.epoch⟩

theorem putEntry_mirror {c : Entry} (hk : Used e n d k) (hv : ∀ m, v k ≠ some (.dir m)) :
    Lockstep e n (Mirror P n d v) (putEntry k c) (fun _ => Mirror P n d (Function.update v k (some c))) E :=
  Lockstep.modify fun _ _ h => h.putEntry c hk (h.left.dirs_none hv)

theorem removeEntry_mirror (hk : Used e n d k) : Lockstep e n (Mirror P n d v) (removeEntry k)
    (fun _ => Mirror P n d (Function.update v k none)) E := Lockstep.modify fun _ _ h => h.removeEntry hk

/-- A directory that was not there gets the list of the principal on either side. -/
theorem putDir_mirror {m : SortedMap Str AKey} (hk : Used e n d k) (hv : v k = none) :
    Lockstep e n (Mirror P n d v) (putDir k m) (fun _ => Mirror P n d (Function.update v k (some (.dir m)))) E := by
  apply Lockstep.modify
  intro s s' h
  rw [h.direct, if_neg Bool.false_ne_true]
  split
  · rename_i hon
    have hstamp : ∀ j, j ≠ k → (e.stampNewDirAcl s.inodes k).get j = s.inodes.get j :=
      fun j hj => stampNewDirAcl_get_ne e s.inodes hj
    refine h.dirPut (h.left.dirPut hk (by simp [hv]) hon hstamp (P.stamp k _ h.left.policy)) hk hstamp (.inr ?_)
      (readAcl_stamp e s.inodes k)
    have hentry := h.left.hasEntry k
    rw [hv] at hentry
    unfold hasEntry SortedMap.contains at hentry
    simp only [Option.isSome_none, Bool.or_eq_false_iff] at hentry
    exact Option.isNone_iff_eq_none.1 (by simpa using hentry.2)
  · exact h.putEntry _ hk (h.left.dirs_none (by simp [hv]))

/-- The last step of an edit of a directory. -/
theorem editDir_last (m : SortedMap Str AKey) (t : TxState) : (do
      if ← Prog.inspect (fun _ t => .ok t.buffer.buffering) then
        Prog.modify (fun _ t => { t with buffer := t.buffer.dirPut k m }) fun _ _ => rfl
      else
        putDir k m : TxM Unit).run e t =
      (.ok (), if t.buffer.buffering then { t with buffer := t.buffer.dirPut k m } else t.putEntry e k (.dir m)) := by
  rw [Prog.run_bind, Prog.run_inspect, Prog.next_ok]
  cases hb : t.buffer.buffering with
  | true => rfl
  | false => simp [putDir, hb]

/-- An edited directory keeps its list, on the side that writes it too. -/
theorem editDir_mirror {m : SortedMap Str AKey} {edit : SortedMap Str AKey → SortedMap Str AKey}
    (hsettled : P.Settled) (hv : v k = some (.dir m)) : Lockstep e n (Mirror P n d v) (editDir k edit)
      (fun _ => Mirror P n d (Function.update v k (some (.dir (edit m))))) E := by
  have hne : v k ≠ none := by simp [hv]
  unfold editDir
  refine Lockstep.bind (S := fun _ => Mirror P n d v) (Lockstep.modify fun _ _ h => h.bumpStructure) fun _ => ?_
  refine Lockstep.inspect_known m (fun _ _ h => h.dirChildren hv) ?_
  intro s s' h hn
  have hk : Used e n d k := h.left.used hne
  rw [editDir_last, editDir_last, h.direct, if_neg Bool.false_ne_true]
  refine ⟨rfl, ?_⟩
  cases hb : s.buffer.buffering with
  | true =>
    refine h.dirPut (h.left.dirPut hk (by simp [hv]) hb (fun _ _ => rfl) (P.edit _ hne h.left.policy)) hk
      (fun _ _ => rfl) (.inl rfl) fun j => ?_
    split
    · rename_i hj
      rw [hj, hsettled h.left.policy hne]
    · rfl
  | false => exact h.putEntry _ hk (h.left.coherent.off hb k).1

theorem putFileEdit_mirror {b b' : Bytes} (hsettled : P.Settled) (hv : v k = some (.file b)) :
    Lockstep e n (Mirror P n d v) (putFileEdit k b')
      (fun _ => Mirror P n d (Function.update v k (some (.file b')))) E := by
  have hne : v k ≠ none := by simp [hv]
  apply Lockstep.modify
  intro s s' h
  have hk : Used e n d k := h.left.used hne
  have hdirs : s.buffer.dirs.get k = none := h.left.dirs_none (by simp [hv])
  rw [h.direct, if_neg Bool.false_ne_true]
  split
  · rename_i hon
    have hleft : Sees P n d (Function.update v k (some (.file b'))) { s with buffer := s.buffer.filePut k b' } := {
      shows := fun j => by
        rw [observe_filePut b' hdirs, h.left.shows j, Function.update_apply]
        split <;> rfl
      coherent := h.left.coherent.filePut hon hdirs (h.left.data_file hv)
      drawn := h.left.drawn
      fresh := h.left.fresh_update _ hk
      policy := P.edit _ hne h.left.policy }
    refine ⟨hleft, h.right.putEntry _ hk (h.right.coherent.off h.direct k).1, h.direct, h.verified, fun j => ?_,
      h.index, h.epoch⟩
    change (e.record s'.inodes k _).readAcl j = s.inodes.readAcl j
    rw [readAcl_record, h.lists, h.lists]
    split
    · rename_i hj
      rw [hj, hsettled h.left.policy hne]
    · rfl
  · exact h.putEntry _ hk hdirs

end Programs

end ArborDb
