import ArborDb.Txn.Tamper

/-!
# Forged access-control lists

An outsider who rewrites lists breaks the tags that bind them. A call that succeeds on the forged
table has read every a-node whose list decided anything: the read verifies the tag, so that list is
the genuine one, and the same call succeeds on the genuine table. The exception is a move, which
checks the list of the a-node it moves and never reads that a-node.
-/

namespace ArborDb

open Prog (Mirrors)

/-! ## Reads of a single a-node -/

/-- Two states agree on what they store about an a-node. -/
structure Agree (s t : TxState) (k : AKey) : Prop where
  dirs : s.buffer.dirs.get k = t.buffer.dirs.get k
  files : s.buffer.files.get k = t.buffer.files.get k
  data : s.data.get k = t.data.get k
  inodes : s.inodes.get k = t.inodes.get k

namespace Agree

variable {e : Env} {s t : TxState} {k : AKey}

theorem readVerified (h : Agree s t k) : ArborDb.readVerified e s k = ArborDb.readVerified e t k := by
  unfold ArborDb.readVerified readTable
  simp only [WriteBuffer.fileGet_eq, h.files, h.data]
  split
  · rfl
  · split
    · rfl
    · rw [verifyIntegrity_congr h.inodes]

theorem child (h : Agree s t k) (name : Str) : ArborDb.child e s k name = ArborDb.child e t k name := by
  unfold ArborDb.child
  rw [WriteBuffer.dirGet_eq, WriteBuffer.dirGet_eq, h.dirs, h.readVerified]

theorem kind (h : Agree s t k) : ArborDb.kind e s k = ArborDb.kind e t k := by
  unfold ArborDb.kind
  rw [WriteBuffer.dirGet_eq, WriteBuffer.dirGet_eq, h.dirs, h.readVerified]

theorem dirChildren (h : Agree s t k) : ArborDb.dirChildren e s k = ArborDb.dirChildren e t k := by
  unfold ArborDb.dirChildren
  rw [WriteBuffer.dirGet_eq, WriteBuffer.dirGet_eq, h.dirs, h.readVerified]

theorem cascadeChildren (h : Agree s t k) :
    ArborDb.cascadeChildren e s k = ArborDb.cascadeChildren e t k := by
  unfold ArborDb.cascadeChildren
  rw [WriteBuffer.dirGet_eq, WriteBuffer.dirGet_eq, h.dirs, h.readVerified]

theorem readAcl (h : Agree s t k) : s.inodes.readAcl k = t.inodes.readAcl k := by
  unfold InodeTable.readAcl
  rw [h.inodes]

theorem check (h : Agree s t k) (needed : Rights) :
    ArborDb.check e s k needed = ArborDb.check e t k needed := by
  unfold ArborDb.check
  rw [h.readAcl]

end Agree

/-- A flush of a buffer that holds nothing changes no a-node. -/
theorem agree_flushAndDisable {e : Env} {s t : TxState} (hsame : ∀ k, Agree s t k)
    (ht : ∀ k, ¬ t.buffer.Holds k) (k : AKey) : Agree (flushAndDisable.run e s).2 t k := by
  have hnil : s.buffer.pending = [] := by
    rw [List.eq_nil_iff_forall_not_mem]
    intro x hx
    refine ht x.1 ?_
    have hheld := WriteBuffer.mem_pending.1 (List.mem_map_of_mem hx)
    unfold WriteBuffer.Holds at hheld
    rw [(hsame x.1).dirs, (hsame x.1).files] at hheld
    exact hheld
  have hnone := ht k
  unfold WriteBuffer.Holds at hnone
  rw [not_or, not_not, not_not] at hnone
  change Agree (s.flushed e false) t k
  rw [TxState.flushed_eq, hnil]
  exact ⟨hnone.1.symm, hnone.2.symm, (hsame k).data, (hsame k).inodes⟩

theorem resolveFrom_congr {e : Env} {s t : TxState} (h : ∀ k, Agree s t k) (names : List Str) (k : AKey) :
    resolveFrom e s k names = resolveFrom e t k names := by
  induction names generalizing k with
  | nil => rfl
  | cons name names ih =>
    unfold resolveFrom
    rw [(h k).check, (h k).child]
    refine congrArg _ (funext fun _ => congrArg _ (funext fun found => ?_))
    cases found with
    | none => rfl
    | some c => exact ih c

/-- The a-node that a move relinks. -/
def movedNode (e : Env) (s : TxState) (src : APath) : AdbResult (Option AKey) := do
  let (parentPath, name) ← splitLastOrPanic src
  match ← resolve e s parentPath with
  | none => return none
  | some parent => child e s parent name

theorem movedNode_congr {e : Env} {s t : TxState} (h : ∀ k, Agree s t k) (src : APath) :
    movedNode e s src = movedNode e t src := by
  unfold movedNode resolve
  refine congrArg _ (funext fun split => ?_)
  simp only [resolveFrom_congr h, (h _).child]

/-! ## Twin states -/

/-- The states agree on all but the inodes of the broken a-nodes of `s₀`, which `s'` still has. -/
structure Twins (v : Vault) (s₀ : TxState) (d : Nat) (s s' : TxState) : Prop where
  data : s.data = s'.data
  index : s.index = s'.index
  buffer : s.buffer = s'.buffer
  drawn : s.drawn = s'.drawn
  inodes : ∀ k, ¬ Broken v s₀ k → s.inodes.get k = s'.inodes.get k
  untouched : Untouched v s₀ s' ∧ d ≤ s'.drawn

namespace Twins

variable {e : Env} {v : Vault} {n d : Nat} {s₀ s s' : TxState} {k : AKey}

theorem agree (h : Twins v s₀ d s s') (hk : ¬ Broken v s₀ k) : Agree s s' k :=
  ⟨by rw [h.buffer], by rw [h.buffer], by rw [h.data], h.inodes k hk⟩

/-- The inodes at the written key agree again if the write does not look beyond it. -/
theorem write {t t' : TxState} (h : Twins v s₀ d s s') (hdata : t.data = t'.data)
    (hindex : t.index = t'.index) (hbuffer : t.buffer = t'.buffer) (hdrawn : t.drawn = t'.drawn)
    (hk : ¬ Broken v s₀ k → t.inodes.get k = t'.inodes.get k)
    (hne : ∀ j, j ≠ k → t.inodes.get j = s.inodes.get j)
    (hne' : ∀ j, j ≠ k → t'.inodes.get j = s'.inodes.get j)
    (huntouched : Untouched v s₀ t' ∧ d ≤ t'.drawn) : Twins v s₀ d t t' := by
  refine ⟨hdata, hindex, hbuffer, hdrawn, ?_, huntouched⟩
  intro j hj
  by_cases hjk : j = k
  · subst hjk
    exact hk hj
  · rw [hne j hjk, hne' j hjk]
    exact h.inodes j hj

theorem record_get_congr {inodes inodes' : InodeTable} (h : inodes.get k = inodes'.get k)
    (entry : Entry) : (e.record inodes k entry).get k = (e.record inodes' k entry).get k := by
  have hload : inodes.load k = inodes'.load k := by
    unfold InodeTable.load
    rw [h]
  unfold Env.record InodeTable.touch InodeTable.stampAndSeal
  simp only [hload]
  split
  · exact h
  · rw [SortedMap.get_insert_self, SortedMap.get_insert_self]
  · split
    · rw [SortedMap.get_insert_self, SortedMap.get_insert_self]
    · rw [SortedMap.get_insert_self, SortedMap.get_insert_self]

theorem stamp_get_congr {inodes inodes' : InodeTable} (h : inodes.get k = inodes'.get k) :
    (e.stampNewDirAcl inodes k).get k = (e.stampNewDirAcl inodes' k).get k := by
  have hload : inodes.load k = inodes'.load k := by
    unfold InodeTable.load
    rw [h]
  unfold Env.stampNewDirAcl InodeTable.setDefaultAcl
  simp only [hload]
  split
  · split
    · exact h
    · split
      · exact h
      · rw [SortedMap.get_insert_self, SortedMap.get_insert_self]
  · exact h

section Walk

variable (he : e.Authenticated v) (hgen : ∀ i, d ≤ i → i < n → ¬ Broken v s₀ (e.gen i))
include he hgen

/-! ### Reads -/

theorem readVerified (h : Twins v s₀ d s s') {o : Option Entry}
    (hok : ArborDb.readVerified e s' k = .ok o) : ArborDb.readVerified e s k = .ok o := by
  rw [(h.agree ((untouched_guard he hgen).read h.untouched hok)).readVerified]
  exact hok

theorem child (h : Twins v s₀ d s s') {name : Str} {o : Option AKey}
    (hok : ArborDb.child e s' k name = .ok o) : ArborDb.child e s k name = .ok o := by
  rw [(h.agree ((untouched_guard he hgen).child h.untouched hok)).child]
  exact hok

theorem kind (h : Twins v s₀ d s s') {o : Option EntryKind}
    (hok : ArborDb.kind e s' k = .ok o) : ArborDb.kind e s k = .ok o := by
  rw [(h.agree ((untouched_guard he hgen).kind h.untouched hok)).kind]
  exact hok

theorem dirChildren (h : Twins v s₀ d s s') {m : SortedMap Str AKey}
    (hok : ArborDb.dirChildren e s' k = .ok m) : ArborDb.dirChildren e s k = .ok m := by
  rw [(h.agree ((untouched_guard he hgen).dirChildren h.untouched hok)).dirChildren]
  exact hok

theorem cascadeChildren (h : Twins v s₀ d s s') {o : Option (List AKey)}
    (hok : ArborDb.cascadeChildren e s' k = .ok o) : ArborDb.cascadeChildren e s k = .ok o := by
  rw [(h.agree ((untouched_guard he hgen).cascadeChildren h.untouched hok)).cascadeChildren]
  exact hok

/-- A walk checks a directory and then reads it, so the list it has checked is genuine. -/
theorem resolveFrom (h : Twins v s₀ d s s') {names : List Str} {o : Option AKey}
    (hok : ArborDb.resolveFrom e s' k names = .ok o) : ArborDb.resolveFrom e s k names = .ok o := by
  induction names generalizing k with
  | nil => exact hok
  | cons name names ih =>
    obtain ⟨_, hcheck, hok⟩ := Except.bind_eq_ok.1 hok
    obtain ⟨found, hfound, hok⟩ := Except.bind_eq_ok.1 hok
    have hagree := h.agree ((untouched_guard he hgen).child h.untouched hfound)
    refine Except.bind_eq_ok.2 ⟨(), (hagree.check _).trans hcheck, ?_⟩
    refine Except.bind_eq_ok.2 ⟨found, h.child he hgen hfound, ?_⟩
    cases found with
    | none => exact hok
    | some c => exact ih hok

/-- Before a subtree is deleted, every a-node of it is checked and read. -/
theorem checkDeletable (h : Twins v s₀ d s s') {fuel : Nat}
    (hok : ArborDb.checkDeletable e s' fuel k = .ok ()) : ArborDb.checkDeletable e s fuel k = .ok () := by
  induction fuel generalizing k with
  | zero => cases hok
  | succ fuel ih =>
    obtain ⟨_, hcheck, hok⟩ := Except.bind_eq_ok.1 hok
    obtain ⟨found, hfound, hok⟩ := Except.bind_eq_ok.1 hok
    have hagree := h.agree ((untouched_guard he hgen).kind h.untouched hfound)
    refine Except.bind_eq_ok.2 ⟨(), (hagree.check _).trans hcheck, ?_⟩
    refine Except.bind_eq_ok.2 ⟨found, h.kind he hgen hfound, ?_⟩
    split at hok
    · rw [if_pos ‹_›]
      obtain ⟨children, hchildren, hok⟩ := Except.bind_eq_ok.1 hok
      refine Except.bind_eq_ok.2 ⟨children, h.dirChildren he hgen hchildren, ?_⟩
      exact forM_eq_ok.2 fun c hc => ih (forM_eq_ok.1 hok c hc)
    · rw [if_neg ‹_›]
      exact hok

/-! ### Writes -/

theorem put (hk : ¬ Broken v s₀ k) (entry : Entry) (h : Twins v s₀ d s s') :
    Twins v s₀ d (s.putEntry e k entry) (s'.putEntry e k entry) := by
  refine h.write (k := k) ?_ h.index ?_ h.drawn ?_ (fun j hj => record_get_ne e s.inodes entry hj)
    (fun j hj => record_get_ne e s'.inodes entry hj) ((untouched_guard he hgen).putEntry hk h.untouched)
  · simp only [TxState.putEntry, h.data]
  · simp only [TxState.putEntry, h.buffer]
  · exact fun hk => record_get_congr (h.inodes k hk) entry

theorem putEntry (hk : ¬ Broken v s₀ k) (entry : Entry) :
    Mirrors e n (Twins v s₀ d) (ArborDb.putEntry k entry) (Twins v s₀ d) :=
  Mirrors.modify fun _ _ h => h.put he hgen hk entry

theorem removeEntry (hk : ¬ Broken v s₀ k) :
    Mirrors e n (Twins v s₀ d) (ArborDb.removeEntry k) (Twins v s₀ d) := by
  have hne : ∀ (t : TxState) j, j ≠ k → (t.removeEntry e k).inodes.get j = t.inodes.get j := by
    intro t j hj
    unfold TxState.removeEntry
    simp only
    split
    · rfl
    · exact SortedMap.get_erase_ne _ hj
  refine Mirrors.modify fun s s' h => ?_
  refine h.write (k := k) ?_ h.index ?_ h.drawn ?_ (hne s) (hne s')
    ((untouched_guard he hgen).removeEntry hk h.untouched)
  · simp only [TxState.removeEntry, h.data]
  · simp only [TxState.removeEntry, h.buffer]
  · intro hk
    simp only [TxState.removeEntry]
    split
    · exact h.inodes k hk
    · simp only [InodeTable.forget, SortedMap.get_erase_self]

theorem dirPut (hk : ¬ Broken v s₀ k) {m : SortedMap Str AKey} (h : Twins v s₀ d s s') :
    Twins v s₀ d { s with buffer := s.buffer.dirPut k m } { s' with buffer := s'.buffer.dirPut k m } := by
  refine h.write (k := k) h.data h.index ?_ h.drawn (h.inodes k) (fun _ _ => rfl) (fun _ _ => rfl)
    ((untouched_guard he hgen).dirPut hk h.untouched)
  simp only [h.buffer]

theorem putDir (hk : ¬ Broken v s₀ k) (m : SortedMap Str AKey) :
    Mirrors e n (Twins v s₀ d) (ArborDb.putDir k m) (Twins v s₀ d) := by
  refine Mirrors.modify fun s s' h => ?_
  simp only [h.buffer]
  split
  · refine h.write (k := k) h.data h.index rfl h.drawn (fun hk => stamp_get_congr (h.inodes k hk))
      (fun j hj => stampNewDirAcl_get_ne e s.inodes hj)
      (fun j hj => stampNewDirAcl_get_ne e s'.inodes hj)
      ((untouched_guard he hgen).newDir hk h.untouched)
  · exact h.put he hgen hk (.dir m)

theorem putFileEdit (hk : ¬ Broken v s₀ k) (blob : Bytes) :
    Mirrors e n (Twins v s₀ d) (ArborDb.putFileEdit k blob) (Twins v s₀ d) := by
  refine Mirrors.modify fun s s' h => ?_
  simp only [h.buffer]
  split
  · exact h.write (k := k) h.data h.index rfl h.drawn (h.inodes k) (fun _ _ => rfl)
      (fun _ _ => rfl) ((untouched_guard he hgen).filePut hk h.untouched)
  · exact h.put he hgen hk (.file blob)

omit he in
theorem generate {α : Type} {f : AKey → TxM α}
    (hf : ∀ k, ¬ Broken v s₀ k → Mirrors e n (Twins v s₀ d) (f k) (Twins v s₀ d)) :
    Mirrors e n (Twins v s₀ d) (ArborDb.generate >>= f) (Twins v s₀ d) := by
  intro s s' a h hn ha
  have hlt : s'.drawn < n := (Prog.drawn_le (f (e.gen s'.drawn)) e _).trans hn
  have hk := hgen s'.drawn h.untouched.2 hlt
  change ((f (e.gen s.drawn)).run e _).1 = .ok a ∧
    Twins v s₀ d ((f (e.gen s.drawn)).run e _).2 ((f (e.gen s'.drawn)).run e _).2
  rw [h.drawn]
  refine hf _ hk _ _ a ?_ hn ha
  exact ⟨h.data, h.index, h.buffer, rfl, h.inodes, h.untouched.1, Nat.le_succ_of_le h.untouched.2⟩

theorem editDir (k : AKey) (edit : SortedMap Str AKey → SortedMap Str AKey) :
    Mirrors e n (Twins v s₀ d) (ArborDb.editDir k edit) (Twins v s₀ d) := by
  refine Mirrors.bind (Q := Twins v s₀ d) (Mirrors.modify fun s s' h => ?_) fun _ => ?_
  · exact ⟨h.data, h.index, by rw [h.buffer], h.drawn, h.inodes,
      (untouched_guard he hgen).bump h.untouched⟩
  refine Mirrors.inspect fun s s' m _ h hm _ => ⟨h.dirChildren he hgen hm, ?_⟩
  have hk := (untouched_guard he hgen).dirChildren h.untouched hm
  refine Mirrors.read (fun s s' b h hb => by rw [h.buffer]; exact hb) fun buffering => ?_
  split
  · exact Mirrors.modify fun s s' h => h.dirPut he hgen hk
  · exact putDir he hgen hk _

/-- The buffer holds no broken a-node, so a flush writes none. -/
theorem flushBuffered (hs : Untouched v s₀ s) :
    Mirrors e n (Twins v s₀ d) (ArborDb.flushBuffered s.buffer.dirs.entries s.buffer.files.entries)
      (Twins v s₀ d) := by
  have hmem : ∀ {V : Type} {m : SortedMap AKey V} {x : AKey × V}, x ∈ m.entries → m.get x.1 ≠ none := by
    intro V m x hx
    rw [SortedMap.get_iff_mem.2 hx]
    exact Option.some_ne_none _
  refine Mirrors.bind (Q := Twins v s₀ d) (Mirrors.forEach fun x hx => ?_) fun _ =>
    Mirrors.forEach fun x hx => ?_
  · exact putEntry he hgen (fun hbroken => (hs x.1 hbroken).2.2 (.inl (hmem hx))) _
  · exact putEntry he hgen (fun hbroken => (hs x.1 hbroken).2.2 (.inr (hmem hx))) _

/-! ### Programs -/

theorem ensureDir (path : APath) :
    Mirrors e n (Twins v s₀ d) (ArborDb.ensureDir path) (Twins v s₀ d) := by
  have G := untouched_guard he hgen
  have hroot : Mirrors e n (Twins v s₀ d) ensureRoot (Twins v s₀ d) := by
    refine Mirrors.inspect fun s s' present _ h hp _ => ⟨?_, ?_⟩
    · rw [← hp]
      unfold hasEntry
      rw [h.buffer, h.data]
    · split
      · exact Mirrors.pure fun _ _ h => h
      · refine putDir he hgen (G.root h.untouched ?_) _
        simp_all
  have hfrom : ∀ names k, Mirrors e n (Twins v s₀ d) (ensureDirFrom k names) (Twins v s₀ d) := by
    intro names
    induction names with
    | nil => exact fun k => Mirrors.pure fun _ _ h => h
    | cons name names ih =>
      intro k
      refine Mirrors.inspect fun s s' _ _ h hcheck hrest => ?_
      obtain ⟨found, hfound⟩ := Mirrors.inspect_ok hrest
      have hk := G.child h.untouched hfound
      refine ⟨((h.agree hk).check _).trans hcheck, ?_⟩
      refine Mirrors.read (fun _ _ _ h hc => h.child he hgen hc) fun found => ?_
      cases found with
      | some c =>
        refine Mirrors.read (fun _ _ _ h hc => h.kind he hgen hc) fun kind => ?_
        split
        · exact Mirrors.fail
        · exact ih c
      | none =>
        refine Mirrors.read (fun _ _ _ h hc => ((h.agree hk).check _).trans hc) fun _ => ?_
        refine generate hgen fun c hc => ?_
        refine (putDir he hgen hc _).bind fun _ => ?_
        exact (editDir he hgen k _).bind fun _ => ih c
  exact hroot.bind fun _ => hfrom path.names .root

theorem cascadeDelete (fuel : Nat) (k : AKey) :
    Mirrors e n (Twins v s₀ d) (ArborDb.cascadeDelete fuel k) (Twins v s₀ d) := by
  induction fuel generalizing k with
  | zero => exact Mirrors.fail
  | succ fuel ih =>
    refine Mirrors.inspect fun s s' children _ h hc _ => ⟨h.cascadeChildren he hgen hc, ?_⟩
    have hk := (untouched_guard he hgen).cascadeChildren h.untouched hc
    cases children with
    | none => exact Mirrors.pure fun _ _ h => h
    | some children =>
      exact (Mirrors.forEach fun c _ => ih c).bind fun _ => removeEntry he hgen hk

theorem deepCopy (fuel : Nat) (k : AKey) :
    Mirrors e n (Twins v s₀ d) (ArborDb.deepCopy fuel k) (Twins v s₀ d) := by
  induction fuel generalizing k with
  | zero => exact Mirrors.fail
  | succ fuel ih =>
    refine Mirrors.inspect fun s s' _ _ h hcheck hrest => ?_
    -- The a-node is read after a key is drawn for its copy.
    obtain ⟨found, hfound⟩ := Mirrors.inspect_ok (s := { s' with drawn := s'.drawn + 1 }) hrest
    have hk := (untouched_guard he hgen).kind h.untouched (hfound : ArborDb.kind e s' k = .ok found)
    refine ⟨((h.agree hk).check _).trans hcheck, ?_⟩
    refine generate hgen fun fresh hfresh => ?_
    refine Mirrors.read (fun _ _ _ h hc => h.kind he hgen hc) fun kind => ?_
    match kind with
    | none => exact Mirrors.fail
    | some .file =>
      refine Mirrors.read (fun _ _ _ h hc => h.readVerified he hgen hc) fun entry => ?_
      cases entry with
      | none => exact Mirrors.fail
      | some entry => exact (putEntry he hgen hfresh entry).bind fun _ => Mirrors.pure fun _ _ h => h
    | some .dir =>
      refine Mirrors.read (fun _ _ _ h hc => h.dirChildren he hgen hc) fun children => ?_
      have hcopy : ∀ l copied, Mirrors e n (Twins v s₀ d)
          (copyChildren (ArborDb.deepCopy fuel) l copied) (Twins v s₀ d) := by
        intro l
        induction l with
        | nil => exact fun copied => Mirrors.pure fun _ _ h => h
        | cons x l ihl => exact fun copied => (ih x.2).bind fun _ => ihl _
      refine (hcopy _ _).bind fun copied => ?_
      exact (putDir he hgen hfresh copied).bind fun _ => Mirrors.pure fun _ _ h => h

omit he hgen in
theorem size (h : Twins v s₀ d s s') : s.size = s'.size := by
  unfold TxState.size
  rw [h.data, h.buffer]

omit he hgen in
theorem bounded {α : Type} {f : Nat → TxM α}
    (hf : ∀ fuel, Mirrors e n (Twins v s₀ d) (f fuel) (Twins v s₀ d)) :
    Mirrors e n (Twins v s₀ d) (ArborDb.bounded f) (Twins v s₀ d) :=
  Mirrors.read (fun _ _ _ h hb => by rw [h.size]; exact hb) fun size => hf (size + 1)

/-- A check of an a-node that the next read is of. -/
theorem checkThenChild {α : Type} {name : Str} {needed : Rights} {f : Option AKey → TxM α}
    (hf : ¬ Broken v s₀ k → ∀ found, Mirrors e n (Twins v s₀ d) (f found) (Twins v s₀ d)) :
    Mirrors e n (Twins v s₀ d) (do
      inspect (ArborDb.check · · k needed)
      let found ← inspect (ArborDb.child · · k name)
      f found) (Twins v s₀ d) := by
  refine Mirrors.inspect fun s s' _ _ h hcheck hrest => ?_
  obtain ⟨found, hfound⟩ := Mirrors.inspect_ok hrest
  have hk := (untouched_guard he hgen).child h.untouched hfound
  refine ⟨((h.agree hk).check _).trans hcheck, ?_⟩
  exact Mirrors.read (fun _ _ _ h hc => h.child he hgen hc) (hf hk)

theorem deletable (k : AKey) (s s' : TxState) (u : Unit) (h : Twins v s₀ d s s')
    (hok : ArborDb.checkDeletable e s' (s'.size + 1) k = .ok u) :
    ArborDb.checkDeletable e s (s.size + 1) k = .ok u := by
  rw [h.size]
  exact h.checkDeletable he hgen hok

theorem storeBlobInto (path : APath) (blob : Bytes) :
    Mirrors e n (Twins v s₀ d) (ArborDb.storeBlobInto path blob) (Twins v s₀ d) := by
  have hnew : ∀ parent name, Mirrors e n (Twins v s₀ d) (do
      let fresh ← ArborDb.generate
      linkChild parent name fresh
      ArborDb.putEntry fresh (.file blob)) (Twins v s₀ d) := fun parent name =>
    generate hgen fun fresh hfresh => (editDir he hgen parent _).bind fun _ =>
      putEntry he hgen hfresh _
  refine Mirrors.read (fun _ _ _ _ hb => hb) fun split => ?_
  refine (ensureDir he hgen split.1).bind fun parent => ?_
  refine checkThenChild he hgen fun hparent found => ?_
  have hmodify : ∀ {k : AKey}, ¬ Broken v s₀ k → ∀ s s' u, Twins v s₀ d s s' →
      ArborDb.check e s' k .modify = .ok u → ArborDb.check e s k .modify = .ok u :=
    fun hk s s' u h hc => ((h.agree hk).check _).trans hc
  cases found with
  | none => exact Mirrors.read (hmodify hparent) fun _ => hnew parent split.2
  | some node =>
    refine Mirrors.inspect fun s s' kind _ h hkind _ => ⟨h.kind he hgen hkind, ?_⟩
    have hnode := (untouched_guard he hgen).kind h.untouched hkind
    split
    · exact Mirrors.read (hmodify hnode) fun _ => putEntry he hgen hnode _
    · refine Mirrors.read (deletable he hgen node) fun _ => Mirrors.read (hmodify hparent) fun _ => ?_
      exact (bounded fun fuel => cascadeDelete he hgen fuel node).bind fun _ => hnew parent split.2

theorem rmInto (path : APath) :
    Mirrors e n (Twins v s₀ d) (ArborDb.rmInto path) (Twins v s₀ d) := by
  refine Mirrors.read (fun _ _ _ _ hb => hb) fun split => ?_
  refine Mirrors.read (fun _ _ _ h hc => h.resolveFrom he hgen hc) fun parent => ?_
  cases parent with
  | none => exact Mirrors.pure fun _ _ h => h
  | some parent =>
    refine checkThenChild he hgen fun _ found => ?_
    cases found with
    | none => exact Mirrors.pure fun _ _ h => h
    | some akey =>
      refine Mirrors.read (deletable he hgen akey) fun _ => ?_
      refine (bounded fun fuel => cascadeDelete he hgen fuel akey).bind fun _ => ?_
      exact (editDir he hgen parent _).bind fun _ => Mirrors.pure fun _ _ h => h

theorem clearSlot (parent : AKey) (name : Str) :
    Mirrors e n (Twins v s₀ d) (ArborDb.clearSlot parent name) (Twins v s₀ d) := by
  refine Mirrors.read (fun _ _ _ h hc => h.child he hgen hc) fun found => ?_
  cases found with
  | none => exact Mirrors.pure fun _ _ h => h
  | some existing =>
    refine Mirrors.read (deletable he hgen existing) fun _ => ?_
    exact bounded fun fuel => cascadeDelete he hgen fuel existing

/-- The slot that a move or a copy fills: the check of its directory comes before the read. -/
theorem checkThenClear {α : Type} {parent : AKey} {name : Str} {f : Unit → TxM α}
    (hf : ∀ u, Mirrors e n (Twins v s₀ d) (f u) (Twins v s₀ d)) :
    Mirrors e n (Twins v s₀ d) (do
      inspect (ArborDb.check · · parent .modify)
      let u ← ArborDb.clearSlot parent name
      f u) (Twins v s₀ d) := by
  refine Mirrors.inspect fun s s' _ _ h hcheck hrest => ?_
  obtain ⟨_, hclear⟩ := Mirrors.bind_ok hrest
  obtain ⟨found, hfound⟩ := Mirrors.inspect_ok hclear
  have hk := (untouched_guard he hgen).child h.untouched hfound
  exact ⟨((h.agree hk).check _).trans hcheck, (clearSlot he hgen parent name).bind hf⟩

theorem cpInto (src dst : APath) :
    Mirrors e n (Twins v s₀ d) (ArborDb.cpInto src dst) (Twins v s₀ d) := by
  refine Mirrors.read (fun _ _ _ _ hb => hb) fun split => ?_
  refine Mirrors.read (fun _ _ _ h hc => h.resolveFrom he hgen hc) fun found => ?_
  cases found with
  | none => exact Mirrors.fail
  | some akey =>
    refine (ensureDir he hgen split.1).bind fun dstParent => ?_
    refine checkThenClear he hgen fun _ => ?_
    refine (bounded fun fuel => deepCopy he hgen fuel akey).bind fun copy => ?_
    exact editDir he hgen dstParent _

/-- A move checks the a-node it moves and does not read it. -/
theorem mvInto (src dst : APath) :
    Mirrors e n (fun s s' => Twins v s₀ d s s' ∧ ∀ akey, movedNode e s' src = .ok (some akey) →
        ArborDb.check e s' akey .delete = .ok () → ArborDb.check e s akey .delete = .ok ())
      (ArborDb.mvInto src dst) (Twins v s₀ d) := by
  refine Mirrors.inspect_kept (fun _ _ _ _ _ hb _ => hb) fun srcSplit => ?_
  refine Mirrors.read (fun _ _ _ _ hb => hb) fun dstSplit => ?_
  refine Mirrors.inspect_kept (fun _ _ _ _ h hc _ => h.1.1.resolveFrom he hgen hc) fun parent => ?_
  cases parent with
  | none => exact Mirrors.fail
  | some parent =>
    refine Mirrors.inspect_kept ?_ fun _ => ?_
    · intro s s' _ _ h hcheck hrest
      obtain ⟨found, hfound⟩ := Mirrors.inspect_ok hrest
      have hk := (untouched_guard he hgen).child h.1.1.1.untouched hfound
      exact ((h.1.1.1.agree hk).check _).trans hcheck
    refine Mirrors.inspect_kept (fun _ _ _ _ h hc _ => h.1.1.1.1.child he hgen hc) fun found => ?_
    cases found with
    | none => exact Mirrors.fail
    | some akey =>
      refine Mirrors.inspect_kept ?_ fun _ => ?_
      · intro s s' _ _ h hcheck _
        obtain ⟨⟨⟨⟨⟨_, hmoved⟩, hsplit⟩, hparent⟩, _⟩, hchild⟩ := h
        refine hmoved akey ?_ hcheck
        unfold movedNode
        exact Except.bind_eq_ok.2 ⟨srcSplit, hsplit, Except.bind_eq_ok.2 ⟨some parent, hparent, hchild⟩⟩
      refine Mirrors.pre ?_ fun _ _ h => h.1.1.1.1.1.1
      refine (ensureDir he hgen dstSplit.1).bind fun dstParent => ?_
      refine checkThenClear he hgen fun _ => ?_
      exact (editDir he hgen dstParent _).bind fun _ => editDir he hgen parent _

theorem movedNode (h : Twins v s₀ d s s') {src : APath} {o : Option AKey}
    (hok : ArborDb.movedNode e s' src = .ok o) : ArborDb.movedNode e s src = .ok o := by
  obtain ⟨split, hsplit, hok⟩ := Except.bind_eq_ok.1 hok
  obtain ⟨parent, hparent, hok⟩ := Except.bind_eq_ok.1 hok
  refine Except.bind_eq_ok.2 ⟨split, hsplit, ?_⟩
  refine Except.bind_eq_ok.2 ⟨parent, h.resolveFrom he hgen hparent, ?_⟩
  cases parent with
  | none => exact hok
  | some parent => exact h.child he hgen hok

theorem aclTarget (h : Twins v s₀ d s s') {path : APath} {target : AKey × Acl}
    (hok : ArborDb.aclTarget e s' path = .ok target) :
    ArborDb.aclTarget e s path = .ok target ∧ ¬ Broken v s₀ target.1 := by
  obtain ⟨found, hfound, hok⟩ := Except.bind_eq_ok.1 hok
  have hresolve := h.resolveFrom he hgen hfound
  cases found with
  | none => cases hok
  | some akey =>
    by_cases hroot : akey = .root
    · simp only [hroot, if_true] at hok
      cases hok
    · simp only [hroot, if_false] at hok
      obtain ⟨o, ho, hok⟩ := Except.bind_eq_ok.1 hok
      have hk := (untouched_guard he hgen).read h.untouched ho
      have htarget : ArborDb.aclTarget e s path = .ok target := by
        refine Except.bind_eq_ok.2 ⟨some akey, hresolve, ?_⟩
        simp only [hroot, if_false]
        refine Except.bind_eq_ok.2 ⟨o, h.readVerified he hgen ho, ?_⟩
        rw [(h.agree hk).readAcl]
        exact hok
      refine ⟨htarget, ?_⟩
      split at hok
      · cases hok
      · cases hok
        exact hk

theorem relist (hk : ¬ Broken v s₀ k) (acl : Acl) (h : Twins v s₀ d s s') :
    Twins v s₀ d (s.relist e k acl) (s'.relist e k acl) := by
  refine h.write (k := k) h.data h.index h.buffer h.drawn ?_
    (fun j hj => (reseal_get_ne hj).trans (SortedMap.get_insert_ne _ _ hj))
    (fun j hj => (reseal_get_ne hj).trans (SortedMap.get_insert_ne _ _ hj))
    ((untouched_guard he hgen).relist hk h.untouched)
  intro hk
  have hset : (s.inodes.setAcl k acl).get k = (s'.inodes.setAcl k acl).get k := by
    unfold InodeTable.setAcl InodeTable.load
    rw [h.inodes k hk, SortedMap.get_insert_self, SortedMap.get_insert_self]
  unfold TxState.relist Env.reseal
  simp only [h.data, h.buffer]
  split
  · split
    · exact hset
    · simp only [InodeTable.sealMac, InodeTable.sealSig, InodeTable.load, InodeTable.readAcl,
        SortedMap.get_insert_self, hset]
  · exact hset

theorem setList (path : APath) (allowed : AKey × Acl → Env → AdbResult Unit) (apply : Acl → Acl) :
    Mirrors e n (Twins v s₀ d) (do
      let target ← inspect (ArborDb.aclTarget · · path)
      inspect fun e _ => allowed target e
      writeAcl target.1 (apply target.2)
      resealIntegrity target.1) (Twins v s₀ d) := by
  refine Mirrors.inspect fun s s' target _ h htarget _ => ?_
  obtain ⟨hok, hk⟩ := h.aclTarget he hgen htarget
  refine ⟨hok, Mirrors.read (fun _ _ _ _ hb => hb) fun _ => ?_⟩
  exact fun s s' _ h _ ha => ⟨ha, h.relist he hgen hk _⟩

section Calls

variable [Externals]

theorem putScalarInto (path : APath) (hint : Option (AKey × UInt64)) (vpath : VPath)
    (scalar : Scalar) :
    Mirrors e n (Twins v s₀ d) (ArborDb.putScalarInto path hint vpath scalar) (Twins v s₀ d) := by
  have hread : ∀ s s' : TxState, Twins v s₀ d s s' → ∀ target,
      resolveTarget e s' path hint = .ok target → resolveTarget e s path hint = .ok target := by
    intro s s' h target htarget
    unfold resolveTarget resolveAndRead at htarget ⊢
    simp only [he.build, ne_eq, not_true_eq_false, if_false] at htarget ⊢
    obtain ⟨found, hfound, htarget⟩ := Except.bind_eq_ok.1 htarget
    refine Except.bind_eq_ok.2 ⟨found, h.resolveFrom he hgen hfound, ?_⟩
    cases found with
    | none => exact htarget
    | some akey =>
      obtain ⟨o, ho, htarget⟩ := Except.bind_eq_ok.1 htarget
      exact Except.bind_eq_ok.2 ⟨o, h.readVerified he hgen ho, htarget⟩
  refine Mirrors.inspect fun s s' target _ h htarget _ => ⟨hread s s' h target htarget, ?_⟩
  cases target with
  | none => exact storeBlobInto he hgen path _
  | some target =>
    obtain ⟨akey, entry⟩ := target
    have hk := (untouched_guard he hgen).read h.untouched (resolveTarget_cases htarget).1
    refine Mirrors.read (fun _ _ _ h hc => ((h.agree hk).check _).trans hc) fun _ => ?_
    refine Mirrors.read (fun _ _ _ _ hb => hb) fun patched => ?_
    cases patched with
    | some blob => exact putFileEdit he hgen hk blob
    | none => exact Mirrors.read (fun _ _ _ _ hb => hb) fun blob => putFileEdit he hgen hk blob

/-- Index maintenance looks at the data and the index, and changes the index alone. -/
structure Indexed (P : TxState → TxState → Prop) : Prop where
  data : ∀ {s s'}, P s s' → s.data = s'.data
  index : ∀ {s s'}, P s s' → s.index = s'.index
  set : ∀ {s s'} index, P s s' → P { s with index := index } { s' with index := index }

omit he hgen in
theorem deleteEntries {P : TxState → TxState → Prop} (hP : Indexed P) (indexes : List IndexEntry)
    (scope : APath) : Mirrors e n P (ArborDb.deleteEntries indexes scope) P := by
  refine Mirrors.forEach fun entry _ => ?_
  refine Mirrors.read (fun s s' b h hb => by rw [hP.data h]; exact hb) fun entries => ?_
  refine Mirrors.forEach fun kv _ => Mirrors.modify fun s s' h => ?_
  simp only [hP.index h]
  exact hP.set _ h

omit he hgen in
theorem insertEntries {P : TxState → TxState → Prop} (hP : Indexed P) (indexes : List IndexEntry)
    (scope : APath) : Mirrors e n P (ArborDb.insertEntries indexes scope) P := by
  refine Mirrors.forEach fun entry _ => ?_
  refine Mirrors.read (fun s s' b h hb => by rw [hP.data h]; exact hb) fun entries => ?_
  refine Mirrors.forEach fun kv _ => ?_
  have hinsert : Mirrors e n P (insertKey kv.1 kv.2) P := by
    refine Mirrors.modify fun s s' h => ?_
    simp only [hP.index h]
    exact hP.set _ h
  split
  · exact Mirrors.read (fun s s' b h hb => by rw [hP.index h]; exact hb) fun _ => hinsert
  · exact hinsert

omit [Externals] he hgen in
theorem indexed : Indexed (Twins v s₀ d) where
  data h := h.data
  index h := h.index
  set _ h := ⟨h.data, rfl, h.buffer, h.drawn, h.inodes, h.untouched⟩

omit he hgen in
theorem reindexAround {P : TxState → TxState → Prop} {indexes : List IndexEntry} {scopes : List APath}
    {α : Type} {apply : TxM α} (hP : Indexed P)
    (hflush : Mirrors e n P flushAndDisable P) (happly : Mirrors e n P apply (Twins v s₀ d)) :
    Mirrors e n P (ArborDb.reindexAround indexes scopes apply) (Twins v s₀ d) := by
  unfold ArborDb.reindexAround
  split
  · exact happly
  · refine hflush.bind fun _ => ?_
    refine (Mirrors.forEach fun scope _ => deleteEntries hP indexes scope).bind fun _ => ?_
    refine happly.bind fun a => ?_
    refine (Mirrors.forEach fun scope _ => insertEntries indexed indexes scope).bind fun _ => ?_
    exact Mirrors.pure fun _ _ h => h

omit [Externals] in
theorem flushAndDisable :
    Mirrors e n (Twins v s₀ d) ArborDb.flushAndDisable (Twins v s₀ d) := by
  refine Mirrors.inspect fun s s' buffer _ h hb _ => ⟨by rw [h.buffer]; exact hb, ?_⟩
  cases hb
  refine Mirrors.bind (Q := Twins v s₀ d) ?_ fun _ => flushBuffered he hgen h.untouched.1
  refine Mirrors.modify fun s s' h => ?_
  refine ⟨h.data, h.index, by rw [h.buffer], h.drawn, h.inodes, ?_, h.untouched.2⟩
  intro k hk
  obtain ⟨hdata, hinodes, _⟩ := h.untouched.1 k hk
  exact ⟨hdata, hinodes, fun hheld => hheld.elim (absurd rfl) (absurd rfl)⟩

/-- Twin states that still store what the states `t` and `t'` do. -/
structure Still (v : Vault) (s₀ : TxState) (d : Nat) (t t' s s' : TxState) : Prop where
  twins : Twins v s₀ d s s'
  same : ∀ k, Agree s t k
  same' : ∀ k, Agree s' t' k

omit [Externals] he hgen in
theorem still_indexed {t t' : TxState} : Indexed (Still v s₀ d t t') where
  data h := h.twins.data
  index h := h.twins.index
  set index h := by
    refine ⟨indexed.set index h.twins, fun k => ?_, fun k => ?_⟩
    · exact ⟨(h.same k).dirs, (h.same k).files, (h.same k).data, (h.same k).inodes⟩
    · exact ⟨(h.same' k).dirs, (h.same' k).files, (h.same' k).data, (h.same' k).inodes⟩

omit [Externals] in
/-- Nothing is buffered yet, so a flush writes nothing. -/
theorem still_flush {t t' : TxState} (ht : ∀ k, ¬ t.buffer.Holds k) (ht' : ∀ k, ¬ t'.buffer.Holds k) :
    Mirrors e n (Still v s₀ d t t') ArborDb.flushAndDisable (Still v s₀ d t t') := by
  intro s s' a h hn ha
  obtain ⟨hok, htwins⟩ := flushAndDisable he hgen s s' a h.twins hn ha
  exact ⟨hok, htwins, agree_flushAndDisable h.same ht, agree_flushAndDisable h.same' ht'⟩

/-- The a-node a call moves, if it is a move, grants the caller under the genuine list what it
grants under the forged one. -/
def MovesAlike (e : Env) (t t' : TxState) (o : Op) : Prop :=
  ∀ src dst akey, o = .call (.mv src dst) → ArborDb.movedNode e t src = .ok (some akey) →
    ArborDb.check e t' akey .delete = .ok () → ArborDb.check e t akey .delete = .ok ()

/-- **A call that succeeds on a forged table succeeds on the genuine one**, unless it moves an
a-node that only the forged list allows it to move. -/
theorem op {t t' : TxState} (ht : ∀ k, ¬ t.buffer.Holds k) (ht' : ∀ k, ¬ t'.buffer.Holds k)
    (names : Names) (indexes : List IndexEntry) (o : Op) (hmoves : MovesAlike e t t' o) :
    Mirrors e n (Still v s₀ d t t') (o.prog names indexes) (Twins v s₀ d) := by
  have hpre : ∀ {α : Type} {m : TxM α}, Mirrors e n (Twins v s₀ d) m (Twins v s₀ d) →
      Mirrors e n (Still v s₀ d t t') m (Twins v s₀ d) := fun h => h.pre fun _ _ hs => hs.twins
  have hbracket : ∀ {α : Type} {scopes : List APath} {m : TxM α},
      Mirrors e n (Twins v s₀ d) m (Twins v s₀ d) →
      Mirrors e n (Twins v s₀ d) (ArborDb.reindexAround indexes scopes m) (Twins v s₀ d) :=
    fun h => reindexAround indexed (flushAndDisable he hgen) h
  have hset : ∀ path apply, Mirrors e n (Twins v s₀ d) (setAclInto path apply) (Twins v s₀ d) :=
    fun path apply =>
      setList he hgen path (fun target e => authorize e.principal target.1 (some target.2) .modify) apply
  cases o with
  | call c =>
    cases c with
    | store path blob =>
      change Mirrors e n _ (storeBlobAt indexes path blob) _
      unfold storeBlobAt
      split
      · exact Mirrors.fail
      · exact hpre (hbracket (storeBlobInto he hgen path blob))
    | storeValue path value =>
      change Mirrors e n _ (storeValueAt indexes path value) _
      unfold storeValueAt
      split
      · exact Mirrors.fail
      · exact hpre (hbracket (storeBlobInto he hgen path _))
    | putScalar path hint vpath scalar =>
      exact hpre (hbracket (putScalarInto he hgen path hint vpath scalar))
    | mkdir path =>
      exact hpre ((ensureDir he hgen path).bind fun _ => Mirrors.pure fun _ _ h => h)
    | rm path =>
      refine hpre (Mirrors.bind (Q := Twins v s₀ d) ?_ fun _ => Mirrors.pure fun _ _ h => h)
      unfold ArborDb.rm
      split
      · exact Mirrors.fail
      · exact hbracket (rmInto he hgen path)
    | mv src dst =>
      change Mirrors e n _ (ArborDb.mv indexes src dst) _
      unfold ArborDb.mv
      split_ifs
      · exact Mirrors.fail
      · exact Mirrors.fail
      · exact Mirrors.fail
      · refine reindexAround still_indexed (still_flush he hgen ht ht') ?_
        refine (mvInto he hgen src dst).pre fun s s' h => ⟨h.twins, ?_⟩
        intro akey hnode hcheck
        have hnode' := h.twins.movedNode he hgen hnode
        rw [movedNode_congr h.same] at hnode'
        rw [(h.same' akey).check] at hcheck
        rw [(h.same akey).check]
        exact hmoves src dst akey rfl hnode' hcheck
    | cp src dst =>
      change Mirrors e n _ (ArborDb.cp indexes src dst) _
      unfold ArborDb.cp
      split_ifs
      · exact Mirrors.fail
      · exact Mirrors.fail
      · exact hpre (hbracket (cpInto he hgen src dst))
  | chown path owner =>
    refine hpre (Mirrors.read (fun _ _ _ _ hb => hb) fun uid => ?_)
    exact setList he hgen path (fun target e => authorizeChown e.principal target.2) fun acl =>
      acl.setOwnerUid uid
  | setAcl path cls rights =>
    cases cls with
    | user => exact hpre (hset path fun acl => acl.setOwnerRights rights)
    | other => exact hpre (hset path fun acl => acl.setOtherRights rights)
    | group name =>
      refine hpre (Mirrors.read (fun _ _ _ _ hb => hb) fun gid => ?_)
      exact hset path fun acl => acl.setGroupRights gid rights
  | addGroup path group =>
    exact hpre (Mirrors.read (fun _ _ _ _ hb => hb) fun gid => hset path fun acl => acl.addGroup gid)
  | delGroup path group =>
    exact hpre (Mirrors.read (fun _ _ _ _ hb => hb) fun gid => hset path fun acl => acl.removeGroup gid)

end Calls

end Walk

end Twins

/-! ## The moved a-node -/

section Moved

variable {e : Env} {n : Nat} {t : TxState}

/-- A move that succeeds has checked the list of the a-node it moves. -/
theorem mvInto_checked (src dst : APath) :
    Prog.Triple e n (fun s => ∀ k, Agree s t k) (mvInto src dst)
      (fun _ _ => ∀ akey, movedNode e t src = .ok (some akey) → check e t akey .delete = .ok ())
      (fun _ _ => True) := by
  refine Prog.Triple.inspect (fun _ _ _ _ => trivial) fun srcSplit => ?_
  refine Prog.Triple.guard (fun _ _ _ => trivial) fun dstSplit => ?_
  refine Prog.Triple.inspect (fun _ _ _ _ => trivial) fun parent => ?_
  cases parent with
  | none => exact Prog.Triple.fail fun _ _ => trivial
  | some parent =>
    refine Prog.Triple.guard (fun _ _ _ => trivial) fun _ => ?_
    refine Prog.Triple.inspect (fun _ _ _ _ => trivial) fun found => ?_
    cases found with
    | none => exact Prog.Triple.fail fun _ _ => trivial
    | some akey =>
      refine Prog.Triple.inspect (fun _ _ _ _ => trivial) fun _ => ?_
      refine Prog.Triple.of_pre ?_ Prog.Triple.const
      intro s h akey' hnode
      obtain ⟨⟨⟨⟨hsame, hsplit⟩, hparent⟩, hchild⟩, hcheck⟩ := h
      have hnode' : movedNode e s src = .ok (some akey) :=
        Except.bind_eq_ok.2 ⟨srcSplit, hsplit, Except.bind_eq_ok.2 ⟨some parent, hparent, hchild⟩⟩
      rw [movedNode_congr hsame, hnode] at hnode'
      cases hnode'
      rw [← (hsame akey).check]
      exact hcheck

variable [Externals]

theorem mv_checked {indexes : List IndexEntry} {src dst akey} (ht : ∀ k, ¬ t.buffer.Holds k)
    (hok : ((mv indexes src dst).run e t).1 = .ok ()) (hnode : movedNode e t src = .ok (some akey)) :
    check e t akey .delete = .ok () := by
  have hagree : Unindexed fun s => ∀ k, Agree s t k := fun s index h k =>
    ⟨(h k).dirs, (h k).files, (h k).data, (h k).inodes⟩
  have hmv : Prog.Triple e ((mv indexes src dst).run e t).2.drawn (fun s => ∀ k, Agree s t k)
      (mv indexes src dst)
      (fun _ _ => ∀ akey, movedNode e t src = .ok (some akey) → check e t akey .delete = .ok ())
      (fun _ _ => True) := by
    unfold mv
    split_ifs
    · exact Prog.Triple.fail fun _ _ => trivial
    · exact Prog.Triple.fail fun _ _ => trivial
    · exact Prog.Triple.fail fun _ _ => trivial
    · unfold reindexAround
      split
      · exact mvInto_checked src dst
      · refine Prog.Triple.bind (R := fun _ s => ∀ k, Agree s t k) ?_ fun _ => ?_
        · exact Prog.Maintains.triple fun s hs _ k => agree_flushAndDisable hs ht k
        refine Prog.Triple.bind (R := fun _ s => ∀ k, Agree s t k) ?_ fun _ => ?_
        · refine Prog.Triple.forEach_keeps fun scope _ => ?_
          exact (deleteEntries_keeps hagree).consequence (fun _ h => h) (fun _ _ h => h)
            fun _ _ _ => trivial
        refine Prog.Triple.bind (mvInto_checked src dst) fun _ => ?_
        exact Prog.Triple.of_pre (fun _ h => h) Prog.Triple.const
  have hrun := hmv t (fun _ => ⟨rfl, rfl, rfl, rfl⟩) (Nat.le_refl _)
  rw [show (mv indexes src dst).run e t = (.ok (), ((mv indexes src dst).run e t).2) from
    Prod.ext hok rfl] at hrun
  exact hrun akey hnode

end Moved

/-! ## Forged tables -/

/-- Every a-node, which is whatever has an entry or an inode, has an entry that its tag matches. -/
def AllVerify (v : Vault) (s : TxState) : Prop :=
  ∀ k, s.data.get k ≠ none ∨ s.inodes.get k ≠ none → ∃ entry inode, s.data.get k = some entry ∧
    s.inodes.get k = some inode ∧ inode.mac = some (macValue v.crypto v.key v.table k entry.toBytes
      ((inode.acl.map Acl.encode).getD []))

/-- The tables differ in the lists of the inodes alone. -/
structure ForgedLists (s s' : TxState) : Prop where
  data : s'.data = s.data
  index : s'.index = s.index
  drawn : s'.drawn = s.drawn
  inodes : ∀ k, ∃ acl, s'.inodes.get k = (s.inodes.get k).map fun inode => { inode with acl := acl }

section Forged

variable {e : Env} {v : Vault} {s s' : TxState}

/-- A list whose tag still matches is the genuine one. -/
theorem ForgedLists.inodes_eq (h : ForgedLists s s') (hs : AllVerify v s)
    (hmac : Function.Injective (v.crypto.keyedHash v.key)) {k : AKey} (hk : ¬ Broken v s' k) :
    s.inodes.get k = s'.inodes.get k := by
  obtain ⟨acl, hacl⟩ := h.inodes k
  cases hinode : s.inodes.get k with
  | none =>
    rw [hacl, hinode]
    rfl
  | some inode =>
    obtain ⟨entry, inode', hentry, hinode', hold⟩ := hs k (.inr (by rw [hinode]; exact nofun))
    rw [hinode] at hinode'
    cases hinode'
    rw [hinode, Option.map_some] at hacl
    have hnew : inode.mac = some (macValue v.crypto v.key v.table k entry.toBytes
        ((acl.map Acl.encode).getD [])) := by
      by_contra hne
      refine hk ⟨entry, by rw [h.data]; exact hentry, ?_⟩
      rw [readMeta_eq, hacl]
      exact hne
    rw [hold, Option.some.injEq] at hnew
    have hlist := Acl.encodeOption_inj (absorbValue_acl_inj (hmac hnew))
    rw [hacl, ← hlist]

variable [Externals]

/-- **A forged list buys a write only if it is the list of an a-node to be moved.** A call that
succeeds on the forged table succeeds on the genuine one exactly when the a-node it moves, if it
moves one, is not granted to the caller by the forged list alone. -/
theorem forged_call_iff {names : Names} {indexes : List IndexEntry} {o : Op} {buffering : Bool}
    (he : e.Authenticated v) (hmac : Function.Injective (v.crypto.keyedHash v.key))
    (hs : AllVerify v s) (hforged : ForgedLists s s')
    (hfresh : ∀ i, s.drawn ≤ i →
      i < ((o.prog names indexes).run e (s'.begin buffering)).2.drawn → s.data.get (e.gen i) = none)
    (hok : ((o.prog names indexes).run e (s'.begin buffering)).1 = .ok ()) :
    ((o.prog names indexes).run e (s.begin buffering)).1 = .ok () ↔
      Twins.MovesAlike e (s.begin buffering) (s'.begin buffering) o := by
  have hempty : ∀ (t : TxState) k, ¬ (t.begin buffering).buffer.Holds k := fun _ _ hheld =>
    hheld.elim (absurd rfl) (absurd rfl)
  constructor
  · intro hgenuine src dst akey ho hnode _
    subst ho
    exact mv_checked (hempty s) hgenuine hnode
  · intro hmoves
    have hgen : ∀ i, s.drawn ≤ i →
        i < ((o.prog names indexes).run e (s'.begin buffering)).2.drawn →
        ¬ Broken v s' (e.gen i) := by
      intro i hi hn hbroken
      obtain ⟨entry, hentry, _⟩ := hbroken
      rw [hforged.data, hfresh i hi hn] at hentry
      cases hentry
    have hstart : Twins.Still v s' s.drawn (s.begin buffering) (s'.begin buffering)
        (s.begin buffering) (s'.begin buffering) := by
      refine ⟨⟨hforged.data.symm, hforged.index.symm, rfl, hforged.drawn.symm, ?_, ?_, ?_⟩,
        fun _ => ⟨rfl, rfl, rfl, rfl⟩, fun _ => ⟨rfl, rfl, rfl, rfl⟩⟩
      · exact fun k hk => hforged.inodes_eq hs hmac hk
      · exact fun k _ => ⟨rfl, rfl, hempty s' k⟩
      · exact Nat.le_of_eq hforged.drawn.symm
    exact (Twins.op he hgen (hempty s) (hempty s') names indexes o hmoves _ _ () hstart
      (Nat.le_refl _) hok).1

end Forged

/-! ## A small forgery -/

section Small

/-- A user has stored a file in a directory. -/
def storedFile : TxState :=
  letI := Reference.externals
  runOps .empty [⟨userEnv 5, ⟨fun _ => none, fun _ => none⟩, true,
    [⟨0, [], .call (.store (pathOf ["a", "b"]) [])⟩]⟩]

/-- An outsider lets everyone delete the file. -/
def forgedFile : TxState :=
  { storedFile with
    inodes := storedFile.inodes.setAcl (.ofNat 2) ((Acl.defaultFor 5).setOtherRights .delete) }

theorem storedFile_verifies : AllVerify userVault storedFile := by
  let _ := Reference.externals
  have hsealed : AllSealed userVault storedFile :=
    AllSealed.txn (userEnv_authenticated 5) fun _ _ h => by cases h
  have hentries : ∀ x ∈ storedFile.inodes.entries, storedFile.data.get x.1 ≠ none := by decide
  intro k hk
  have hentry : storedFile.data.get k ≠ none := by
    refine hk.elim id fun hinode => ?_
    obtain ⟨inode, hinode⟩ := Option.ne_none_iff_exists'.1 hinode
    exact hentries _ (SortedMap.get_iff_mem.1 hinode)
  obtain ⟨entry, hentry⟩ := Option.ne_none_iff_exists'.1 hentry
  obtain ⟨inode, hinode, hmac, _⟩ := hsealed k entry hentry
  exact ⟨entry, inode, hentry, hinode, hmac⟩

theorem forgedFile_forged : ForgedLists storedFile forgedFile := by
  refine ⟨rfl, rfl, rfl, fun k => ?_⟩
  by_cases hk : k = .ofNat 2
  · subst hk
    exact ⟨some ((Acl.defaultFor 5).setOtherRights .delete), by decide⟩
  · refine ⟨((storedFile.inodes.get k).bind Inode.acl), ?_⟩
    refine (SortedMap.get_insert_ne _ _ hk).trans ?_
    cases storedFile.inodes.get k <;> rfl

theorem userVault_mac : Function.Injective (userVault.crypto.keyedHash userVault.key) := fun _ _ h =>
  List.append_cancel_left h

/-- The move of the file to the root. -/
def moveFile : @Op Reference.externals :=
  letI := Reference.externals
  .call (.mv (pathOf ["a", "b"]) (pathOf ["c"]))

/-- Another user's move of the file succeeds on the forged table and fails on the genuine one. -/
theorem forged_move_succeeds : letI := Reference.externals
    ∃ (e : Env) (v : Vault) (s s' : TxState) (names : Names) (o : Op), e.Authenticated v ∧
      (∃ session, e.principal = .user session ∧ session.isMaster = false) ∧
      Function.Injective (v.crypto.keyedHash v.key) ∧ AllVerify v s ∧ ForgedLists s s' ∧
      ((o.prog names []).run e (s'.begin true)).1 = .ok () ∧
      ((o.prog names []).run e (s.begin true)).1 ≠ .ok () := by
  let _ := Reference.externals
  refine ⟨userEnv 6, userVault, storedFile, forgedFile, ⟨fun _ => none, fun _ => none⟩, moveFile,
    userEnv_authenticated 6, ⟨_, rfl, by decide⟩, userVault_mac, storedFile_verifies, forgedFile_forged,
    by decide, by decide⟩

theorem forged_call_iff_store : letI := Reference.externals
    let o : Op := .call (.store (pathOf ["d"]) [])
    ((o.prog ⟨fun _ => none, fun _ => none⟩ []).run (userEnv 6) (storedFile.begin true)).1 = .ok () := by
  let _ := Reference.externals
  have hok : (((Op.call (.store (pathOf ["d"]) [])).prog ⟨fun _ => none, fun _ => none⟩ []).run
      (userEnv 6) (forgedFile.begin true)).1 = .ok () := by decide
  refine (forged_call_iff (userEnv_authenticated 6) userVault_mac storedFile_verifies
    forgedFile_forged ?_ hok).2 ?_
  · intro i hi hn
    have hall : ∀ i, i < 3 → 2 ≤ i → storedFile.data.get ((userEnv 6).gen i) = none := by decide
    have hdrawn : storedFile.drawn = 2 := by decide
    have hafter : (((Op.call (.store (pathOf ["d"]) [])).prog ⟨fun _ => none, fun _ => none⟩ []).run
        (userEnv 6) (forgedFile.begin true)).2.drawn = 3 := by decide
    exact hall i (hafter ▸ hn) (hdrawn ▸ hi)
  · intro src dst akey ho
    cases ho

end Small

end ArborDb
