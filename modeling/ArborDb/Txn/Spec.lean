import ArborDb.Txn.View

/-!
# Specifications of the writes

Each write of the context changes the store a state shows at one key, whether it is buffered or
goes to the table, and draws no key. A flush changes nothing that a read could tell.
-/

namespace ArborDb

open Prog (Triple)

variable {e : Env} {P : Policy e} {n d : Nat} {v : View} {s : TxState} {k : AKey}

/-! ## States -/

namespace Sees

theorem fresh_update (h : Sees P n d v s) (o : Option Entry) (hk : Used e n d k) (i : Nat)
    (hi : d ≤ i) (hn : i < n) : Function.update v k o (e.gen i) = none := by
  rw [Function.update_of_ne (hk i hi hn)]
  exact h.fresh i hi hn

theorem putEntry (h : Sees P n d v s) (c : Entry) (hk : Used e n d k)
    (hdirs : s.buffer.dirs.get k = none) :
    Sees P n d (Function.update v k (some c)) (s.putEntry e k c) where
  shows j := by
    rw [observe_putEntry c hdirs, h.shows j, Function.update_apply]
    split <;> rfl
  coherent := h.coherent.putEntry hdirs
  drawn := h.drawn
  fresh := h.fresh_update _ hk
  policy := P.record k c h.policy

theorem removeEntry (h : Sees P n d v s) (hk : Used e n d k) :
    Sees P n d (Function.update v k none) (s.removeEntry e k) where
  shows j := by
    rw [observe_removeEntry, h.shows j, Function.update_apply]
    split <;> rfl
  coherent := h.coherent.removeEntry
  drawn := h.drawn
  fresh := h.fresh_update _ hk
  policy := P.remove k h.policy

/-- Buffers a directory whose inodes keep the policy. -/
theorem dirPut (h : Sees P n d v s) {m : SortedMap Str AKey} {inodes : InodeTable}
    (hk : Used e n d k) (hv : ∀ b, v k ≠ some (.file b)) (hon : s.buffer.buffering = true)
    (hinodes : ∀ j, j ≠ k → inodes.get j = s.inodes.get j)
    (hpolicy : P.holds (Function.update v k (some (.dir m))) inodes) :
    Sees P n d (Function.update v k (some (.dir m)))
      { s with inodes := inodes, buffer := s.buffer.dirPut k m } where
  shows j := by
    rw [observe_dirPut m hinodes, h.shows j, Function.update_apply]
    split <;> rfl
  coherent := h.coherent.dirPut hon (h.data_not_file hv)
  drawn := h.drawn
  fresh := h.fresh_update _ hk
  policy := hpolicy

theorem bumpStructure (h : Sees P n d v s) :
    Sees P n d v { s with buffer := s.buffer.bumpStructure } where
  shows := h.shows
  coherent := ⟨h.coherent.file, h.coherent.dir, h.coherent.off⟩
  drawn := h.drawn
  fresh := h.fresh
  policy := h.policy

/-- The index table is not part of what a state shows. -/
theorem setIndex (h : Sees P n d v s) (index : SortedMap Bytes Bytes) :
    Sees P n d v { s with index := index } where
  shows := h.shows
  coherent := ⟨h.coherent.file, h.coherent.dir, h.coherent.off⟩
  drawn := h.drawn
  fresh := h.fresh
  policy := h.policy

theorem of_granting {g : AKey} (h : Sees (P.granting g) n d v s) : Sees P n d v s where
  shows := h.shows
  coherent := h.coherent
  drawn := h.drawn
  fresh := h.fresh
  policy := h.policy.1

theorem to_granting {g : AKey} (h : Sees P n d v s)
    (hg : v g ≠ none → Grants e g (s.inodes.readAcl g)) : Sees (P.granting g) n d v s where
  shows := h.shows
  coherent := h.coherent
  drawn := h.drawn
  fresh := h.fresh
  policy := ⟨h.policy, hg⟩

theorem check_granted (h : Sees (P.granting k) n d v s) (hk : v k ≠ none) (needed : Rights) :
    check e s k needed = .ok () := h.policy.2 hk needed

theorem data_get (h : Sees P n d v s)
    (hclean : ∀ k, s.buffer.dirs.get k = none ∧ s.buffer.files.get k = none) (k : AKey) :
    s.data.get k = v k := by
  cases hv : v k with
  | some c =>
    obtain ⟨m, hd, -⟩ | ⟨-, b, hf, -⟩ | ⟨-, -, hd⟩ := h.stored hv
    · rw [(hclean k).1] at hd
      cases hd
    · rw [(hclean k).2] at hf
      cases hf
    · exact hd
  | none =>
    have hentry := h.hasEntry k
    rw [hv] at hentry
    unfold ArborDb.hasEntry SortedMap.contains at hentry
    simp only [Option.isSome_none, Bool.or_eq_false_iff] at hentry
    exact Option.isNone_iff_eq_none.1 (by simpa using hentry.2)

end Sees

/-! ## Programs -/

section Programs

variable {Q : Unit → TxState → Prop} {E : AdbError → TxState → Prop}

/-- The `d`-th key: unused by the store and by the generations to come. -/
structure Fresh (e : Env) (n d : Nat) (v : View) (f : AKey) : Prop where
  eq : f = e.gen d
  lt : d < n
  free : v f = none
  ne_root : f ≠ .root
  used : Used e n (d + 1) f

/-- A key is generated before the rest of a program. -/
theorem generate_spec {α : Type} {rest : AKey → TxM α} {Q : α → TxState → Prop}
    (hdist : Distinct e n)
    (hrest : ∀ f, Fresh e n d v f → Triple e n (Sees P n (d + 1) v) (rest f) Q E) :
    Triple e n (Sees P n d v) (generate >>= rest) Q E := by
  refine Triple.bind (R := fun f s => Fresh e n d v f ∧ Sees P n (d + 1) v s) ?_ ?_
  · intro s hs hn
    have hdn : s.drawn + 1 ≤ n := hn
    rw [hs.drawn] at hdn
    have heq : e.gen s.drawn = e.gen d := congrArg e.gen hs.drawn
    refine ⟨⟨heq, hdn, ?_, ?_, ?_⟩, hs.shows,
      ⟨hs.coherent.file, hs.coherent.dir, hs.coherent.off⟩, ?_, ?_, hs.policy⟩
    · rw [heq]
      exact hs.fresh d (Nat.le_refl d) hdn
    · rw [heq]
      exact (hdist d hdn).1
    · rw [heq]
      intro i hi hin heq
      have := (hdist i hin).2 d hdn heq
      omega
    · exact congrArg (· + 1) hs.drawn
    · exact fun i hi => hs.fresh i (by omega)
  · intro f
    refine Triple.of_pre (fun s hs => hs.1) ?_
    intro hf
    exact (hrest f hf).pre (fun _ hs => hs.2)

theorem putEntry_spec {c : Entry} (hk : Used e n d k) (hv : ∀ m, v k ≠ some (.dir m)) :
    Triple e n (Sees P n d v) (putEntry k c)
      (fun _ => Sees P n d (Function.update v k (some c))) E :=
  Triple.modify fun _ hs _ => hs.putEntry c hk (hs.dirs_none hv)

theorem removeEntry_spec (hk : Used e n d k) :
    Triple e n (Sees P n d v) (removeEntry k)
      (fun _ => Sees P n d (Function.update v k none)) E :=
  Triple.modify fun _ hs _ => hs.removeEntry hk

theorem putDir_spec {m : SortedMap Str AKey} (hk : Used e n d k)
    (hv : ∀ b, v k ≠ some (.file b)) :
    Triple e n (Sees P n d v) (putDir k m)
      (fun _ => Sees P n d (Function.update v k (some (.dir m)))) E := by
  apply Triple.modify
  intro s hs _
  split
  · rename_i hon
    exact hs.dirPut hk hv hon (fun j hj => stampNewDirAcl_get_ne e s.inodes hj)
      (P.stamp k _ hs.policy)
  · rename_i hoff
    rw [Bool.not_eq_true] at hoff
    exact hs.putEntry _ hk (hs.coherent.off hoff k).1

theorem putFileEdit_spec {b b' : Bytes} (hv : v k = some (.file b)) :
    Triple e n (Sees P n d v) (putFileEdit k b')
      (fun _ => Sees P n d (Function.update v k (some (.file b')))) E := by
  apply Triple.modify
  intro s hs _
  have hk : Used e n d k := hs.used (by simp [hv])
  have hdirs := hs.dirs_none (k := k) (by simp [hv])
  split
  · rename_i hon
    exact {
      shows := fun j => by
        rw [observe_filePut b' hdirs, hs.shows j, Function.update_apply]
        split <;> rfl
      coherent := hs.coherent.filePut hon hdirs (hs.data_file hv)
      drawn := hs.drawn
      fresh := hs.fresh_update _ hk
      policy := P.edit _ (by simp [hv]) hs.policy }
  · exact hs.putEntry _ hk hdirs

theorem editDir_spec {m : SortedMap Str AKey} {edit : SortedMap Str AKey → SortedMap Str AKey}
    (hv : v k = some (.dir m)) :
    Triple e n (Sees P n d v) (editDir k edit)
      (fun _ => Sees P n d (Function.update v k (some (.dir (edit m))))) E := by
  have hnf : ∀ b, v k ≠ some (.file b) := by simp [hv]
  unfold editDir bumpStructure
  refine Triple.bind (R := fun _ => Sees P n d v) (Triple.modify fun _ hs _ => hs.bumpStructure) ?_
  intro _
  refine Triple.inspect_known m (fun _ hs => hs.dirChildren hv) ?_
  refine Triple.inspect (fun _ _ _ herr => nomatch herr) ?_
  intro on
  cases on with
  | true =>
    rw [if_pos rfl]
    apply Triple.modify
    rintro s ⟨hs, hon⟩ _
    exact hs.dirPut (hs.used (by simp [hv])) hnf (Except.ok.inj hon) (fun _ _ => rfl)
      (P.edit _ (by simp [hv]) hs.policy)
  | false =>
    rw [if_neg Bool.false_ne_true]
    refine Triple.of_pre (p := Used e n d k) (fun s hs => hs.1.used (by simp [hv])) ?_
    intro hk
    exact (putDir_spec hk hnf).pre (fun _ hs => hs.1)

theorem linkChild_spec {m : SortedMap Str AKey} {name : Str} {c : AKey} (hv : v k = some (.dir m)) :
    Triple e n (Sees P n d v) (linkChild k name c)
      (fun _ => Sees P n d (Function.update v k (some (.dir (m.insert name c))))) E :=
  editDir_spec hv

theorem unlinkChild_spec {m : SortedMap Str AKey} {name : Str} (hv : v k = some (.dir m)) :
    Triple e n (Sees P n d v) (unlinkChild k name)
      (fun _ => Sees P n d (Function.update v k (some (.dir (m.erase name))))) E :=
  editDir_spec hv

/-! ### The flush -/

/-- In the middle of a flush: nothing is buffered, and the state shows the store but for the
a-nodes in `F`, which are still to be written. -/
structure Flushing (P : Policy e) (n d : Nat) (v : View) (F : AKey → Prop) (on : Bool)
    (s : TxState) : Prop where
  shows : ∀ k, ¬ F k → observe e s k = .ok (v k)
  clean : ∀ k, s.buffer.dirs.get k = none ∧ s.buffer.files.get k = none
  buffering : s.buffer.buffering = on
  drawn : s.drawn = d
  fresh : ∀ i, d ≤ i → i < n → v (e.gen i) = none
  policy : P.holds v s.inodes

theorem Flushing.putEntry {F : AKey → Prop} {on : Bool} {c : Entry}
    (h : Flushing P n d v F on s) (hc : v k = some c) :
    Flushing P n d v (fun j => F j ∧ j ≠ k) on (s.putEntry e k c) where
  shows j hj := by
    rw [observe_putEntry c (h.clean k).1]
    by_cases hjk : j = k
    · rw [if_pos hjk, hjk, hc]
    · rw [if_neg hjk]
      exact h.shows j fun hF => hj ⟨hF, hjk⟩
  clean j := by
    refine ⟨(h.clean j).1, ?_⟩
    have hforget := WriteBuffer.get_files_fileForget s.buffer k j
    rw [(h.clean j).2, ite_self] at hforget
    exact hforget
  buffering := h.buffering
  drawn := h.drawn
  fresh := h.fresh
  policy := by
    have hpolicy := P.record k c h.policy
    rw [← hc, Function.update_eq_self] at hpolicy
    exact hpolicy

/-- Writing a list of entries the store has. -/
theorem forEach_putEntry_spec {β : Type} {F : AKey → Prop} {on : Bool} {l : List (AKey × β)}
    {c : β → Entry} (hl : ∀ x ∈ l, v x.1 = some (c x.2)) :
    Triple e n (Flushing P n d v F on)
      (Prog.forEach (fun x => ArborDb.putEntry x.1 (c x.2)) l)
      (fun _ => Flushing P n d v (fun j => F j ∧ j ∉ l.map Prod.fst) on) E := by
  refine (Triple.forEach (fun done => Flushing P n d v (fun j => F j ∧ j ∉ done.map Prod.fst) on)
    ?_).pre ?_
  · intro done x rest hdone
    apply Triple.modify
    intro s hs _
    have hstep := hs.putEntry (hl x (by simp [hdone]))
    refine { hstep with shows := fun k hk => hstep.shows k ?_ }
    rintro ⟨⟨hF, hmem⟩, hne⟩
    exact hk ⟨hF, by simpa [hne] using hmem⟩
  · intro s hs
    exact { hs with shows := fun k hk => hs.shows k fun hF => hk ⟨hF, by simp⟩ }

/-- A flush keeps what the state shows and leaves nothing buffered. -/
theorem flushBuffered_spec {buffer : WriteBuffer} {on : Bool} (hs : Sees P n d v s)
    (hbuffer : buffer = s.buffer) :
    Triple e n (fun s' => s' = { s with buffer := { s.buffer.clear with buffering := on } })
      (flushBuffered buffer.dirs.entries buffer.files.entries)
      (fun _ s' => Sees P n d v s' ∧
        (∀ k, s'.buffer.dirs.get k = none ∧ s'.buffer.files.get k = none) ∧
        s'.buffer.buffering = on) E := by
  subst hbuffer
  have hdirs : ∀ x ∈ s.buffer.dirs.entries, v x.1 = some (.dir x.2) := by
    intro x hx
    have hget := SortedMap.get_iff_mem.2 hx
    have hshow := hs.shows x.1
    rw [observe, hget] at hshow
    exact (Except.ok.inj hshow).symm
  have hfiles : ∀ x ∈ s.buffer.files.entries, v x.1 = some (.file x.2) := by
    intro x hx
    have hget := SortedMap.get_iff_mem.2 hx
    have hnone : s.buffer.dirs.get x.1 = none := by
      by_contra hne
      obtain ⟨m, hm⟩ := Option.ne_none_iff_exists'.1 hne
      rw [(hs.coherent.dir hm).1] at hget
      cases hget
    have hshow := hs.shows x.1
    rw [observe, hnone] at hshow
    simp only [readVerified, WriteBuffer.fileGet_eq, hget] at hshow
    exact (Except.ok.inj hshow).symm
  -- Before the first write, only the a-nodes that were buffered may be out of date.
  let F : AKey → Prop := fun k => s.buffer.dirs.get k ≠ none ∨ s.buffer.files.get k ≠ none
  unfold flushBuffered
  refine Triple.bind (R := fun _ => Flushing P n d v
    (fun k => F k ∧ k ∉ s.buffer.dirs.entries.map Prod.fst) on) ?_ ?_
  · refine (forEach_putEntry_spec hdirs).pre ?_
    rintro _ rfl
    refine ⟨?_, fun _ => ⟨rfl, rfl⟩, rfl, hs.drawn, hs.fresh, hs.policy⟩
    intro k hk
    have hkd : s.buffer.dirs.get k = none := by
      by_contra hne
      exact hk (.inl hne)
    have hkf : s.buffer.files.get k = none := by
      by_contra hne
      exact hk (.inr hne)
    rw [← hs.shows k]
    exact observe_congr hkd.symm hkf.symm rfl rfl
  · intro _
    refine (forEach_putEntry_spec hfiles).post ?_
    intro _ s' h
    have hnone : ∀ k, ¬ ((F k ∧ k ∉ s.buffer.dirs.entries.map Prod.fst) ∧
        k ∉ s.buffer.files.entries.map Prod.fst) := by
      rintro k ⟨⟨hne | hne, hkd⟩, hkf⟩
      · obtain ⟨m, hm⟩ := Option.ne_none_iff_exists'.1 hne
        exact hkd (List.mem_map.2 ⟨(k, m), SortedMap.get_iff_mem.1 hm, rfl⟩)
      · obtain ⟨b, hb⟩ := Option.ne_none_iff_exists'.1 hne
        exact hkf (List.mem_map.2 ⟨(k, b), SortedMap.get_iff_mem.1 hb, rfl⟩)
    refine ⟨⟨fun k => h.shows k (hnone k), ?_, h.drawn, h.fresh, h.policy⟩, h.clean, h.buffering⟩
    constructor
    · intro k b hk
      rw [(h.clean k).2] at hk
      cases hk
    · intro k m hk
      rw [(h.clean k).1] at hk
      cases hk
    · exact fun _ => h.clean

end Programs

end ArborDb
