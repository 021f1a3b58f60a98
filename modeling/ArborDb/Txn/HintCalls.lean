import ArborDb.Txn.Hint

/-!
# Calls and key hints

A deletion leaves nothing behind that it linked, at any moment, and a copy writes fresh keys alone. So
every call keeps what is known of a hint, whether it returns or fails midway, and changes at most as many
links as its path has names, and a move one more.
-/

namespace ArborDb

open Prog (Triple)

/-! ## Deletions and copies -/

section Programs

variable {e : Env} {n d : Nat} {c : Cursor} {A : List AKey} {b : Nat} {v : View} {s : TxState} {k f : AKey}

/-- In the middle of a deletion that started from the view `v` of `s₀`. -/
def Pruning (e : Env) (n d : Nat) (v : View) (A : List AKey) (s₀ s : TxState) : Prop :=
  ∃ v', Sees (.base e) n d v' s ∧ Pruned v v' ∧ (∀ k ∈ A, v' k = none) ∧ s.buffer.epoch = s₀.buffer.epoch

theorem cascadeDelete_prunes {s₀ : TxState} (fuel : Nat) (k : AKey) (A : List AKey) :
    Triple e n (Pruning e n d v A s₀) (cascadeDelete fuel k) (fun _ => Pruning e n d v (k :: A) s₀)
      (fun _ => Pruning e n d v [] s₀) := by
  induction fuel generalizing k A with
  | zero => exact Triple.fail fun _ ⟨v', hs, hpruned, _, hepoch⟩ => ⟨v', hs, hpruned, nofun, hepoch⟩
  | succ fuel ih =>
    apply Triple.of_states
    rintro s ⟨v₁, hs, hpruned, hA, hepoch⟩
    unfold cascadeDelete
    refine Triple.inspect_known _ (fun _ heq => heq ▸ hs.cascadeChildren k) ?_
    cases hv₁ : v₁ k with
    | none =>
      refine Triple.pure ?_
      rintro _ rfl
      exact ⟨v₁, hs, hpruned, List.forall_mem_cons.2 ⟨hv₁, hA⟩, hepoch⟩
    | some entry =>
      have hvk : v k = some entry := by
        rcases hpruned.kept k with hsame | hgone
        · rw [← hsame, hv₁]
        · cases hgone.symm.trans hv₁
      have hused : Used e n d k := hs.used (by simp [hv₁])
      -- The loop has deleted the children that are done.
      refine Triple.bind (R := fun _ => Pruning e n d v (entry.linked.reverse ++ A) s₀) ?_ ?_
      · refine (Triple.forEach (fun done => Pruning e n d v (done.reverse ++ A) s₀) ?_).pre ?_
        · intro done x rest _
          rw [List.reverse_append, List.append_assoc]
          exact ih x _
        · rintro _ rfl
          exact ⟨v₁, hs, hpruned, hA, hepoch⟩
      · intro _
        apply Triple.modify
        rintro s₂ ⟨v₂, hs₂, hpruned₂, hA₂, hepoch₂⟩ _
        refine ⟨_, hs₂.removeEntry hused, hpruned₂.remove ?_, ?_, hepoch₂⟩
        · intro name j hj
          refine hA₂ j (List.mem_append_left _ (List.mem_reverse.2 ?_))
          unfold Layout.childOf at hj
          rw [hvk] at hj
          cases entry with
          | leaf blob => cases hj
          | branch links => exact List.mem_map.2 ⟨_, SortedMap.get_iff_mem.1 hj, rfl⟩
        · intro j hj
          rw [Function.update_apply]
          split
          · rfl
          · rename_i hne
            rcases List.mem_cons.1 hj with rfl | hj
            · exact absurd rfl hne
            · exact hA₂ j (List.mem_append_right _ hj)

/-- A deletion changes no link that is still there, even if it fails. -/
theorem cascadeDelete_tracked :
    Triple e n (Tracked e n c d [] b) (bounded (cascadeDelete · k)) (fun _ => Tracked e n c d [] b)
      (fun _ => Tracked e n c d [] b) := by
  apply Triple.of_states
  rintro s ⟨v, h⟩
  have hend : ∀ {A : List AKey} {s' : TxState}, Pruning e n d v A s s' → Tracked e n c d [] b s' := by
    rintro A s' ⟨v', hs', hpruned, -, hepoch⟩
    refine ⟨v', h.write hs' ?_ (fun _ hk => absurd hk List.not_mem_nil) hepoch fun hpoints => hpoints.pruned hpruned⟩
    intro k j name hj
    rcases hpruned.kept k with hsame | hgone
    · rw [Layout.childOf, hsame] at hj
      exact .inl hj
    · rw [Layout.childOf, hgone] at hj
      cases hj
  refine Triple.inspect_at (fun _ hbad => by cases hbad) ?_
  intro size _
  have hprune : Triple e n (Pruning e n d v [] s) (cascadeDelete (size + 1) k) (fun _ => Pruning e n d v [k] s)
      (fun _ => Pruning e n d v [] s) := cascadeDelete_prunes (size + 1) k []
  refine hprune.consequence ?_ (fun _ _ => hend) fun _ _ => hend
  rintro _ rfl
  exact ⟨v, h.sees, .refl v, fun _ hk => absurd hk List.not_mem_nil, rfl⟩

variable (hroot : c.akey = .root → c.path.names = []) (hp : e.principal = .unrestricted) (hdist : Distinct e n)

include hroot hp hdist

/-- A copy writes fresh keys alone; the keys of `A` stay absent. -/
theorem deepCopy_tracked (fuel : Nat) (k : AKey) (d : Nat) (A : List AKey) :
    Triple e n (Tracked e n c d A b) (deepCopy fuel k)
      (fun j s => ∃ d', d ≤ d' ∧ j ≠ .root ∧ Used e n d' j ∧ Tracked e n c d' A b s)
      (fun _ => Known e n c b) := by
  induction fuel generalizing k d A with
  | zero => exact Triple.fail fun _ h => h.known le_rfl
  | succ fuel ih =>
    refine Triple.guard (fun _ _ h => h.known le_rfl) fun _ => ?_
    refine generate_tracked hdist fun f hfroot hfkey hfA _ hused => ?_
    refine Triple.inspect (fun _ _ h _ => h.known le_rfl) fun kind => ?_
    match kind with
    | none => exact Triple.fail fun _ h => h.1.known le_rfl
    | some .file =>
      refine Triple.inspect (fun _ _ h _ => h.1.known le_rfl) fun entry => ?_
      cases entry with
      | none => exact Triple.fail fun _ h => h.1.1.known le_rfl
      | some entry =>
        -- What is read of a file is a file.
        refine Triple.of_pre (p := ∃ blob, entry = .file blob) ?_ ?_
        · rintro s ⟨⟨⟨v, h⟩, hkind⟩, hread⟩
          have hv := Except.ok.inj ((h.sees.kind k).symm.trans hkind)
          have hnodir : ∀ m, v k ≠ some (.dir m) := by
            intro m hm
            rw [hm] at hv
            cases hv
          rw [h.sees.readVerified hnodir] at hread
          rw [Except.ok.inj hread] at hv hnodir
          cases entry with
          | leaf blob => exact ⟨blob, rfl⟩
          | branch m => exact absurd rfl (hnodir m)
        · rintro ⟨blob, rfl⟩
          refine Triple.bind (R := fun _ => Tracked e n c (d + 1) A b) ?_ fun _ => Triple.pure ?_
          · exact (putEntry_tracked hroot hfA hfkey).pre fun _ h => h.1.1
          · exact fun s h => ⟨d + 1, by omega, hfroot, hused, h⟩
    | some .dir =>
      refine Triple.inspect (fun _ _ h _ => h.1.known le_rfl) fun children => ?_
      -- The links of the copy are fresh keys.
      have hcopy : ∀ (l : List (Str × AKey)) (copied : SortedMap Str AKey) (d₁ : Nat), d + 1 ≤ d₁ →
          (∀ {name : Str} {j : AKey}, copied.get name = some j → j ≠ .root ∧ Used e n d₁ j) →
            Triple e n (Tracked e n c d₁ (f :: A) b) (copyChildren (deepCopy fuel) l copied)
              (fun m s => ∃ d₂, d + 1 ≤ d₂ ∧
                (∀ {name : Str} {j : AKey}, m.get name = some j → j ≠ .root ∧ Used e n d₂ j) ∧
                  Tracked e n c d₂ (f :: A) b s)
              (fun _ => Known e n c b) := by
        intro l
        induction l with
        | nil =>
          intro copied d₁ hd₁ hcopied
          exact Triple.pure fun s h => ⟨d₁, hd₁, hcopied, h⟩
        | cons x l ihl =>
          intro copied d₁ hd₁ hcopied
          refine Triple.bind (ih x.2 d₁ (f :: A)) fun j => ?_
          apply Triple.of_states
          rintro s ⟨d₂, hd₂, hjroot, hjused, h⟩
          refine (ihl (copied.insert x.1 j) d₂ (hd₁.trans hd₂) ?_).pre fun _ hs => hs ▸ h
          intro name i hi
          rw [SortedMap.get_insert] at hi
          split at hi
          · cases hi
            exact ⟨hjroot, hjused⟩
          · exact ⟨(hcopied hi).1, (hcopied hi).2.mono hd₂⟩
      refine Triple.bind ((hcopy children.entries .empty (d + 1) le_rfl nofun).pre fun _ h => h.1.1) fun m => ?_
      apply Triple.of_states
      rintro s ⟨d₂, hd₂, hm, h⟩
      refine Triple.bind (R := fun _ => Tracked e n c d₂ A b) ?_ fun _ => Triple.pure ?_
      · exact (putDir_tracked hroot hp hfA (.inl hfkey) hm).pre fun _ hs => hs ▸ h
      · exact fun s h => ⟨d₂, by omega, hfroot, hused.mono hd₂, h⟩

/-! ## Mutations -/

omit hroot hp in
theorem used_root : Used e n d .root := fun i _ hin => (hdist i hin).1

omit hroot hdist in
/-- Without access control, a path resolves as it is walked. -/
theorem Sees.resolveFrom_walk {P : Policy e} (h : Sees P n d v s) (names : List Str) (k : AKey) :
    resolveFrom e s k names = .ok (Layout.walk v k names) := by
  induction names generalizing k with
  | nil => rfl
  | cons name names ih =>
    rw [resolveFrom, check, hp, authorize_unrestricted, Except.ok_bind, h.child, Except.ok_bind, Layout.walk]
    cases Layout.childOf v k name with
    | none => rfl
    | some j => exact ih j

omit hroot hp in
/-- What a walk reaches is the root or linked. -/
theorem Tracks.walk_used (h : Tracks e n c d A b v s) {names : List Str} (hwalk : Layout.walk v .root names = some k) :
    Used e n d k := by
  suffices hfrom : ∀ (names : List Str) (a : AKey), Used e n d a → Layout.walk v a names = some k → Used e n d k from
    hfrom names .root (used_root hdist) hwalk
  intro names
  induction names with
  | nil =>
    intro a ha hwalk
    cases hwalk
    exact ha
  | cons name names ih =>
    intro a _ hwalk
    obtain ⟨j, hj, hrest⟩ := Option.bind_eq_some_iff.1 hwalk
    exact ih j (h.anchored hj).2 hrest

omit hroot in
theorem Tracked.resolve_used {path : APath} (h : Tracked e n c d A b s) (hr : resolve e s path = .ok (some k)) :
    Used e n d k := by
  obtain ⟨v, h⟩ := h
  rw [resolve, h.sees.resolveFrom_walk hp] at hr
  exact h.walk_used hdist (Except.ok.inj hr)

omit hroot hp hdist in
theorem Tracked.child_used {name : Str} {j : AKey} (h : Tracked e n c d A b s)
    (hr : child e s k name = .ok (some j)) : j ≠ .root ∧ Used e n d j := by
  obtain ⟨v, h⟩ := h
  rw [h.sees.child] at hr
  exact h.anchored (Except.ok.inj hr)

theorem ensureRoot_tracked : Triple e n (Tracked e n c d [] b) ensureRoot (fun _ => Tracked e n c d [] b)
    (fun _ => Tracked e n c d [] b) := by
  unfold ensureRoot
  refine Triple.inspect (fun _ _ h _ => h) fun present => ?_
  split
  · exact Triple.pure fun _ h => h.1
  · rename_i habsent
    refine (putDir_tracked hroot hp (f := .root) (m := .empty) (List.not_mem_nil) (.inr rfl) nofun).pre ?_
    rintro s ⟨⟨v, h⟩, hentry⟩
    rw [h.sees.hasEntry] at hentry
    have hnone : v .root = none := by
      cases hv : v .root with
      | none => rfl
      | some entry =>
        rw [hv] at hentry
        exact absurd (Except.ok.inj hentry).symm habsent
    exact ⟨v, h.sees, h.anchored, List.forall_mem_singleton.2 ⟨hnone, used_root hdist⟩, h.used, h.count⟩

/-- Each directory that is made changes one link. -/
theorem ensureDirFrom_tracked (names : List Str) (a : AKey) (d b : Nat) (ha : Used e n d a) :
    Triple e n (Tracked e n c d [] b) (ensureDirFrom a names)
      (fun k s => ∃ d', d ≤ d' ∧ Used e n d' k ∧ Tracked e n c d' [] (b + names.length) s)
      (fun _ => Known e n c (b + names.length)) := by
  induction names generalizing a d b with
  | nil => exact Triple.pure fun s h => ⟨d, le_rfl, ha, h⟩
  | cons name names ih =>
    rw [List.length_cons]
    refine Triple.guard (fun _ _ h => h.known (by omega)) fun _ => ?_
    refine Triple.inspect (fun _ _ h _ => h.known (by omega)) fun found => ?_
    cases found with
    | some j =>
      refine Triple.of_pre (p := Used e n d j) (fun _ h => (h.1.child_used h.2).2) fun hj => ?_
      refine Triple.guard (fun _ _ h => h.1.known (by omega)) fun kind => ?_
      split
      · exact Triple.fail fun _ h => h.1.known (by omega)
      · refine (ih j d b hj).consequence (fun _ h => h.1) ?_ fun _ _ h => h.mono (by omega)
        rintro k s ⟨d', hd', hk, h⟩
        exact ⟨d', hd', hk, h.mono (fun _ h => h) (by omega)⟩
    | none =>
      refine Triple.guard (fun _ _ h => h.1.known (by omega)) fun _ => ?_
      refine (generate_tracked hdist fun f hfroot hfkey _ _ hused => ?_).pre fun _ h => h.1
      have hput : Triple e n (Tracked e n c (d + 1) [f] b) (putDir f .empty) (fun _ => Tracked e n c (d + 1) [] b)
          (fun _ => Known e n c (b + (names.length + 1))) :=
        putDir_tracked hroot hp (List.not_mem_nil) (.inl hfkey) nofun
      have hlink : Triple e n (Tracked e n c (d + 1) [] b) (linkChild a name f)
          (fun _ => Tracked e n c (d + 1) [] (b + 1)) (fun _ => Known e n c (b + (names.length + 1))) :=
        (linkChild_tracked hp (ha.mono (by omega)) (List.not_mem_nil) ⟨hfroot, hused⟩).consequence (fun _ h => h)
          (fun _ _ h => h) fun _ _ h => h.known (by omega)
      refine Triple.bind hput fun _ => Triple.bind hlink fun _ => ?_
      refine (ih f (d + 1) (b + 1) hused).consequence (fun _ h => h) ?_ fun _ _ h => h.mono (by omega)
      rintro k s ⟨d', hd', hk, h⟩
      exact ⟨d', by omega, hk, h.mono (fun _ h => h) (by omega)⟩

theorem ensureDir_tracked (path : APath) (d b : Nat) : Triple e n (Tracked e n c d [] b) (ensureDir path)
    (fun k s => ∃ d', d ≤ d' ∧ Used e n d' k ∧ Tracked e n c d' [] (b + path.names.length) s)
    (fun _ => Known e n c (b + path.names.length)) := by
  refine Triple.bind ((ensureRoot_tracked hroot hp hdist).consequence (fun _ h => h) (fun _ _ h => h)
    fun _ _ h => h.known (by omega)) fun _ => ?_
  exact ensureDirFrom_tracked hroot hp hdist path.names .root d b (used_root hdist)

/-- A file under a fresh key. -/
theorem newFile_tracked {parent : AKey} {name : Str} {blob : Bytes} (hparent : Used e n d parent) :
    Triple e n (Tracked e n c d [] b) (do
      let fresh ← generate
      linkChild parent name fresh
      putEntry fresh (.file blob)) (fun _ => Known e n c (b + 1)) (fun _ => Known e n c (b + 1)) := by
  refine generate_tracked hdist fun f hfroot hfkey _ hne hused => ?_
  have hapart : parent ∉ [f] := fun hmem => hne _ hparent (List.mem_singleton.1 hmem)
  refine Triple.bind (R := fun _ => Tracked e n c (d + 1) [f] (b + 1)) ?_ fun _ => ?_
  · exact (linkChild_tracked hp (hparent.mono (by omega)) hapart ⟨hfroot, hused⟩).consequence (fun _ h => h)
      (fun _ _ h => h) fun _ _ h => h.known le_rfl
  · exact (putEntry_tracked hroot (List.not_mem_nil) hfkey).post fun _ _ h => h.known le_rfl

theorem storeBlobInto_tracked (path : APath) (blob : Bytes) : Triple e n (Known e n c b) (storeBlobInto path blob)
    (fun _ => Known e n c (b + path.names.length)) (fun _ => Known e n c (b + path.names.length)) := by
  apply Triple.of_states
  rintro s ⟨d, h⟩
  unfold storeBlobInto
  refine Triple.inspect_at (fun _ _ => h.known (by omega)) ?_
  rintro ⟨pp, name⟩ hsplit
  have hlen : path.names.length = pp.names.length + 1 := by
    rw [splitLastOrPanic_eq hsplit, List.length_append, List.length_singleton]
  refine Triple.bind ((ensureDir_tracked hroot hp hdist pp d b).consequence (fun _ hs => hs ▸ h) (fun _ _ h => h)
    fun _ _ h => h.mono (by omega)) fun parent => ?_
  apply Triple.of_states
  rintro s ⟨d₁, -, hparent, h₁⟩
  have hnew : ∀ {s' : TxState}, Tracked e n c d₁ [] (b + pp.names.length) s' → Triple e n (· = s') (do
      let fresh ← generate
      linkChild parent name fresh
      putEntry fresh (.file blob)) (fun _ => Known e n c (b + path.names.length))
      (fun _ => Known e n c (b + path.names.length)) := by
    intro s' h'
    exact (newFile_tracked hroot hp hdist hparent).consequence (fun _ hs => hs ▸ h') (fun _ _ h => h.mono (by omega))
      fun _ _ h => h.mono (by omega)
  refine Triple.inspect_at (fun _ _ => h₁.known (by omega)) fun _ _ => ?_
  refine Triple.inspect_at (fun _ _ => h₁.known (by omega)) fun found hfound => ?_
  cases found with
  | none => exact Triple.inspect_at (fun _ _ => h₁.known (by omega)) fun _ _ => hnew h₁
  | some node =>
    refine Triple.inspect_at (fun _ _ => h₁.known (by omega)) fun kind hkind => ?_
    split
    · rename_i hfile
      refine Triple.inspect_at (fun _ _ => h₁.known (by omega)) fun _ _ => ?_
      refine (overwrite_tracked (d := d₁) (A := []) (b := b + pp.names.length) (k := node)).consequence ?_
        (fun _ _ h => Tracked.known h (by omega)) fun _ _ h => h
      rintro _ rfl
      refine ⟨h₁, ?_⟩
      obtain ⟨v, hv⟩ := h₁
      rw [hv.sees.kind, hfile] at hkind
      obtain ⟨entry, hentry, hentrykind⟩ := Option.map_eq_some_iff.1 (Except.ok.inj hkind)
      rw [hv.sees.shows, hentry]
      cases entry with
      | leaf o => exact ⟨o, rfl⟩
      | branch m => cases hentrykind
    · refine Triple.inspect_at (fun _ _ => h₁.known (by omega)) fun _ _ => ?_
      refine Triple.inspect_at (fun _ _ => h₁.known (by omega)) fun _ _ => ?_
      refine Triple.bind (R := fun _ => Tracked e n c d₁ [] (b + pp.names.length)) ?_ fun _ => ?_
      · exact cascadeDelete_tracked.consequence (fun _ hs => hs ▸ h₁) (fun _ _ h => h) fun _ _ h => h.known (by omega)
      · apply Triple.of_states
        intro s' h'
        exact hnew h'

omit hroot in
theorem rmInto_tracked (path : APath) : Triple e n (Known e n c b) (rmInto path) (fun _ => Known e n c (b + 1))
    (fun _ => Known e n c (b + 1)) := by
  apply Triple.of_states
  rintro s ⟨d, h⟩
  unfold rmInto
  refine Triple.inspect_at (fun _ _ => h.known (by omega)) ?_
  rintro ⟨pp, name⟩ _
  refine Triple.inspect_at (fun _ _ => h.known (by omega)) fun parent hparent => ?_
  cases parent with
  | none => exact Triple.pure fun _ hs => hs ▸ h.known (by omega)
  | some parent =>
    refine Triple.inspect_at (fun _ _ => h.known (by omega)) fun _ _ => ?_
    refine Triple.inspect_at (fun _ _ => h.known (by omega)) fun found _ => ?_
    cases found with
    | none => exact Triple.pure fun _ hs => hs ▸ h.known (by omega)
    | some akey =>
      refine Triple.inspect_at (fun _ _ => h.known (by omega)) fun _ _ => ?_
      refine Triple.bind (R := fun _ => Tracked e n c d [] b) ?_ fun _ => ?_
      · exact cascadeDelete_tracked.consequence (fun _ hs => hs ▸ h) (fun _ _ h => h) fun _ _ h => h.known (by omega)
      · refine Triple.bind (R := fun _ => Tracked e n c d [] (b + 1)) ?_ fun _ => Triple.pure fun _ h => h.known le_rfl
        exact (unlinkChild_tracked hp (h.resolve_used hp hdist hparent) (List.not_mem_nil)).consequence (fun _ h => h)
          (fun _ _ h => h) fun _ _ h => h.known le_rfl

omit hroot hp hdist in
theorem clearSlot_tracked {parent : AKey} {name : Str} : Triple e n (Tracked e n c d [] b) (clearSlot parent name)
    (fun _ => Tracked e n c d [] b) (fun _ => Tracked e n c d [] b) := by
  unfold clearSlot
  refine Triple.guard (fun _ _ h => h) fun found => ?_
  cases found with
  | none => exact Triple.pure fun _ h => h
  | some existing => exact Triple.guard (fun _ _ h => h) fun _ => cascadeDelete_tracked

theorem mvInto_tracked (src dst : APath) : Triple e n (Known e n c b) (mvInto src dst)
    (fun _ => Known e n c (b + (dst.names.length + 1))) (fun _ => Known e n c (b + (dst.names.length + 1))) := by
  apply Triple.of_states
  rintro s ⟨d, h⟩
  unfold mvInto
  refine Triple.inspect_at (fun _ _ => h.known (by omega)) ?_
  rintro ⟨sp, srcName⟩ _
  refine Triple.inspect_at (fun _ _ => h.known (by omega)) ?_
  rintro ⟨dp, dstName⟩ hdst
  have hlen : dst.names.length = dp.names.length + 1 := by
    rw [splitLastOrPanic_eq hdst, List.length_append, List.length_singleton]
  refine Triple.inspect_at (fun _ _ => h.known (by omega)) fun parent hparent => ?_
  cases parent with
  | none => exact Triple.fail fun _ hs => hs ▸ h.known (by omega)
  | some parent =>
    refine Triple.inspect_at (fun _ _ => h.known (by omega)) fun _ _ => ?_
    refine Triple.inspect_at (fun _ _ => h.known (by omega)) fun found hfound => ?_
    cases found with
    | none => exact Triple.fail fun _ hs => hs ▸ h.known (by omega)
    | some akey =>
      obtain ⟨haroot, haused⟩ := h.child_used hfound
      refine Triple.inspect_at (fun _ _ => h.known (by omega)) fun _ _ => ?_
      refine Triple.bind ((ensureDir_tracked hroot hp hdist dp d b).consequence (fun _ hs => hs ▸ h) (fun _ _ h => h)
        fun _ _ h => h.mono (by omega)) fun dstParent => ?_
      apply Triple.of_states
      rintro s ⟨d₁, hd₁, hdused, h₁⟩
      refine Triple.inspect_at (fun _ _ => h₁.known (by omega)) fun _ _ => ?_
      refine Triple.bind (R := fun _ => Tracked e n c d₁ [] (b + dp.names.length)) ?_ fun _ => ?_
      · exact clearSlot_tracked.consequence (fun _ hs => hs ▸ h₁) (fun _ _ h => h) fun _ _ h => h.known (by omega)
      refine Triple.bind (R := fun _ => Tracked e n c d₁ [] (b + dp.names.length + 1)) ?_ fun _ => ?_
      · exact (linkChild_tracked hp hdused (List.not_mem_nil) ⟨haroot, haused.mono hd₁⟩).consequence (fun _ h => h)
          (fun _ _ h => h) fun _ _ h => h.known (by omega)
      · have hsrc : Used e n d₁ parent := (h.resolve_used hp hdist hparent).mono hd₁
        exact (unlinkChild_tracked hp hsrc (List.not_mem_nil)).consequence (fun _ h => h)
          (fun _ _ h => h.known (by omega)) fun _ _ h => h.known (by omega)

theorem cpInto_tracked (src dst : APath) : Triple e n (Known e n c b) (cpInto src dst)
    (fun _ => Known e n c (b + dst.names.length)) (fun _ => Known e n c (b + dst.names.length)) := by
  apply Triple.of_states
  rintro s ⟨d, h⟩
  unfold cpInto
  refine Triple.inspect_at (fun _ _ => h.known (by omega)) ?_
  rintro ⟨dp, dstName⟩ hdst
  have hlen : dst.names.length = dp.names.length + 1 := by
    rw [splitLastOrPanic_eq hdst, List.length_append, List.length_singleton]
  refine Triple.inspect_at (fun _ _ => h.known (by omega)) fun found _ => ?_
  cases found with
  | none => exact Triple.fail fun _ hs => hs ▸ h.known (by omega)
  | some akey =>
    refine Triple.bind ((ensureDir_tracked hroot hp hdist dp d b).consequence (fun _ hs => hs ▸ h) (fun _ _ h => h)
      fun _ _ h => h.mono (by omega)) fun dstParent => ?_
    apply Triple.of_states
    rintro s ⟨d₁, -, hdused, h₁⟩
    refine Triple.inspect_at (fun _ _ => h₁.known (by omega)) fun _ _ => ?_
    refine Triple.bind (R := fun _ => Tracked e n c d₁ [] (b + dp.names.length)) ?_ fun _ => ?_
    · exact clearSlot_tracked.consequence (fun _ hs => hs ▸ h₁) (fun _ _ h => h) fun _ _ h => h.known (by omega)
    refine Triple.bind (R := fun j s => ∃ d', d₁ ≤ d' ∧ j ≠ .root ∧ Used e n d' j ∧
      Tracked e n c d' [] (b + dp.names.length) s) ?_ fun copy => ?_
    · refine Triple.guard (fun _ _ h => h.known (by omega)) fun size => ?_
      exact (deepCopy_tracked hroot hp hdist (size + 1) akey d₁ []).consequence (fun _ h => h) (fun _ _ h => h)
        fun _ _ h => h.mono (by omega)
    · apply Triple.of_states
      rintro s ⟨d₂, hd₂, hjroot, hjused, h₂⟩
      exact (linkChild_tracked hp (hdused.mono hd₂) (List.not_mem_nil) ⟨hjroot, hjused⟩).consequence
        (fun _ hs => hs ▸ h₂) (fun _ _ h => h.known (by omega)) fun _ _ h => h.known (by omega)

/-! ## Calls -/

omit hroot hp hdist in
theorem Known.unindexed : Unindexed (Known e n c b) := by
  rintro s index ⟨d, v, h⟩
  exact ⟨d, v, h.sees.setIndex index, h.anchored, h.absent, h.used, h.count⟩

omit hroot hp hdist in
theorem flushAndDisable_tracked {E : AdbError → TxState → Prop} :
    Triple e n (Known e n c b) flushAndDisable (fun _ => Known e n c b) E := by
  apply Triple.of_states
  rintro s ⟨d, v, h⟩
  refine (flushAndDisable_spec h.sees).consequence (fun _ hs => hs) ?_ fun _ _ hfalse => hfalse.elim
  rintro _ s' ⟨hs', -⟩
  exact ⟨d, v, h.write hs'.sees .inl h.absent hs'.epoch id⟩

section Calls

variable [Externals]

omit hroot hp hdist in
theorem reindexAround_tracked {indexes : List IndexEntry} {scopes : List APath} {α : Type} {apply : TxM α} {b' : Nat}
    (hb : b ≤ b')
    (happly : Triple e n (Known e n c b) apply (fun _ => Known e n c b') (fun _ => Known e n c b')) :
    Triple e n (Known e n c b) (reindexAround indexes scopes apply) (fun _ => Known e n c b')
      (fun _ => Known e n c b') := by
  unfold reindexAround
  split
  · exact happly
  · refine Triple.bind flushAndDisable_tracked fun _ => ?_
    refine Triple.bind (R := fun _ => Known e n c b) ?_ fun _ => ?_
    · refine Triple.forEach_keeps fun scope _ => ?_
      exact (deleteEntries_keeps Known.unindexed).consequence (fun _ h => h) (fun _ _ h => h) fun _ _ h => h.mono hb
    refine Triple.bind happly fun a => ?_
    refine Triple.bind (R := fun _ => Known e n c b') ?_ fun _ => Triple.pure fun _ h => h
    exact Triple.forEach_keeps fun scope _ => insertEntries_keeps Known.unindexed

theorem putScalarInto_tracked (path : APath) (hint : Option (AKey × UInt64)) (vpath : VPath) (scalar : Scalar) :
    Triple e n (Known e n c b) (putScalarInto path hint vpath scalar) (fun _ => Known e n c (b + path.names.length))
      (fun _ => Known e n c (b + path.names.length)) := by
  unfold putScalarInto
  refine Triple.inspect (fun _ _ h _ => h.mono (by omega)) fun target => ?_
  cases target with
  | none => exact (storeBlobInto_tracked hroot hp hdist path _).pre fun _ h => h.1
  | some target =>
    obtain ⟨akey, entry⟩ := target
    refine Triple.guard (fun _ _ h => h.1.mono (by omega)) fun _ => ?_
    have hfail : ∀ s, Known e n c b s ∧ resolveTarget e s path hint = .ok (some (akey, entry)) →
        Known e n c (b + path.names.length) s := fun s h => h.1.mono (by omega)
    cases entry with
    | branch m =>
      refine Triple.inspect_known none (fun _ _ => rfl) ?_
      exact Triple.inspect (fun _ s h _ => hfail s h) fun _ => Triple.of_pre (fun _ h => h.2) nofun
    | leaf o =>
      -- What is read is a file, so that its a-node is one.
      have hput : ∀ blob, Triple e n
          (fun s => Known e n c b s ∧ resolveTarget e s path hint = .ok (some (akey, .file o)))
          (putFileEdit akey blob) (fun _ => Known e n c (b + path.names.length))
          (fun _ => Known e n c (b + path.names.length)) := by
        intro blob
        apply Triple.of_states
        rintro s ⟨⟨d, h⟩, htarget⟩
        refine (putFileEdit_tracked (d := d) (A := []) (b := b) (k := akey)).consequence ?_
          (fun _ _ h => Tracked.known h (by omega)) fun _ _ h => h
        rintro _ rfl
        refine ⟨h, o, ?_⟩
        obtain ⟨v, hv⟩ := h
        rw [hv.sees.shows, hv.sees.readVerified_file (resolveTarget_cases htarget).1]
      refine Triple.guard (fun _ => hfail) fun patched => ?_
      cases patched with
      | some blob => exact hput blob
      | none => exact Triple.guard (fun _ => hfail) fun blob => hput blob

/-- How many links a call can make or remove. -/
def Call.changes : Call → Nat
  | .store path _ | .storeValue path _ | .putScalar path _ _ _ | .mkdir path => path.names.length
  | .rm _ => 1
  | .mv _ dst => dst.names.length + 1
  | .cp _ dst => dst.names.length

/-- **Whatever a call does, and whether it fails or not, a hint can be told by the count.** -/
theorem call_tracked (indexes : List IndexEntry) (call : Call) :
    Triple e n (Known e n c b) (call.prog indexes) (fun _ => Known e n c (b + call.changes))
      (fun _ => Known e n c (b + call.changes)) := by
  have hfail : ∀ {α : Type} {err : AdbError}, Triple e n (Known e n c b) (Prog.fail err : TxM α)
      (fun _ => Known e n c (b + call.changes)) (fun _ => Known e n c (b + call.changes)) :=
    Triple.fail fun _ h => h.mono (by omega)
  cases call with
  | store path blob =>
    change Triple _ _ _ (storeBlobAt indexes path blob) _ _
    unfold storeBlobAt
    split
    · exact hfail
    · exact reindexAround_tracked (by omega) (storeBlobInto_tracked hroot hp hdist path blob)
  | storeValue path value =>
    change Triple _ _ _ (storeValueAt indexes path value) _ _
    unfold storeValueAt
    split
    · exact hfail
    · exact reindexAround_tracked (by omega) (storeBlobInto_tracked hroot hp hdist path _)
  | putScalar path hint vpath scalar =>
    exact reindexAround_tracked (by omega) (putScalarInto_tracked hroot hp hdist path hint vpath scalar)
  | mkdir path =>
    refine Triple.bind (R := fun _ => Known e n c (b + path.names.length)) ?_ fun _ => Triple.pure fun _ h => h
    apply Triple.of_states
    rintro s ⟨d, h⟩
    refine (ensureDir_tracked hroot hp hdist path d b).consequence (fun _ hs => hs ▸ h) ?_ fun _ _ h => h
    rintro _ s' ⟨d', -, -, h'⟩
    exact h'.known le_rfl
  | rm path =>
    refine Triple.bind (R := fun _ => Known e n c (b + 1)) ?_ fun _ => Triple.pure fun _ h => h
    unfold rm
    split
    · exact hfail
    · exact reindexAround_tracked (by omega) (rmInto_tracked hp hdist path)
  | mv src dst =>
    change Triple _ _ _ (mv indexes src dst) _ _
    unfold mv
    split_ifs
    · exact hfail
    · exact hfail
    · exact hfail
    · exact reindexAround_tracked (by omega) (mvInto_tracked hroot hp hdist src dst)
  | cp src dst =>
    change Triple _ _ _ (cp indexes src dst) _ _
    unfold cp
    split_ifs
    · exact hfail
    · exact hfail
    · exact reindexAround_tracked (by omega) (cpInto_tracked hroot hp hdist src dst)

end Calls

end Programs

end ArborDb
