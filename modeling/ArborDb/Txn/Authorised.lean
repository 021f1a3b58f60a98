import ArborDb.Txn.Run
import ArborDb.Txn.Tamper
import ArborDb.Txn.Walk

/-!
# Every call of a run is authorised

What a call changes, and which directories it passes, the lists in place before the call allow. The
exception is a call that deletes a directory and then edits it: the directory comes back with the
list of a new one.
-/

namespace ArborDb

open Prog (Triple Maintains)

/-! ## Calls -/

def APath.parent (path : APath) : APath := ⟨path.names.dropLast⟩

theorem APath.splitLast_parent {path parentPath : APath} {name : Str}
    (h : path.splitLast = some (parentPath, name)) : parentPath = path.parent := by
  have hnames := APath.splitLast_eq_some h
  unfold APath.parent
  rw [hnames, List.dropLast_concat]

section Calls

variable [Externals] {e : Env} {n : Nat} {s : TxState}

/-- No directory that the call edits lies in the subtree that it deletes. -/
def Call.Spares (s : TxState) : Call → Prop
  | .store path _ | .storeValue path _ | .putScalar path _ _ _ | .rm path =>
    Underway.Clear s path path.parent
  | .mkdir _ => True
  | .mv src dst => Underway.Clear s dst dst.parent ∧ Underway.Clear s dst src.parent
  | .cp _ dst => Underway.Clear s dst dst.parent

/-- The paths that a call walks. -/
def Call.paths : Call → List APath
  | .store path _ | .storeValue path _ | .putScalar path _ _ _ | .mkdir path | .rm path => [path]
  | .mv src dst | .cp src dst => [src, dst]

namespace Underway

variable (huser : ∃ session, e.principal = .user session) (hdist : Distinct e n)
  (hfresh : ∀ i, s.drawn ≤ i → i < n → s.entryAt (e.gen i) = none)
include huser hdist hfresh

theorem storeAt (h : Underway e n s s) {path : APath} (hclear : Clear s path path.parent)
    (indexes : List IndexEntry) (blob : Bytes) :
    Triple e n (· = s) (storeBlobAt indexes path blob) (fun _ => Underway e n s)
      (fun _ => Underway e n s) := by
  unfold storeBlobAt
  split
  · exact Triple.fail fun _ ht => ht ▸ h
  · rename_i hroot
    apply reindexAround h
    intro t₁ ht₁ hsame
    obtain ⟨split, hsplit⟩ := Option.ne_none_iff_exists'.1 (fun hnone => hroot (APath.splitLast_eq_none.1 hnone))
    rw [← APath.splitLast_parent hsplit] at hclear
    exact storeBlobInto huser hdist hfresh ht₁ hsame hsplit hclear blob

/-- **Every call is authorised while it runs.** -/
theorem call (h : Underway e n s s) {c : Call} (hspares : c.Spares s) (indexes : List IndexEntry) :
    Triple e n (· = s) (c.prog indexes) (fun _ => Underway e n s) (fun _ => Underway e n s) := by
  cases c with
  | store path blob => exact storeAt huser hdist hfresh h hspares indexes blob
  | storeValue path value => exact storeAt huser hdist hfresh h hspares indexes (Codec.encode value)
  | putScalar path hint vpath scalar =>
    apply reindexAround h
    intro t₁ ht₁ hsame
    apply putScalarInto huser hdist hfresh ht₁ hsame
    intro parentPath name hsplit
    rw [APath.splitLast_parent hsplit]
    exact hspares
  | mkdir path =>
    apply Triple.bind ((ensureDir huser hdist hfresh h (fun _ => rfl) path).post fun _ _ ht => ht.1)
    intro _
    exact Triple.pure fun _ ht => ht
  | rm path =>
    refine Triple.bind (R := fun _ => Underway e n s) ?_ fun _ => Triple.pure fun _ ht => ht
    unfold ArborDb.rm
    split
    · exact Triple.fail fun _ ht => ht ▸ h
    · rename_i hroot
      apply reindexAround h
      intro t₁ ht₁ hsame
      obtain ⟨split, hsplit⟩ := Option.ne_none_iff_exists'.1
        (fun hnone => hroot (APath.splitLast_eq_none.1 hnone))
      apply rmInto huser ht₁ hsame hsplit
      rw [APath.splitLast_parent hsplit]
      exact hspares
  | mv src dst =>
    change Triple e n _ (ArborDb.mv indexes src dst) _ _
    unfold ArborDb.mv
    split_ifs with _ hsrcRoot hdstRoot
    · exact Triple.fail fun _ ht => ht ▸ h
    · exact Triple.fail fun _ ht => ht ▸ h
    · exact Triple.fail fun _ ht => ht ▸ h
    · apply reindexAround h
      intro t₁ ht₁ hsame
      obtain ⟨srcSplit, hsrc⟩ := Option.ne_none_iff_exists'.1
        (fun hnone => hsrcRoot (APath.splitLast_eq_none.1 hnone))
      obtain ⟨dstSplit, hdst⟩ := Option.ne_none_iff_exists'.1
        (fun hnone => hdstRoot (APath.splitLast_eq_none.1 hnone))
      apply mvInto huser hdist hfresh ht₁ hsame hsrc hdst
      · rw [APath.splitLast_parent hdst]
        exact hspares.1
      · rw [APath.splitLast_parent hsrc]
        exact hspares.2
  | cp src dst =>
    change Triple e n _ (ArborDb.cp indexes src dst) _ _
    unfold ArborDb.cp
    split_ifs with _ hdstRoot
    · exact Triple.fail fun _ ht => ht ▸ h
    · exact Triple.fail fun _ ht => ht ▸ h
    · apply reindexAround h
      intro t₁ ht₁ hsame
      obtain ⟨dstSplit, hdst⟩ := Option.ne_none_iff_exists'.1
        (fun hnone => hdstRoot (APath.splitLast_eq_none.1 hnone))
      apply cpInto huser hdist hfresh ht₁ hsame hdst
      rw [APath.splitLast_parent hdst]
      exact hspares

/-- A call that changes an a-node has walked its paths. -/
theorem call_walks (h : Underway e n s s) (c : Call) (indexes : List IndexEntry) :
    Triple e n (· = s) (c.prog indexes) (fun _ _ => ∀ path ∈ c.paths, Walked e s .root path.names)
      (fun _ t => SameEntries s t ∨ ∀ path ∈ c.paths, Walked e s .root path.names) := by
  have hsame : ∀ t, t = s → SameEntries s t := fun t ht j => by rw [ht]
  have hone : ∀ {path : APath} {α : Type} {m : TxM α},
      Triple e n (· = s) m (fun _ _ => Walked e s .root path.names)
        (fun _ t => SameEntries s t ∨ Walked e s .root path.names) →
      Triple e n (· = s) m (fun _ _ => ∀ p ∈ [path], Walked e s .root p.names)
        (fun _ t => SameEntries s t ∨ ∀ p ∈ [path], Walked e s .root p.names) := by
    intro path α m hm
    exact hm.consequence (fun _ ht => ht) (fun _ _ hw => List.forall_mem_singleton.2 hw)
      fun _ _ hw => hw.imp_right List.forall_mem_singleton.2
  have htwo : ∀ {src dst : APath} {m : TxM Unit},
      Triple e n (· = s) m (fun _ _ => Walked e s .root src.names ∧ Walked e s .root dst.names)
        (fun _ t => SameEntries s t ∨ Walked e s .root src.names ∧ Walked e s .root dst.names) →
      Triple e n (· = s) m (fun _ _ => ∀ p ∈ [src, dst], Walked e s .root p.names)
        (fun _ t => SameEntries s t ∨ ∀ p ∈ [src, dst], Walked e s .root p.names) := by
    intro src dst m hm
    have hboth : Walked e s .root src.names ∧ Walked e s .root dst.names →
        ∀ p ∈ [src, dst], Walked e s .root p.names := fun hw =>
      List.forall_mem_cons.2 ⟨hw.1, List.forall_mem_singleton.2 hw.2⟩
    exact hm.consequence (fun _ ht => ht) (fun _ _ hw => hboth hw) fun _ _ hw => hw.imp_right hboth
  have hstore : ∀ path blob, Triple e n (· = s) (storeBlobAt indexes path blob)
      (fun _ _ => Walked e s .root path.names)
      (fun _ t => SameEntries s t ∨ Walked e s .root path.names) := by
    intro path blob
    unfold storeBlobAt
    split
    · exact Triple.fail fun t ht => .inl (hsame t ht)
    · apply reindexAround_walks h id
      exact fun t₁ ht₁ hsame => storeBlobInto_walks huser hdist hfresh ht₁ hsame path blob
  cases c with
  | store path blob => exact hone (hstore path blob)
  | storeValue path value => exact hone (hstore path (Codec.encode value))
  | putScalar path hint vpath scalar =>
    apply hone
    apply reindexAround_walks h id
    exact fun t₁ ht₁ hsame => putScalarInto_walks huser hdist hfresh ht₁ hsame path hint vpath scalar
  | mkdir path =>
    apply hone
    refine Triple.bind (R := fun _ _ => Walked e s .root path.names) ?_ fun _ => Triple.pure fun _ hw => hw
    apply (ensureDir_walks h (fun _ => rfl) path).consequence (fun _ ht => ht)
    · exact fun _ _ hw => hw.elim (fun hreached => hreached.walked) fun hno => hno.walked
    · exact fun _ _ hw => hw.imp_right fun hno => hno.walked
  | rm path =>
    apply hone
    refine Triple.bind (R := fun _ _ => Walked e s .root path.names) ?_ fun _ => Triple.pure fun _ hw => hw
    unfold ArborDb.rm
    split
    · exact Triple.fail fun t ht => .inl (hsame t ht)
    · apply reindexAround_walks h id
      exact fun t₁ ht₁ hsame => rmInto_walks ht₁ hsame path
  | mv src dst =>
    apply htwo
    change Triple e n _ (ArborDb.mv indexes src dst) _ _
    unfold ArborDb.mv
    split_ifs
    · exact Triple.fail fun t ht => .inl (hsame t ht)
    · exact Triple.fail fun t ht => .inl (hsame t ht)
    · exact Triple.fail fun t ht => .inl (hsame t ht)
    · apply reindexAround_walks h id
      exact fun t₁ ht₁ hsame => mvInto_walks huser hdist hfresh ht₁ hsame src dst
  | cp src dst =>
    apply htwo
    change Triple e n _ (ArborDb.cp indexes src dst) _ _
    unfold ArborDb.cp
    split_ifs
    · exact Triple.fail fun t ht => .inl (hsame t ht)
    · exact Triple.fail fun t ht => .inl (hsame t ht)
    · apply reindexAround_walks h id
      exact fun t₁ ht₁ hsame => cpInto_walks huser hdist hfresh ht₁ hsame src dst

theorem cp_copies (h : Underway e n s s) (src dst : APath) (indexes : List IndexEntry) :
    Triple e n (· = s) (ArborDb.cp indexes src dst)
      (fun _ _ => ∀ names k, s.follow .root (src.names ++ names) = some k → s.entryAt k ≠ none →
        Granted e s k .access) (fun _ t => SameEntries s t ∨ True) := by
  unfold ArborDb.cp
  split_ifs with _ hdstRoot
  · exact Triple.fail fun _ _ => .inr trivial
  · exact Triple.fail fun _ _ => .inr trivial
  · apply reindexAround_walks h fun _ => trivial
    intro t₁ ht₁ hsame
    obtain ⟨dstSplit, hdst⟩ := Option.ne_none_iff_exists'.1
      (fun hnone => hdstRoot (APath.splitLast_eq_none.1 hnone))
    exact (cpInto_copies huser hdist hfresh ht₁ hsame hdst).consequence (fun _ ht => ht)
      (fun _ _ hcopied => hcopied) fun _ _ _ => .inr trivial

end Underway

end Calls

/-! ## Lists -/

section Lists

variable {e : Env} {n : Nat} {s : TxState} {k : AKey}

/-- The list before a change allows the list after it. Nobody but the administrators may give away an
a-node of someone else's. -/
structure ListAllowed (e : Env) (s : TxState) (k : AKey) (old new : Acl) : Prop where
  rights : new.owner ≠ old.owner ∨ new.group ≠ old.group ∨ new.other ≠ old.other →
    Granted e s k .modify
  owner : new.ownerUid ≠ old.ownerUid → ∀ session, e.principal = .user session →
    session.isMaster = false → session.inMasterGroup = false → old.ownerUid = session.uid

theorem readAcl_reseal (j : AKey) : (e.reseal s k).readAcl j = s.inodes.readAcl j := by
  by_cases hjk : j = k
  · subst hjk
    unfold Env.reseal
    split
    · split
      · rfl
      · simp only [InodeTable.readAcl, InodeTable.sealSig, InodeTable.sealMac, InodeTable.load,
          SortedMap.get_insert_self]
        cases s.inodes.get j <;> rfl
    · rfl
  · unfold InodeTable.readAcl
    rw [reseal_get_ne hjk]

theorem readAcl_relist (acl : Acl) (j : AKey) : (s.relist e k acl).inodes.readAcl j =
    if j = k then some acl else s.inodes.readAcl j := by
  refine (readAcl_reseal j).trans ?_
  change (s.inodes.setAcl k acl).readAcl j = _
  unfold InodeTable.readAcl InodeTable.setAcl
  split
  · rename_i hjk
    rw [hjk, SortedMap.get_insert_self]
    rfl
  · rename_i hjk
    rw [SortedMap.get_insert_ne _ _ hjk]

/-- A change of the list of the a-node at a path. -/
structure Relisted (e : Env) (s : TxState) (path : APath) (t : TxState) : Prop where
  same : SameEntries s t
  tidy : Tidy s → Tidy t
  drawn : t.drawn = s.drawn
  walked : Walked e s .root path.names
  lists : ∀ k, t.inodes.readAcl k = s.inodes.readAcl k ∨ ∃ old new, s.inodes.readAcl k = some old ∧
    t.inodes.readAcl k = some new ∧ ListAllowed e s k old new

theorem setList_relisted (path : APath) (check : AKey × Acl → Env → TxState → AdbResult Unit)
    (apply : Acl → Acl)
    (hcheck : ∀ k acl, s.inodes.readAcl k = some acl → check (k, acl) e s = .ok () →
      ListAllowed e s k acl (apply acl)) :
    Triple e n (· = s) (do
      let target ← inspect (aclTarget · · path)
      inspect (check target)
      writeAcl target.1 (apply target.2)
      resealIntegrity target.1) (fun _ => Relisted e s path) (fun _ => (· = s)) := by
  refine Triple.inspect_at (fun _ _ => rfl) fun target htarget => ?_
  refine Triple.inspect_at (fun _ _ => rfl) fun _ hchecked => ?_
  obtain ⟨akey, acl⟩ := target
  unfold aclTarget at htarget
  obtain ⟨found, hfound, htarget⟩ := Except.bind_eq_ok.1 htarget
  cases found with
  | none => cases htarget
  | some a =>
    simp only at htarget
    split at htarget
    · cases htarget
    · obtain ⟨_, _, htarget⟩ := Except.bind_eq_ok.1 htarget
      split at htarget
      · cases htarget
      · rename_i acl' hacl
        cases htarget
        intro t ht _
        subst ht
        have hlists := readAcl_relist (e := e) (s := t) (k := akey) (apply acl)
        change Relisted e t path (t.relist e akey (apply acl))
        refine ⟨fun _ => rfl, fun htidy => ⟨?_, ?_⟩, rfl, walked_of_resolve hfound, ?_⟩
        · exact ⟨htidy.coherent.file, htidy.coherent.dir, htidy.coherent.off⟩
        · intro j hroot hj
          rw [hlists]
          split
          · exact Option.some_ne_none _
          · exact htidy.listed j hroot hj
        · intro j
          rw [hlists]
          split
          · rename_i hjk
            subst hjk
            exact .inr ⟨acl, apply acl, hacl, rfl, hcheck j acl hacl hchecked⟩
          · exact .inl rfl

/-- A checked change of the grades or the groups. -/
theorem setAclInto_relisted (path : APath) (apply : Acl → Acl)
    (huid : ∀ acl, (apply acl).ownerUid = acl.ownerUid) :
    Triple e n (· = s) (setAclInto path apply) (fun _ => Relisted e s path) (fun _ => (· = s)) := by
  apply setList_relisted path
    (fun target e _ => authorize e.principal target.1 (some target.2) .modify)
  intro k acl hacl hcheck
  refine ⟨fun _ => ?_, fun hne => absurd (huid acl) hne⟩
  unfold Granted check
  rwa [hacl]

theorem chownInto_relisted (path : APath) (uid : Id32) :
    Triple e n (· = s) (chownInto path uid) (fun _ => Relisted e s path) (fun _ => (· = s)) := by
  apply setList_relisted path (fun target e _ => authorizeChown e.principal target.2)
    fun acl => acl.setOwnerUid uid
  intro k acl _ hcheck
  refine ⟨fun hne => absurd hne (by simp [Acl.setOwnerUid]), fun _ session hsession hm hg => ?_⟩
  unfold authorizeChown at hcheck
  simp only [hsession, hm, hg, Bool.false_or] at hcheck
  by_contra hne
  rw [if_neg (by simpa using Ne.symm hne)] at hcheck
  cases hcheck

end Lists

/-! ## Runs -/

section Runs

variable [Externals]

/-- The paths that an operation walks. -/
def Op.paths : Op → List APath
  | .call c => c.paths
  | .chown path _ | .setAcl path _ _ | .addGroup path _ | .delGroup path _ => [path]

/-- No directory that the operation edits lies in the subtree that it deletes. -/
def Op.Spares (s : TxState) : Op → Prop
  | .call c => c.Spares s
  | _ => True

/-- What an operation did, judged by the lists before it. -/
structure Authorised (e : Env) (s : TxState) (op : Op) (out : AdbResult Unit × TxState) : Prop where
  allowed : ∀ k, Allowed e s k (out.2.entryAt k)
  lists : ∀ k, s.entryAt k ≠ none → out.2.entryAt k ≠ none →
    out.2.inodes.readAcl k = s.inodes.readAcl k ∨ ∃ old new, s.inodes.readAcl k = some old ∧
      out.2.inodes.readAcl k = some new ∧ ListAllowed e s k old new
  walked : out.1 = .ok () ∨ ¬ SameEntries s out.2 → ∀ path ∈ op.paths, Walked e s .root path.names
  copied : out.1 = .ok () → ∀ src dst, op = .call (.cp src dst) → ∀ names k,
    s.follow .root (src.names ++ names) = some k → s.entryAt k ≠ none → Granted e s k .access

variable {e : Env} {n : Nat} {s : TxState}

/-- The operations on lists change one list, or fail and change nothing. -/
theorem setList_op (names : Names) (indexes : List IndexEntry) {op : Op} (hop : ∀ c, op ≠ .call c) :
    ∃ path, op.paths = [path] ∧
      Triple e n (· = s) (op.prog names indexes) (fun _ => Relisted e s path) (fun _ => (· = s)) := by
  cases op with
  | call c => exact absurd rfl (hop c)
  | chown path owner =>
    refine ⟨path, rfl, Triple.inspect_at (fun _ _ => rfl) fun uid _ => ?_⟩
    exact chownInto_relisted path uid
  | setAcl path cls rights =>
    refine ⟨path, rfl, ?_⟩
    cases cls with
    | user => exact setAclInto_relisted path (fun acl => acl.setOwnerRights rights) fun _ => rfl
    | other => exact setAclInto_relisted path (fun acl => acl.setOtherRights rights) fun _ => rfl
    | group name =>
      refine Triple.inspect_at (fun _ _ => rfl) fun gid _ => ?_
      exact setAclInto_relisted path (fun acl => acl.setGroupRights gid rights) fun _ => rfl
  | addGroup path group =>
    refine ⟨path, rfl, Triple.inspect_at (fun _ _ => rfl) fun gid _ => ?_⟩
    exact setAclInto_relisted path (fun acl => acl.addGroup gid) fun _ => rfl
  | delGroup path group =>
    refine ⟨path, rfl, Triple.inspect_at (fun _ _ => rfl) fun gid _ => ?_⟩
    exact setAclInto_relisted path (fun acl => acl.removeGroup gid) fun _ => rfl

theorem authorised_call (huser : ∃ session, e.principal = .user session) (hdist : Distinct e n)
    (hs : Tidy s) (hfresh : ∀ i, s.drawn ≤ i → i < n → s.entryAt (e.gen i) = none) {c : Call}
    (hspares : c.Spares s) (names : Names) (indexes : List IndexEntry)
    (hn : ((c.prog indexes).run e s).2.drawn ≤ n) :
    Authorised e s (.call c) (((Op.call c).prog names indexes).run e s) ∧
      Tidy (((Op.call c).prog names indexes).run e s).2 := by
  have hstart := Underway.start hs hfresh
  have hunder := (Underway.call huser hdist hfresh hstart hspares indexes).reached rfl hn
  have hwalks := Underway.call_walks huser hdist hfresh hstart c indexes
  refine ⟨⟨hunder.allowed, fun k hk hk' => .inl (hunder.acl k hk hk'), ?_, ?_⟩, hunder.tidy⟩
  · intro hchanged
    cases hout : ((c.prog indexes).run e s).1 with
    | ok _ => exact hwalks.returned rfl hn hout
    | error err =>
      refine (hwalks.failed rfl hn hout).resolve_left fun hsame => ?_
      rcases hchanged with hok | hchanged
      · cases hout.symm.trans hok
      · exact hchanged hsame
  · intro hok src dst hop
    cases hop
    exact (Underway.cp_copies huser hdist hfresh hstart src dst indexes).returned rfl hn hok

theorem authorised_op (huser : ∃ session, e.principal = .user session) (hdist : Distinct e n)
    (hs : Tidy s) (hfresh : ∀ i, s.drawn ≤ i → i < n → s.entryAt (e.gen i) = none) {op : Op}
    (hspares : op.Spares s) (names : Names) (indexes : List IndexEntry)
    (hn : ((op.prog names indexes).run e s).2.drawn ≤ n) :
    Authorised e s op ((op.prog names indexes).run e s) ∧
      Tidy ((op.prog names indexes).run e s).2 := by
  by_cases hcall : ∃ c, op = .call c
  · obtain ⟨c, rfl⟩ := hcall
    exact authorised_call huser hdist hs hfresh hspares names indexes hn
  · have hop : ∀ c, op ≠ .call c := fun c hc => hcall ⟨c, hc⟩
    obtain ⟨path, hpaths, hlist⟩ := setList_op (e := e) (n := n) (s := s) names indexes hop
    have hstart := Underway.start (n := n) hs hfresh
    cases hout : ((op.prog names indexes).run e s).1 with
    | ok _ =>
      have hrun := hlist.returned rfl hn hout
      refine ⟨⟨fun k => ?_, fun k _ _ => hrun.lists k, fun _ => ?_, fun _ src dst hcp => ?_⟩,
        hrun.tidy hs⟩
      · rw [hrun.same]
        exact hstart.allowed k
      · rw [hpaths]
        exact List.forall_mem_singleton.2 hrun.walked
      · exact absurd hcp (hop _)
    | error err =>
      have hrun := hlist.failed rfl hn hout
      rw [hrun]
      refine ⟨⟨fun k => ?_, fun _ _ _ => .inl ?_, fun hchanged => ?_, fun hok => ?_⟩, hs⟩
      · rw [hrun]
        exact hstart.allowed k
      · rw [hrun]
      · rw [hrun, hout] at hchanged
        rcases hchanged with hok | hchanged
        · cases hok
        · exact absurd (fun _ => rfl) hchanged
      · rw [hout] at hok
        cases hok

/-- Every a-node of the tables but the root has a list. -/
def Listed (s : TxState) : Prop := ∀ k, k ≠ .root → s.data.get k ≠ none → s.inodes.readAcl k ≠ none

/-- No operation of a run edits a directory that it deletes. -/
def Sparing (s₀ : TxState) (txns : List OpTxn) : Prop :=
  ∀ before txn after, txns = before ++ txn :: after →
    ∀ done step rest, txn.steps = done ++ step :: rest →
      step.op.Spares (txn.after (runOps s₀ before) done)

omit [Externals] in
theorem Listed.begin (h : Listed s) (buffering : Bool) : Tidy (s.begin buffering) := by
  refine ⟨⟨nofun, nofun, fun _ _ => ⟨rfl, rfl⟩⟩, fun k hroot hk => h k hroot ?_⟩
  exact hk

theorem Listed.run {txn : OpTxn} (h : Tidy (txn.after s txn.steps)) : Listed (txn.run s) := by
  have hstart : Underway txn.env 0 (txn.after s txn.steps) (txn.after s txn.steps) :=
    Underway.start h fun i _ hi => absurd hi (Nat.not_lt_zero i)
  have hflushed := (hstart.flushed (txn.after s txn.steps).buffer.buffering).tidy
  intro k hroot hk
  exact hflushed.listed k hroot fun hnone => hk (entryAt_none hnone).2.2

/-- A run that draws no key draws fresh ones. -/
theorem freshKeys_of_drawn {s₀ : TxState} {txns : List OpTxn}
    (h : (runOps s₀ txns).drawn ≤ s₀.drawn) : FreshKeys s₀ txns := by
  intro before txn after htxns done step rest hsteps i hi hn
  have hbefore : s₀.drawn ≤ (runOps s₀ before).drawn := foldl_drawn_le OpTxn.drawn_le before s₀
  have hdone : (runOps s₀ before).drawn ≤ (txn.after (runOps s₀ before) done).drawn :=
    foldl_drawn_le (OpStep.drawn_le txn.env txn.names) done ((runOps s₀ before).begin txn.buffering)
  have hrun := drawn_le_runOps s₀ htxns hsteps
  omega

section Run

variable {s₀ : TxState} {txns : List OpTxn}
  (huser : ∀ txn ∈ txns, ∃ session, txn.env.principal = .user session)
  (hdist : ∀ txn ∈ txns, Distinct txn.env (runOps s₀ txns).drawn) (hfresh : FreshKeys s₀ txns)
  (hsparing : Sparing s₀ txns)
include huser hdist hfresh hsparing

/-- One step of a run, from tidy tables. -/
theorem authorised_step {before after : List OpTxn} {txn : OpTxn} {done rest : List OpStep}
    {step : OpStep} (htxns : txns = before ++ txn :: after) (hsteps : txn.steps = done ++ step :: rest)
    (hs : Tidy (txn.after (runOps s₀ before) done)) :
    Authorised (txn.env.at step.now) (txn.after (runOps s₀ before) done) step.op
        (step.exec txn.env txn.names (txn.after (runOps s₀ before) done)) ∧
      Tidy (step.exec txn.env txn.names (txn.after (runOps s₀ before) done)).2 := by
  have hmem : txn ∈ txns := by simp [htxns]
  have hkeys : Distinct (txn.env.at step.now)
      (step.exec txn.env txn.names (txn.after (runOps s₀ before) done)).2.drawn := by
    have hle := drawn_le_runOps s₀ htxns hsteps
    intro i hi
    obtain ⟨hroot, hinj⟩ := hdist txn hmem i (hi.trans_le hle)
    exact ⟨hroot, fun j hj => hinj j (hj.trans_le hle)⟩
  exact authorised_op (e := txn.env.at step.now) (huser txn hmem) hkeys hs
    (hfresh before txn after htxns done step rest hsteps) (hsparing before txn after htxns done step rest
      hsteps) txn.names step.indexes (Nat.le_refl _)

theorem tidy_after {before after : List OpTxn} {txn : OpTxn} (htxns : txns = before ++ txn :: after)
    (hs : Listed (runOps s₀ before)) (done rest : List OpStep) (hsteps : txn.steps = done ++ rest) :
    Tidy (txn.after (runOps s₀ before) done) := by
  induction done using List.reverseRecOn generalizing rest with
  | nil => exact hs.begin txn.buffering
  | append_singleton done step ih =>
    rw [List.append_assoc, List.singleton_append] at hsteps
    rw [OpTxn.after_append]
    exact (authorised_step huser hdist hfresh hsparing htxns hsteps (ih (step :: rest) hsteps)).2

theorem listed_runOps (hs : Listed s₀) (before after : List OpTxn) (htxns : txns = before ++ after) :
    Listed (runOps s₀ before) := by
  induction before using List.reverseRecOn generalizing after with
  | nil => exact hs
  | append_singleton before txn ih =>
    rw [List.append_assoc, List.singleton_append] at htxns
    rw [runOps_append]
    apply Listed.run
    exact tidy_after huser hdist hfresh hsparing htxns (ih (txn :: after) htxns) txn.steps [] (by simp)

/-- **Every mutation is authorised.** In a run of authenticated users on tables whose a-nodes have
lists, in which no operation edits a directory that it deletes, every operation is allowed by the
lists just before it, whether it succeeds or fails. -/
theorem runOps_authorised (hs : Listed s₀) (before after : List OpTxn) (txn : OpTxn)
    (htxns : txns = before ++ txn :: after) (done rest : List OpStep) (step : OpStep)
    (hsteps : txn.steps = done ++ step :: rest) :
    Authorised (txn.env.at step.now) (txn.after (runOps s₀ before) done) step.op
      (step.exec txn.env txn.names (txn.after (runOps s₀ before) done)) := by
  have hlisted := listed_runOps huser hdist hfresh hsparing hs before (txn :: after) htxns
  have htidy := tidy_after huser hdist hfresh hsparing htxns hlisted done (step :: rest) hsteps
  exact (authorised_step huser hdist hfresh hsparing htxns hsteps htidy).1

end Run

end Runs

/-! ## A small run -/

section Small

/-- A user has stored a file in a directory, and lets everyone delete both. -/
def sharedDir : TxState :=
  letI := Reference.externals
  runOps .empty [⟨userEnv 5, ⟨fun _ => none, fun _ => none⟩, true,
    [⟨0, [], .call (.store (pathOf ["a", "b"]) [])⟩, ⟨0, [], .setAcl (pathOf ["a"]) .other .delete⟩,
      ⟨0, [], .setAcl (pathOf ["a", "b"]) .other .delete⟩]⟩]

/-- Another user moves the file to `dst`. -/
def moveShared (dst : List String) : @OpTxn Reference.externals :=
  letI := Reference.externals
  ⟨userEnv 6, ⟨fun _ => none, fun _ => none⟩, false,
    [⟨0, [], .call (.mv (pathOf ["a", "b"]) (pathOf dst))⟩]⟩

theorem listed_sharedDir : Listed sharedDir := by
  intro k hroot hk
  have hkeys : ∀ x ∈ sharedDir.data.entries, x.1 ≠ .root → sharedDir.inodes.readAcl x.1 ≠ none := by
    decide
  obtain ⟨c, hc⟩ := Option.ne_none_iff_exists'.1 hk
  exact hkeys (k, c) (SortedMap.get_iff_mem.1 hc) hroot

theorem sparing_moveShared : letI := Reference.externals
    Sparing sharedDir [moveShared ["c"]] := by
  let _ := Reference.externals
  intro before txn after htxns done step rest hsteps
  obtain ⟨rfl, rfl⟩ : before = [] ∧ txn = moveShared ["c"] := by
    cases before <;> simp_all
  obtain ⟨rfl, rfl⟩ : done = [] ∧ step = ⟨0, [], .call (.mv (pathOf ["a", "b"]) (pathOf ["c"]))⟩ := by
    cases done <;> simp_all [moveShared]
  -- Nothing is in the slot that the move fills.
  have hnothing : ∀ names, ((moveShared ["c"]).after sharedDir []).follow .root
      ((pathOf ["c"]).names ++ names) = none := by
    intro names
    rw [TxState.follow_append]
    rfl
  refine ⟨fun names p hp => ?_, fun names p hp => ?_⟩
  · cases (hnothing names).symm.trans hp
  · cases (hnothing names).symm.trans hp

/-- Moving the file away is authorised: everyone may delete it. -/
theorem runOps_authorised_move : letI := Reference.externals
    Granted (userEnv 6) ((moveShared ["c"]).after sharedDir []) (.ofNat 2) .delete := by
  let _ := Reference.externals
  have hauthorised := @runOps_authorised _ sharedDir [moveShared ["c"]]
    (fun txn htxn => by
      rw [List.mem_singleton.1 htxn]
      exact ⟨_, rfl⟩)
    (fun txn htxn => by
      rw [List.mem_singleton.1 htxn]
      unfold Distinct
      decide)
    (freshKeys_of_drawn (by decide)) sparing_moveShared listed_sharedDir [] [] (moveShared ["c"]) rfl []
    [] ⟨0, [], .call (.mv (pathOf ["a", "b"]) (pathOf ["c"]))⟩ rfl
  exact (hauthorised.allowed (.ofNat 1)).unlinked ⟨"b"⟩ (.ofNat 2) (by decide) (by decide) (by decide)

/-- A user moves a file of someone else's onto its own directory, and owns the directory. -/
theorem mv_takes_over : letI := Reference.externals
    ∃ (s₀ : TxState) (txn : OpTxn) (step : OpStep) (session : Session),
      txn.env.principal = .user session ∧ session.isMaster = false ∧ session.inMasterGroup = false ∧
      Distinct txn.env (runOps s₀ [txn]).drawn ∧ FreshKeys s₀ [txn] ∧ Listed s₀ ∧ txn.steps = [step] ∧
      ¬ Authorised (txn.env.at step.now) (txn.after s₀ []) step.op
        (step.exec txn.env txn.names (txn.after s₀ [])) := by
  let _ := Reference.externals
  refine ⟨sharedDir, moveShared ["a"], ⟨0, [], .call (.mv (pathOf ["a", "b"]) (pathOf ["a"]))⟩, _, rfl,
    by decide, by decide, ?_, freshKeys_of_drawn (by decide), listed_sharedDir, rfl, fun h => ?_⟩
  · unfold Distinct
    decide
  · rcases h.lists (.ofNat 1) (by decide) (by decide) with hsame | ⟨old, new, hold, hnew, hallowed⟩
    · revert hsame
      decide
    · have hold' : ((moveShared ["a"]).after sharedDir []).inodes.readAcl (.ofNat 1) =
          some ⟨5, .delete, .empty, .delete⟩ := by decide
      have hnew' : (OpStep.exec (moveShared ["a"]).env (moveShared ["a"]).names
          ((moveShared ["a"]).after sharedDir [])
          ⟨0, [], .call (.mv (pathOf ["a", "b"]) (pathOf ["a"]))⟩).2.inodes.readAcl (.ofNat 1) =
          some (.defaultFor 6) := by decide
      cases hold.symm.trans hold'
      cases hnew.symm.trans hnew'
      have howner := hallowed.owner (by decide) _ rfl (by decide) (by decide)
      revert howner
      decide

end Small

end ArborDb
