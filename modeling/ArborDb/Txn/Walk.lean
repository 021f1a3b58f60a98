import ArborDb.Txn.Authority

/-!
# Directories on the way

A walk checks Access on a directory before it looks a name up in it. A call reads before it writes,
and creates a directory that is missing only when it has passed those that are there; so a call that
changes an a-node has walked the whole of its paths.
-/

namespace ArborDb

open Prog (Triple Maintains)

/-- Every directory that the names lead through from `k` grants Access. -/
def Walked (e : Env) (s : TxState) (k : AKey) (names : List Str) : Prop :=
  ∀ front back a, names = front ++ back → back ≠ [] → s.follow k front = some a →
    s.entryAt a ≠ none → Granted e s a .access

/-- No a-node differs. -/
def SameEntries (s t : TxState) : Prop := ∀ j, t.entryAt j = s.entryAt j

section Walks

variable {e : Env} {s t : TxState} {k : AKey} {name : Str} {names : List Str}

theorem Walked.nil (e : Env) (s : TxState) (k : AKey) : Walked e s k [] := by
  intro front back a hnil hback _ _
  exact absurd (List.append_eq_nil_iff.1 hnil.symm).2 hback

theorem Walked.cons (hk : s.entryAt k ≠ none → Granted e s k .access)
    (hnames : ∀ c, s.linkAt k name = some c → Walked e s c names) : Walked e s k (name :: names) := by
  intro front back a hsplit hback hfollow ha
  cases front with
  | nil =>
    cases hfollow
    exact hk ha
  | cons name' front =>
    rw [List.cons_append] at hsplit
    obtain ⟨hname, hrest⟩ := List.cons.inj hsplit
    subst hname
    obtain ⟨c, hc, hfollow⟩ := Option.bind_eq_some_iff.1 hfollow
    exact hnames c hc front back a hrest hback hfollow ha

/-- One more directory. -/
theorem Walked.concat (h : Walked e s k names)
    (hlast : ∀ a, s.follow k names = some a → s.entryAt a ≠ none → Granted e s a .access) :
    Walked e s k (names ++ [name]) := by
  intro front back a hsplit hback hfollow ha
  rcases List.append_eq_append_iff.1 hsplit with ⟨mid, rfl, hmid⟩ | ⟨mid, rfl, hmid⟩
  · cases mid with
    | nil => exact hlast a (by rwa [List.append_nil] at hfollow) ha
    | cons x mid =>
      obtain ⟨_, hrest⟩ := List.cons.inj hmid
      exact absurd (List.append_eq_nil_iff.1 hrest.symm).2 hback
  · cases mid with
    | nil =>
      rw [List.append_nil] at hlast
      exact hlast a hfollow ha
    | cons x mid => exact h front (x :: mid) a rfl (List.cons_ne_nil x mid) hfollow ha

/-- A name that is not there is the end of the way. -/
theorem linkAt_of_child_none (h : child e s k name = .ok none) : s.linkAt k name = none := by
  by_contra hne
  obtain ⟨c, hc⟩ := Option.ne_none_iff_exists'.1 hne
  cases child_of_linkAt h hc

theorem Walked.of_missing (hk : check e s k .access = .ok ()) (h : child e s k name = .ok none) :
    Walked e s k (name :: names) := by
  apply Walked.cons fun _ => hk
  intro c hc
  rw [linkAt_of_child_none h] at hc
  cases hc

theorem Walked.of_found {c : AKey} (hk : check e s k .access = .ok ())
    (h : child e s k name = .ok (some c)) (hnames : Walked e s c names) :
    Walked e s k (name :: names) := by
  apply Walked.cons fun _ => hk
  intro c' hc'
  cases child_of_linkAt h hc'
  exact hnames

/-- What is resolved is walked. -/
theorem walked_of_resolve {o : Option AKey} (h : resolveFrom e s k names = .ok o) :
    Walked e s k names := by
  induction names generalizing k with
  | nil => exact .nil e s k
  | cons name names ih =>
    obtain ⟨_, hcheck, h⟩ := Except.bind_eq_ok.1 h
    obtain ⟨found, hfound, h⟩ := Except.bind_eq_ok.1 h
    cases found with
    | none => exact .of_missing hcheck hfound
    | some c => exact .of_found hcheck hfound (ih h)

end Walks

theorem splitLast_of_ok {path : APath} {split : APath × Str} (h : splitLastOrPanic path = .ok split) :
    path.splitLast = some (split.1, split.2) := by
  unfold splitLastOrPanic at h
  cases hsplit : path.splitLast with
  | none =>
    rw [hsplit] at h
    cases h
  | some split' =>
    rw [hsplit] at h
    cases h
    rfl

namespace Underway

variable {e : Env} {n : Nat} {s t₁ : TxState} {k : AKey}

/-- A walk through the a-nodes of `s` is a walk in `s`. -/
theorem walked (h : Underway e n s t₁) (hsame : SameEntries s t₁) {names : List Str}
    (hwalked : Walked e t₁ k names) : Walked e s k names := by
  intro front back a hsplit hback hfollow ha
  have ht : t₁.entryAt a ≠ none := by rwa [hsame]
  rw [← follow_congr hsame] at hfollow
  exact h.granted ha ht (hwalked front back a hsplit hback hfollow ht)

theorem walked_resolve (h : Underway e n s t₁) (hsame : SameEntries s t₁) {path : APath}
    {o : Option AKey} (hresolve : resolve e t₁ path = .ok o) : Walked e s .root path.names :=
  h.walked hsame (walked_of_resolve hresolve)

section Programs

variable {W : Prop} {α : Type}

/-- What is known before a write is known after it. -/
theorem passed {P : TxState → Prop} {m : TxM α} (hW : W) :
    Triple e n P m (fun _ _ => W) (fun _ t => SameEntries s t ∨ W) :=
  (Triple.of_run (R := fun _ => W) fun _ _ => hW).consequence (fun _ ht => ht) (fun _ _ hW => hW)
    fun _ _ hW => .inr hW

/-- The names lead to nothing that is there. -/
structure Nowhere (e : Env) (s : TxState) (k : AKey) (names : List Str) : Prop where
  walked : Walked e s k names
  absent : ∀ a, s.follow k names = some a → s.entryAt a = none

/-- With nothing created, the names lead to an a-node. -/
structure Reached (e : Env) (s t : TxState) (k : AKey) (names : List Str) (k' : AKey) : Prop where
  same : SameEntries s t
  walked : Walked e s k names
  follow : ∀ a, s.follow k names = some a → a = k'

theorem Nowhere.of_follow {names : List Str} (hwalked : Walked e s k names)
    (h : s.follow k names = none) : Nowhere e s k names := by
  refine ⟨hwalked, fun a ha => ?_⟩
  rw [h] at ha
  cases ha

/-- The walk that creates directories is a walk. -/
theorem ensureDirFrom_walks (names : List Str) :
    Triple e n (· = t₁) (ArborDb.ensureDirFrom k names)
      (fun k' t => Reached e t₁ t k names k' ∨ Nowhere e t₁ k names)
      (fun _ t => SameEntries t₁ t ∨ Nowhere e t₁ k names) := by
  have hsame : SameEntries t₁ t₁ := fun _ => rfl
  induction names generalizing k with
  | nil =>
    apply Triple.pure
    intro t ht
    exact .inl ⟨ht ▸ hsame, .nil e t₁ k, fun a ha => (Option.some.inj ha).symm⟩
  | cons name names ih =>
    apply Triple.inspect_at (fun _ _ => .inl hsame)
    intro _ hcheck
    apply Triple.inspect_at (fun _ _ => .inl hsame)
    intro found hfound
    cases found with
    | some c =>
      apply Triple.inspect_at (fun _ _ => .inl hsame)
      intro kind _
      split
      · exact Triple.fail fun t ht => .inl (ht ▸ hsame)
      · have hfollow : ∀ a, t₁.follow k (name :: names) = some a → t₁.follow c names = some a := by
          intro a ha
          obtain ⟨c', hc', ha⟩ := Option.bind_eq_some_iff.1 ha
          cases child_of_linkAt hfound hc'
          exact ha
        have hnowhere : Nowhere e t₁ c names → Nowhere e t₁ k (name :: names) := fun h =>
          ⟨.of_found hcheck hfound h.walked, fun a ha => h.absent a (hfollow a ha)⟩
        apply ih.consequence (fun _ ht => ht)
        · intro k' t hwalk
          refine hwalk.imp (fun h => ?_) hnowhere
          exact ⟨h.same, .of_found hcheck hfound h.walked, fun a ha => h.follow a (hfollow a ha)⟩
        · exact fun _ _ hwalk => hwalk.imp_right hnowhere
    | none =>
      apply Triple.inspect_at (fun _ _ => .inl hsame)
      intro _ _
      have hfollow : t₁.follow k (name :: names) = none := by
        unfold TxState.follow
        rw [linkAt_of_child_none hfound]
        rfl
      have hnowhere : Nowhere e t₁ k (name :: names) := .of_follow (.of_missing hcheck hfound) hfollow
      exact (passed hnowhere).post fun _ _ h => .inr h

theorem ensureDir_walks (h : Underway e n s t₁) (hsame : SameEntries s t₁) (path : APath) :
    Triple e n (· = t₁) (ArborDb.ensureDir path)
      (fun k t => Reached e s t .root path.names k ∨ Nowhere e s .root path.names)
      (fun _ t => SameEntries s t ∨ Nowhere e s .root path.names) := by
  have hsame' : ∀ {t}, SameEntries t₁ t → SameEntries s t := fun ht j => (ht j).trans (hsame j)
  cases hroot : hasEntry t₁ .root with
  | true =>
    have hensure : Triple e n (· = t₁) ensureRoot (fun _ => (· = t₁)) (fun _ _ => False) := by
      refine Triple.inspect_known true (fun t ht => by rw [ht, hroot]) ?_
      exact Triple.pure fun _ ht => ht
    have hnowhere : Nowhere e t₁ .root path.names → Nowhere e s .root path.names := by
      intro hno
      refine ⟨h.walked hsame hno.walked, fun a ha => ?_⟩
      rw [← hsame]
      exact hno.absent a (by rwa [follow_congr hsame])
    refine Triple.bind (hensure.consequence (fun _ ht => ht) (fun _ _ ht => ht) fun _ _ => False.elim)
      fun _ => ?_
    apply (ensureDirFrom_walks path.names).consequence (fun _ ht => ht)
    · intro k t hwalk
      refine hwalk.imp (fun hreached => ?_) hnowhere
      refine ⟨hsame' hreached.same, h.walked hsame hreached.walked, fun a ha => ?_⟩
      exact hreached.follow a (by rwa [follow_congr hsame])
    · exact fun _ _ hwalk => hwalk.imp hsame' hnowhere
  | false =>
    -- From a root that is not there no name leads anywhere.
    have habsent : s.entryAt .root = none :=
      (hsame _).symm.trans (h.tidy.coherent.entryAt_of_absent hroot)
    have hnowhere : Nowhere e s .root path.names := by
      cases path.names with
      | nil =>
        refine ⟨.nil e s .root, fun a ha => ?_⟩
        cases ha
        exact habsent
      | cons name names =>
        have hlink := linkAt_of_entryAt_none habsent name
        refine .of_follow (Walked.cons (fun hne => absurd habsent hne) fun c hc => ?_) ?_
        · rw [hlink] at hc
          cases hc
        · unfold TxState.follow
          rw [hlink]
          rfl
    exact (passed hnowhere).post fun _ _ h => .inr h

variable (huser : ∃ session, e.principal = .user session) (hdist : Distinct e n)
  (hfresh : ∀ i, s.drawn ≤ i → i < n → s.entryAt (e.gen i) = none)
include huser hdist hfresh

/-- The way to a slot is walked before anything else happens there. -/
theorem slot_walks (h : Underway e n s t₁) (hsame : SameEntries s t₁) {path parentPath : APath}
    {name : Str} (hsplit : path.splitLast = some (parentPath, name)) (needed : Rights)
    (hneeded : needed ≠ .none) (rest : AKey → TxM α) :
    Triple e n (· = t₁) (do
      let parent ← ArborDb.ensureDir parentPath
      inspect (check · · parent needed)
      rest parent) (fun _ _ => Walked e s .root path.names)
      (fun _ t => SameEntries s t ∨ Walked e s .root path.names) := by
  obtain ⟨session, hsession⟩ := huser
  have hensure := (ensureDir_walks h hsame parentPath).and
    (ensureDir ⟨session, hsession⟩ hdist hfresh h hsame parentPath)
  rw [APath.splitLast_eq_some hsplit]
  have hnowhere : Nowhere e s .root parentPath.names → Walked e s .root (parentPath.names ++ [name]) :=
    fun h => h.walked.concat fun a ha hs => absurd (h.absent a ha) hs
  apply Triple.bind (hensure.consequence (fun _ ht => ht) (fun _ _ ht => ht)
    fun _ _ ht => ht.imp_right hnowhere)
  intro parent
  apply Triple.of_states
  intro t ht
  rcases ht with ⟨hreached | hno, hunder, harrived⟩
  · apply Triple.inspect_at (fun _ _ => .inl hreached.same)
    intro _ hcheck
    apply passed
    apply hreached.walked.concat
    intro a ha hs
    rw [hreached.follow a ha] at hs ⊢
    have hgranted := hunder.granted hs harrived.1 hcheck
    unfold Granted check at hgranted ⊢
    rw [hsession] at hgranted ⊢
    exact authorize_access hgranted hneeded
  · exact passed (hnowhere hno)

/-! ## Mutations -/

theorem storeBlobInto_walks (h : Underway e n s t₁) (hsame : SameEntries s t₁) (path : APath)
    (blob : Bytes) :
    Triple e n (· = t₁) (ArborDb.storeBlobInto path blob) (fun _ _ => Walked e s .root path.names)
      (fun _ t => SameEntries s t ∨ Walked e s .root path.names) := by
  apply Triple.inspect_at (fun _ _ => .inl hsame)
  intro split hsplit
  exact slot_walks huser hdist hfresh h hsame (splitLast_of_ok hsplit) .access (by decide) _

omit huser hdist hfresh in
theorem rmInto_walks (h : Underway e n s t₁) (hsame : SameEntries s t₁) (path : APath) :
    Triple e n (· = t₁) (ArborDb.rmInto path) (fun _ _ => Walked e s .root path.names)
      (fun _ t => SameEntries s t ∨ Walked e s .root path.names) := by
  apply Triple.inspect_at (fun _ _ => .inl hsame)
  intro split hsplit
  apply Triple.inspect_at (fun _ _ => .inl hsame)
  intro found hfound
  have hslot := APath.splitLast_eq_some (splitLast_of_ok hsplit)
  have hwalked := walked_of_resolve hfound
  cases found with
  | none =>
    apply passed
    rw [hslot]
    apply (h.walked hsame hwalked).concat
    intro a ha
    rw [← follow_congr hsame] at ha
    cases resolveFrom_of_follow hfound ha
  | some parent =>
    apply Triple.inspect_at (fun _ _ => .inl hsame)
    intro _ hcheck
    apply passed
    rw [hslot]
    apply h.walked hsame (hwalked.concat _)
    intro a ha _
    cases resolveFrom_of_follow hfound ha
    exact hcheck

theorem mvInto_walks (h : Underway e n s t₁) (hsame : SameEntries s t₁) (src dst : APath) :
    Triple e n (· = t₁) (ArborDb.mvInto src dst)
      (fun _ _ => Walked e s .root src.names ∧ Walked e s .root dst.names)
      (fun _ t => SameEntries s t ∨ Walked e s .root src.names ∧ Walked e s .root dst.names) := by
  apply Triple.inspect_at (fun _ _ => .inl hsame)
  intro srcSplit hsrc
  apply Triple.inspect_at (fun _ _ => .inl hsame)
  intro dstSplit hdst
  apply Triple.inspect_at (fun _ _ => .inl hsame)
  intro found hfound
  cases found with
  | none => exact Triple.fail fun t ht => .inl (ht ▸ hsame)
  | some srcParent =>
    apply Triple.inspect_at (fun _ _ => .inl hsame)
    intro _ hcheck
    have hwalked : Walked e s .root src.names := by
      rw [APath.splitLast_eq_some (splitLast_of_ok hsrc)]
      apply h.walked hsame ((walked_of_resolve hfound).concat _)
      intro a ha _
      cases resolveFrom_of_follow hfound ha
      exact hcheck
    apply Triple.inspect_at (fun _ _ => .inl hsame)
    intro found _
    cases found with
    | none => exact Triple.fail fun t ht => .inl (ht ▸ hsame)
    | some akey =>
      apply Triple.inspect_at (fun _ _ => .inl hsame)
      intro _ _
      apply (slot_walks huser hdist hfresh h hsame (splitLast_of_ok hdst) .modify (by decide)
        _).consequence (fun _ ht => ht)
      · exact fun _ _ hdst => ⟨hwalked, hdst⟩
      · exact fun _ _ ht => ht.imp_right fun hdst => ⟨hwalked, hdst⟩

theorem cpInto_walks (h : Underway e n s t₁) (hsame : SameEntries s t₁) (src dst : APath) :
    Triple e n (· = t₁) (ArborDb.cpInto src dst)
      (fun _ _ => Walked e s .root src.names ∧ Walked e s .root dst.names)
      (fun _ t => SameEntries s t ∨ Walked e s .root src.names ∧ Walked e s .root dst.names) := by
  apply Triple.inspect_at (fun _ _ => .inl hsame)
  intro dstSplit hdst
  apply Triple.inspect_at (fun _ _ => .inl hsame)
  intro found hfound
  cases found with
  | none => exact Triple.fail fun t ht => .inl (ht ▸ hsame)
  | some akey =>
    have hwalked := h.walked_resolve hsame hfound
    apply (slot_walks huser hdist hfresh h hsame (splitLast_of_ok hdst) .modify (by decide)
      _).consequence (fun _ ht => ht)
    · exact fun _ _ hdst => ⟨hwalked, hdst⟩
    · exact fun _ _ ht => ht.imp_right fun hdst => ⟨hwalked, hdst⟩

omit huser hdist in
/-- Writes under new keys keep the lists of the a-nodes of `s`. -/
theorem copySafe_kept : CopySafe e n s.drawn fun t =>
    ∀ k, s.entryAt k ≠ none → t.entryAt k ≠ none → t.inodes.readAcl k = s.inodes.readAcl k where
  draw ht := ht
  put {i entry} hi hn := by
    apply Maintains.modify
    intro t ht k hs hk
    have hne : k ≠ e.gen i := fun heq => hs (heq ▸ hfresh i hi hn)
    rw [readAcl_putEntry, if_neg hne]
    rw [entryAt_putEntry_ne entry hne] at hk
    exact ht k hs hk
  putDir {i m} hi hn := by
    apply Maintains.modify
    intro t ht k hs hk
    have hne : k ≠ e.gen i := fun heq => hs (heq ▸ hfresh i hi hn)
    split at hk <;> rename_i hon
    · rw [if_pos hon]
      rw [entryAt_dirPut_ne m hne] at hk
      exact (readAcl_stamp e t.inodes _ k).trans ((if_neg hne).trans (ht k hs hk))
    · rw [if_neg hon, readAcl_putEntry, if_neg hne]
      rw [entryAt_putEntry_ne _ hne] at hk
      exact ht k hs hk

/-- A copy that succeeds has visited every a-node of its source that is there. -/
theorem cpInto_copies (h : Underway e n s t₁) (hsame : SameEntries s t₁) {src dst dstParentPath : APath}
    {dstName : Str} (hdst : dst.splitLast = some (dstParentPath, dstName)) :
    Triple e n (· = t₁) (ArborDb.cpInto src dst)
      (fun _ _ => ∀ names k, s.follow .root (src.names ++ names) = some k → s.entryAt k ≠ none →
        Granted e s k .access) (fun _ _ => True) := by
  refine Triple.inspect_known (dstParentPath, dstName)
    (fun _ _ => by simp only [splitLastOrPanic, hdst]) ?_
  apply Triple.inspect_at (fun _ _ => trivial)
  intro found hfound
  cases found with
  | none => exact Triple.fail fun _ _ => trivial
  | some akey =>
    apply Triple.bind ((ensureDir_grown huser hdist hfresh h hsame dstParentPath).consequence
      (fun _ ht => ht) (fun _ _ ht => ht) fun _ _ _ => trivial)
    intro dstParent
    apply Triple.of_states
    intro t ht
    rcases ht with ⟨⟨ht, _⟩, hgrown⟩
    apply Triple.inspect_at (fun _ _ => trivial)
    intro _ _
    have houtlives : Outlives s t := by
      intro k name c hc
      rw [← linkAt_congr (hsame k)] at hc
      exact .inr (hgrown k name c hc)
    have hclear := (clearSlot huser ht dstParent dstName).and_maintains
      (outlives_clearSlot dstParent dstName) fun _ ht' => ht' ▸ houtlives
    apply Triple.bind (hclear.consequence (fun _ ht => ht) (fun _ _ ht => ht) fun _ _ _ => trivial)
    intro _
    apply Triple.of_states
    intro t' ht'
    rcases ht' with ⟨⟨ht', _⟩, houtlives'⟩
    have hvisits := deepCopy_visits hfresh (copySafe_kept hfresh)
      (C := fun k => s.entryAt k ≠ none → Granted e s k .access) fun ht hcheck hkind hs => ?_
    · refine Triple.bind (R := fun _ _ => ∀ names k, s.follow akey names = some k →
        s.entryAt k ≠ none → Granted e s k .access) ?_ fun copy => ?_
      · apply Triple.guard fun _ _ _ => trivial
        intro size
        apply (hvisits (size + 1) akey).consequence
        · intro u hu
          subst hu
          exact ⟨⟨ht'.acl, ht'.since⟩, houtlives'⟩
        · exact fun _ _ hu => hu.2
        · exact fun _ _ _ => trivial
      · refine Triple.of_pre (fun _ hcopied => hcopied) fun hcopied => Triple.const ?_
        intro names k hk hs
        rw [TxState.follow_append, ← follow_congr hsame] at hk
        obtain ⟨a, ha, hk⟩ := Option.bind_eq_some_iff.1 hk
        cases resolveFrom_of_follow hfound ha
        exact hcopied names k hk hs
    · unfold Granted
      unfold check at hcheck ⊢
      rwa [ht _ hs (entryAt_of_kind_some hkind)] at hcheck

section Calls

variable [Externals]

theorem putScalarInto_walks (h : Underway e n s t₁) (hsame : SameEntries s t₁) (path : APath)
    (hint : Option (AKey × UInt64)) (vpath : VPath) (scalar : Scalar) :
    Triple e n (· = t₁) (ArborDb.putScalarInto path hint vpath scalar)
      (fun _ _ => Walked e s .root path.names)
      (fun _ t => SameEntries s t ∨ Walked e s .root path.names) := by
  have hbuild := protected_of_user huser
  apply Triple.inspect_at (fun _ _ => .inl hsame)
  intro target htarget
  have hwalked : Walked e s .root path.names := by
    unfold resolveTarget at htarget
    rw [if_neg (not_not.2 hbuild)] at htarget
    obtain ⟨o, ho, _⟩ := Except.bind_eq_ok.1 htarget
    exact h.walked_resolve hsame ho
  cases target with
  | none => exact storeBlobInto_walks huser hdist hfresh h hsame path _
  | some target => exact passed hwalked

omit huser hdist hfresh in
/-- The bracket changes no a-node before the call. -/
theorem reindexAround_walks {V : Prop} (h : Underway e n s s) {indexes : List IndexEntry}
    {scopes : List APath} {apply : TxM α} (hV : W → V)
    (happly : ∀ t₁, Underway e n s t₁ → SameEntries s t₁ →
      Triple e n (· = t₁) apply (fun _ _ => W) (fun _ t => SameEntries s t ∨ V)) :
    Triple e n (· = s) (ArborDb.reindexAround indexes scopes apply) (fun _ _ => W)
      (fun _ t => SameEntries s t ∨ V) := by
  have hindex : Unindexed fun t => Underway e n s t ∧ SameEntries s t :=
    fun t index ht => ⟨unindexed t index ht.1, ht.2⟩
  unfold ArborDb.reindexAround
  split
  · exact happly s h fun _ => rfl
  · refine Triple.bind (R := fun _ t => Underway e n s t ∧ SameEntries s t) ?_ fun _ => ?_
    · refine (Triple.of_run ?_).consequence (fun _ ht => ht) (fun _ _ ht => ht) fun _ _ ht => .inl ht.2
      intro t ht
      subst ht
      exact ⟨h.flushed false, fun j => entryAt_flushed false j⟩
    refine Triple.bind (R := fun _ t => Underway e n s t ∧ SameEntries s t) ?_ fun _ => ?_
    · apply Triple.forEach_keeps
      intro scope _
      exact (deleteEntries_keeps hindex).consequence (fun _ ht => ht) (fun _ _ ht => ht)
        fun _ _ ht => .inl ht.2
    refine Triple.bind (Triple.of_states fun t₁ ht₁ => happly t₁ ht₁.1 ht₁.2) fun _ => ?_
    refine Triple.of_pre (fun _ hW => hW) fun hW => (passed hW).consequence (fun _ ht => ht)
      (fun _ _ ht => ht) fun _ _ ht => ht.imp_right hV

end Calls

end Programs

end Underway

end ArborDb
