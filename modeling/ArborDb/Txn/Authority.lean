import ArborDb.Txn.Underway

/-!
# The checks of every call

One triple for each program: from a state that is underway, the program ends in one, whether it
returns or fails. What a program removes was checked when it was about to be removed, what it links
or edits was checked just before.
-/

namespace ArborDb

open Prog (Triple Maintains)

namespace Underway

variable {e : Env} {n : Nat} {s t₁ : TxState} {k p : AKey}

/-- A link that a read has told apart from the one of `s`, or whose a-node is checked for Delete. -/
theorem lost_of_child (h : Underway e n s t₁) {name : Str} {found : Option AKey}
    (hchild : child e t₁ p name = .ok found)
    (hfound : ∀ node, found = some node → check e t₁ node .delete = .ok ()) (c : AKey)
    (hc : s.linkAt p name = some c) (hs : s.entryAt c ≠ none) : Granted e s c .delete := by
  by_cases ht : t₁.linkAt p name = some c
  · exact h.granted_delete hs (hfound c (child_of_linkAt hchild ht))
  · exact (h.allowed p).unlinked name c hc hs ht

/-- What a check on an a-node that is there tells about the state before the call. -/
theorem granted_of_check (h : Underway e n s t₁) {needed : Rights} (hk : t₁.entryAt k ≠ none)
    (hcheck : check e t₁ k needed = .ok ()) : s.entryAt k ≠ none → Granted e s k needed :=
  fun hs => h.granted hs hk hcheck

theorem linkChild {name : Str} {c : AKey} (h : Underway e n s t₁)
    (hp : t₁.entryAt p ≠ none) (hmodify : s.entryAt p ≠ none → Granted e s p .modify)
    (hlost : ∀ c', s.linkAt p name = some c' → s.entryAt c' ≠ none → Granted e s c' .delete) :
    Underway e n s ((ArborDb.linkChild p name c).run e t₁).2 :=
  h.editDir hp fun _ hm => h.allowed_link hm hmodify hlost

theorem unlinkChild {name : Str} (h : Underway e n s t₁) (hp : t₁.entryAt p ≠ none)
    (hlost : ∀ c', s.linkAt p name = some c' → s.entryAt c' ≠ none → Granted e s c' .delete) :
    Underway e n s ((ArborDb.unlinkChild p name).run e t₁).2 :=
  h.editDir hp fun _ hm => h.allowed_unlink hm hlost

section Programs

variable (huser : ∃ session, e.principal = .user session) (hdist : Distinct e n)
  (hfresh : ∀ i, s.drawn ≤ i → i < n → s.entryAt (e.gen i) = none)
include huser hdist hfresh

omit huser in
/-- A drawn key is reserved. -/
theorem generate (h : Underway e n s t₁) :
    Triple e n (· = t₁) ArborDb.generate (fun k t => Underway e n s t ∧ Reserved e n s t k ∧
      ∀ j, t.entryAt j = t₁.entryAt j) (fun _ => Underway e n s) := by
  intro t ht hn
  subst ht
  have hlt : t.drawn < n := hn
  refine ⟨h.draw, ⟨h.fresh t.drawn (Nat.le_refl _) hlt, hfresh t.drawn h.since hlt, ?_⟩, fun _ => rfl⟩
  intro i hi hin heq
  have hii := (hdist i hin).2 t.drawn hlt heq
  subst hii
  exact absurd hi (Nat.not_succ_le_self _)

omit hdist hfresh in
/-- A new directory under a reserved key, linked where it was missing. -/
theorem makeDir {α : Type} {name : Str} {c : AKey} {rest : TxM α} {Q : α → TxState → Prop}
    (hk : t₁.entryAt k ≠ none) (hmodify : s.entryAt k ≠ none → Granted e s k .modify)
    (hlost : ∀ c', s.linkAt k name = some c' → s.entryAt c' ≠ none → Granted e s c' .delete)
    (hrest : Triple e n (fun t => Underway e n s t ∧ t.entryAt c = some (.dir .empty)) rest Q
      (fun _ => Underway e n s)) :
    Triple e n (fun t => Underway e n s t ∧ Reserved e n s t c ∧ ∀ j, t.entryAt j = t₁.entryAt j)
      (do
        putDir c .empty
        ArborDb.linkChild k name c
        rest) Q (fun _ => Underway e n s) := by
  refine Triple.bind (R := fun _ t => Underway e n s t ∧ t.entryAt c = some (.dir .empty) ∧ c ≠ k ∧
    t.entryAt k ≠ none) ?_ fun _ => ?_
  · intro t ht _
    rcases ht with ⟨ht, hc, hsame⟩
    have hck : k ≠ c := by
      intro hck
      rw [← hsame, hck] at hk
      exact hk hc.absent
    have hkeep : ((putDir c .empty).run e t).2.entryAt k = t₁.entryAt k :=
      (putDir_entryAt_ne _ hck).trans (hsame k)
    exact ⟨ht.putDirNew huser hc _, entryAt_putDirNew hc.absent _, hck.symm,
      fun hnone => hk (hkeep.symm.trans hnone)⟩
  · refine Triple.bind ?_ fun _ => hrest
    intro t ht _
    rcases ht with ⟨ht, hc, hck, hk⟩
    have hnext := ht.linkChild (c := c) hk hmodify hlost
    have hentry : ((ArborDb.linkChild k name c).run e t).2.entryAt c = some (.dir .empty) :=
      (editDir_entryAt_ne _ hck).trans hc
    generalize (ArborDb.linkChild k name c).run e t = out at hnext hentry ⊢
    rcases out with ⟨_ | _, t'⟩
    · exact hnext
    · exact ⟨hnext, hentry⟩

/-- Where the walk to a directory ends: nothing was created and the names lead there, or the
directory is new. -/
def Arrived (t₁ t : TxState) (from' : AKey) (names : List Str) (k : AKey) : Prop :=
  t.entryAt k ≠ none ∧ ((∀ j, t.entryAt j = t₁.entryAt j) ∧ t₁.follow from' names = some k ∨
    t.entryAt k = some (.dir .empty))

omit huser hdist hfresh in
/-- A walk from an empty directory ends in an empty directory. -/
theorem arrived_of_empty {t : TxState} {c : AKey} {names : List Str}
    (hc : t₁.entryAt c = some (.dir .empty)) (h : Arrived t₁ t c names k) :
    t.entryAt k = some (.dir .empty) := by
  rcases h with ⟨_, ⟨hsame, hfollow⟩ | hempty⟩
  · cases names with
    | nil =>
      cases hfollow
      rw [hsame]
      exact hc
    | cons name names =>
      obtain ⟨a, ha, _⟩ := Option.bind_eq_some_iff.1 hfollow
      rw [linkAt_eq, hc] at ha
      cases ha
  · exact hempty

theorem ensureDirFrom (h : Underway e n s t₁) (names : List Str) (hk : t₁.entryAt k ≠ none) :
    Triple e n (· = t₁) (ArborDb.ensureDirFrom k names)
      (fun k' t => Underway e n s t ∧ Arrived t₁ t k names k') (fun _ => Underway e n s) := by
  induction names generalizing k t₁ with
  | nil =>
    apply Triple.pure
    intro t ht
    subst ht
    exact ⟨h, hk, .inl ⟨fun _ => rfl, rfl⟩⟩
  | cons name names ih =>
    apply Triple.inspect_at (fun _ _ => h)
    intro _ _
    apply Triple.inspect_at (fun _ _ => h)
    intro found hfound
    cases found with
    | some c =>
      have hlink := h.tidy.coherent.linkAt_of_child hfound
      apply Triple.inspect_at (fun _ _ => h)
      intro kind hkind
      split
      · exact Triple.fail fun t ht => ht ▸ h
      · rename_i hdir
        rw [not_not] at hdir
        rw [hdir] at hkind
        apply (ih h (entryAt_of_kind_some hkind)).post
        intro k' t ht
        refine ⟨ht.1, ht.2.1, ht.2.2.imp_left fun hsame => ⟨hsame.1, ?_⟩⟩
        exact Option.bind_eq_some_iff.2 ⟨c, hlink, hsame.2⟩
    | none =>
      apply Triple.inspect_at (fun _ _ => h)
      intro _ hcheck
      have hlost := h.lost_of_child hfound nofun
      apply Triple.bind (generate hdist hfresh h)
      intro c
      have hrest : Triple e n (fun t => Underway e n s t ∧ t.entryAt c = some (.dir .empty))
          (ArborDb.ensureDirFrom c names)
          (fun k' t => Underway e n s t ∧ Arrived t₁ t k (name :: names) k')
          (fun _ => Underway e n s) := by
        intro t ht hn
        rcases ht with ⟨ht, hc⟩
        have hne : t.entryAt c ≠ none := by rw [hc]; exact Option.some_ne_none _
        refine ((ih ht hne).post ?_) t rfl hn
        intro k' t' ht'
        exact ⟨ht'.1, ht'.2.1, .inr (arrived_of_empty hc ht'.2)⟩
      exact makeDir huser hk (h.granted_of_check hk hcheck) hlost hrest

/-- Directories are created before anything is removed. -/
theorem ensureDir (h : Underway e n s t₁) (hsame : ∀ j, t₁.entryAt j = s.entryAt j) (path : APath) :
    Triple e n (· = t₁) (ArborDb.ensureDir path)
      (fun k t => Underway e n s t ∧ Arrived t₁ t .root path.names k) (fun _ => Underway e n s) := by
  refine Triple.bind (R := fun _ t => Underway e n s t ∧
    ((t = t₁ ∧ t.entryAt .root ≠ none) ∨ t.entryAt .root = some (.dir .empty))) ?_ fun _ => ?_
  · apply Triple.inspect_at (fun _ hfail => by cases hfail)
    intro present hpresent
    cases hpresent
    split
    · rename_i hroot
      apply Triple.pure
      intro t ht
      subst ht
      refine ⟨h, .inl ⟨rfl, fun hnone => ?_⟩⟩
      rcases entryAt_none hnone with ⟨_, hd, hdata⟩
      simp [hasEntry, hd, hdata, SortedMap.contains] at hroot
    · rename_i hroot
      intro t ht _
      subst ht
      have habsent : t.entryAt .root = none :=
        h.tidy.coherent.entryAt_of_absent (Bool.eq_false_of_not_eq_true hroot)
      have hreserved : Reserved e n s t .root :=
        ⟨habsent, (hsame _).symm.trans habsent, fun i _ hin => (hdist i hin).1⟩
      exact ⟨h.putDirNew huser hreserved _, .inr (entryAt_putDirNew habsent _)⟩
  · intro t ht hn
    rcases ht with ⟨ht, ⟨ht₁, hroot⟩ | hempty⟩
    · subst ht₁
      exact ensureDirFrom huser hdist hfresh ht path.names hroot t rfl hn
    · have hroot : t.entryAt .root ≠ none := by rw [hempty]; exact Option.some_ne_none _
      refine ((ensureDirFrom huser hdist hfresh ht path.names hroot).post ?_) t rfl hn
      intro k t' ht'
      exact ⟨ht'.1, ht'.2.1, .inr (arrived_of_empty hempty ht'.2)⟩

/-! ### Deleting -/

omit huser hdist hfresh in
/-- The subtree of a checked a-node may be removed. -/
theorem allowed_delete (h : Underway e n s t₁) {fuel : Nat} (hcheck : checkDeletable e t₁ fuel k = .ok ())
    {names : List Str} {c : AKey} (hc : t₁.follow k names = some c) : Allowed e s c none where
  removed hs _ := h.granted_delete hs (checkDeletable_follow hcheck names hc)
  unlinked name a ha hs _ := by
    by_cases ht : t₁.linkAt c name = some a
    · refine h.granted_delete hs (checkDeletable_follow hcheck (names ++ [name]) ?_)
      rw [TxState.follow_append, hc, Option.bind_some]
      exact Option.bind_eq_some_iff.2 ⟨a, ht, rfl⟩
    · exact (h.allowed c).unlinked name a ha hs ht
  edited _ _ _ hnone _ := by cases hnone
  linked _ _ hlink _ := by cases hlink
  kind _ _ _ hnone := by cases hnone

omit huser hdist hfresh in
/-- Deleting a subtree removes nothing outside it. -/
theorem cascadeDelete (hbuild : e.build = .permissions) {D : AKey → Prop}
    (hclosed : ∀ k name c, D k → t₁.linkAt k name = some c → D c) (hD : ∀ k, D k → Allowed e s k none)
    (fuel : Nat) (hk : D k) :
    Maintains e n (fun t => Underway e n s t ∧ (∀ j, t.entryAt j = none ∨ t.entryAt j = t₁.entryAt j) ∧
      ∀ j, ¬ D j → t.entryAt j = t₁.entryAt j) (ArborDb.cascadeDelete fuel k) := by
  induction fuel generalizing k with
  | zero => exact Maintains.fail _
  | succ fuel ih =>
    apply Maintains.inspect
    intro t children ht hchildren
    cases children with
    | none => exact Maintains.pure _
    | some children =>
      apply Maintains.bind
      · apply Maintains.forEach
        intro c hc
        obtain ⟨name, hname⟩ := ht.1.tidy.coherent.linkAt_of_cascade hchildren hc
        have hentry : t.entryAt k = t₁.entryAt k := by
          refine (ht.2.1 k).resolve_left fun hnone => ?_
          rw [linkAt_of_entryAt_none hnone] at hname
          cases hname
        rw [linkAt_congr hentry] at hname
        exact ih (hclosed k name c hk hname)
      · intro _
        apply Maintains.modify
        intro t ht
        refine ⟨ht.1.removeEntry (hD k hk) hbuild, fun j => ?_, fun j hj => ?_⟩
        · rw [entryAt_removeEntry]
          split
          · exact .inl rfl
          · exact ht.2.1 j
        · have hne : j ≠ k := fun hjk => hj (hjk ▸ hk)
          rw [entryAt_removeEntry, if_neg hne]
          exact ht.2.2 j hj

omit hdist hfresh in
theorem deleteChecked (h : Underway e n s t₁) {fuel : Nat}
    (hcheck : checkDeletable e t₁ fuel k = .ok ()) :
    Triple e n (· = t₁) (bounded (ArborDb.cascadeDelete · k))
      (fun _ t => Underway e n s t ∧
        ∀ j, (∀ names, t₁.follow k names ≠ some j) → t.entryAt j = t₁.entryAt j)
      (fun _ => Underway e n s) := by
  have hbuild := protected_of_user huser
  apply Triple.inspect_at (fun _ hfail => by cases hfail)
  intro size _ t ht hn
  subst ht
  have hdelete := @cascadeDelete e n s t k hbuild
    (fun j => ∃ names, t.follow k names = some j) ?_ ?_ (size + 1) ⟨[], rfl⟩ t
    ⟨h, fun _ => .inr rfl, fun _ _ => rfl⟩ hn
  · generalize (ArborDb.cascadeDelete (size + 1) k).run e t = out at hdelete ⊢
    rcases out with ⟨_ | _, t'⟩
    · exact hdelete.1
    · exact ⟨hdelete.1, fun j hj => hdelete.2.2 j fun ⟨names, hnames⟩ => hj names hnames⟩
  · intro j name c hj hc
    rcases hj with ⟨names, hnames⟩
    refine ⟨names ++ [name], ?_⟩
    rw [TxState.follow_append, hnames, Option.bind_some]
    exact Option.bind_eq_some_iff.2 ⟨c, hc, rfl⟩
  · intro j hj
    rcases hj with ⟨names, hnames⟩
    exact h.allowed_delete hcheck hnames

omit hdist hfresh in
/-- The slot that a call fills is emptied, and nothing outside it is removed. -/
theorem clearSlot (h : Underway e n s t₁) (parent : AKey) (name : Str) :
    Triple e n (· = t₁) (ArborDb.clearSlot parent name)
      (fun _ t => Underway e n s t ∧
        (∀ j, (∀ names, t₁.follow parent (name :: names) ≠ some j) → t.entryAt j = t₁.entryAt j) ∧
        ∀ c, s.linkAt parent name = some c → s.entryAt c ≠ none → Granted e s c .delete)
      (fun _ => Underway e n s) := by
  apply Triple.inspect_at (fun _ _ => h)
  intro found hfound
  cases found with
  | none =>
    apply Triple.pure
    intro t ht
    subst ht
    exact ⟨h, fun _ _ => rfl, h.lost_of_child hfound nofun⟩
  | some existing =>
    apply Triple.inspect_at (fun _ _ => h)
    intro _ hcheck
    have hlink := h.tidy.coherent.linkAt_of_child hfound
    apply (deleteChecked huser h hcheck).post
    intro _ t ht
    refine ⟨ht.1, fun j hj => ht.2 j fun names hnames => ?_, ?_⟩
    · exact hj names (Option.bind_eq_some_iff.2 ⟨existing, hlink, hnames⟩)
    · apply h.lost_of_child hfound
      intro node hnode
      cases hnode
      exact checkDeletable_follow hcheck [] rfl

/-! ### Storing -/

/-- A new file under a fresh key. -/
theorem storeNew (h : Underway e n s t₁) (hp : t₁.entryAt p ≠ none)
    (hmodify : s.entryAt p ≠ none → Granted e s p .modify) {name : Str}
    (hlost : ∀ c', s.linkAt p name = some c' → s.entryAt c' ≠ none → Granted e s c' .delete)
    (blob : Bytes) :
    Triple e n (· = t₁) (do
      let fresh ← ArborDb.generate
      ArborDb.linkChild p name fresh
      putEntry fresh (.file blob)) (fun _ => Underway e n s) (fun _ => Underway e n s) := by
  apply Triple.bind (generate hdist hfresh h)
  intro fresh
  refine Triple.bind (R := fun _ t => Underway e n s t ∧ Reserved e n s t fresh) ?_ fun _ => ?_
  · intro t ht _
    rcases ht with ⟨ht, hreserved, hsame⟩
    have hne : fresh ≠ p := by
      intro heq
      rw [← hsame, ← heq] at hp
      exact hp hreserved.absent
    have hnext := ht.linkChild (c := fresh) (by rwa [hsame]) hmodify hlost
    have habsent : ((ArborDb.linkChild p name fresh).run e t).2.entryAt fresh = none :=
      (editDir_entryAt_ne _ hne).trans hreserved.absent
    have hdrawn := (ArborDb.linkChild p name fresh).drawn_le e t
    generalize (ArborDb.linkChild p name fresh).run e t = out at hnext habsent hdrawn ⊢
    rcases out with ⟨_ | _, t'⟩
    · exact hnext
    · exact ⟨hnext, habsent, hreserved.new, fun i hi hn => hreserved.drawn i (hdrawn.trans hi) hn⟩
  · apply Triple.modify
    intro t ht _
    exact ht.1.putNew huser ht.2 _

/-- The directory that a call edits does not lie in the subtree that it deletes. -/
def Clear (s : TxState) (slot parent : APath) : Prop :=
  ∀ names p, s.follow .root (slot.names ++ names) = some p → s.follow .root parent.names ≠ some p

omit huser hdist hfresh in
/-- What lies below a name of the directory a walk arrived at lies below the slot. -/
theorem below_slot (hsame : ∀ j, t₁.entryAt j = s.entryAt j) {t : TxState} {slot parentPath : APath}
    {name : Str} {parent : AKey} (hslot : slot.names = parentPath.names ++ [name])
    (harrived : Arrived t₁ t .root parentPath.names parent) (names : List Str) {c : AKey}
    (hc : t.follow parent (name :: names) = some c) :
    s.follow .root (slot.names ++ names) = some c ∧ (∀ j, t.entryAt j = s.entryAt j) ∧
      s.follow .root parentPath.names = some parent := by
  rcases harrived with ⟨_, ⟨hkept, hfollow⟩ | hempty⟩
  · have hall : ∀ j, t.entryAt j = s.entryAt j := fun j => (hkept j).trans (hsame j)
    rw [follow_congr hsame] at hfollow
    rw [follow_congr hall] at hc
    refine ⟨?_, hall, hfollow⟩
    rw [hslot, List.append_assoc, TxState.follow_append, hfollow]
    exact hc
  · obtain ⟨a, ha, _⟩ := Option.bind_eq_some_iff.1 hc
    rw [linkAt_eq, hempty] at ha
    cases ha

theorem storeBlobInto (h : Underway e n s t₁) (hsame : ∀ j, t₁.entryAt j = s.entryAt j)
    {path parentPath : APath} {name : Str} (hsplit : path.splitLast = some (parentPath, name))
    (hclear : Clear s path parentPath) (blob : Bytes) :
    Triple e n (· = t₁) (ArborDb.storeBlobInto path blob) (fun _ => Underway e n s)
      (fun _ => Underway e n s) := by
  have hslot := APath.splitLast_eq_some hsplit
  refine Triple.inspect_known (parentPath, name) (fun _ _ => by simp only [splitLastOrPanic, hsplit]) ?_
  apply Triple.bind (ensureDir huser hdist hfresh h hsame parentPath)
  intro parent
  apply Triple.of_states
  intro t ht
  rcases ht with ⟨ht, harrived⟩
  have hparent := harrived.1
  apply Triple.inspect_at (fun _ _ => ht)
  intro _ _
  apply Triple.inspect_at (fun _ _ => ht)
  intro found hfound
  cases found with
  | none =>
    apply Triple.inspect_at (fun _ _ => ht)
    intro _ hmodify
    exact storeNew huser hdist hfresh ht hparent (ht.granted_of_check hparent hmodify)
      (ht.lost_of_child hfound nofun) blob
  | some node =>
    have hlink := ht.tidy.coherent.linkAt_of_child hfound
    apply Triple.inspect_at (fun _ _ => ht)
    intro kind hkind
    split
    · rename_i hfile
      rw [hfile] at hkind
      obtain ⟨b, hb⟩ := file_of_kind hkind
      apply Triple.inspect_at (fun _ _ => ht)
      intro _ hmodify
      apply Triple.modify
      intro t' ht' _
      subst ht'
      have hne : t'.entryAt node ≠ none := by rw [hb]; exact Option.some_ne_none _
      exact ht.putFile hb (ht.granted_of_check hne hmodify) blob
    · apply Triple.inspect_at (fun _ _ => ht)
      intro _ hcheck
      apply Triple.inspect_at (fun _ _ => ht)
      intro _ hmodify
      apply Triple.bind (deleteChecked huser ht hcheck)
      intro _
      apply Triple.of_states
      intro t' ht'
      have hkept : t'.entryAt parent = t.entryAt parent := by
        apply ht'.2
        intro names hnames
        have hbelow := below_slot hsame hslot harrived names
          (Option.bind_eq_some_iff.2 ⟨node, hlink, hnames⟩)
        exact hclear names parent hbelow.1 hbelow.2.2
      refine storeNew huser hdist hfresh ht'.1 (by rwa [hkept]) (ht.granted_of_check hparent hmodify)
        (ht.lost_of_child hfound ?_) blob
      intro node' hnode'
      cases hnode'
      exact checkDeletable_follow hcheck [] rfl

/-! ### Removing, moving, copying -/

omit hdist hfresh in
theorem rmInto (h : Underway e n s t₁) (hsame : ∀ j, t₁.entryAt j = s.entryAt j)
    {path parentPath : APath} {name : Str} (hsplit : path.splitLast = some (parentPath, name))
    (hclear : Clear s path parentPath) :
    Triple e n (· = t₁) (ArborDb.rmInto path) (fun _ => Underway e n s) (fun _ => Underway e n s) := by
  have hslot := APath.splitLast_eq_some hsplit
  refine Triple.inspect_known (parentPath, name) (fun _ _ => by simp only [splitLastOrPanic, hsplit]) ?_
  apply Triple.inspect_at (fun _ _ => h)
  intro found hparent
  cases found with
  | none => exact Triple.pure fun _ ht => ht ▸ h
  | some parent =>
    have hfollow := h.tidy.coherent.follow_of_resolve hparent
    apply Triple.inspect_at (fun _ _ => h)
    intro _ _
    apply Triple.inspect_at (fun _ _ => h)
    intro found hfound
    cases found with
    | none => exact Triple.pure fun _ ht => ht ▸ h
    | some akey =>
      have hlink := h.tidy.coherent.linkAt_of_child hfound
      have hpresent : t₁.entryAt parent ≠ none := by
        intro hnone
        rw [linkAt_of_entryAt_none hnone] at hlink
        cases hlink
      apply Triple.inspect_at (fun _ _ => h)
      intro _ hcheck
      apply Triple.bind (deleteChecked huser h hcheck)
      intro _
      apply Triple.of_states
      intro t ht
      have hkept : t.entryAt parent = t₁.entryAt parent := by
        apply ht.2
        intro names hnames
        have hbelow := below_slot hsame hslot (t := t₁) ⟨hpresent, .inl ⟨fun _ => rfl, hfollow⟩⟩ names
          (Option.bind_eq_some_iff.2 ⟨akey, hlink, hnames⟩)
        exact hclear names parent hbelow.1 hbelow.2.2
      have hlost := h.lost_of_child hfound fun node hnode => by
        cases hnode
        exact checkDeletable_follow hcheck [] rfl
      have hunlink : Triple e n (· = t) (ArborDb.unlinkChild parent name)
          (fun _ => Underway e n s) (fun _ => Underway e n s) := by
        apply Triple.of_run
        intro t' ht'
        subst ht'
        exact ht.1.unlinkChild (by rwa [hkept]) hlost
      exact hunlink.bind fun _ => Triple.pure fun _ ht => ht

/-- Nothing that a walk passes is lost while directories are created. -/
theorem ensureDir_grown (h : Underway e n s t₁) (hsame : ∀ j, t₁.entryAt j = s.entryAt j) (path : APath) :
    Triple e n (· = t₁) (ArborDb.ensureDir path)
      (fun k t => (Underway e n s t ∧ Arrived t₁ t .root path.names k) ∧ Grown t₁ t)
      (fun _ => Underway e n s) := by
  have hgrown : Maintains e n (fun t => Grown t₁ t ∧ t₁.drawn ≤ t.drawn) (ArborDb.ensureDir path) :=
    grown_ensureDir h.fresh path
  refine ((ensureDir huser hdist hfresh h hsame path).and_maintains hgrown ?_).post ?_
  · intro t ht
    subst ht
    exact ⟨fun _ _ _ hc => hc, Nat.le_refl _⟩
  · exact fun _ _ ht => ⟨ht.1, ht.2.1⟩

theorem mvInto (h : Underway e n s t₁) (hsame : ∀ j, t₁.entryAt j = s.entryAt j)
    {src dst srcParentPath dstParentPath : APath} {srcName dstName : Str}
    (hsrc : src.splitLast = some (srcParentPath, srcName))
    (hdst : dst.splitLast = some (dstParentPath, dstName)) (hclear : Clear s dst dstParentPath)
    (hclear' : Clear s dst srcParentPath) :
    Triple e n (· = t₁) (ArborDb.mvInto src dst) (fun _ => Underway e n s) (fun _ => Underway e n s) := by
  have hslot := APath.splitLast_eq_some hdst
  refine Triple.inspect_known (srcParentPath, srcName)
    (fun _ _ => by simp only [splitLastOrPanic, hsrc]) ?_
  refine Triple.inspect_known (dstParentPath, dstName)
    (fun _ _ => by simp only [splitLastOrPanic, hdst]) ?_
  apply Triple.inspect_at (fun _ _ => h)
  intro found hparent
  cases found with
  | none => exact Triple.fail fun _ ht => ht ▸ h
  | some srcParent =>
    have hfollow := h.tidy.coherent.follow_of_resolve hparent
    rw [follow_congr hsame] at hfollow
    apply Triple.inspect_at (fun _ _ => h)
    intro _ _
    apply Triple.inspect_at (fun _ _ => h)
    intro found hfound
    cases found with
    | none => exact Triple.fail fun _ ht => ht ▸ h
    | some akey =>
      have hlink := h.tidy.coherent.linkAt_of_child hfound
      apply Triple.inspect_at (fun _ _ => h)
      intro _ hdelete
      have hlost := h.lost_of_child hfound (fun node hnode => by cases hnode; exact hdelete)
      apply Triple.bind (ensureDir_grown huser hdist hfresh h hsame dstParentPath)
      intro dstParent
      apply Triple.of_states
      intro t ht
      rcases ht with ⟨⟨ht, harrived⟩, hgrown⟩
      have hdstParent := harrived.1
      have hsrcParent : t.entryAt srcParent ≠ none := by
        obtain ⟨m, hm, _⟩ := entryAt_of_linkAt (hgrown _ _ _ hlink)
        rw [hm]
        exact Option.some_ne_none _
      apply Triple.inspect_at (fun _ _ => ht)
      intro _ hmodify
      apply Triple.bind (clearSlot huser ht dstParent dstName)
      intro _
      apply Triple.of_states
      intro t' ht'
      rcases ht' with ⟨ht', hkept, hslotLost⟩
      -- Neither directory lies in the slot that was cleared.
      have hdstParent' : t'.entryAt dstParent ≠ none := by
        rw [hkept dstParent fun names hnames => ?_]
        · exact hdstParent
        · have hbelow := below_slot hsame hslot harrived names hnames
          exact hclear names dstParent hbelow.1 hbelow.2.2
      have hsrcParent' : t'.entryAt srcParent ≠ none := by
        rw [hkept srcParent fun names hnames => ?_]
        · exact hsrcParent
        · exact hclear' names srcParent (below_slot hsame hslot harrived names hnames).1 hfollow
      refine Triple.bind (R := fun _ t => Underway e n s t ∧ t.entryAt srcParent ≠ none) ?_ fun _ => ?_
      · intro t'' ht'' _
        subst ht''
        have hnext := ht'.linkChild (c := akey) hdstParent' (ht.granted_of_check hdstParent hmodify)
          hslotLost
        have hpresent : ((ArborDb.linkChild dstParent dstName akey).run e t'').2.entryAt srcParent ≠ none :=
          ht'.editDir_present _ hsrcParent'
        generalize (ArborDb.linkChild dstParent dstName akey).run e t'' = out at hnext hpresent ⊢
        rcases out with ⟨_ | _, t₃⟩
        · exact hnext
        · exact ⟨hnext, hpresent⟩
      · apply Triple.of_run
        intro t'' ht''
        exact ht''.1.unlinkChild ht''.2 hlost

/-- What a copy keeps while it runs: a directory that stays, and keys that are still reserved. -/
structure Copying (e : Env) (n : Nat) (s : TxState) (p : AKey) (S : AKey → Prop) (t : TxState) : Prop where
  underway : Underway e n s t
  present : t.entryAt p ≠ none
  reserved : ∀ k, S k → Reserved e n s t k

omit huser hdist hfresh in
/-- A write of a key that has just been released from the reserved ones. -/
theorem Copying.release {S : AKey → Prop} {t t' : TxState} {c : AKey}
    (h : Copying e n s p (fun k => S k ∨ k = c) t) (hc : ¬ S c) (hnext : Underway e n s t')
    (hne : ∀ j, j ≠ c → t'.entryAt j = t.entryAt j) (hdrawn : t.drawn ≤ t'.drawn) :
    Copying e n s p S t' := by
  have habsent := (h.reserved c (.inr rfl)).absent
  refine ⟨hnext, ?_, fun k hk => ?_⟩
  · rw [hne p fun hpc => h.present (hpc ▸ habsent)]
    exact h.present
  · have hkc : k ≠ c := fun hkc => hc (hkc ▸ hk)
    have hreserved := h.reserved k (.inl hk)
    exact ⟨(hne k hkc).trans hreserved.absent, hreserved.new,
      fun i hi hn => hreserved.drawn i (hdrawn.trans hi) hn⟩

/-- A copy writes under the keys it draws. -/
theorem deepCopy (fuel : Nat) (k : AKey) (S : AKey → Prop) :
    Triple e n (Copying e n s p S) (ArborDb.deepCopy fuel k) (fun _ => Copying e n s p S)
      (fun _ => Copying e n s p S) := by
  induction fuel generalizing k S with
  | zero => exact Triple.fail fun _ ht => ht
  | succ fuel ih =>
    apply Triple.guard (fun _ _ ht => ht)
    intro _
    refine Triple.bind (R := fun c t => Copying e n s p (fun k => S k ∨ k = c) t ∧ ¬ S c) ?_ fun c => ?_
    · intro t ht hn
      have hlt : t.drawn < n := hn
      have hgen := generate hdist hfresh ht.underway t rfl hn
      rcases hgen with ⟨hnext, hreserved, _⟩
      refine ⟨⟨hnext, ht.present, fun k hk => ?_⟩, fun hS => ?_⟩
      · rcases hk with hk | hk
        · exact ⟨(ht.reserved k hk).absent, (ht.reserved k hk).new,
            fun i hi hin => (ht.reserved k hk).drawn i ((Nat.le_succ _).trans hi) hin⟩
        · subst hk
          exact hreserved
      · exact (ht.reserved _ hS).drawn t.drawn (Nat.le_refl _) hlt rfl
    refine Triple.of_pre (fun _ ht => ht.2) fun hc => Triple.pre ?_ fun _ ht => ht.1
    have herr : ∀ t, Copying e n s p (fun k => S k ∨ k = c) t → Copying e n s p S t := fun t ht =>
      ⟨ht.underway, ht.present, fun k hk => ht.reserved k (.inl hk)⟩
    apply Triple.guard (fun _ t ht => herr t ht)
    intro kind
    match kind with
    | none => exact Triple.fail fun t ht => herr t ht
    | some .file =>
      apply Triple.guard (fun _ t ht => herr t ht)
      intro entry
      cases entry with
      | none => exact Triple.fail fun t ht => herr t ht
      | some entry =>
        refine Triple.bind (R := fun _ => Copying e n s p S) ?_ fun _ => Triple.pure fun _ ht => ht
        apply Triple.modify
        intro t ht _
        exact ht.release hc (ht.underway.putNew huser (ht.reserved c (.inr rfl)) _)
          (fun j hj => entryAt_putEntry_ne entry hj) (Nat.le_refl _)
    | some .dir =>
      apply Triple.guard (fun _ t ht => herr t ht)
      intro children
      have hcopy : ∀ l copied, Triple e n (Copying e n s p fun k => S k ∨ k = c)
          (copyChildren (ArborDb.deepCopy fuel) l copied)
          (fun _ => Copying e n s p fun k => S k ∨ k = c) (fun _ => Copying e n s p S) := by
        intro l
        induction l with
        | nil => exact fun copied => Triple.pure fun _ ht => ht
        | cons x l ihl =>
          intro copied
          refine Triple.bind ?_ fun _ => ihl _
          exact (ih x.2 _).consequence (fun _ ht => ht) (fun _ _ ht => ht) fun _ t ht => herr t ht
      refine Triple.bind (hcopy _ _) fun copied => ?_
      refine Triple.bind (R := fun _ => Copying e n s p S) ?_ fun _ => Triple.pure fun _ ht => ht
      apply Triple.of_run
      intro t ht
      exact ht.release hc (ht.underway.putDirNew huser (ht.reserved c (.inr rfl)) _)
        (fun j hj => putDir_entryAt_ne copied hj) ((putDir c copied).drawn_le e t)

theorem cpInto (h : Underway e n s t₁) (hsame : ∀ j, t₁.entryAt j = s.entryAt j)
    {src dst dstParentPath : APath} {dstName : Str}
    (hdst : dst.splitLast = some (dstParentPath, dstName)) (hclear : Clear s dst dstParentPath) :
    Triple e n (· = t₁) (ArborDb.cpInto src dst) (fun _ => Underway e n s) (fun _ => Underway e n s) := by
  have hslot := APath.splitLast_eq_some hdst
  refine Triple.inspect_known (dstParentPath, dstName)
    (fun _ _ => by simp only [splitLastOrPanic, hdst]) ?_
  apply Triple.inspect_at (fun _ _ => h)
  intro found _
  cases found with
  | none => exact Triple.fail fun _ ht => ht ▸ h
  | some akey =>
    apply Triple.bind (ensureDir huser hdist hfresh h hsame dstParentPath)
    intro dstParent
    apply Triple.of_states
    intro t ht
    rcases ht with ⟨ht, harrived⟩
    have hdstParent := harrived.1
    apply Triple.inspect_at (fun _ _ => ht)
    intro _ hmodify
    apply Triple.bind (clearSlot huser ht dstParent dstName)
    intro _
    apply Triple.of_states
    intro t' ht'
    rcases ht' with ⟨ht', hkept, hslotLost⟩
    have hdstParent' : t'.entryAt dstParent ≠ none := by
      rw [hkept dstParent fun names hnames => ?_]
      · exact hdstParent
      · have hbelow := below_slot hsame hslot harrived names hnames
        exact hclear names dstParent hbelow.1 hbelow.2.2
    refine Triple.bind (R := fun _ => Copying e n s dstParent fun _ => False) ?_ fun copy => ?_
    · apply Triple.inspect_at (fun _ hfail => by cases hfail)
      intro size _
      refine ((deepCopy huser hdist hfresh (size + 1) akey _).consequence ?_ (fun _ _ ht => ht)
        fun _ _ ht => ht.underway)
      intro t'' ht''
      subst ht''
      exact ⟨ht', hdstParent', fun _ hfalse => hfalse.elim⟩
    · apply Triple.of_run
      intro t'' ht''
      exact ht''.underway.linkChild ht''.present (ht.granted_of_check hdstParent hmodify) hslotLost

/-! ### Calls -/

section Calls

variable [Externals]

theorem putScalarInto (h : Underway e n s t₁) (hsame : ∀ j, t₁.entryAt j = s.entryAt j)
    {path : APath} (hclear : ∀ parentPath name, path.splitLast = some (parentPath, name) →
      Clear s path parentPath) (hint : Option (AKey × UInt64)) (vpath : VPath) (scalar : Scalar) :
    Triple e n (· = t₁) (ArborDb.putScalarInto path hint vpath scalar) (fun _ => Underway e n s)
      (fun _ => Underway e n s) := by
  apply Triple.inspect_at (fun _ _ => h)
  intro target htarget
  cases target with
  | none =>
    change Triple e n _ (ArborDb.storeBlobInto path _) _ _
    cases hsplit : path.splitLast with
    | none =>
      refine Triple.inspect_at (fun _ _ => h) fun split hfound => ?_
      simp only [splitLastOrPanic, hsplit] at hfound
      cases hfound
    | some split =>
      exact storeBlobInto huser hdist hfresh h hsame hsplit (hclear split.1 split.2 hsplit) _
  | some target =>
    obtain ⟨akey, entry⟩ := target
    have hread := (resolveTarget_cases htarget).1
    apply Triple.inspect_at (fun _ _ => h)
    intro _ hmodify
    -- Only a file has a blob to write back.
    have hput : ∀ b blob, entry = .file b → Triple e n (· = t₁) (ArborDb.putFileEdit akey blob)
        (fun _ => Underway e n s) (fun _ => Underway e n s) := by
      intro b blob hb
      subst hb
      have hentry := h.tidy.coherent.file_of_read hread
      have hne : t₁.entryAt akey ≠ none := by rw [hentry]; exact Option.some_ne_none _
      apply Triple.of_run
      intro t ht
      subst ht
      exact h.putFileEdit hentry (h.granted_of_check hne hmodify) blob
    apply Triple.inspect_at (fun _ _ => h)
    intro patched hpatched
    cases patched with
    | some blob =>
      cases entry with
      | leaf b => exact hput b blob rfl
      | branch m => cases hpatched
    | none =>
      apply Triple.inspect_at (fun _ _ => h)
      intro blob hblob
      cases entry with
      | leaf b => exact hput b blob rfl
      | branch m => cases hblob

omit huser hdist hfresh in
/-- The bracket flushes the buffer first, which changes no a-node. -/
theorem reindexAround (h : Underway e n s s) {indexes : List IndexEntry} {scopes : List APath} {α : Type}
    {apply : TxM α}
    (happly : ∀ t₁, Underway e n s t₁ → (∀ j, t₁.entryAt j = s.entryAt j) →
      Triple e n (· = t₁) apply (fun _ => Underway e n s) (fun _ => Underway e n s)) :
    Triple e n (· = s) (ArborDb.reindexAround indexes scopes apply) (fun _ => Underway e n s)
      (fun _ => Underway e n s) := by
  have hindex : Unindexed fun t => Underway e n s t ∧ ∀ j, t.entryAt j = s.entryAt j :=
    fun t index ht => ⟨unindexed t index ht.1, ht.2⟩
  unfold ArborDb.reindexAround
  split
  · exact happly s h fun _ => rfl
  · refine Triple.bind (R := fun _ t => Underway e n s t ∧ ∀ j, t.entryAt j = s.entryAt j) ?_ fun _ => ?_
    · refine (Triple.of_run ?_).consequence (fun _ ht => ht) (fun _ _ ht => ht) fun _ _ ht => ht.1
      intro t ht
      subst ht
      exact ⟨h.flushed false, fun j => entryAt_flushed false j⟩
    refine Triple.bind (R := fun _ t => Underway e n s t ∧ ∀ j, t.entryAt j = s.entryAt j) ?_ fun _ => ?_
    · apply Triple.forEach_keeps
      intro scope _
      exact (deleteEntries_keeps hindex).consequence (fun _ ht => ht) (fun _ _ ht => ht) fun _ _ ht => ht.1
    refine Triple.bind (Triple.of_states fun t₁ ht₁ => happly t₁ ht₁.1 ht₁.2) fun _ => ?_
    refine Triple.bind (R := fun _ => Underway e n s) ?_ fun _ => Triple.pure fun _ ht => ht
    apply Triple.forEach_keeps
    intro scope _
    exact insertEntries_keeps unindexed

end Calls

end Programs

end Underway

end ArborDb
