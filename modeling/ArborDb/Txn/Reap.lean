import ArborDb.Lib.Thin
import ArborDb.Txn.Seals

/-!
# Reaping what a user owns

The removal of a user collects the links to the top-most a-nodes the user owns, and deletes each of
them with everything below it. A reaping that ends removes exactly the a-nodes at or below an owned
a-node that the root leads to, whatever the shape of the table: the links left over are those of the
table before, and what stays keeps its entry up to the links to what is gone.
-/

namespace ArborDb

open Layout (Thins)
open Prog (Maintains Triple)

variable {e : Env} {n : Nat}

/-! ## Writing straight to the table -/

/-- Nothing is buffered, and nothing will be. -/
def WriteBuffer.Idle (b : WriteBuffer) : Prop := b.buffering = false ∧ ∀ k, ¬ b.Holds k

theorem WriteBuffer.Idle.forget {b : WriteBuffer} (h : b.Idle) (akey : AKey) :
    (b.forget akey).Idle := by
  refine ⟨h.1, ?_⟩
  intro k hheld
  refine h.2 k ?_
  rcases hheld with hdir | hfile
  · rw [WriteBuffer.get_dirs_forget] at hdir
    exact .inl fun hnone => hdir (by rw [hnone]; split <;> rfl)
  · rw [WriteBuffer.get_files_forget] at hfile
    exact .inr fun hnone => hfile (by rw [hnone]; split <;> rfl)

theorem WriteBuffer.Idle.fileForget {b : WriteBuffer} (h : b.Idle) (akey : AKey) :
    (b.fileForget akey).Idle := by
  refine ⟨h.1, ?_⟩
  intro k hheld
  refine h.2 k ?_
  rcases hheld with hdir | hfile
  · exact .inl hdir
  · rw [WriteBuffer.get_files_fileForget] at hfile
    exact .inr fun hnone => hfile (by rw [hnone]; split <;> rfl)

/-- Reaping writes straight to the table. -/
theorem reapOwned_idle (n : Nat) (uid : Id32) :
    Maintains e n (fun s => s.buffer.Idle) (reapOwned uid) := by
  have hcascade : ∀ fuel k, Maintains e n (fun s => s.buffer.Idle) (cascadeDelete fuel k) := by
    intro fuel
    induction fuel with
    | zero => exact fun k => Maintains.fail _
    | succ fuel ih =>
      intro k
      refine Maintains.guard fun children => ?_
      cases children with
      | none => exact Maintains.pure _
      | some children =>
        refine (Maintains.forEach fun c _ => ih c).bind fun _ => ?_
        exact Maintains.modify fun s hs => hs.forget k
  have hedit : ∀ k edit, Maintains e n (fun s => s.buffer.Idle) (editDir k edit) := by
    intro k edit
    refine Maintains.bind (Maintains.modify fun s hs => hs) fun _ => Maintains.guard fun m => ?_
    refine Maintains.inspect fun s buffering hs hbuffering => ?_
    cases hbuffering
    rw [if_neg (by simp [hs.1])]
    refine Maintains.modify fun s' hs' => ?_
    rw [if_neg (by simp [hs'.1])]
    exact hs'.fileForget k
  refine Maintains.guard fun victims => Maintains.forEach fun victim _ => Maintains.guard fun found => ?_
  cases found with
  | none => exact Maintains.pure _
  | some c =>
    exact (Maintains.guard fun size => hcascade (size + 1) c).bind fun _ => hedit victim.1 _

/-! ## Reads of a table without a buffer -/

section Reads

variable {s : TxState} {k : AKey}

theorem WriteBuffer.Idle.dirGet (h : s.buffer.Idle) (k : AKey) : s.buffer.dirGet k = none := by
  rw [WriteBuffer.dirGet_eq]
  exact of_not_not fun hne => h.2 k (.inl hne)

theorem WriteBuffer.Idle.fileGet (h : s.buffer.Idle) (k : AKey) : s.buffer.fileGet k = none := by
  rw [WriteBuffer.fileGet_eq]
  exact of_not_not fun hne => h.2 k (.inr hne)

theorem readVerified_idle (h : s.buffer.Idle) {found : Option Entry} (hread : readVerified e s k = .ok found) :
    found = s.data.get k := by
  unfold readVerified at hread
  rw [h.fileGet] at hread
  unfold readTable at hread
  dsimp only at hread
  split at hread
  · rename_i hget
    cases hread
    exact hget.symm
  · rename_i entry hget
    obtain ⟨_, _, hread⟩ := Except.bind_eq_ok.1 hread
    cases hread
    exact hget.symm

theorem child_idle (h : s.buffer.Idle) {name : Str} {found : Option AKey}
    (hread : child e s k name = .ok found) : found = Layout.childOf s.data.get k name := by
  unfold child at hread
  rw [h.dirGet] at hread
  obtain ⟨entry, hentry, hread⟩ := Except.bind_eq_ok.1 hread
  rw [Layout.childOf, ← readVerified_idle h hentry]
  rcases entry with _ | _ | _ <;> cases hread <;> rfl

theorem kind_idle (h : s.buffer.Idle) {found : Option EntryKind} (hread : kind e s k = .ok found) :
    found = (s.data.get k).map Entry.kind := by
  unfold kind at hread
  rw [h.dirGet] at hread
  obtain ⟨entry, hentry, hread⟩ := Except.bind_eq_ok.1 hread
  rw [← readVerified_idle h hentry]
  cases hread
  rfl

theorem dirChildren_idle (h : s.buffer.Idle) {children : SortedMap Str AKey}
    (hread : dirChildren e s k = .ok children) :
    s.data.get k = some (.dir children) ∨ s.data.get k = none ∧ children = .empty := by
  unfold dirChildren at hread
  rw [h.dirGet] at hread
  obtain ⟨entry, hentry, hread⟩ := Except.bind_eq_ok.1 hread
  rw [← readVerified_idle h hentry]
  rcases entry with _ | _ | _
  · cases hread
    exact .inr ⟨rfl, rfl⟩
  · cases hread
  · cases hread
    exact .inl rfl

theorem cascadeChildren_idle (h : s.buffer.Idle) {found : Option (List AKey)}
    (hread : cascadeChildren e s k = .ok found) : found = (s.data.get k).map Layout.Cell.linked := by
  unfold cascadeChildren at hread
  rw [h.dirGet] at hread
  obtain ⟨entry, hentry, hread⟩ := Except.bind_eq_ok.1 hread
  rw [← readVerified_idle h hentry]
  rcases entry with _ | _ | _ <;> cases hread <;> rfl

end Reads

/-! ## Deleting a subtree -/

/-- The state `s` is `s₀` without the a-node `k` and what lies below it. -/
structure Cut (k : AKey) (s₀ s : TxState) : Prop where
  idle : s.buffer.Idle
  thins : Thins s₀.data.get s.data.get
  gone : s.data.get k = none
  below : ∀ {x}, s₀.data.get x ≠ none → s.data.get x = none → ∃ p, Layout.walk s₀.data.get k p = some x
  acl : ∀ {x}, s.data.get x ≠ none → s.inodes.readAcl x = s₀.inodes.readAcl x

theorem TxState.get_removeEntry (s : TxState) (e : Env) (k : AKey) :
    (s.removeEntry e k).data.get = Function.update s.data.get k none := by
  funext j
  rw [Function.update_apply]
  exact SortedMap.get_erase s.data k j

theorem TxState.readAcl_removeEntry (s : TxState) (e : Env) {k j : AKey} (hj : j ≠ k) :
    (s.removeEntry e k).inodes.readAcl j = s.inodes.readAcl j := by
  unfold TxState.removeEntry
  dsimp only
  split
  · rfl
  · rw [Policy.readAcl_forget, if_neg hj]

/-- A deletion that ends cuts the a-node off. -/
theorem cascadeDelete_cuts (fuel : Nat) (k : AKey) (s₀ : TxState) (hidle : s₀.buffer.Idle) :
    Triple e n (· = s₀) (cascadeDelete fuel k) (fun _ => Cut k s₀) (fun _ _ => True) := by
  induction fuel generalizing k s₀ with
  | zero => exact Triple.fail fun _ _ => trivial
  | succ fuel ih =>
    refine Triple.inspect_at (fun _ _ => trivial) fun children hchildren => ?_
    have hlinked := cascadeChildren_idle hidle hchildren
    cases hentry : s₀.data.get k with
    | none =>
      rw [hentry] at hlinked
      subst hlinked
      refine Triple.pure ?_
      rintro _ rfl
      exact ⟨hidle, .refl _, hentry, fun h h' => absurd h' h, fun _ => rfl⟩
    | some entry =>
      rw [hentry] at hlinked
      subst hlinked
      have hchild : ∀ c ∈ entry.linked, ∃ name, Layout.childOf s₀.data.get k name = some c := by
        intro c hc
        cases entry with
        | leaf blob => cases hc
        | branch links =>
          obtain ⟨⟨name, c'⟩, hmem, rfl⟩ := List.mem_map.1 hc
          exact ⟨name, by rw [Layout.childOf_branch hentry]; exact SortedMap.get_iff_mem.2 hmem⟩
      -- The children done so far are gone, and what is gone lay below one of them.
      let I : List AKey → TxState → Prop := fun done s =>
        s.buffer.Idle ∧ Thins s₀.data.get s.data.get ∧ (∀ c ∈ done, s.data.get c = none) ∧
        (∀ x, s₀.data.get x ≠ none → s.data.get x = none → ∃ p, Layout.walk s₀.data.get k p = some x) ∧
        ∀ x, s.data.get x ≠ none → s.inodes.readAcl x = s₀.inodes.readAcl x
      have hloop : Triple e n (I []) (Prog.forEach (cascadeDelete fuel) entry.linked)
          (fun _ => I entry.linked) (fun _ _ => True) := by
        refine Triple.forEach I fun done c rest hl => Triple.of_states fun s hs => ?_
        obtain ⟨hsidle, hthins, hdone, hbelow, hacl⟩ := hs
        refine (ih c s hsidle).post fun _ s' hcut => ?_
        refine ⟨hcut.idle, hthins.trans hcut.thins, ?_, ?_, ?_⟩
        · intro d hd
          rcases List.mem_append.1 hd with hd | hd
          · exact hcut.thins.absent (hdone d hd)
          · rw [List.mem_singleton.1 hd]
            exact hcut.gone
        · intro x hx hgone
          by_cases hmid : s.data.get x = none
          · exact hbelow x hx hmid
          · obtain ⟨p, hp⟩ := hcut.below hmid hgone
            obtain ⟨name, hname⟩ := hchild c (by simp [hl])
            refine ⟨name :: p, ?_⟩
            rw [Layout.walk, hname]
            exact hthins.walk hp
        · intro x hx
          rw [hcut.acl hx]
          exact hacl x fun hnone => hx (hcut.thins.absent hnone)
      refine Triple.bind (R := fun _ => I entry.linked) (hloop.pre ?_) fun _ => Triple.modify ?_
      · rintro _ rfl
        exact ⟨hidle, .refl _, by simp, fun x h h' => absurd h' h, fun _ _ => rfl⟩
      · rintro s ⟨hsidle, hthins, hdone, hbelow, hacl⟩ -
        have hget := s.get_removeEntry e k
        have hrest : ∀ {x}, x ≠ k → (s.removeEntry e k).data.get x = s.data.get x := fun hx => by
          rw [hget, Function.update_of_ne hx]
        refine ⟨hsidle.forget k, hthins.trans ?_, by rw [hget, Function.update_self], ?_, ?_⟩
        · rw [hget]
          refine Thins.remove fun name c hc => hdone c ?_
          have hc₀ := hthins.childOf hc
          cases entry with
          | leaf blob =>
            rw [Layout.childOf, hentry] at hc₀
            cases hc₀
          | branch links =>
            rw [Layout.childOf_branch hentry] at hc₀
            exact List.mem_map.2 ⟨_, SortedMap.get_iff_mem.1 hc₀, rfl⟩
        · intro x hx hgone
          by_cases hxk : x = k
          · exact ⟨[], by rw [hxk]; rfl⟩
          · rw [hrest hxk] at hgone
            exact hbelow x hx hgone
        · intro x hx
          have hxk : x ≠ k := by
            rintro rfl
            exact hx (by rw [hget, Function.update_self])
          rw [hrest hxk] at hx
          exact (s.readAcl_removeEntry e hxk).trans (hacl x hx)

/-! ## Collecting -/

/-- A user owns an a-node. -/
def InodeTable.Owns (inodes : InodeTable) (uid : Id32) (k : AKey) : Prop :=
  (inodes.readAcl k).map Acl.ownerUid = some uid

/-- The a-nodes that reaping a table removes: those at or below an owned a-node that the root leads
to. -/
def TxState.Reaped (s : TxState) (uid : Id32) (x : AKey) : Prop :=
  ∃ q c p, q ≠ [] ∧ Layout.walk s.data.get .root q = some c ∧ s.inodes.Owns uid c ∧
    Layout.walk s.data.get c p = some x

section Collect

variable {s : TxState} {uid : Id32}

/-- A link that is collected leads to an owned a-node. -/
theorem collectOwned_sound (hidle : s.buffer.Idle) {fuel : Nat} {dir : AKey} {victims : List (AKey × Str)}
    (h : collectOwned e s uid fuel dir = .ok victims) {victim : AKey × Str} (hv : victim ∈ victims) :
    ∃ q c, Layout.walk s.data.get dir q = some victim.1 ∧
      Layout.childOf s.data.get victim.1 victim.2 = some c ∧ s.inodes.Owns uid c := by
  induction fuel generalizing dir victims with
  | zero => cases h
  | succ fuel ih =>
    obtain ⟨children, hchildren, h⟩ := Except.bind_eq_ok.1 h
    obtain ⟨found, hfound, h⟩ := Except.bind_eq_ok.1 h
    cases h
    obtain ⟨part, hpart, hv⟩ := List.mem_flatten.1 hv
    obtain ⟨⟨name, c⟩, hmem, hx⟩ := (Except.mem_mapM hfound).1 hpart
    have hget : children.get name = some c := SortedMap.get_iff_mem.2 hmem
    have hchild : Layout.childOf s.data.get dir name = some c := by
      rcases dirChildren_idle hidle hchildren with hdir | ⟨-, rfl⟩
      · rw [Layout.childOf_branch hdir, hget]
      · cases hget
    dsimp only at hx
    split at hx
    · rename_i howns
      cases hx
      cases List.mem_singleton.1 hv
      exact ⟨[], c, rfl, hchild, howns⟩
    · obtain ⟨k, hk, hx⟩ := Except.bind_eq_ok.1 hx
      split at hx
      · obtain ⟨q, c', hq, hc', howns⟩ := ih hx hv
        refine ⟨name :: q, c', ?_, hc', howns⟩
        rw [Layout.walk, hchild]
        exact hq
      · cases hx
        cases hv

/-- Every owned a-node below the directory is below a link that is collected. -/
theorem collectOwned_complete (hidle : s.buffer.Idle) {fuel : Nat} {dir : AKey}
    {victims : List (AKey × Str)} (h : collectOwned e s uid fuel dir = .ok victims) {q : List Str}
    (hq : q ≠ []) {k : AKey} (hwalk : Layout.walk s.data.get dir q = some k) (howns : s.inodes.Owns uid k) :
    ∃ victim ∈ victims, ∃ c p, Layout.childOf s.data.get victim.1 victim.2 = some c ∧
      Layout.walk s.data.get c p = some k := by
  induction fuel generalizing dir victims q with
  | zero => cases h
  | succ fuel ih =>
    obtain ⟨name, q, rfl⟩ := List.exists_cons_of_ne_nil hq
    obtain ⟨c, hchild, hwalk⟩ := Option.bind_eq_some_iff.1 hwalk
    obtain ⟨children, hchildren, h⟩ := Except.bind_eq_ok.1 h
    obtain ⟨found, hfound, h⟩ := Except.bind_eq_ok.1 h
    cases h
    have hmem : (name, c) ∈ children.entries := by
      rcases dirChildren_idle hidle hchildren with hdir | ⟨hnone, -⟩
      · rw [Layout.childOf_branch hdir] at hchild
        exact SortedMap.get_iff_mem.1 hchild
      · rw [Layout.childOf, hnone] at hchild
        cases hchild
    obtain ⟨part, hx⟩ := Except.mapM_ok hfound (name, c) hmem
    have hpart : part ∈ found := (Except.mem_mapM hfound).2 ⟨_, hmem, hx⟩
    dsimp only at hx
    split at hx
    · cases hx
      exact ⟨(dir, name), List.mem_flatten.2 ⟨_, hpart, List.mem_singleton.2 rfl⟩, c, q, hchild, hwalk⟩
    · rename_i hforeign
      obtain ⟨found', hkind, hx⟩ := Except.bind_eq_ok.1 hx
      have hq' : q ≠ [] := by
        rintro rfl
        cases hwalk
        exact hforeign howns
      obtain ⟨name', q', rfl⟩ := List.exists_cons_of_ne_nil hq'
      obtain ⟨d, hd, -⟩ := Option.bind_eq_some_iff.1 hwalk
      obtain ⟨links, hlinks⟩ := Layout.present_of_childOf hd
      have hdir : found' = some .dir := by
        rw [kind_idle hidle hkind, hlinks]
        rfl
      rw [if_pos hdir] at hx
      obtain ⟨victim, hv, hrest⟩ := ih hx hq' hwalk
      exact ⟨victim, List.mem_flatten.2 ⟨part, hpart, hv⟩, hrest⟩

end Collect

/-! ## Reaping -/

/-- The state `s` while the table `s₀` is reaped. -/
structure Reaping (e : Env) (uid : Id32) (s₀ s : TxState) : Prop where
  idle : s.buffer.Idle
  thins : Thins s₀.data.get s.data.get
  reaped : ∀ {x}, s₀.data.get x ≠ none → s.data.get x = none → s₀.Reaped uid x
  acl : ∀ {x}, s.data.get x ≠ none → s.inodes.readAcl x = s₀.inodes.readAcl x ∨
    s₀.inodes.readAcl x = none ∧ s.inodes.readAcl x = e.ownAcl x

/-- Editing a directory without a buffer rewrites its entry. -/
theorem editDir_idle (s₀ : TxState) (hidle : s₀.buffer.Idle) (k : AKey)
    (edit : SortedMap Str AKey → SortedMap Str AKey) :
    Triple e n (· = s₀) (editDir k edit) (fun _ s => s.buffer.Idle ∧
        ∃ children, dirChildren e s₀ k = .ok children ∧
          s.data.get = Function.update s₀.data.get k (some (.dir (edit children))) ∧
          s.inodes = e.record s₀.inodes k (.dir (edit children)))
      (fun _ _ => True) := by
  let s₁ : TxState := { s₀ with buffer := s₀.buffer.bumpStructure }
  have hidle₁ : s₁.buffer.Idle := hidle
  refine Triple.bind (R := fun _ s => s = s₁) (Triple.modify fun s hs _ => by rw [hs]) fun _ => ?_
  refine Triple.inspect_at (fun _ _ => trivial) fun children hchildren => ?_
  refine Triple.inspect_known false (fun s hs => by rw [hs, hidle₁.1]) ?_
  rw [if_neg (by simp)]
  refine Triple.modify ?_
  rintro _ rfl -
  rw [if_neg (by simp [hidle₁.1])]
  refine ⟨hidle₁.fileForget k, children, hchildren, ?_, rfl⟩
  funext j
  rw [Function.update_apply]
  exact SortedMap.get_insert s₀.data k j _

/-- Reaping one link leaves what it led to gone. -/
theorem reapVictim_spec {uid : Id32} {s₀ : TxState} {victim : AKey × Str} {c : AKey} {q : List Str}
    (hq : Layout.walk s₀.data.get .root q = some victim.1)
    (hc : Layout.childOf s₀.data.get victim.1 victim.2 = some c) (howns : s₀.inodes.Owns uid c)
    {s : TxState} (h : Reaping e uid s₀ s) :
    Triple e n (· = s) (reapVictim victim)
      (fun _ s' => Reaping e uid s₀ s' ∧ s'.data.get c = none ∧ Thins s.data.get s'.data.get)
      (fun _ _ => True) := by
  refine Triple.inspect_at (fun _ _ => trivial) fun found hfound => ?_
  have hchild := child_idle h.idle hfound
  cases found with
  | none =>
    refine Triple.pure ?_
    rintro _ rfl
    refine ⟨h, ?_, .refl _⟩
    rcases h.thins.childOf_or hc with hsame | hgone
    · rw [← hchild] at hsame
      cases hsame
    · exact hgone
  | some c' =>
    have hc' : c' = c := Option.some.inj ((h.thins.childOf hchild.symm).symm.trans hc)
    subst hc'
    have hcascade : Triple e n (· = s) (bounded (cascadeDelete · c')) (fun _ => Cut c' s) (fun _ _ => True) := by
      refine Triple.inspect_at (fun _ _ => trivial) fun size _ => ?_
      exact cascadeDelete_cuts _ c' s h.idle
    refine Triple.bind hcascade fun _ => Triple.of_states fun s₁ hcut => ?_
    refine (editDir_idle s₁ hcut.idle victim.1 _).post ?_
    rintro _ s₂ ⟨hidle₂, children, hchildren, hget, hinodes⟩
    -- The parent is still there: else it would lie below its own child.
    have hparent : s₁.data.get victim.1 ≠ none := by
      intro hgone
      obtain ⟨links, hlinks⟩ := Layout.present_of_childOf hchild.symm
      have hstored : s.data.get victim.1 ≠ none := by simp [hlinks]
      obtain ⟨p, hp⟩ := hcut.below hstored hgone
      refine Layout.walk_ne_self (hcut.thins.ends hstored hgone) hstored (p := victim.2 :: p) (by simp) ?_
      rw [Layout.walk, ← hchild]
      exact hp
    have hdir : s₁.data.get victim.1 = some (.dir children) :=
      (dirChildren_idle hcut.idle hchildren).resolve_right fun h => hparent h.1
    have hunlink : Thins s₁.data.get s₂.data.get := by
      rw [hget]
      refine Thins.unlink hdir fun d hd => ?_
      have hd' := hcut.thins.childOf ((Layout.childOf_branch hdir victim.2).trans hd)
      rw [← hchild] at hd'
      cases hd'
      exact hcut.gone
    have hthins : Thins s.data.get s₂.data.get := hcut.thins.trans hunlink
    have hsame : ∀ {x}, s₂.data.get x = none → s₁.data.get x = none := by
      intro x hx
      rw [hget, Function.update_apply] at hx
      split at hx
      · cases hx
      · exact hx
    refine ⟨⟨hidle₂, h.thins.trans hthins, ?_, ?_⟩, hunlink.absent hcut.gone, hthins⟩
    · intro x hx hgone
      by_cases hmid : s.data.get x = none
      · exact h.reaped hx hmid
      · obtain ⟨p, hp⟩ := hcut.below hmid (hsame hgone)
        refine ⟨q ++ [victim.2], c', p, by simp, ?_, howns, h.thins.walk hp⟩
        rw [Layout.walk_append, hq]
        simp [Layout.walk, hc]
    · intro x hx
      have hx₁ : s₁.data.get x ≠ none := fun hnone => hx (hunlink.absent hnone)
      have hx₀ : s.data.get x ≠ none := fun hnone => hx₁ (hcut.thins.absent hnone)
      have hbefore := h.acl hx₀
      rw [← hcut.acl hx₁] at hbefore
      rw [hinodes, readAcl_record]
      split
      · rename_i hxk
        subst hxk
        rcases hbefore with hkept | ⟨hnone, hown⟩
        · cases hacl : s₀.inodes.readAcl victim.1 with
          | none =>
            rw [hkept, hacl]
            exact .inr ⟨rfl, rfl⟩
          | some acl =>
            rw [hkept, hacl]
            exact .inl rfl
        · rw [hown, Option.or_self]
          exact .inr ⟨hnone, rfl⟩
      · exact hbefore

/-- **A reaping that ends removes exactly the owned a-nodes that the root leads to, and what lies
below them.** -/
theorem reapOwned_spec (uid : Id32) {s₀ : TxState} (hidle : s₀.buffer.Idle) :
    Triple e n (· = s₀) (reapOwned uid) (fun _ s => Reaping e uid s₀ s ∧
      ∀ x, s₀.Reaped uid x → s.data.get x = none) (fun _ _ => True) := by
  refine Triple.inspect_at (fun _ _ => trivial) fun victims hvictims => ?_
  -- What the links done so far led to is gone.
  let I : List (AKey × Str) → TxState → Prop := fun done s => Reaping e uid s₀ s ∧
    ∀ victim ∈ done, ∀ c, Layout.childOf s₀.data.get victim.1 victim.2 = some c → s.data.get c = none
  have hloop : Triple e n (I []) (Prog.forEach reapVictim victims) (fun _ => I victims)
      (fun _ _ => True) := by
    refine Triple.forEach I fun done victim rest hl => Triple.of_states fun s hs => ?_
    obtain ⟨q, c, hq, hc, howns⟩ := collectOwned_sound hidle hvictims
      (show victim ∈ victims by simp [hl])
    refine (reapVictim_spec hq hc howns hs.1).post ?_
    rintro _ s' ⟨hreaping, hgone, hthins⟩
    refine ⟨hreaping, fun victim' hv' d hd => ?_⟩
    rcases List.mem_append.1 hv' with hv' | hv'
    · exact hthins.absent (hs.2 victim' hv' d hd)
    · rw [List.mem_singleton.1 hv', hc] at hd
      cases hd
      exact hgone
  refine (hloop.pre ?_).post ?_
  · rintro _ rfl
    exact ⟨⟨hidle, .refl _, fun h h' => absurd h' h, fun _ => .inl rfl⟩, by simp⟩
  · rintro _ s ⟨hreaping, hdone⟩
    refine ⟨hreaping, ?_⟩
    rintro x ⟨q, c, p, hq, hwalk, howns, hp⟩
    obtain ⟨victim, hv, d, r, hd, hr⟩ := collectOwned_complete hidle hvictims hq hwalk howns
    exact hreaping.thins.gone_below (hreaping.thins.gone_below (hdone victim hv d hd) hr) hp

end ArborDb
