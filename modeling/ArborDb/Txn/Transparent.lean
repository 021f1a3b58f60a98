import ArborDb.Txn.Cursor
import ArborDb.Txn.Indexed
import ArborDb.Txn.Mirror
import ArborDb.Txn.WellFormed

/-!
# The buffer is transparent

Every mutation is run on two states that mirror each other, one that may buffer and one that does not. The
runs return the same or fail the same, draw the same keys, and leave states that mirror each other. A tree
tells that the directories a mutation edits are still there when it does.
-/

namespace ArborDb

open Prog (Lockstep Triple)
open Layout (Holds Made Under wipe)

variable {e : Env} {P : Policy e} {n d : Nat} {v : View} {s s' : TxState} {k : AKey} {t : ATree} {p : List Str}

/-- A state that shows a tree and is mirrored. -/
theorem Mirrored.shows {R : ATree → Prop} (h : Mirrored P n s s') (hs : Shows P n d R s) :
    ∃ d' v' t', Mirror P n d' v' s s' ∧ Holds .root v' t' ∧ R t' := by
  obtain ⟨d₁, v₁, h₁⟩ := h
  obtain ⟨d₂, v₂, t₂, -, hs₂, ht₂, hR⟩ := hs
  obtain ⟨rfl, rfl⟩ := hs₂.unique h₁.left
  exact ⟨_, _, t₂, h₁, ht₂, hR⟩

/-- What two runs fail with leaves them mirrored. -/
abbrev MirroredFault (P : Policy e) (n : Nat) (_ : AdbError) : TxState → TxState → Prop := Mirrored P n

theorem Mirror.fault (err : AdbError) (s s' : TxState) (h : Mirror P n d v s s') : MirroredFault P n err s s' :=
  h.mirrored

/-! ## Directories -/

section Mutations

variable (hdist : Distinct e n) (hsettled : P.Settled)

include hdist hsettled

theorem ensureDirFrom_mirror {names : List Str} {m : SortedMap Str AKey} (hk : v k = some (.dir m)) :
    Lockstep e n (Mirror P n d v) (ensureDirFrom k names) (fun _ => Mirrored P n) (MirroredFault P n) := by
  induction names generalizing k d v m with
  | nil => exact Lockstep.pure fun _ _ h => h.mirrored
  | cons name names ih =>
    unfold ensureDirFrom
    refine Lockstep.guard (fun _ _ h => h.check k .access) Mirror.fault fun _ => ?_
    refine Lockstep.inspect_known _ (fun _ _ h => h.child k name) ?_
    cases Layout.childOf v k name with
    | some c =>
      refine Lockstep.inspect_known _ (fun _ _ h => h.kind c) ?_
      split
      · exact Lockstep.fail fun _ _ h => h.mirrored
      · rename_i hdir
        obtain ⟨m', hm'⟩ := dir_of_kind (not_not.1 hdir)
        exact ih hm'
    | none =>
      refine Lockstep.guard (fun _ _ h => h.check k .modify) Mirror.fault fun _ => ?_
      refine Lockstep.bind (generate_mirror hdist) fun c => Lockstep.of_pre (fun _ _ h => h.1) fun hc => ?_
      have hne : c ≠ k := by
        rintro rfl
        rw [hc.free] at hk
        cases hk
      refine Lockstep.bind ((putDir_mirror hc.used hc.free).pre fun _ _ h => h.2) fun _ => ?_
      have hk' : Function.update v c (some (.dir .empty)) k = some (.dir m) := by
        rw [Function.update_of_ne hne.symm, hk]
      refine Lockstep.bind (editDir_mirror hsettled hk') fun _ => ?_
      have hc' : Function.update (Function.update v c (some (.dir .empty))) k (some (.dir (m.insert name c))) c =
          some (.dir .empty) := by
        rw [Function.update_of_ne hne, Function.update_self]
      exact ih hc'

/-- The two runs make the same directories. -/
theorem ensureDir_mirror {path : APath} (ht : Holds .root v t) :
    Lockstep e n (Mirror P n d v) (ensureDir path)
      (fun r s s' => ∃ d' v' t', Mirror P n d' v' s s' ∧ Holds .root v' t' ∧ Made t t' path.names ∧
        t' path.names = some ⟨r, none⟩) (MirroredFault P n) := by
  have hrun : Lockstep e n (Mirror P n d v) (ensureDir path) (fun _ => Mirrored P n) (MirroredFault P n) := by
    unfold ensureDir ensureRoot
    refine Lockstep.bind (S := fun _ s s' => ∃ v', (∃ m, v' .root = some (.dir m)) ∧ Mirror P n d v' s s') ?_
      fun _ => Lockstep.of_exists fun v' => Lockstep.of_pre (fun _ _ h => h.1) ?_
    · refine Lockstep.inspect_known (v .root).isSome
        (fun _ _ h => ⟨congrArg _ (h.left.hasEntry _), congrArg _ (h.right.hasEntry _)⟩) ?_
      cases hroot : t [] with
      | some a =>
        obtain rfl := ht.top hroot
        obtain ⟨m, hm, -⟩ := ht.branch hroot
        rw [hm]
        exact Lockstep.pure fun _ _ h => ⟨v, ⟨m, hm⟩, h⟩
      | none =>
        have hnone : v .root = none := ht.eq_none hroot .root
        rw [hnone]
        refine (putDir_mirror (fun i _ hin => (hdist i hin).1) hnone).post fun _ _ _ h => ?_
        exact ⟨_, ⟨_, Function.update_self ..⟩, h⟩
    · rintro ⟨m, hm⟩
      exact (ensureDirFrom_mirror hdist hsettled hm).pre fun _ _ h => h.2
  have hshows : ∀ s s', Mirror P n d v s s' → Triple e n (· = s) (ensureDir path)
      (fun r => Shows P n d fun t' => Made t t' path.names ∧ t' path.names = some ⟨r, none⟩) (fun _ _ => True) :=
    fun s s' h => (mkdir_spec hdist h.left ht).consequence (fun _ h => h) (fun _ _ h => h) fun _ _ _ => trivial
  exact (hrun.with_triple hshows).post fun r s s' h => h.1.shows h.2

end Mutations

/-! ## Deletions -/

/-- Mirrored, with the same keys drawn. -/
def MirroredAt (P : Policy e) (n d : Nat) (s s' : TxState) : Prop := ∃ v, Mirror P n d v s s'

theorem cascadeDelete_mirror (fuel : Nat) (k : AKey) :
    Lockstep e n (MirroredAt P n d) (cascadeDelete fuel k) (fun _ => MirroredAt P n d) (MirroredFault P n) := by
  induction fuel generalizing k with
  | zero => exact Lockstep.fail fun _ _ h => ⟨d, h⟩
  | succ fuel ih =>
    refine Lockstep.of_exists fun v => ?_
    unfold cascadeDelete
    refine Lockstep.inspect_known _ (fun _ _ h => ⟨h.left.cascadeChildren k, h.right.cascadeChildren k⟩) ?_
    cases hv : v k with
    | none => exact Lockstep.pure fun _ _ h => ⟨v, h⟩
    | some c =>
      refine Lockstep.of_pre (fun _ _ h => h.left.used (k := k) (by simp [hv])) fun hk => ?_
      refine Lockstep.bind (S := fun _ => MirroredAt P n d)
        ((Lockstep.forEach fun child _ => ih child).pre fun _ _ h => ⟨v, h⟩) fun _ => ?_
      exact Lockstep.of_exists fun v' => (removeEntry_mirror hk).post fun _ _ _ h => ⟨_, h⟩

/-- The two runs delete the same subtree. -/
theorem delete_mirror {a : Layout.Node AKey Bytes} (ht : Holds .root v t) (ha : t p = some a) :
    Lockstep e n (Mirror P n d v) (bounded (cascadeDelete · a.key))
      (fun _ => Mirror P n d (wipe v (Under t p))) (MirroredFault P n) := by
  have hrun : Lockstep e n (Mirror P n d v) (bounded (cascadeDelete · a.key)) (fun _ => MirroredAt P n d)
      (MirroredFault P n) := by
    refine Lockstep.guard (fun _ _ h => congrArg Except.ok h.size) Mirror.fault fun size => ?_
    exact (cascadeDelete_mirror _ _).pre fun _ _ h => ⟨v, h⟩
  have hdelete : Triple e n (Sees P n d v) (bounded (cascadeDelete · a.key))
      (fun _ => Sees P n d (wipe v (Under t p))) (fun _ _ => False) := delete_spec ht ha
  refine (hrun.with_triple fun s s' h => hdelete.pre fun _ hs => ?_).post ?_
  · rw [hs]
    exact h.left
  · rintro _ s s' ⟨⟨v', h⟩, hs⟩
    rwa [← (hs.unique h.left).1]

/-- The two runs clear the same slot. -/
theorem clearSlot_mirror {parent : AKey} {name : Str} (ht : Holds .root v t) (hp : t p = some ⟨parent, none⟩) :
    Lockstep e n (Mirror P n d v) (clearSlot parent name)
      (fun _ => Mirror P n d (wipe v (Under t (p ++ [name])))) (MirroredFault P n) := by
  unfold clearSlot
  refine Lockstep.inspect_known _ (fun _ _ h => h.child parent name) ?_
  have hchild := ht.childOf hp name
  rw [hchild]
  cases hc : t (p ++ [name]) with
  | none =>
    refine Lockstep.pure fun _ _ h => ?_
    rwa [wipe_free ht.toLays hc]
  | some b =>
    refine Lockstep.guard (fun _ _ h => ?_) Mirror.fault fun _ => delete_mirror ht hc
    rw [h.size, h.checkDeletable]

/-! ## Copies -/

/-- Mirrored, with nothing changed but what is new. -/
def MirroredCopy (P : Policy e) (n d : Nat) (v : View) (s s' : TxState) : Prop :=
  ∃ d' v', d ≤ d' ∧ Mirror P n d' v' s s' ∧ ∀ j, Used e n d j → v' j = v j

theorem copyChildren_mirror {copy : AKey → TxM AKey} {l : List (Str × AKey)} {copied : SortedMap Str AKey}
    (hcopy : ∀ (k : AKey) (d : Nat) (v : View), Lockstep e n (Mirror P n d v) (copy k) (fun _ => MirroredCopy P n d v)
      (MirroredFault P n)) :
    Lockstep e n (Mirror P n d v) (copyChildren copy l copied) (fun _ => MirroredCopy P n d v) (MirroredFault P n) := by
  induction l generalizing d v copied with
  | nil => exact Lockstep.pure fun _ _ h => ⟨d, v, le_rfl, h, fun _ _ => rfl⟩
  | cons x rest ih =>
    obtain ⟨name, c⟩ := x
    refine Lockstep.bind (hcopy c d v) fun fresh => ?_
    refine Lockstep.of_exists fun d₁ => Lockstep.of_exists fun v₁ => ?_
    refine Lockstep.of_pre (p := d ≤ d₁ ∧ ∀ j, Used e n d j → v₁ j = v j) (fun _ _ h => ⟨h.1, h.2.2⟩) ?_
    rintro ⟨hd₁, hsame⟩
    refine ((ih (d := d₁) (v := v₁)).pre fun _ _ h => h.2.1).post ?_
    rintro _ s s' ⟨d₂, v₂, hd₂, h, hsame₂⟩
    refine ⟨d₂, v₂, hd₁.trans hd₂, h, fun j hj => ?_⟩
    exact (hsame₂ j fun i hi => hj i (hd₁.trans hi)).trans (hsame j hj)

/-- The two runs copy a subtree under the same keys. -/
theorem deepCopy_mirror (hdist : Distinct e n) (fuel : Nat) (k : AKey) (d : Nat) (v : View) :
    Lockstep e n (Mirror P n d v) (deepCopy fuel k) (fun _ => MirroredCopy P n d v) (MirroredFault P n) := by
  induction fuel generalizing k d v with
  | zero => exact Lockstep.fail fun _ _ h => h.mirrored
  | succ fuel ih =>
    unfold deepCopy
    refine Lockstep.guard (fun _ _ h => h.check k .access) Mirror.fault fun _ => ?_
    refine Lockstep.bind (generate_mirror hdist) fun f => Lockstep.of_pre (fun _ _ h => h.1) fun hf => ?_
    have hother : ∀ {j : AKey}, Used e n d j → j ≠ f := by
      rintro j hj rfl
      exact hj d le_rfl hf.lt hf.eq.symm
    refine Lockstep.inspect_known _ (fun _ _ h => h.2.kind k) ?_
    cases hv : v k with
    | none => exact Lockstep.fail fun _ _ h => h.2.mirrored
    | some c =>
      cases c with
      | leaf b =>
        have hfile : ∀ m, v k ≠ some (.dir m) := by simp [hv]
        refine Lockstep.inspect_known (some (.file b))
          (fun _ _ h => ⟨hv ▸ h.2.left.readVerified hfile, hv ▸ h.2.right.readVerified hfile⟩) ?_
        refine Lockstep.bind ((putEntry_mirror hf.used (by simp [hf.free])).pre fun _ _ h => h.2) fun _ => ?_
        refine Lockstep.pure fun _ _ h => ⟨d + 1, _, Nat.le_succ d, h, fun j hj => ?_⟩
        exact Function.update_of_ne (hother hj) _ _
      | branch m =>
        refine Lockstep.inspect_known m (fun _ _ h => h.2.dirChildren hv) ?_
        refine Lockstep.bind ((copyChildren_mirror ih).pre fun _ _ h => h.2) fun copied => ?_
        refine Lockstep.of_exists fun d₁ => Lockstep.of_exists fun v₁ => ?_
        refine Lockstep.of_pre (p := d + 1 ≤ d₁ ∧ ∀ j, Used e n (d + 1) j → v₁ j = v j) (fun _ _ h => ⟨h.1, h.2.2⟩) ?_
        rintro ⟨hd₁, hsame⟩
        have hfree : v₁ f = none := (hsame f hf.used).trans hf.free
        refine Lockstep.bind ((putDir_mirror (fun i hi => hf.used i (hd₁.trans hi)) hfree).pre fun _ _ h => h.2.1)
          fun _ => ?_
        refine Lockstep.pure fun _ _ h => ⟨d₁, _, (Nat.le_succ d).trans hd₁, h, fun j hj => ?_⟩
        rw [Function.update_of_ne (hother hj)]
        exact hsame j fun i hi => hj i ((Nat.le_succ d).trans hi)

/-! ## Mutations -/

/-- The parent of a slot outlives what is in it. -/
theorem wipe_parent {parent : AKey} (name : Str) (ht : Holds .root v t) (hp : t p = some ⟨parent, none⟩) :
    ∃ m, wipe v (Under t (p ++ [name])) parent = some (.dir m) := by
  obtain ⟨m, hm, -⟩ := ht.branch hp
  exact ⟨m, (Layout.wipe_of_not (ht.not_under hp (not_prefix_parent p name))).trans hm⟩

section Mutations

variable (hdist : Distinct e n) (hsettled : P.Settled)

include hdist hsettled

/-- A new file in a slot whose old subtree is removed. -/
theorem storeNew_mirror {parent : AKey} {name : Str} {blob : Bytes} {m : SortedMap Str AKey}
    (hp : v parent = some (.dir m)) :
    Lockstep e n (Mirror P n d v) (do
      let fresh ← generate
      linkChild parent name fresh
      putEntry fresh (.file blob)) (fun _ => Mirrored P n) (MirroredFault P n) := by
  refine Lockstep.bind (generate_mirror hdist) fun f => Lockstep.of_pre (fun _ _ h => h.1) fun hf => ?_
  refine Lockstep.bind ((editDir_mirror hsettled hp).pre fun _ _ h => h.2) fun _ => ?_
  have hne : f ≠ parent := by
    rintro rfl
    rw [hf.free] at hp
    cases hp
  refine (putEntry_mirror hf.used ?_).post fun _ _ _ h => h.mirrored
  rw [Function.update_of_ne hne, hf.free]
  simp

theorem storeBlobInto_mirror {path : APath} {blob : Bytes} (ht : Holds .root v t) :
    Lockstep e n (Mirror P n d v) (storeBlobInto path blob) (fun _ => Mirrored P n) (MirroredFault P n) := by
  unfold storeBlobInto
  refine Lockstep.guard (fun _ _ _ => rfl) Mirror.fault fun split => ?_
  obtain ⟨pp, name⟩ := split
  refine Lockstep.bind (ensureDir_mirror hdist hsettled ht) fun parent => ?_
  refine Lockstep.of_exists fun d₁ => Lockstep.of_exists fun v₁ => Lockstep.of_exists fun t₁ => ?_
  refine Lockstep.of_pre (fun _ _ h => h.2) fun htree => ?_
  obtain ⟨ht₁, -, hp⟩ := htree
  refine Lockstep.pre (S := Mirror P n d₁ v₁) ?_ fun _ _ h => h.1
  refine Lockstep.guard (fun _ _ h => h.check parent .access) Mirror.fault fun _ => ?_
  refine Lockstep.inspect_known _ (fun _ _ h => h.child parent name) ?_
  rw [ht₁.childOf hp name]
  cases hc : t₁ (pp.names ++ [name]) with
  | some b =>
    refine Lockstep.inspect_known _ (fun _ _ h => h.kind b.key) ?_
    split
    · rename_i hfile
      refine Lockstep.guard (fun _ _ h => h.check b.key .modify) Mirror.fault fun _ => ?_
      refine Lockstep.of_pre (fun _ _ h => h.left.used (k := b.key) (ht₁.stored hc)) fun hused => ?_
      refine (putEntry_mirror hused fun m hm => ?_).post fun _ _ _ h => h.mirrored
      rw [hm] at hfile
      cases hfile
    · refine Lockstep.guard (fun _ _ h => ?_) Mirror.fault fun _ => ?_
      · rw [h.size, h.checkDeletable]
      · refine Lockstep.guard (fun _ _ h => h.check parent .modify) Mirror.fault fun _ => ?_
        obtain ⟨m, hm⟩ := wipe_parent name ht₁ hp
        exact Lockstep.bind (delete_mirror ht₁ hc) fun _ => storeNew_mirror hdist hsettled hm
  | none =>
    refine Lockstep.guard (fun _ _ h => h.check parent .modify) Mirror.fault fun _ => ?_
    obtain ⟨m, hm, -⟩ := ht₁.branch hp
    exact storeNew_mirror hdist hsettled hm

omit hdist in
theorem rmInto_mirror {path : APath} (ht : Holds .root v t) :
    Lockstep e n (Mirror P n d v) (rmInto path) (fun _ => Mirrored P n) (MirroredFault P n) := by
  unfold rmInto
  refine Lockstep.guard (fun _ _ _ => rfl) Mirror.fault fun split => ?_
  obtain ⟨pp, name⟩ := split
  refine Lockstep.inspect (fun _ _ h => h.resolve pp) Mirror.fault fun r hr => ?_
  cases r with
  | none => exact Lockstep.pure fun _ _ h => h.mirrored
  | some parent =>
    refine Lockstep.guard (fun _ _ h => h.check parent .access) Mirror.fault fun _ => ?_
    refine Lockstep.inspect (fun _ _ h => (h.child parent name).2.trans (h.child parent name).1.symm) Mirror.fault
      fun found hfound => ?_
    cases found with
    | none => exact Lockstep.pure fun _ _ h => h.mirrored
    | some akey =>
      obtain ⟨s, s', h, hr⟩ := hr
      obtain ⟨s₁, s₁', h₁, hfound⟩ := hfound
      have hchild : child e s parent name = .ok (some akey) := by
        rw [(h.child parent name).1, ← (h₁.child parent name).1, hfound]
      obtain ⟨hp, b, hb, rfl⟩ := h.left.resolve_child ht hr hchild
      refine Lockstep.guard (fun _ _ h => ?_) Mirror.fault fun _ => ?_
      · rw [h.size, h.checkDeletable]
      · obtain ⟨m, hm⟩ := wipe_parent name ht hp
        refine Lockstep.bind (delete_mirror ht hb) fun _ => ?_
        exact Lockstep.bind (editDir_mirror hsettled hm) fun _ => Lockstep.pure fun _ _ h => h.mirrored

theorem mvInto_mirror {src dst : APath} (ht : Holds .root v t) (hds : ¬ dst.names <+: src.names) :
    Lockstep e n (Mirror P n d v) (mvInto src dst) (fun _ => Mirrored P n) (MirroredFault P n) := by
  unfold mvInto
  refine Lockstep.inspect (fun _ _ _ => rfl) Mirror.fault fun split hsrc => ?_
  obtain ⟨sp, sn⟩ := split
  refine Lockstep.inspect (fun _ _ _ => rfl) Mirror.fault fun split hdst => ?_
  obtain ⟨dp, dn⟩ := split
  obtain ⟨-, -, -, hsrc⟩ := hsrc
  obtain ⟨-, -, -, hdst⟩ := hdst
  rw [splitLastOrPanic_eq hsrc, splitLastOrPanic_eq hdst] at hds
  refine Lockstep.inspect (fun _ _ h => h.resolve sp) Mirror.fault fun r hr => ?_
  cases r with
  | none => exact Lockstep.fail fun _ _ h => h.mirrored
  | some srcParent =>
    refine Lockstep.guard (fun _ _ h => h.check srcParent .access) Mirror.fault fun _ => ?_
    refine Lockstep.inspect (fun _ _ h => (h.child srcParent sn).2.trans (h.child srcParent sn).1.symm) Mirror.fault
      fun found hfound => ?_
    cases found with
    | none => exact Lockstep.fail fun _ _ h => h.mirrored
    | some akey =>
      obtain ⟨s, s', h, hr⟩ := hr
      obtain ⟨s₁, s₁', h₁, hfound⟩ := hfound
      have hchild : child e s srcParent sn = .ok (some akey) := by
        rw [(h.child srcParent sn).1, ← (h₁.child srcParent sn).1, hfound]
      obtain ⟨hsp, -⟩ := h.left.resolve_child ht hr hchild
      refine Lockstep.guard (fun _ _ h => h.check akey .delete) Mirror.fault fun _ => ?_
      refine Lockstep.bind (ensureDir_mirror hdist hsettled ht) fun dstParent => ?_
      refine Lockstep.of_exists fun d₁ => Lockstep.of_exists fun v₁ => Lockstep.of_exists fun t₁ => ?_
      refine Lockstep.of_pre (fun _ _ h => h.2) fun htree => ?_
      obtain ⟨ht₁, hmade, hdp⟩ := htree
      refine Lockstep.pre (S := Mirror P n d₁ v₁) ?_ fun _ _ h => h.1
      refine Lockstep.guard (fun _ _ h => h.check dstParent .modify) Mirror.fault fun _ => ?_
      refine Lockstep.bind (clearSlot_mirror ht₁ hdp) fun _ => ?_
      obtain ⟨links, hlinks⟩ := wipe_parent dn ht₁ hdp
      refine Lockstep.bind (editDir_mirror hsettled hlinks) fun _ => ?_
      -- The parent of the source is not in the slot, which is no ancestor of the source.
      have hparent : ∃ m, Function.update (wipe v₁ (Under t₁ (dp.names ++ [dn]))) dstParent
          (some (.dir (links.insert dn akey))) srcParent = some (.dir m) := by
        by_cases heq : srcParent = dstParent
        · rw [heq, Function.update_self]
          exact ⟨_, rfl⟩
        · obtain ⟨m, hm, -⟩ := ht₁.branch (hmade.kept hsp)
          refine ⟨m, ?_⟩
          rw [Function.update_of_ne heq, Layout.wipe_of_not, hm]
          refine ht₁.not_under (hmade.kept hsp) fun hpre => ?_
          exact hds (hpre.trans (List.prefix_append sp.names [sn]))
      obtain ⟨m, hm⟩ := hparent
      exact (editDir_mirror hsettled hm).post fun _ _ _ h => h.mirrored

theorem cpInto_mirror {src dst : APath} (ht : Holds .root v t) :
    Lockstep e n (Mirror P n d v) (cpInto src dst) (fun _ => Mirrored P n) (MirroredFault P n) := by
  unfold cpInto
  refine Lockstep.guard (fun _ _ _ => rfl) Mirror.fault fun split => ?_
  obtain ⟨dp, dn⟩ := split
  refine Lockstep.guard (fun _ _ h => h.resolve src) Mirror.fault fun r => ?_
  cases r with
  | none => exact Lockstep.fail fun _ _ h => h.mirrored
  | some srcAkey =>
    refine Lockstep.bind (ensureDir_mirror hdist hsettled ht) fun dstParent => ?_
    refine Lockstep.of_exists fun d₁ => Lockstep.of_exists fun v₁ => Lockstep.of_exists fun t₁ => ?_
    refine Lockstep.of_pre (fun _ _ h => h.2) fun htree => ?_
    obtain ⟨ht₁, -, hdp⟩ := htree
    refine Lockstep.pre (S := Mirror P n d₁ v₁) ?_ fun _ _ h => h.1
    refine Lockstep.guard (fun _ _ h => h.check dstParent .modify) Mirror.fault fun _ => ?_
    refine Lockstep.bind (clearSlot_mirror ht₁ hdp) fun _ => ?_
    obtain ⟨links, hlinks⟩ := wipe_parent dn ht₁ hdp
    refine Lockstep.of_pre (fun _ _ h => h.left.used (k := dstParent) (by simp [hlinks])) fun hused => ?_
    refine Lockstep.bind (S := fun _ => MirroredCopy P n d₁ (wipe v₁ (Under t₁ (dp.names ++ [dn]))))
      (Lockstep.guard (fun _ _ h => congrArg Except.ok h.size) Mirror.fault fun size =>
        deepCopy_mirror hdist _ srcAkey _ _) fun copy => ?_
    refine Lockstep.of_exists fun d₂ => Lockstep.of_exists fun v₂ => ?_
    refine Lockstep.of_pre (fun _ _ h => h.2.2) fun hsame => ?_
    have hparent : v₂ dstParent = some (.dir links) := (hsame dstParent hused).trans hlinks
    exact ((editDir_mirror hsettled hparent).pre fun _ _ h => h.2.1).post fun _ _ _ h => h.mirrored

end Mutations

end ArborDb
