import ArborDb.Txn.Tree

/-!
# Specifications of the mutations

What storing, removing, moving and copying do to the tree of a table. A mutation that fails leaves
the state as it was.
-/

namespace ArborDb

open Prog (Triple)
open Layout (Holds Lays Node Under wipe Made StoredAt Moved CopiedTo storedAt_setLeaf)

variable {e : Env} {P : Policy e} {n d : Nat} {v : View} {s s₀ : TxState} {t : ATree}
  {p : List Str} {a : Node AKey Bytes}

/-- The state shows a tree that stands in the relation `R` to the tree before. -/
def Shows (P : Policy e) (n d : Nat) (R : ATree → Prop) (s : TxState) : Prop :=
  ∃ d' v' t', d ≤ d' ∧ Sees P n d' v' s ∧ Holds .root v' t' ∧ R t'

/-! ## Slots -/

theorem not_prefix_parent (p : List Str) (name : Str) : ¬ p ++ [name] <+: p := by
  intro hpre
  have hlen := hpre.length_le
  rw [List.length_append, List.length_singleton] at hlen
  omega

theorem wipe_free (ht : Lays v t) (hslot : t p = none) : wipe v (Under t p) = v := by
  apply Layout.wipe_eq_self
  rintro k ⟨q, b, hb, -⟩
  rw [ht.none_append hslot q] at hb
  cases hb

/-- A new file in a slot whose old subtree is removed. -/
theorem storeNew_spec {parent : AKey} {name : Str} {blob : Bytes} {E : AdbError → TxState → Prop}
    (hdist : Distinct e n) (ht : Holds .root v t) (hp : t p = some ⟨parent, none⟩) :
    Triple e n (Sees P n d (wipe v (Under t (p ++ [name])))) (do
      let fresh ← generate
      linkChild parent name fresh
      putEntry fresh (.file blob))
      (fun _ => Shows P n d fun t' =>
        ∃ f, t' = Layout.graft t (p ++ [name]) (Layout.single ⟨f, some blob⟩)) E := by
  obtain ⟨links, hlinks, -⟩ := ht.branch hp
  have hparent : wipe v (Under t (p ++ [name])) parent = some (.dir links) := by
    rw [Layout.wipe_of_not (ht.not_under hp (not_prefix_parent p name)), hlinks]
  refine generate_spec hdist ?_
  intro f hf
  have hne : f ≠ parent := by
    rintro rfl
    rw [hf.free] at hparent
    cases hparent
  refine Triple.bind (linkChild_spec hparent) ?_
  intro _
  refine (putEntry_spec hf.used ?_).post ?_
  · rw [Function.update_of_ne hne, hf.free]
    simp
  · intro _ s hs
    rw [Function.update_comm (Ne.symm hne)] at hs
    refine ⟨d + 1, _, _, Nat.le_succ d, hs, ?_, f, rfl⟩
    refine ht.refill (a := ⟨f, some blob⟩) (Layout.lays_single_leaf (Function.update_self ..)) ?_ ?_
      hp hlinks rfl
    · intro j hj
      exact Function.update_of_ne (fun hjf => hj (r := []) rfl hjf.symm) _ _
    · intro r y hy
      obtain ⟨-, rfl⟩ := Layout.single_eq_some hy
      exact hf.free

/-- Clearing a slot removes what is under it, or fails before. -/
theorem clearSlot_spec {parent : AKey} {name : Str} (hs₀ : Sees P n d v s₀) (ht : Holds .root v t)
    (hp : t p = some ⟨parent, none⟩) :
    Triple e n (· = s₀) (clearSlot parent name)
      (fun _ => Sees P n d (wipe v (Under t (p ++ [name]))))
      (Refused s₀ (e.principal ≠ .unrestricted)) := by
  unfold clearSlot
  refine Triple.inspect_known _ (fun _ hs => hs ▸ hs₀.child_tree ht hp name) ?_
  cases hc : t (p ++ [name]) with
  | none =>
    apply Triple.pure
    rintro _ rfl
    rw [wipe_free ht.toLays hc]
    exact hs₀
  | some b =>
    refine Triple.inspect_at (fun _ herr => ⟨rfl, hs₀.checkDeletable_error ht hc herr⟩) ?_
    intro _ _
    exact (delete_spec ht hc).pre (fun _ hs => hs ▸ hs₀)

/-- The directory `r` is at `p`, created if it was missing, and the slot `name` in it is clear but
for its link. -/
def Cleared (P : Policy e) (n d : Nat) (t : ATree) (p : List Str) (name : Str) (r : AKey)
    (s : TxState) : Prop :=
  ∃ d₁ v₁ t₁, d ≤ d₁ ∧ Sees P n d₁ (wipe v₁ (Under t₁ (p ++ [name]))) s ∧ Holds .root v₁ t₁ ∧
    Made t t₁ p ∧ t₁ p = some ⟨r, none⟩

/-- The common part of a move and a copy: nothing before `rest` fails after a write. -/
theorem prepare_spec {α : Type} {path : APath} {name : Str} {rest : AKey → TxM α}
    {Q : α → TxState → Prop} {reason : Prop} (hdist : Distinct e n) (hs₀ : Sees P n d v s₀)
    (ht : Holds .root v t) (hreason : Barred e t path.names → reason)
    (hrest : ∀ r, Triple e n (Cleared P n d t path.names name r) (rest r) Q (Refused s₀ reason)) :
    Triple e n (· = s₀) (do
      let r ← ensureDir path
      inspect (check · · r .modify)
      clearSlot r name
      rest r) Q (Refused s₀ reason) := by
  refine Triple.bind ((ensureDir_spec hdist hs₀ ht).consequence (fun _ h => h) (fun _ _ h => h)
    fun _ _ h => ⟨h.1, hreason h.2⟩) ?_
  intro r
  rintro s (⟨hs, hp⟩ | ⟨d₁, v₁, t₁, hd₁, hs, ht₁, hmade, hp, hempty⟩)
  · refine Triple.inspect_at (E := Refused s₀ reason)
      (fun _ herr => ⟨rfl, hreason (.inl (check_error herr))⟩) ?_ s hs
    intro _ _
    refine Triple.bind ((clearSlot_spec hs₀ ht hp).consequence (fun _ h => h) (fun _ _ h => h)
      fun _ _ h => ⟨h.1, hreason (.inl h.2)⟩) ?_
    intro _
    refine (hrest r).pre ?_
    intro s hs
    exact ⟨d, v, t, Nat.le_refl d, hs, ht, .refl t _, hp⟩
  · have hslot : t₁ (path.names ++ [name]) = none := hempty [name] (by simp)
    refine Triple.inspect_known (P := Sees (P.granting r) n d₁ v₁) ()
      (fun _ hs => hs.check_granted (ht₁.stored hp) _) ?_ s hs
    refine Triple.bind (R := fun _ => Cleared P n d t path.names name r) ?_ fun _ => hrest r
    unfold clearSlot
    refine Triple.inspect_known none (fun _ hs => by rw [hs.child_tree ht₁ hp, hslot]; rfl) ?_
    apply Triple.pure
    intro s hs
    refine ⟨d₁, v₁, t₁, hd₁, ?_, ht₁, hmade, hp⟩
    rw [wipe_free ht₁.toLays hslot]
    exact hs.of_granting

/-- A non-root path splits into its parent and its name. -/
theorem splitLastOrPanic_eq {path parent : APath} {name : Str}
    (h : splitLastOrPanic path = .ok (parent, name)) : path.names = parent.names ++ [name] := by
  unfold splitLastOrPanic at h
  cases hs : path.splitLast with
  | none =>
    rw [hs] at h
    cases h
  | some split =>
    rw [hs] at h
    cases h
    exact APath.splitLast_eq_some hs

theorem splitLastOrPanic_error {path : APath} {err : AdbError}
    (h : splitLastOrPanic path = .error err) : path.isRoot = true := by
  unfold splitLastOrPanic at h
  cases hs : path.splitLast with
  | none => exact APath.splitLast_eq_none.1 hs
  | some split =>
    rw [hs] at h
    cases h

/-- What a resolved key is: that of the node at the path, or the root of an empty table. -/
theorem Sees.resolve_cases (hs : Sees P n d v s) (ht : Holds .root v t) {path : APath} {k : AKey}
    (hr : resolve e s path = .ok (some k)) :
    (∃ a, t path.names = some a ∧ a.key = k) ∨ (∀ q, t q = none) := by
  cases hroot : t [] with
  | none => exact .inr (ht.none_append hroot)
  | some a =>
    left
    have ha := ht.top hroot
    subst ha
    have htree := hs.resolveFrom_tree ht hroot hr
    exact Option.map_eq_some_iff.1 htree.symm

theorem Sees.resolve_none (hs : Sees P n d v s) (ht : Holds .root v t) {path : APath}
    (hr : resolve e s path = .ok none) : t path.names = none := by
  have hne : path.names ≠ [] := by
    intro hnil
    unfold resolve at hr
    rw [hnil] at hr
    cases hr
  exact Option.map_eq_none_iff.1 (hs.resolve_tree ht hne hr).symm

theorem Sees.resolve_child_none (hs : Sees P n d v s) (ht : Holds .root v t) {path : APath} {k : AKey}
    {name : Str} (hr : resolve e s path = .ok (some k))
    (hc : ArborDb.child e s k name = .ok none) : t (path.names ++ [name]) = none := by
  obtain ⟨a, ha, rfl⟩ | hempty := hs.resolve_cases ht hr
  · rw [hs.child_tree ht ha] at hc
    exact Option.map_eq_none_iff.1 (Except.ok.inj hc)
  · exact hempty _

/-- A child found below a resolved path is the node at the longer path. -/
theorem Sees.resolve_child (hs : Sees P n d v s) (ht : Holds .root v t) {path : APath} {k c : AKey}
    {name : Str} (hr : resolve e s path = .ok (some k))
    (hc : ArborDb.child e s k name = .ok (some c)) :
    t path.names = some ⟨k, none⟩ ∧ ∃ b, t (path.names ++ [name]) = some b ∧ b.key = c := by
  obtain ⟨a, ha, rfl⟩ | hempty := hs.resolve_cases ht hr
  · rw [hs.child_tree ht ha] at hc
    obtain ⟨b, hb, hkey⟩ := Option.map_eq_some_iff.1 (Except.ok.inj hc)
    obtain ⟨k, hk⟩ := ht.parent hb
    rw [ha] at hk
    cases hk
    exact ⟨ha, b, hb, hkey⟩
  · rw [hs.child, Layout.childOf, ht.eq_none (hempty [])] at hc
    cases hc

/-! ## Storing -/

theorem storeBlobInto_spec {path : APath} {blob : Bytes} (hdist : Distinct e n)
    (hs₀ : Sees P n d v s₀) (ht : Holds .root v t) :
    Triple e n (· = s₀) (storeBlobInto path blob)
      (fun _ => Shows P n d (StoredAt t · path.names blob))
      (Refused s₀ (path.isRoot = true ∨ Barred e t path.names.dropLast)) := by
  unfold storeBlobInto
  refine Triple.inspect_at (fun _ herr => ⟨rfl, .inl (splitLastOrPanic_error herr)⟩) ?_
  rintro ⟨pp, name⟩ hsplit
  rw [splitLastOrPanic_eq hsplit, List.dropLast_concat]
  have hcheck : ∀ {k : AKey} {needed : Rights} {err : AdbError},
      check e s₀ k needed = .error err →
        Refused s₀ (path.isRoot = true ∨ Barred e t pp.names) err s₀ :=
    fun herr => ⟨rfl, .inr (.inl (check_error herr))⟩
  refine Triple.bind ((ensureDir_spec hdist hs₀ ht).consequence (fun _ h => h) (fun _ _ h => h)
    fun _ _ h => ⟨h.1, .inr h.2⟩) ?_
  intro parent
  rintro s (⟨hs, hp⟩ | ⟨d₁, v₁, t₁, hd₁, hs, ht₁, hmade, hp, hempty⟩)
  · -- The parent was there: up to the first write the state is the one before.
    refine Triple.inspect_at (fun _ herr => hcheck herr) ?_ s hs
    intro _ _
    refine Triple.inspect_known _ (fun _ hs => hs ▸ hs₀.child_tree ht hp name) ?_
    cases hc : t (pp.names ++ [name]) with
    | some b =>
      refine Triple.inspect_known _ (fun _ hs => hs ▸ hs₀.kind_tree ht hc) ?_
      obtain ⟨k, _ | x⟩ := b
      · rw [if_neg (by simp [nodeKind])]
        refine Triple.inspect_at
          (fun _ herr => ⟨rfl, .inr (.inl (hs₀.checkDeletable_error ht hc herr))⟩) ?_
        intro _ _
        refine Triple.inspect_at (fun _ herr => hcheck herr) ?_
        intro _ _
        refine Triple.bind ((delete_spec ht hc).pre (fun _ hs => hs ▸ hs₀)) ?_
        intro _
        refine (storeNew_spec hdist ht hp).post ?_
        rintro _ s ⟨d', v', t', hd', hs', ht', f, rfl⟩
        exact ⟨d', v', _, hd', hs', ht', (Made.refl t _).storedAt (by simp [hc]) f⟩
      · rw [if_pos (by rfl)]
        refine Triple.inspect_at (fun _ herr => hcheck herr) ?_
        intro _ _
        have hv : v k = some (.file x) := ht.leaf hc
        refine (putEntry_spec (hs₀.used (by simp [hv])) (by simp [hv])).consequence
          (fun _ hs => hs ▸ hs₀) ?_ fun _ _ h => h
        intro _ s hs
        exact ⟨d, _, _, Nat.le_refl d, hs, ht.setLeaf hc, storedAt_setLeaf hc⟩
    | none =>
      refine Triple.inspect_at (fun _ herr => hcheck herr) ?_
      intro _ _
      refine (storeNew_spec (P := P) (d := d) hdist ht hp).consequence ?_ ?_ fun _ _ h => h
      · rintro _ rfl
        rw [wipe_free ht.toLays hc]
        exact hs₀
      · rintro _ s ⟨d', v', t', hd', hs', ht', f, rfl⟩
        exact ⟨d', v', _, hd', hs', ht', (Made.refl t _).storedAt (by simp [hc]) f⟩
  · have hk : v₁ parent ≠ none := ht₁.stored hp
    have hslot : t₁ (pp.names ++ [name]) = none := hempty [name] (by simp)
    refine Triple.inspect_known (P := Sees (P.granting parent) n d₁ v₁) ()
      (fun _ hs => hs.check_granted hk _) ?_ s hs
    refine Triple.inspect_known none (fun _ hs => by rw [hs.child_tree ht₁ hp, hslot]; rfl) ?_
    refine Triple.inspect_known () (fun _ hs => hs.check_granted hk _) ?_
    refine (storeNew_spec (P := P) (d := d₁) hdist ht₁ hp).consequence ?_ ?_ fun _ _ h => h
    · intro s hs
      rw [wipe_free ht₁.toLays hslot]
      exact hs.of_granting
    · rintro _ s ⟨d', v', t', hd', hs', ht', f, rfl⟩
      refine ⟨d', v', _, hd₁.trans hd', hs', ht', hmade.storedAt ?_ f⟩
      intro k x hkx
      rw [hmade.kept hkx] at hslot
      cases hslot

/-! ## Removing -/

/-- Removing cuts the subtree off, or finds nothing and changes nothing. -/
theorem rmInto_spec {path : APath} (hs₀ : Sees P n d v s₀) (ht : Holds .root v t) :
    Triple e n (· = s₀) (rmInto path)
      (fun removed s => if removed then t path.names ≠ none ∧
        Shows P n d (· = Layout.prune t path.names) s else t path.names = none ∧ s = s₀)
      (Refused s₀ (path.isRoot = true ∨ e.principal ≠ .unrestricted)) := by
  unfold rmInto
  refine Triple.inspect_at (fun _ herr => ⟨rfl, .inl (splitLastOrPanic_error herr)⟩) ?_
  rintro ⟨pp, name⟩ hsplit
  rw [splitLastOrPanic_eq hsplit]
  refine Triple.inspect_at (fun _ herr => ⟨rfl, .inr (hs₀.resolve_error herr)⟩) ?_
  intro r hr
  cases r with
  | none =>
    exact Triple.pure fun s hs => ⟨ht.none_append (hs₀.resolve_none ht hr) [name], hs⟩
  | some parent =>
    refine Triple.inspect_at (fun _ herr => ⟨rfl, .inr (check_error herr)⟩) ?_
    intro _ _
    obtain ⟨a, ha, rfl⟩ | hempty := hs₀.resolve_cases ht hr
    · refine Triple.inspect_known _ (fun _ hs => hs ▸ hs₀.child_tree ht ha name) ?_
      cases hc : t (pp.names ++ [name]) with
      | none => exact Triple.pure fun s hs => ⟨rfl, hs⟩
      | some b =>
        refine Triple.inspect_at (fun _ herr => ⟨rfl, .inr (hs₀.checkDeletable_error ht hc herr)⟩) ?_
        intro _ _
        obtain ⟨k, hk⟩ := ht.parent hc
        rw [ha] at hk
        cases hk
        obtain ⟨links, hlinks, -⟩ := ht.branch ha
        have hparent : wipe v (Under t (pp.names ++ [name])) k = some (.dir links) := by
          rw [Layout.wipe_of_not (ht.not_under ha (not_prefix_parent pp.names name)), hlinks]
        refine Triple.bind ((delete_spec ht hc).pre (fun _ hs => hs ▸ hs₀)) ?_
        intro _
        refine Triple.bind (unlinkChild_spec hparent) ?_
        intro _
        apply Triple.pure
        intro s hs
        exact ⟨by simp, d, _, _, Nat.le_refl d, hs, ht.prune name ha hlinks, rfl⟩
    · have hchild : child e s₀ parent name = .ok none := by
        rw [hs₀.child, Layout.childOf, ht.eq_none (hempty [])]
      refine Triple.inspect_known none (fun _ hs => hs ▸ hchild) ?_
      exact Triple.pure fun s hs => ⟨hempty _, hs⟩

/-! ## Moving -/

theorem mvInto_spec {src dst : APath} (hdist : Distinct e n) (hs₀ : Sees P n d v s₀)
    (ht : Holds .root v t) (hsd : ¬ src.names <+: dst.names) (hds : ¬ dst.names <+: src.names) :
    Triple e n (· = s₀) (mvInto src dst)
      (fun _ s => t src.names ≠ none ∧ Shows P n d (Moved t · src.names dst.names) s)
      (Refused s₀ (src.isRoot = true ∨ dst.isRoot = true ∨ t src.names = none ∨
        Barred e t dst.names.dropLast)) := by
  unfold mvInto
  refine Triple.inspect_at (fun _ herr => ⟨rfl, .inl (splitLastOrPanic_error herr)⟩) ?_
  rintro ⟨sp, sn⟩ hsrc
  refine Triple.inspect_at (fun _ herr => ⟨rfl, .inr (.inl (splitLastOrPanic_error herr))⟩) ?_
  rintro ⟨dp, dn⟩ hdst
  rw [splitLastOrPanic_eq hsrc] at hsd hds ⊢
  rw [splitLastOrPanic_eq hdst] at hsd hds ⊢
  rw [List.dropLast_concat]
  refine Triple.inspect_at (fun _ herr => ⟨rfl, .inr (.inr (.inr (.inl (hs₀.resolve_error herr))))⟩) ?_
  intro r hr
  cases r with
  | none =>
    refine Triple.fail fun _ hs => ⟨hs, .inr (.inr (.inl ?_))⟩
    exact ht.none_append (hs₀.resolve_none ht hr) [sn]
  | some srcParent =>
    refine Triple.inspect_at (fun _ herr => ⟨rfl, .inr (.inr (.inr (.inl (check_error herr))))⟩) ?_
    intro _ _
    refine Triple.inspect_at (fun _ herr => ?_) ?_
    · rw [hs₀.child] at herr
      cases herr
    intro c hc
    cases c with
    | none => exact Triple.fail fun _ hs => ⟨hs, .inr (.inr (.inl (hs₀.resolve_child_none ht hr hc)))⟩
    | some akey =>
      refine Triple.inspect_at (fun _ herr => ⟨rfl, .inr (.inr (.inr (.inl (check_error herr))))⟩) ?_
      intro _ _
      obtain ⟨hsp, b, hb, hkey⟩ := hs₀.resolve_child ht hr hc
      refine prepare_spec hdist hs₀ ht (fun h => .inr (.inr (.inr h))) ?_
      rintro dstParent s ⟨d₁, v₁, t₁, hd₁, hs, ht₁, hmade, hdp⟩
      obtain ⟨links, hlinks, -⟩ := ht₁.branch hdp
      have hD : wipe v₁ (Under t₁ (dp.names ++ [dn])) dstParent = some (.dir links) := by
        rw [Layout.wipe_of_not (ht₁.not_under hdp (not_prefix_parent dp.names dn)), hlinks]
      have hS : ∃ m, Function.update (wipe v₁ (Under t₁ (dp.names ++ [dn]))) dstParent
          (some (.dir (links.insert dn akey))) srcParent = some (.dir m) := by
        by_cases heq : srcParent = dstParent
        · rw [heq, Function.update_self]
          exact ⟨_, rfl⟩
        · obtain ⟨m, hm, -⟩ := ht₁.branch (hmade.kept hsp)
          refine ⟨m, ?_⟩
          rw [Function.update_of_ne heq, Layout.wipe_of_not, hm]
          refine ht₁.not_under (hmade.kept hsp) ?_
          exact fun hpre => hds (hpre.trans (List.prefix_append sp.names [sn]))
      obtain ⟨m, hm⟩ := hS
      refine Triple.bind (linkChild_spec hD) (fun _ => (unlinkChild_spec hm).post ?_) s hs
      intro _ s hs
      refine ⟨by simp [hb], d₁, _, _, hd₁, hs, ?_, hmade.moved hsd hds⟩
      rw [← hkey] at hm ⊢
      exact ht₁.relink (hmade.kept hsp) (hmade.kept hb) hdp hlinks hsd hds hm

/-! ## Copying -/

theorem cpInto_spec {src dst : APath} (hdist : Distinct e n) (hread : P.Readable)
    (hs₀ : Sees P n d v s₀) (ht : Holds .root v t) (hsd : ¬ src.names <+: dst.names)
    (hds : ¬ dst.names <+: src.names) :
    Triple e n (· = s₀) (cpInto src dst)
      (fun _ s => t src.names ≠ none ∧ Shows P n d (CopiedTo (v · ≠ none) t · src.names dst.names) s)
      (Refused s₀ (dst.isRoot = true ∨ t src.names = none ∨ Barred e t dst.names.dropLast)) := by
  unfold cpInto
  refine Triple.inspect_at (fun _ herr => ⟨rfl, .inl (splitLastOrPanic_error herr)⟩) ?_
  rintro ⟨dp, dn⟩ hdst
  rw [splitLastOrPanic_eq hdst] at hsd hds ⊢
  rw [List.dropLast_concat]
  refine Triple.inspect_at (fun _ herr => ⟨rfl, .inr (.inr (.inl (hs₀.resolve_error herr)))⟩) ?_
  intro r hr
  cases r with
  | none => exact Triple.fail fun _ hs => ⟨hs, .inr (.inl (hs₀.resolve_none ht hr))⟩
  | some srcAkey =>
    have hnil : src.names ≠ [] := by
      intro hnil
      rw [hnil] at hsd
      exact hsd List.nil_prefix
    obtain ⟨a, ha, rfl⟩ := Option.map_eq_some_iff.1 (hs₀.resolve_tree ht hnil hr).symm
    refine prepare_spec hdist hs₀ ht (fun h => .inr (.inr h)) ?_
    rintro dstParent s ⟨d₁, v₁, t₁, hd₁, hs, ht₁, hmade, hdp⟩
    obtain ⟨links, hlinks, -⟩ := ht₁.branch hdp
    -- The source subtree is not touched by clearing the slot.
    have hsub : Lays (wipe v₁ (Under t₁ (dp.names ++ [dn]))) (Layout.sub t₁ src.names) := by
      refine (ht₁.toLays.sub src.names).congr ?_
      intro q b hb
      refine Layout.wipe_of_not (ht₁.not_under hb ?_)
      intro hpre
      rcases List.prefix_or_prefix_of_prefix hpre (List.prefix_append src.names q) with hpre | hpre
      · exact hds hpre
      · exact hsd hpre
    have ha₁ : Layout.sub t₁ src.names [] = some a := by
      rw [Layout.sub, List.append_nil, hmade.kept ha]
    refine Triple.bind (bounded_spec hsub fun fuel hfuel =>
      deepCopy_spec hdist hread hsub ha₁ fun hq => hfuel hq) ?_ s hs
    rintro f s ⟨d₂, v₂, c, hd₂, hs, hc⟩
    have hD : v₂ dstParent = some (.dir links) := by
      have hwipe : wipe v₁ (Under t₁ (dp.names ++ [dn])) dstParent = some (.dir links) := by
        rw [Layout.wipe_of_not (ht₁.not_under hdp (not_prefix_parent dp.names dn)), hlinks]
      rw [hc.agree, hwipe]
      intro q y hy hkey
      have hfree := hc.free hy
      rw [hkey, hwipe] at hfree
      cases hfree
    refine (linkChild_spec hD).consequence (fun _ h => h) ?_ (fun _ _ h => h) s hs
    intro _ s hs
    obtain ⟨b, hb, rfl⟩ := Option.map_eq_some_iff.1 hc.top
    refine ⟨by simp [ha], d₂, _, _, hd₁.trans hd₂, hs,
      ht₁.refill hc.lays hc.agree hc.free hdp hlinks hb,
      hmade.outside fun q hq => Layout.graft_of_not hq, ?_, ?_⟩
    · intro q
      rw [Layout.graft_append, hc.shape q, List.nil_append, Layout.sub, hmade.sub_eq hsd]
    · intro q x hx
      rw [Layout.graft_append] at hx
      obtain ⟨i, hi, -, hin, hgen⟩ := hc.fresh hx
      rw [← hgen]
      exact fun hne => hne (hs₀.fresh i (hd₁.trans hi) hin)

/-! ## Directories -/

theorem mkdir_spec {path : APath} (hdist : Distinct e n) (hs₀ : Sees P n d v s₀)
    (ht : Holds .root v t) :
    Triple e n (· = s₀) (ensureDir path)
      (fun r => Shows P n d fun t' => Made t t' path.names ∧ t' path.names = some ⟨r, none⟩)
      (Refused s₀ (Barred e t path.names)) := by
  refine (ensureDir_spec hdist hs₀ ht).post ?_
  rintro r s (⟨rfl, hp⟩ | ⟨d₁, v₁, t₁, hd₁, hs, ht₁, hmade, hp, -⟩)
  · exact ⟨d, v, t, Nat.le_refl d, hs₀, ht, .refl t _, hp⟩
  · exact ⟨d₁, v₁, t₁, hd₁, hs.of_granting, ht₁, hmade, hp⟩

/-! ## Scalars -/

/-- A file that the cursor's read finds is what the state shows. -/
theorem Sees.readVerified_file {k : AKey} {b : Bytes} (hs : Sees P n d v s)
    (hr : ArborDb.readVerified e s k = .ok (some (.file b))) : v k = some (.file b) := by
  cases hdirs : s.buffer.dirs.get k with
  | none =>
    have hshow := hs.shows k
    rw [observe, hdirs] at hshow
    exact Except.ok.inj (hshow.symm.trans hr)
  | some m =>
    obtain ⟨hfiles, hdata⟩ := hs.coherent.dir hdirs
    unfold ArborDb.readVerified readTable at hr
    rw [WriteBuffer.fileGet_eq, hfiles] at hr
    cases hd : s.data.get k with
    | none =>
      rw [hd] at hr
      cases hr
    | some c =>
      rw [hd] at hr
      obtain ⟨-, -, hret⟩ := Except.bind_eq_ok.1 hr
      cases Except.ok.inj hret
      exact absurd hd (hdata b)

section Scalars

variable [Externals]

omit [Externals] in
theorem resolveAndRead_cases {path : APath} {akey : AKey} {entry : Entry}
    (h : resolveAndRead e s path = .ok (some (akey, entry))) :
    readVerified e s akey = .ok (some entry) ∧ resolve e s path = .ok (some akey) := by
  unfold resolveAndRead at h
  obtain ⟨r, hr, h⟩ := Except.bind_eq_ok.1 h
  cases r with
  | none => cases h
  | some k =>
    obtain ⟨o, ho, h⟩ := Except.bind_eq_ok.1 h
    obtain ⟨entry', rfl, heq⟩ := Option.map_eq_some_iff.1 (Except.ok.inj h)
    cases heq
    exact ⟨ho, hr⟩

omit [Externals] in
/-- The file a scalar write edits is the one its hint names or the one its path names. -/
theorem resolveTarget_cases {path : APath} {hint : Option (AKey × UInt64)} {akey : AKey}
    {entry : Entry} (h : resolveTarget e s path hint = .ok (some (akey, entry))) :
    readVerified e s akey = .ok (some entry) ∧
      (hint = some (akey, s.buffer.epoch) ∨ resolve e s path = .ok (some akey)) := by
  have hpath : resolveAndRead e s path = .ok (some (akey, entry)) →
      readVerified e s akey = .ok (some entry) ∧
        (hint = some (akey, s.buffer.epoch) ∨ resolve e s path = .ok (some akey)) := by
    intro h
    obtain ⟨hread, hr⟩ := resolveAndRead_cases h
    exact ⟨hread, .inr hr⟩
  unfold resolveTarget at h
  split at h
  · split at h
    · split at h
      · rename_i key epoch hepoch
        obtain ⟨o, ho, h⟩ := Except.bind_eq_ok.1 h
        cases o with
        | none => exact hpath h
        | some entry' =>
          cases Except.ok.inj h
          exact ⟨ho, .inl (by rw [hepoch])⟩
      · exact hpath h
    · exact hpath h
  · exact hpath h

/-- A hint names the a-node at the path, as long as the count of structural changes is its own. -/
def Honest (s : TxState) (t : ATree) (path : APath) (hint : Option (AKey × UInt64)) : Prop :=
  ∀ key, hint = some (key, s.buffer.epoch) → (t path.names).map Node.key = some key

theorem putScalarInto_spec {path : APath} {hint : Option (AKey × UInt64)} {vpath : VPath}
    {scalar : Scalar} (hdist : Distinct e n) (hs₀ : Sees P n d v s₀) (ht : Holds .root v t) :
    Triple e n (· = s₀) (putScalarInto path hint vpath scalar)
      (fun _ => Shows P n d fun t' => ∃ q blob, StoredAt t t' q blob ∧
        (Honest s₀ t path hint → q = path.names))
      (fun _ s => s = s₀) := by
  unfold putScalarInto
  refine Triple.inspect_at (fun _ _ => rfl) ?_
  intro target htarget
  cases target with
  | none =>
    refine (storeBlobInto_spec hdist hs₀ ht).consequence (fun _ h => h) ?_ fun _ _ h => h.1
    rintro _ s ⟨d', v', t', hd', hs', ht', hstored⟩
    exact ⟨d', v', t', hd', hs', ht', _, _, hstored, fun _ => rfl⟩
  | some target =>
    obtain ⟨akey, entry⟩ := target
    obtain ⟨hread, hwhere⟩ := resolveTarget_cases htarget
    refine Triple.guard (fun _ _ hs => hs) ?_
    intro _
    cases entry with
    | branch children =>
      refine Triple.inspect_known none (fun _ _ => rfl) ?_
      exact Triple.inspect (fun _ _ hs _ => hs) fun _ _ h _ => nomatch h.2
    | leaf x =>
      have hv := hs₀.readVerified_file hread
      obtain ⟨q, a, ha, hkey⟩ := ht.covered hv
      obtain ⟨k, _ | y⟩ := a
      · obtain ⟨links, hlinks, -⟩ := ht.branch ha
        cases hkey
        rw [hv] at hlinks
        cases hlinks
      cases hkey
      have hq : Honest s₀ t path hint → q = path.names := by
        intro hhonest
        have hnode : ∃ b, t path.names = some b ∧ b.key = k := by
          obtain hhint | hr := hwhere
          · exact Option.map_eq_some_iff.1 (hhonest k hhint)
          · obtain hnode | hempty := hs₀.resolve_cases ht hr
            · exact hnode
            · rw [hempty q] at ha
              cases ha
        obtain ⟨b, hb, hkey⟩ := hnode
        exact ht.inj ha hb hkey.symm
      have hput : ∀ blob, Triple e n (· = s₀) (putFileEdit k blob)
          (fun _ => Shows P n d fun t' => ∃ q blob, StoredAt t t' q blob ∧
            (Honest s₀ t path hint → q = path.names)) (fun _ s => s = s₀) := by
        intro blob
        refine (putFileEdit_spec hv).consequence (fun _ hs => hs ▸ hs₀) ?_ fun _ _ h => h
        intro _ s hs
        exact ⟨d, _, _, Nat.le_refl d, hs, ht.setLeaf ha, q, blob, storedAt_setLeaf ha, hq⟩
      refine Triple.guard (fun _ _ hs => hs) ?_
      intro patched
      cases patched with
      | some blob => exact hput blob
      | none => exact Triple.guard (fun _ _ hs => hs) fun blob => hput blob

end Scalars

end ArborDb
