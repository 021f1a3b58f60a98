import ArborDb.Txn.Bracket
import ArborDb.Txn.Grab

/-!
# Moving and copying onto an ancestor

A move or a copy first clears its destination. When the destination is an ancestor of the source,
this deletes the source as well. The calls reject a destination under the source but not one above
it; what is left to stop them is a missing source or a missing right, and then nothing is written.
-/

namespace ArborDb

open Prog (Triple)
open Layout (Holds Lays Node Under wipe)

variable {e : Env} {P : Policy e} {n d : Nat} {v : View} {s s₀ : TxState} {t : ATree}
  {p : List Str} {a : Node AKey Bytes}

/-! ## Reads without checks -/

/-- An absent a-node is neither buffered nor in the table. -/
theorem Sees.absent (hs : Sees P n d v s) {k : AKey} (hk : v k = none) :
    s.buffer.dirs.get k = none ∧ s.data.get k = none := by
  have hentry := hs.hasEntry k
  rw [hk] at hentry
  unfold ArborDb.hasEntry SortedMap.contains at hentry
  rw [WriteBuffer.dirGet_eq] at hentry
  simpa using hentry

theorem Sees.resolveBuffered_walk (hs : Sees P n d v s) (names : List Str) (k : AKey) :
    resolveBufferedFrom s k names = Layout.walk v k names := by
  induction names generalizing k with
  | nil => rfl
  | cons name names ih =>
    unfold resolveBufferedFrom ArborDb.childOf Layout.walk Layout.childOf
    rw [WriteBuffer.dirGet_eq]
    cases hv : v k with
    | none =>
      obtain ⟨hd, hdata⟩ := hs.absent hv
      simp only [hd, hdata, Option.bind_none]
    | some c =>
      obtain ⟨m, hd, rfl⟩ | ⟨hd, b, hf, rfl⟩ | ⟨hd, -, hdata⟩ := hs.stored hv
      · simp only [hd]
        cases m.get name with
        | none => rfl
        | some c => exact ih c
      · obtain ⟨b', hb'⟩ := hs.coherent.file hf
        simp only [hd, hb', Option.bind_none]
      · simp only [hd, hdata]
        cases c with
        | leaf x => rfl
        | branch m =>
          simp only
          cases m.get name with
          | none => rfl
          | some c => exact ih c

/-- An unchecked walk ends at the key the tree has. -/
theorem Sees.resolveBuffered_tree (hs : Sees P n d v s) (ht : Holds .root v t) {path : APath}
    (hne : path.names ≠ []) : resolveBuffered s path = (t path.names).map Node.key := by
  unfold resolveBuffered
  rw [hs.resolveBuffered_walk, ht.walk_root hne]

/-! ## Clearing the destination -/

/-- The principal may clear the slot at a path: it may modify the parent and delete the subtree. -/
def MayClear (e : Env) (s : TxState) (path : APath) : Prop :=
  ∃ parent name r k, path.splitLast = some (parent, name) ∧ resolveBuffered s parent = some r ∧
    check e s r .modify = .ok () ∧ resolveBuffered s path = some k ∧
    checkDeletable e s (s.size + 1) k = .ok ()

/-- A move or a copy is about to delete its own source. -/
def Engulfs (e : Env) (s : TxState) (src dst : APath) : Prop :=
  dst.names <+: src.names ∧ src ≠ dst ∧ resolveBuffered s src ≠ none ∧ MayClear e s dst

/-- Nothing is written when the destination is there and may not be cleared. -/
theorem prepare_blocked {α : Type} {path : APath} {name : Str} {r : AKey} {rest : AKey → TxM α}
    {Q : α → TxState → Prop} (hdist : Distinct e n) (hs₀ : Sees P n d v s₀) (ht : Holds .root v t)
    (hr : t path.names = some ⟨r, none⟩) (ha : t (path.names ++ [name]) = some a)
    (hblocked : check e s₀ r .modify = .ok () → ¬ Deletable e s₀ t (path.names ++ [name])) :
    Triple e n (· = s₀) (do
      let r ← ensureDir path
      inspect (check · · r .modify)
      clearSlot r name
      rest r) Q (fun _ s => s = s₀) := by
  refine Triple.bind ((ensureDir_spec hdist hs₀ ht).consequence (fun _ h => h) (fun _ _ h => h)
    fun _ _ h => h.1) ?_
  intro r'
  rintro s (⟨hs, hp⟩ | ⟨d₁, v₁, t₁, hd₁, hs, ht₁, hmade, hp, hempty⟩)
  · rw [hr] at hp
    cases hp
    refine Triple.inspect_at (E := fun _ s => s = s₀) (fun _ _ => rfl) ?_ s hs
    intro _ hmodify
    refine Triple.bind (R := fun _ _ => False) ?_ fun _ _ h => h.elim
    unfold clearSlot
    refine Triple.inspect_known _ (fun _ hs => hs ▸ hs₀.child_tree ht hr name) ?_
    rw [ha]
    refine Triple.inspect_at (fun _ _ => rfl) ?_
    intro _ hdeletable
    refine absurd ?_ (hblocked hmodify)
    exact (hs₀.checkDeletable_iff ht ha).1 hdeletable
  · have hnone := hempty [name] (by simp)
    rw [hmade.kept ha] at hnone
    cases hnone

/-- Whether a slot may be cleared does not change before the mutation. -/
theorem Ready.blocked (hs₀ : Sees P n d v s₀) (ht : Holds .root v t) (hsettled : P.Settled)
    (h : Ready P n d v s₀ s) {path parent : APath} {name : Str} {r : AKey}
    (hsplit : path.splitLast = some (parent, name)) (hr : t parent.names = some ⟨r, none⟩)
    (ha : t path.names = some a) (hno : ¬ MayClear e s₀ path) :
    check e s r .modify = .ok () → ¬ Deletable e s t path.names := by
  intro hmodify hdeletable
  have hcheck : ∀ k needed, check e s k needed = check e s₀ k needed := by
    intro k needed
    unfold check
    rw [h.acl hsettled]
  have hpath := APath.splitLast_eq_some hsplit
  refine hno ⟨parent, name, r, a.key, hsplit, ?_, hcheck r _ ▸ hmodify, ?_, ?_⟩
  · by_cases hnil : parent.names = []
    · rw [hnil] at hr
      cases ht.top hr
      unfold resolveBuffered
      rw [hnil]
      rfl
    · rw [hs₀.resolveBuffered_tree ht hnil, hr]
      rfl
  · rw [hs₀.resolveBuffered_tree ht (by simp [hpath]), ha]
    rfl
  · refine (hs₀.checkDeletable_iff ht ha).2 ?_
    intro q b hb
    rw [← hcheck]
    exact hdeletable hb

/-- A source under its destination is there, and the destination may not be cleared. -/
theorem prepare_engulfed {α : Type} {src dst parent : APath} {name : Str} {rest : AKey → TxM α}
    {Q : α → TxState → Prop} (hdist : Distinct e n) (hs₀ : Sees P n d v s₀) (ht : Holds .root v t)
    (hsettled : P.Settled) (h : Ready P n d v s₀ s) (hds : dst.names <+: src.names)
    (hne : src ≠ dst) (hno : ¬ Engulfs e s₀ src dst)
    (hdst : splitLastOrPanic dst = .ok (parent, name)) (ha : t src.names = some a) :
    Triple e n (· = s) (do
      let r ← ensureDir parent
      inspect (check · · r .modify)
      clearSlot r name
      rest r) Q (fun _ s' => s' = s) := by
  have hpath := splitLastOrPanic_eq hdst
  have hsplit : dst.splitLast = some (parent, name) := by
    obtain ⟨names⟩ := dst
    cases hpath
    exact APath.splitLast_append ..
  obtain ⟨b, hb⟩ : ∃ b, t dst.names = some b := by
    obtain ⟨q, hq⟩ := hds
    rw [← Option.ne_none_iff_exists']
    intro hnone
    have hgone := ht.none_append hnone q
    rw [hq, ha] at hgone
    cases hgone
  have hsrc : src.names ≠ [] := by
    intro hnil
    rw [hnil, List.prefix_nil, hpath] at hds
    simp at hds
  have hclear : ¬ MayClear e s₀ dst := by
    intro hmay
    refine hno ⟨hds, hne, ?_, hmay⟩
    rw [hs₀.resolveBuffered_tree ht hsrc, ha]
    simp
  have hslot := hb
  rw [hpath] at hslot
  obtain ⟨r, hr⟩ := ht.parent hslot
  refine prepare_blocked hdist h.sees ht hr hslot ?_
  rw [← hpath]
  exact h.blocked hs₀ ht hsettled hsplit hr hb hclear

/-- A move of a source that is missing, or onto an ancestor that may not be cleared, writes
nothing. -/
theorem mvInto_blocked {src dst : APath} {Q : Unit → TxState → Prop} (hdist : Distinct e n)
    (hs₀ : Sees P n d v s₀) (ht : Holds .root v t) (hsettled : P.Settled)
    (h : Ready P n d v s₀ s) (hds : dst.names <+: src.names) (hne : src ≠ dst)
    (hno : ¬ Engulfs e s₀ src dst) :
    Triple e n (· = s) (mvInto src dst) Q (fun _ s' => s' = s) := by
  unfold mvInto
  refine Triple.inspect_at (fun _ _ => rfl) ?_
  rintro ⟨sp, sn⟩ hsrc
  refine Triple.inspect_at (fun _ _ => rfl) ?_
  rintro ⟨dp, dn⟩ hdst
  refine Triple.inspect_at (fun _ _ => rfl) ?_
  intro r hr
  cases r with
  | none => exact Triple.fail fun _ hs => hs
  | some srcParent =>
    refine Triple.guard (fun _ _ hs => hs) ?_
    intro _
    refine Triple.inspect_at (fun _ _ => rfl) ?_
    intro c hc
    cases c with
    | none => exact Triple.fail fun _ hs => hs
    | some akey =>
      refine Triple.guard (fun _ _ hs => hs) ?_
      intro _
      obtain ⟨-, b, hb, -⟩ := h.sees.resolve_child ht hr hc
      rw [← splitLastOrPanic_eq hsrc] at hb
      exact prepare_engulfed hdist hs₀ ht hsettled h hds hne hno hdst hb

theorem cpInto_blocked {src dst : APath} {Q : Unit → TxState → Prop} (hdist : Distinct e n)
    (hs₀ : Sees P n d v s₀) (ht : Holds .root v t) (hsettled : P.Settled)
    (h : Ready P n d v s₀ s) (hds : dst.names <+: src.names) (hne : src ≠ dst)
    (hno : ¬ Engulfs e s₀ src dst) :
    Triple e n (· = s) (cpInto src dst) Q (fun _ s' => s' = s) := by
  unfold cpInto
  refine Triple.inspect_at (fun _ _ => rfl) ?_
  rintro ⟨dp, dn⟩ hdst
  refine Triple.inspect_at (fun _ _ => rfl) ?_
  intro r hr
  cases r with
  | none => exact Triple.fail fun _ hs => hs
  | some srcAkey =>
    have hnil : src.names ≠ [] := by
      intro hnil
      rw [hnil, List.prefix_nil, splitLastOrPanic_eq hdst] at hds
      simp at hds
    obtain ⟨a, ha, -⟩ := Option.map_eq_some_iff.1 (h.sees.resolve_tree ht hnil hr).symm
    exact prepare_engulfed hdist hs₀ ht hsettled h hds hne hno hdst ha

end ArborDb
