import ArborDb.Lib.TreeOps
import ArborDb.Txn.Spec

/-!
# Mutations as operations on a tree

A table holds a tree: a partial function from paths to a-nodes. Each mutation is specified by the
tree it leaves, for every state that shows the store of a tree. A mutation that fails leaves the
state as it was: every check comes before the first write, and the a-nodes a mutation creates on
its way belong to the principal, so that no later check on them fails.
-/

namespace ArborDb

open Prog (Triple)
open Layout (Holds Lays Node Under wipe Made)

/-- The a-nodes of a table by path. -/
abbrev ATree := Layout.Tree AKey Str Bytes

/-- The kind of a tree's node. -/
def nodeKind (a : Node AKey Bytes) : EntryKind :=
  match a.leaf with
  | none => .dir
  | some _ => .file

variable {e : Env} {P : Policy e} {n d : Nat} {v : View} {s s₀ : TxState} {t : ATree}
  {p : List Str} {a : Node AKey Bytes}

/-! ## Reads -/

theorem Sees.child_tree (hs : Sees P n d v s) (ht : Holds .root v t) (ha : t p = some a)
    (name : Str) : ArborDb.child e s a.key name = .ok ((t (p ++ [name])).map Node.key) := by
  rw [hs.child, ht.childOf ha]

theorem Sees.kind_tree (hs : Sees P n d v s) (ht : Holds .root v t) (ha : t p = some a) :
    ArborDb.kind e s a.key = .ok (some (nodeKind a)) := by
  rw [hs.kind]
  obtain ⟨k, _ | x⟩ := a
  · obtain ⟨links, hv, -⟩ := ht.branch ha
    rw [hv]
    rfl
  · rw [ht.leaf ha]
    rfl

/-- Following names ends at the key the tree has there, unless a check fails. -/
theorem Sees.resolveFrom_tree (hs : Sees P n d v s) (ht : Holds .root v t) {names : List Str}
    {r : Option AKey} (ha : t p = some a) (hr : resolveFrom e s a.key names = .ok r) :
    r = (t (p ++ names)).map Node.key := by
  induction names generalizing p a with
  | nil =>
    rw [List.append_nil, ha]
    exact (Except.ok.inj hr).symm
  | cons name names ih =>
    obtain ⟨-, -, hr⟩ := Except.bind_eq_ok.1 hr
    rw [hs.child_tree ht ha, Except.ok_bind] at hr
    have happ : p ++ name :: names = p ++ [name] ++ names := by simp
    rw [happ]
    cases hc : t (p ++ [name]) with
    | none =>
      rw [hc] at hr
      rw [ht.none_append hc names]
      exact (Except.ok.inj hr).symm
    | some b =>
      rw [hc] at hr
      exact ih hc hr

theorem Sees.resolve_tree (hs : Sees P n d v s) (ht : Holds .root v t) {path : APath}
    {r : Option AKey} (hne : path.names ≠ []) (hr : resolve e s path = .ok r) :
    r = (t path.names).map Node.key := by
  cases hroot : t [] with
  | some a =>
    have ha := ht.top hroot
    subst ha
    exact hs.resolveFrom_tree ht hroot hr
  | none =>
    obtain ⟨name, names, hnames⟩ := List.exists_cons_of_ne_nil hne
    have hnone := ht.none_append hroot path.names
    rw [List.nil_append] at hnone
    rw [hnone]
    unfold resolve at hr
    rw [hnames] at hr
    obtain ⟨-, -, hr⟩ := Except.bind_eq_ok.1 hr
    rw [hs.child, Layout.childOf, ht.eq_none hroot, Except.ok_bind] at hr
    exact (Except.ok.inj hr).symm

/-! ## Creating directories -/

/-- What can keep the directories on the way to a path from being ensured: a missing right, or a
file on the way. -/
def Barred (e : Env) (t : ATree) (p : List Str) : Prop :=
  e.principal ≠ .unrestricted ∨ ∃ q k x, q <+: p ∧ t q = some ⟨k, some x⟩

/-- A failure that leaves the state as it was, with its reason. -/
def Refused (s₀ : TxState) (reason : Prop) (_ : AdbError) (s : TxState) : Prop := s = s₀ ∧ reason

/-- Only a restricted principal fails a check. -/
theorem check_error {k : AKey} {needed : Rights} {err : AdbError}
    (h : check e s k needed = .error err) : e.principal ≠ .unrestricted := by
  intro hp
  unfold check at h
  rw [hp, authorize_unrestricted] at h
  cases h

/-- The directory `r` was just created at `p`, with everything missing on the way to it. -/
def Created (P : Policy e) (n d : Nat) (t : ATree) (p : List Str) (r : AKey) (s : TxState) : Prop :=
  ∃ d' v' t', d ≤ d' ∧ Sees (P.granting r) n d' v' s ∧ Holds .root v' t' ∧ Made t t' p ∧
    t' p = some ⟨r, none⟩ ∧ ∀ q, q ≠ [] → t' (p ++ q) = none

/-- Creating one directory. -/
theorem makeDir_spec {α : Type} {akey : AKey} {name : Str} {rest : AKey → TxM α}
    {Q : α → TxState → Prop} {E : AdbError → TxState → Prop} (hdist : Distinct e n)
    (ht : Holds .root v t) (hp : t p = some ⟨akey, none⟩) (hslot : t (p ++ [name]) = none)
    (hrest : ∀ c, Triple e n (Created P n d t (p ++ [name]) c) (rest c) Q E) :
    Triple e n (Sees P n d v) (do
      let c ← generate
      putDir c .empty
      linkChild akey name c
      rest c) Q E := by
  obtain ⟨links, hlinks, -⟩ := ht.branch hp
  refine generate_spec hdist ?_
  intro c hc
  have hne : akey ≠ c := by
    rintro rfl
    rw [hc.free] at hlinks
    cases hlinks
  have hlinks' : Function.update v c (some (.dir .empty)) akey = some (.dir links) := by
    rw [Function.update_of_ne hne, hlinks]
  -- The new directory belongs to the principal from its first write on.
  have hput := putDir_spec (P := P.granting c) (E := E) (v := v) (m := .empty) hc.used
    (by simp [hc.free])
  refine Triple.bind (hput.pre (fun s hs => hs.to_granting fun h => absurd hc.free h)) ?_
  intro _
  refine Triple.bind (linkChild_spec hlinks') ?_
  intro _
  refine (hrest c).pre ?_
  intro s hs
  have hsingle : Lays (Function.update v c (some (Entry.dir .empty))) (Layout.single ⟨c, none⟩) :=
    Layout.lays_single_branch (Function.update_self ..)
  refine ⟨d + 1, _, Layout.graft t (p ++ [name]) (Layout.single ⟨c, none⟩), Nat.le_succ d, hs,
    ht.graft (a := ⟨c, none⟩) hsingle ?_ ?_ hp hlinks hslot rfl, ⟨?_, ?_⟩, ?_, ?_⟩
  · intro j hj
    exact Function.update_of_ne (fun hjc => hj (r := []) rfl hjc.symm) _ _
  · intro r y hr
    obtain ⟨-, rfl⟩ := Layout.single_eq_some hr
    exact hc.free
  · intro q a ha
    rw [Layout.graft_of_not, ha]
    rintro ⟨r, rfl⟩
    rw [ht.none_append hslot r] at ha
    cases ha
  · intro q a hq ha
    by_cases hpre : p ++ [name] <+: q
    · obtain ⟨r, rfl⟩ := hpre
      rw [Layout.graft_append] at ha
      obtain ⟨rfl, rfl⟩ := Layout.single_eq_some ha
      rw [List.append_nil]
      exact ⟨List.prefix_refl _, rfl⟩
    · rw [Layout.graft_of_not hpre, hq] at ha
      cases ha
  · have hself := Layout.graft_append (t := t) (c := Layout.single ⟨c, none⟩) (d := p ++ [name]) []
    rw [List.append_nil] at hself
    exact hself
  · intro q hq
    rw [Layout.graft_append]
    exact if_neg hq

/-- Below a directory just created, no check fails and every name is new. -/
theorem ensureDirFrom_created {akey : AKey} {names : List Str} (hdist : Distinct e n) :
    Triple e n (Created P n d t p akey) (ensureDirFrom akey names)
      (Created P n d t (p ++ names)) (fun _ _ => False) := by
  induction names generalizing p akey with
  | nil =>
    rw [List.append_nil]
    exact Triple.pure fun _ hs => hs
  | cons name names ih =>
    unfold ensureDirFrom
    -- The store differs from state to state, so the run is followed from one state on.
    rintro s ⟨d', v', t', hd, hs, ht, hmade, hp, hempty⟩
    have hk : v' akey ≠ none := ht.stored hp
    have hslot : t' (p ++ [name]) = none := hempty [name] (by simp)
    refine Triple.inspect_known (P := Sees (P.granting akey) n d' v') ()
      (fun _ hs => hs.check_granted hk _) ?_ s hs
    refine Triple.inspect_known none (fun _ hs => by rw [hs.child_tree ht hp, hslot]; rfl) ?_
    refine Triple.inspect_known () (fun _ hs => hs.check_granted hk _) ?_
    refine (makeDir_spec (P := P) hdist ht hp hslot ?_).pre (fun _ hs => hs.of_granting)
    intro c
    have happ : p ++ name :: names = p ++ [name] ++ names := by simp
    rw [happ]
    refine (ih (p := p ++ [name])).pre ?_
    rintro s ⟨d₁, v₁, t₁, hd₁, hs₁, ht₁, hmade₁, hp₁, hempty₁⟩
    exact ⟨d₁, v₁, t₁, hd.trans hd₁, hs₁, ht₁, hmade.trans hmade₁, hp₁, hempty₁⟩

/-- Ensuring directories finds the last one, creates it, or fails before the first write. -/
theorem ensureDirFrom_spec {akey : AKey} {names : List Str} (hdist : Distinct e n)
    (hs₀ : Sees P n d v s₀) (ht : Holds .root v t) (hp : t p = some ⟨akey, none⟩) :
    Triple e n (· = s₀) (ensureDirFrom akey names)
      (fun r s => (s = s₀ ∧ t (p ++ names) = some ⟨r, none⟩) ∨ Created P n d t (p ++ names) r s)
      (Refused s₀ (Barred e t (p ++ names))) := by
  induction names generalizing p akey with
  | nil =>
    rw [List.append_nil]
    exact Triple.pure fun _ hs => .inl ⟨hs, hp⟩
  | cons name names ih =>
    have happ : p ++ name :: names = p ++ [name] ++ names := by simp
    rw [happ]
    unfold ensureDirFrom
    refine Triple.inspect_at (fun _ herr => ⟨rfl, .inl (check_error herr)⟩) ?_
    intro _ _
    refine Triple.inspect_known _ (fun _ hs => hs ▸ hs₀.child_tree ht hp name) ?_
    cases hc : t (p ++ [name]) with
    | some b =>
      refine Triple.inspect_known _ (fun _ hs => hs ▸ hs₀.kind_tree ht hc) ?_
      obtain ⟨k, _ | x⟩ := b
      · rw [if_neg (by simp [nodeKind])]
        exact ih hc
      · rw [if_pos (by simp [nodeKind])]
        exact Triple.fail fun _ hs => ⟨hs, .inr ⟨_, k, x, List.prefix_append _ _, hc⟩⟩
    | none =>
      refine Triple.inspect_at (fun _ herr => ⟨rfl, .inl (check_error herr)⟩) ?_
      intro _ _
      refine (makeDir_spec (P := P) (d := d) hdist ht hp hc ?_).pre (fun _ hs => hs ▸ hs₀)
      intro c
      exact (ensureDirFrom_created hdist).consequence (fun _ hs => hs) (fun _ _ h => .inr h)
        fun _ _ h => h.elim

theorem ensureDir_spec {path : APath} (hdist : Distinct e n) (hs₀ : Sees P n d v s₀)
    (ht : Holds .root v t) :
    Triple e n (· = s₀) (ensureDir path)
      (fun r s => (s = s₀ ∧ t path.names = some ⟨r, none⟩) ∨ Created P n d t path.names r s)
      (Refused s₀ (Barred e t path.names)) := by
  unfold ensureDir ensureRoot
  cases hroot : t [] with
  | some a =>
    have ha := ht.top hroot
    subst ha
    have hentry : hasEntry s₀ .root = true := by
      rw [hs₀.hasEntry, Option.isSome_iff_ne_none]
      exact ht.stored hroot
    refine Triple.bind (R := fun _ s => s = s₀) ?_ fun _ => ensureDirFrom_spec hdist hs₀ ht hroot
    refine Triple.inspect_known true (fun _ hs => by rw [hs, hentry]) ?_
    exact Triple.pure fun _ hs => hs
  | none =>
    have hentry : hasEntry s₀ .root = false := by
      rw [hs₀.hasEntry, ht.eq_none hroot]
      rfl
    have hused : Used e n d .root := fun i _ hn => (hdist i hn).1
    have hnone : ∀ q, t q = none := ht.none_append hroot
    refine Triple.bind (R := fun _ => Created P n d t [] .root) ?_ ?_
    · refine Triple.inspect_known false (fun _ hs => by rw [hs, hentry]) ?_
      rw [if_neg Bool.false_ne_true]
      have hput := putDir_spec (P := P.granting .root)
        (E := Refused s₀ (Barred e t path.names)) (v := v)
        (m := .empty) hused (by simp [ht.eq_none hroot])
      refine hput.consequence ?_ ?_ fun _ _ h => h
      · rintro _ rfl
        exact hs₀.to_granting fun _ => grants_root e _
      · intro _ s hs
        refine ⟨d, _, _, Nat.le_refl d, hs, ht.single_root hroot, ⟨?_, ?_⟩, rfl, ?_⟩
        · intro q a ha
          rw [hnone q] at ha
          cases ha
        · intro q a _ ha
          obtain ⟨rfl, rfl⟩ := Layout.single_eq_some ha
          exact ⟨List.prefix_refl _, rfl⟩
        · intro q hq
          exact if_neg hq
    · intro _
      exact (ensureDirFrom_created hdist).consequence (fun _ hs => hs) (fun _ _ h => .inr h)
        fun _ _ h => h.elim

/-! ## Deleting -/

theorem Sees.length_lt (hs : Sees P n d v s) (ht : Lays v t) {q : List Str} (ha : t q = some a) :
    q.length < s.size := by
  refine ht.length_lt ?_ ha
  intro r b hb
  obtain ⟨c, hc⟩ := Option.ne_none_iff_exists'.1 (ht.stored hb)
  exact hs.mem_keys hc

/-- The bound of a recursive mutation exceeds every path. -/
theorem bounded_spec {α : Type} {f : Nat → TxM α} {Q : α → TxState → Prop}
    {E : AdbError → TxState → Prop} (ht : Lays v t)
    (hf : ∀ fuel, (∀ {q : List Str} {b : Node AKey Bytes}, t q = some b → q.length < fuel) →
      Triple e n (Sees P n d v) (f fuel) Q E) :
    Triple e n (Sees P n d v) (bounded f) Q E := by
  unfold bounded
  refine Triple.inspect (fun _ _ _ herr => nomatch herr) ?_
  intro size
  refine Triple.of_pre (p := ∀ {q : List Str} {b : Node AKey Bytes}, t q = some b →
    q.length < size + 1) ?_ ?_
  · rintro s ⟨hs, hsize⟩ q b hb
    have hlt := hs.length_lt ht hb
    rw [Except.ok.inj hsize] at hlt
    omega
  · intro hfuel
    exact (hf (size + 1) hfuel).pre (fun _ hs => hs.1)

/-- A cascade removes exactly the subtree of the a-node it starts at. The store may have lost other
a-nodes of the tree already: only the subtree has to be as the tree says. -/
theorem cascadeDelete_spec {v₀ : View} {fuel : Nat} {E : AdbError → TxState → Prop}
    (hl : Lays v₀ t) (ha : t p = some a)
    (hfuel : ∀ {q : List Str} {b : Node AKey Bytes}, t (p ++ q) = some b → q.length < fuel)
    (hv : ∀ k, Under t p k → v k = v₀ k) :
    Triple e n (Sees P n d v) (cascadeDelete fuel a.key)
      (fun _ => Sees P n d (wipe v (Under t p))) E := by
  induction fuel generalizing p a v with
  | zero => exact absurd (hfuel (q := []) (b := a) (by rw [List.append_nil, ha])) (Nat.not_lt_zero _)
  | succ fuel ih =>
    obtain ⟨c, hc, hnodup, hlinked⟩ := hl.linked ha
    have hself : Under t p a.key := (hl.under_iff ha _).2 (.inl rfl)
    have hva : v a.key = some c := by rw [hv _ hself, hc]
    unfold cascadeDelete
    refine Triple.inspect_known (some c.linked) (fun _ hs => by rw [hs.cascadeChildren, hva]; rfl) ?_
    refine Triple.of_pre (fun s hs => hs.used (k := a.key) (by simp [hva])) ?_
    intro hused
    -- After some children are done, what was under them is gone.
    let gone (done : List AKey) : AKey → Prop := fun k =>
      ∃ name b, t (p ++ [name]) = some b ∧ b.key ∈ done ∧ Under t (p ++ [name]) k
    refine Triple.bind (R := fun _ => Sees P n d (wipe v (gone c.linked))) ?_ ?_
    · refine (Triple.forEach (fun done => Sees P n d (wipe v (gone done))) ?_).pre ?_
      · intro done x rest hdone
        have hnot : x ∉ done := by
          rw [hdone, List.nodup_append] at hnodup
          exact fun hx => hnodup.2.2 x hx x (by simp) rfl
        obtain ⟨name, b, hb, rfl⟩ := (hlinked x).1 (by simp [hdone])
        have hstep := ih (v := wipe v (gone done)) hb ?_ ?_
        · have hwipe : wipe (wipe v (gone done)) (Under t (p ++ [name])) =
              wipe v (gone (done ++ [b.key])) := by
            rw [Layout.wipe_wipe]
            funext k
            apply Layout.wipe_congr
            constructor
            · rintro (⟨name', b', hb', hmem, hk⟩ | hk)
              · exact ⟨name', b', hb', by simp [hmem], hk⟩
              · exact ⟨name, b, hb, by simp, hk⟩
            · rintro ⟨name', b', hb', hmem, hk⟩
              rw [List.mem_append, List.mem_singleton] at hmem
              obtain hmem | hkey := hmem
              · exact .inl ⟨name', b', hb', hmem, hk⟩
              · rw [hl.inj hb' hb hkey] at hk
                exact .inr hk
          rw [hwipe] at hstep
          exact hstep
        · intro q b' hq
          have hlen := hfuel (q := name :: q) (b := b') (by simpa using hq)
          simpa using hlen
        · intro k hk
          rw [Layout.wipe_of_not, hv k ((hl.under_iff ha k).2 (.inr ⟨name, b, hb, hk⟩))]
          rintro ⟨name', b', hb', hmem, q', c', hc', hkey'⟩
          obtain ⟨q, c, hc, hkey⟩ := hk
          have hpath := hl.inj hc hc' (hkey.trans hkey'.symm)
          simp only [List.append_assoc, List.singleton_append, List.append_cancel_left_eq,
            List.cons.injEq] at hpath
          rw [← hpath.1, hb] at hb'
          cases hb'
          exact hnot hmem
      · intro s hs
        rwa [Layout.wipe_eq_self]
        rintro k ⟨name, b, -, hmem, -⟩
        cases hmem
    · intro _
      have hwipe : Function.update (wipe v (gone c.linked)) a.key none = wipe v (Under t p) := by
        funext k
        rw [Function.update_apply]
        by_cases hk : k = a.key
        · rw [if_pos hk, hk, Layout.wipe_of hself]
        · rw [if_neg hk]
          apply Layout.wipe_congr
          rw [hl.under_iff ha]
          constructor
          · rintro ⟨name, b, hb, -, hunder⟩
            exact .inr ⟨name, b, hb, hunder⟩
          · rintro (heq | ⟨name, b, hb, hunder⟩)
            · exact absurd heq hk
            · exact ⟨name, b, hb, (hlinked b.key).2 ⟨name, b, hb, rfl⟩, hunder⟩
      rw [← hwipe]
      exact removeEntry_spec hused

/-- A cascade from an a-node of the table's tree. -/
theorem delete_spec {E : AdbError → TxState → Prop} (ht : Holds .root v t) (ha : t p = some a) :
    Triple e n (Sees P n d v) (bounded (cascadeDelete · a.key))
      (fun _ => Sees P n d (wipe v (Under t p))) E := by
  refine bounded_spec ht.toLays ?_
  intro fuel hfuel
  refine cascadeDelete_spec ht.toLays ha ?_ fun _ _ => rfl
  intro q b hb
  have hlen := hfuel hb
  rw [List.length_append] at hlen
  omega

/-! ### The right to delete -/

theorem forM_eq_ok {α : Type} {f : α → AdbResult Unit} {l : List α} :
    l.forM f = .ok () ↔ ∀ x ∈ l, f x = .ok () := by
  induction l with
  | nil => simp
  | cons x l ih =>
    have hcons : (x :: l).forM f = f x >>= fun _ => l.forM f := rfl
    rw [hcons, Except.bind_eq_ok]
    constructor
    · rintro ⟨_, hx, hl⟩
      simpa [hx] using ih.1 hl
    · intro h
      exact ⟨(), h x (by simp), ih.2 fun y hy => h y (by simp [hy])⟩

/-- The principal may delete every a-node under a path. -/
def Deletable (e : Env) (s : TxState) (t : ATree) (p : List Str) : Prop :=
  ∀ {q : List Str} {b : Node AKey Bytes}, t (p ++ q) = some b → check e s b.key .delete = .ok ()

/-- The check before a delete looks at the whole subtree. -/
theorem checkDeletable_iff {fuel : Nat} (hs : Sees P n d v s) (hl : Lays v t) (ha : t p = some a)
    (hfuel : ∀ {q : List Str} {b : Node AKey Bytes}, t (p ++ q) = some b → q.length < fuel) :
    checkDeletable e s fuel a.key = .ok () ↔ Deletable e s t p := by
  induction fuel generalizing p a with
  | zero => exact absurd (hfuel (q := []) (b := a) (by rw [List.append_nil, ha])) (Nat.not_lt_zero _)
  | succ fuel ih =>
    have hsplit : Deletable e s t p ↔ check e s a.key .delete = .ok () ∧
        ∀ {name : Str} {b : Node AKey Bytes}, t (p ++ [name]) = some b →
          Deletable e s t (p ++ [name]) := by
      constructor
      · intro h
        refine ⟨h (q := []) (by rw [List.append_nil, ha]), ?_⟩
        intro name b _ q c hc
        exact h (q := name :: q) (by simpa using hc)
      · rintro ⟨hself, hchildren⟩ q c hc
        cases q with
        | nil =>
          rw [List.append_nil, ha] at hc
          cases hc
          exact hself
        | cons name q =>
          have happ : p ++ name :: q = p ++ [name] ++ q := by simp
          rw [happ] at hc
          cases hb : t (p ++ [name]) with
          | none =>
            rw [hl.none_append hb q] at hc
            cases hc
          | some b => exact hchildren hb hc
    have hchild : ∀ {name : Str} {b : Node AKey Bytes}, t (p ++ [name]) = some b →
        (checkDeletable e s fuel b.key = .ok () ↔ Deletable e s t (p ++ [name])) := by
      intro name b hb
      refine ih hb ?_
      intro q c hc
      have hlen := hfuel (q := name :: q) (b := c) (by simpa using hc)
      simpa using hlen
    rw [hsplit]
    unfold checkDeletable
    rw [Except.bind_eq_ok]
    obtain ⟨k, _ | x⟩ := a
    · obtain ⟨links, hv, -⟩ := hl.branch ha
      obtain ⟨c, hc, -, hlinked⟩ := hl.linked ha
      rw [hv] at hc
      cases hc
      have hkind : ArborDb.kind e s k = .ok (some .dir) := by rw [hs.kind, hv]; rfl
      simp only [hkind, Except.ok_bind, hs.dirChildren hv, if_true]
      constructor
      · rintro ⟨_, hself, hrest⟩
        refine ⟨hself, ?_⟩
        intro name b hb
        exact (hchild hb).1 (forM_eq_ok.1 hrest _ ((hlinked b.key).2 ⟨name, b, hb, rfl⟩))
      · rintro ⟨hself, hrest⟩
        refine ⟨(), hself, forM_eq_ok.2 ?_⟩
        intro c hc
        obtain ⟨name, b, hb, rfl⟩ := (hlinked c).1 hc
        exact (hchild hb).2 (hrest hb)
    · have hkind : ArborDb.kind e s k = .ok (some .file) := by rw [hs.kind, hl.leaf ha]; rfl
      simp only [hkind, Except.ok_bind]
      constructor
      · rintro ⟨_, hself, -⟩
        refine ⟨hself, ?_⟩
        intro name b hb
        rw [hl.leaf_append ha (by simp)] at hb
        cases hb
      · rintro ⟨hself, -⟩
        exact ⟨(), hself, rfl⟩

/-- The bound of the check exceeds every path. -/
theorem Sees.checkDeletable_iff (hs : Sees P n d v s) (ht : Holds .root v t) (ha : t p = some a) :
    checkDeletable e s (s.size + 1) a.key = .ok () ↔ Deletable e s t p := by
  refine ArborDb.checkDeletable_iff hs ht.toLays ha ?_
  intro q b hb
  have hlen := hs.length_lt ht.toLays hb
  rw [List.length_append] at hlen
  omega

/-- Only a restricted principal fails the check before a delete. -/
theorem Sees.checkDeletable_error {err : AdbError} (hs : Sees P n d v s) (ht : Holds .root v t)
    (ha : t p = some a) (h : checkDeletable e s (s.size + 1) a.key = .error err) :
    e.principal ≠ .unrestricted := by
  intro hp
  have hok : checkDeletable e s (s.size + 1) a.key = .ok () := by
    refine (hs.checkDeletable_iff ht ha).2 ?_
    intro q b _
    unfold check
    rw [hp, authorize_unrestricted]
  rw [hok] at h
  cases h

/-- Only a restricted principal fails to resolve a path. -/
theorem Sees.resolve_error {path : APath} {err : AdbError} (hs : Sees P n d v s)
    (h : resolve e s path = .error err) : e.principal ≠ .unrestricted := by
  intro hp
  have hok : ∀ (names : List Str) (k : AKey), ∃ r, resolveFrom e s k names = .ok r := by
    intro names
    induction names with
    | nil => exact fun k => ⟨some k, rfl⟩
    | cons name names ih =>
      intro k
      have hcheck : check e s k .access = .ok () := by
        unfold check
        rw [hp, authorize_unrestricted]
      unfold resolveFrom
      rw [hcheck, hs.child, Except.ok_bind, Except.ok_bind]
      cases Layout.childOf v k name with
      | none => exact ⟨none, rfl⟩
      | some c => exact ih c
  obtain ⟨r, hr⟩ := hok path.names .root
  unfold resolve at h
  rw [hr] at h
  cases h

/-! ## Copying -/

/-- Under the policy, the principal may access every a-node. -/
def Policy.Readable (P : Policy e) : Prop :=
  ∀ {v : View} {inodes : InodeTable} {k : AKey}, P.holds v inodes → v k ≠ none →
    authorize e.principal k (inodes.readAcl k) .access = .ok ()

/-- A key generated from the `lo`-th on, before the `hi`-th. -/
def Between (e : Env) (n lo hi : Nat) (k : AKey) : Prop :=
  ∃ i, lo ≤ i ∧ i < hi ∧ i < n ∧ e.gen i = k

theorem Between.ne {lo mid hi : Nat} {k j : AKey} (hdist : Distinct e n)
    (hk : Between e n lo mid k) (hj : Between e n mid hi j) : k ≠ j := by
  obtain ⟨i, -, hi, hin, rfl⟩ := hk
  obtain ⟨i', hi', -, hin', rfl⟩ := hj
  intro heq
  have := (hdist i hin).2 i' hin' heq
  omega

theorem Between.mono {lo lo' hi hi' : Nat} {k : AKey} (h : Between e n lo hi k) (hlo : lo' ≤ lo)
    (hhi : hi ≤ hi') : Between e n lo' hi' k := by
  obtain ⟨i, h₁, h₂, h₃, h₄⟩ := h
  exact ⟨i, hlo.trans h₁, Nat.lt_of_lt_of_le h₂ hhi, h₃, h₄⟩

/-- The tree `c`, from `f` down, is a copy under fresh keys of the subtree of `t` at `p`. -/
structure Copied (e : Env) (n lo hi : Nat) (v v' : View) (t : ATree) (p : List Str) (f : AKey)
    (c : ATree) : Prop where
  lays : Lays v' c
  top : (c []).map Node.key = some f
  shape : ∀ q, (c q).map Node.leaf = (t (p ++ q)).map Node.leaf
  fresh : ∀ {q : List Str} {y : Node AKey Bytes}, c q = some y → Between e n lo hi y.key
  free : ∀ {q : List Str} {y : Node AKey Bytes}, c q = some y → v y.key = none
  agree : ∀ j, (∀ {q : List Str} {y : Node AKey Bytes}, c q = some y → y.key ≠ j) → v' j = v j

/-- In the middle of copying a directory to `f`: the names in `rest` are still to be copied. The
copy lays out as if the children copied so far were written. -/
structure Copying (e : Env) (n lo d : Nat) (v₀ v : View) (t : ATree) (p : List Str) (f : AKey)
    (copied : SortedMap Str AKey) (rest : List Str) (c : ATree) : Prop where
  lays : Lays (Function.update v f (some (Entry.dir copied))) c
  top : c [] = some ⟨f, none⟩
  shape : ∀ name q, (c (name :: q)).map Node.leaf =
    if name ∈ rest then none else (t (p ++ name :: q)).map Node.leaf
  fresh : ∀ {q : List Str} {y : Node AKey Bytes}, c q = some y → Between e n lo d y.key
  free : ∀ {q : List Str} {y : Node AKey Bytes}, c q = some y → v₀ y.key = none
  agree : ∀ j, (∀ {q : List Str} {y : Node AKey Bytes}, c q = some y → y.key ≠ j) → v j = v₀ j
  pending : v f = none

/-- One more child is copied. -/
theorem Copying.step {lo d₁ : Nat} {v₀ v₁ : View} {f f₁ : AKey} {copied : SortedMap Str AKey}
    {name : Str} {rest : List Str} {c c₁ : ATree} (hdist : Distinct e n) (hd : d ≤ d₁)
    (hlo : lo ≤ d) (hrest : name ∉ rest) (h : Copying e n lo d v₀ v t p f copied (name :: rest) c)
    (h₁ : Copied e n d d₁ v v₁ t (p ++ [name]) f₁ c₁) :
    Copying e n lo d₁ v₀ v₁ t p f (copied.insert name f₁) rest (Layout.graft c [name] c₁) := by
  have hdisj : ∀ {q r : List Str} {x y : Node AKey Bytes}, c q = some x → c₁ r = some y →
      x.key ≠ y.key := fun hx hy => (h.fresh hx).ne hdist (h₁.fresh hy)
  have hslot : c [name] = none := by
    have hnone := h.shape name []
    rw [if_pos (List.mem_cons_self ..)] at hnone
    exact Option.map_eq_none_iff.1 hnone
  have hcases : ∀ {q : List Str} {y : Node AKey Bytes}, Layout.graft c [name] c₁ q = some y →
      (∃ r, q = name :: r ∧ c₁ r = some y) ∨ c q = some y := by
    intro q y hq
    by_cases hpre : [name] <+: q
    · obtain ⟨r, rfl⟩ := hpre
      rw [Layout.graft_append] at hq
      exact .inl ⟨r, rfl, hq⟩
    · rw [Layout.graft_of_not hpre] at hq
      exact .inr hq
  obtain ⟨a₁, ha₁, hkey₁⟩ := Option.map_eq_some_iff.1 h₁.top
  constructor
  · have hc : Lays (Function.update v₁ f (some (Entry.dir copied))) c := by
      refine h.lays.congr ?_
      intro q x hx
      by_cases hxf : x.key = f
      · rw [hxf, Function.update_self, Function.update_self]
      · rw [Function.update_of_ne hxf, Function.update_of_ne hxf]
        exact h₁.agree _ fun hy => (hdisj hx hy).symm
    have hc₁ : Lays (Function.update v₁ f (some (Entry.dir copied))) c₁ := by
      refine h₁.lays.congr ?_
      intro q y hy
      exact Function.update_of_ne (hdisj h.top hy).symm _ _
    have hgraft := hc.graft hc₁ (p := []) (n := name) h.top (Function.update_self ..) hslot ha₁ hdisj
    rw [Function.update_idem, hkey₁] at hgraft
    exact hgraft
  · rw [Layout.graft_of_not (by simp), h.top]
  · intro name' q
    by_cases hname : name' = name
    · subst hname
      have hg := Layout.graft_append (t := c) (c := c₁) (d := [name']) q
      rw [List.singleton_append] at hg
      rw [hg, if_neg hrest, h₁.shape q, List.append_assoc, List.singleton_append]
    · rw [Layout.graft_of_not, h.shape name' q]
      · simp [hname]
      · rintro ⟨r, hr⟩
        exact hname (List.cons.inj hr).1.symm
  · intro q y hq
    obtain ⟨r, -, hr⟩ | hq := hcases hq
    · exact (h₁.fresh hr).mono hlo (Nat.le_refl _)
    · exact (h.fresh hq).mono (Nat.le_refl _) hd
  · intro q y hq
    obtain ⟨r, -, hr⟩ | hq := hcases hq
    · have hfree := h₁.free hr
      rw [h.agree] at hfree
      · exact hfree
      · exact fun hx => hdisj hx hr
    · exact h.free hq
  · intro j hj
    rw [h₁.agree j, h.agree j]
    · intro q y hy
      refine hj (q := q) ?_
      rw [Layout.graft_of_not, hy]
      rintro ⟨r, rfl⟩
      rw [h.lays.none_append hslot r] at hy
      cases hy
    · intro q y hy
      exact hj (q := [name] ++ q) (by rw [Layout.graft_append, hy])
  · rw [h₁.agree f fun hy => (hdisj h.top hy).symm, h.pending]

/-- Copying the children left in `l` completes the copy. -/
theorem copyChildren_spec {lo : Nat} {v₀ : View} {f : AKey} {copy : AKey → TxM AKey}
    {l : List (Str × AKey)} {copied : SortedMap Str AKey} {c : ATree}
    {E : AdbError → TxState → Prop} (hdist : Distinct e n) (hl : Lays v₀ t)
    (hcopy : ∀ {name : Str} {k : AKey}, (name, k) ∈ l → ∀ {d : Nat} {v : View}, Lays v t →
      Triple e n (Sees P n d v) (copy k) (fun f₁ s => ∃ d₁ v₁ c₁, d ≤ d₁ ∧ Sees P n d₁ v₁ s ∧
        Copied e n d d₁ v v₁ t (p ++ [name]) f₁ c₁) E)
    (hnodup : (l.map Prod.fst).Nodup) (hlo : lo ≤ d)
    (hc : Copying e n lo d v₀ v t p f copied (l.map Prod.fst) c) :
    Triple e n (Sees P n d v) (copyChildren copy l copied)
      (fun copied' s => ∃ d' v' c', d ≤ d' ∧ Sees P n d' v' s ∧
        Copying e n lo d' v₀ v' t p f copied' [] c') E := by
  induction l generalizing d v copied c with
  | nil => exact Triple.pure fun s hs => ⟨d, v, c, Nat.le_refl d, hs, hc⟩
  | cons x l ih =>
    obtain ⟨name, k⟩ := x
    rw [List.map_cons, List.nodup_cons] at hnodup
    unfold copyChildren
    have hv : Lays v t := by
      refine hl.congr ?_
      intro q b hb
      refine hc.agree _ ?_
      intro r y hy hkey
      have hstored := hl.stored hb
      rw [← hkey, hc.free hy] at hstored
      exact hstored rfl
    refine Triple.bind (hcopy (List.mem_cons_self ..) hv) ?_
    intro f₁
    rintro s ⟨d₁, v₁, c₁, hd₁, hs₁, hc₁⟩
    have hstep := hc.step hdist hd₁ hlo hnodup.1 hc₁
    refine (ih (fun hmem => hcopy (List.mem_cons_of_mem _ hmem)) hnodup.2 (hlo.trans hd₁)
      hstep).consequence (fun _ h => h) ?_ (fun _ _ h => h) s hs₁
    rintro copied' s' ⟨d', v', c', hd', hs', hc'⟩
    exact ⟨d', v', c', hd₁.trans hd', hs', hc'⟩

theorem Copying.start {f : AKey} {links : SortedMap Str AKey} (hl : Lays v t) (hf : Fresh e n d v f)
    (hget : ∀ name, links.get name = (t (p ++ [name])).map Node.key) :
    Copying e n d (d + 1) v v t p f .empty (links.entries.map Prod.fst)
      (Layout.single ⟨f, none⟩) where
  lays := Layout.lays_single_branch (Function.update_self ..)
  top := rfl
  shape name q := by
    have hsingle : Layout.single (⟨f, none⟩ : Node AKey Bytes) (name :: q) = none :=
      if_neg (by simp)
    rw [hsingle]
    split
    · rfl
    · rename_i hname
      cases hc : t (p ++ [name]) with
      | none =>
        have hrest := hl.none_append hc q
        rw [List.append_assoc, List.singleton_append] at hrest
        rw [hrest]
      | some b =>
        have hmem : (name, b.key) ∈ links.entries := by
          rw [← SortedMap.get_iff_mem, hget name, hc]
          rfl
        exact absurd (List.mem_map.2 ⟨_, hmem, rfl⟩) hname
  fresh hy := by
    obtain ⟨-, rfl⟩ := Layout.single_eq_some hy
    exact ⟨d, Nat.le_refl d, Nat.lt_succ_self d, hf.lt, hf.eq.symm⟩
  free hy := by
    obtain ⟨-, rfl⟩ := Layout.single_eq_some hy
    exact hf.free
  agree j _ := rfl
  pending := hf.free

/-- Once its children are written, the copy of a directory is complete. -/
theorem Copying.done {lo : Nat} {v₀ : View} {f : AKey} {copied : SortedMap Str AKey} {c : ATree}
    (h : Copying e n lo d v₀ v t p f copied [] c) (ha : t p = some a) (hdir : a.leaf = none) :
    Copied e n lo d v₀ (Function.update v f (some (.dir copied))) t p f c where
  lays := h.lays
  top := by
    rw [h.top]
    rfl
  shape q := by
    cases q with
    | nil => rw [h.top, List.append_nil, ha, Option.map_some, Option.map_some, hdir]
    | cons name q =>
      rw [h.shape name q]
      rfl
  fresh := h.fresh
  free := h.free
  agree j hj := by
    rw [Function.update_of_ne, h.agree j hj]
    exact fun hjf => hj h.top hjf.symm

theorem Copied.of_leaf {k f : AKey} {x : Bytes} (hl : Lays v t) (ha : t p = some ⟨k, some x⟩)
    (hf : Fresh e n d v f) :
    Copied e n d (d + 1) v (Function.update v f (some (.file x))) t p f
      (Layout.single ⟨f, some x⟩) where
  lays := Layout.lays_single_leaf (Function.update_self ..)
  top := rfl
  shape q := by
    by_cases hq : q = []
    · rw [hq, List.append_nil, ha]
      rfl
    · rw [hl.leaf_append ha hq]
      unfold Layout.single
      rw [if_neg hq]
  fresh hy := by
    obtain ⟨-, rfl⟩ := Layout.single_eq_some hy
    exact ⟨d, Nat.le_refl d, Nat.lt_succ_self d, hf.lt, hf.eq.symm⟩
  free hy := by
    obtain ⟨-, rfl⟩ := Layout.single_eq_some hy
    exact hf.free
  agree j hj := Function.update_of_ne (fun hjf => hj (q := []) rfl hjf.symm) _ _

theorem deepCopy_spec {fuel : Nat} {E : AdbError → TxState → Prop} (hdist : Distinct e n)
    (hread : P.Readable) (hl : Lays v t) (ha : t p = some a)
    (hfuel : ∀ {q : List Str} {b : Node AKey Bytes}, t (p ++ q) = some b → q.length < fuel) :
    Triple e n (Sees P n d v) (deepCopy fuel a.key)
      (fun f s => ∃ d' v' c, d ≤ d' ∧ Sees P n d' v' s ∧ Copied e n d d' v v' t p f c) E := by
  induction fuel generalizing p a v d with
  | zero => exact absurd (hfuel (q := []) (b := a) (by rw [List.append_nil, ha])) (Nat.not_lt_zero _)
  | succ fuel ih =>
    unfold deepCopy
    refine Triple.inspect_known () (fun s hs => hread hs.policy (hl.stored ha)) ?_
    refine generate_spec hdist ?_
    intro f hf
    obtain ⟨k, _ | x⟩ := a
    · obtain ⟨links, hv, hget⟩ := hl.branch ha
      refine Triple.inspect_known (some .dir) (fun s hs => by rw [hs.kind, hv]; rfl) ?_
      refine Triple.inspect_known links (fun s hs => hs.dirChildren hv) ?_
      refine Triple.bind (copyChildren_spec hdist hl ?_ ?_ (Nat.le_succ d)
        (Copying.start hl hf hget)) ?_
      · intro name k' hmem d v hl'
        rw [← SortedMap.get_iff_mem, hget name] at hmem
        obtain ⟨b, hb, rfl⟩ := Option.map_eq_some_iff.1 hmem
        refine ih hl' hb ?_
        intro q b' hq
        have hlen := hfuel (q := name :: q) (b := b') (by simpa using hq)
        simpa using hlen
      · exact links.sorted.imp fun h => ne_of_lt h
      · intro copied
        rintro s ⟨d', v', c, hd', hs', hc⟩
        have hused : Used e n d' f := fun i hi hin => hf.used i (hd'.trans hi) hin
        refine Triple.bind (putDir_spec hused (by simp [hc.pending])) (fun _ => Triple.pure ?_) s hs'
        intro s hs
        exact ⟨d', _, c, by omega, hs, hc.done ha rfl⟩
    · have hv : v k = some (.file x) := hl.leaf ha
      refine Triple.inspect_known (some .file) (fun s hs => by rw [hs.kind, hv]; rfl) ?_
      refine Triple.inspect_known (some (.file x))
        (fun s hs => by rw [hs.readVerified (by simp [hv]), hv]) ?_
      refine Triple.bind (putEntry_spec hf.used (by simp [hf.free])) ?_
      intro _
      apply Triple.pure
      intro s hs
      exact ⟨d + 1, _, _, Nat.le_succ d, hs, .of_leaf hl ha hf⟩

end ArborDb
