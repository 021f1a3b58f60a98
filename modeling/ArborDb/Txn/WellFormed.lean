import ArborDb.Txn.Overwrite

/-!
# Well-formed tables over whole runs

A run is a sequence of transactions on one table, each with its identity, its calls in order, and a
commit. Starting from the empty table, every call leaves a tree, whether it succeeds or fails, as
long as no move and no copy deletes its own source. Every a-node that such a run creates carries the
default list of the user who created it, so every user may read every a-node.
-/

namespace ArborDb

open Prog (Triple)
open Layout (Holds Lays Node Under wipe)

/-! ## Well-formed tables -/

/-- The links of a table form a tree from the root down. -/
structure WellFormed (data : SortedMap AKey Entry) : Prop where
  /-- Every link points to an a-node. -/
  linked : ∀ {k c : AKey} {name : Str}, childOf data k name = some c → data.contains c = true
  /-- Every a-node but the root is the target of exactly one link. -/
  unique : ∀ {c : AKey}, data.contains c = true → c ≠ .root →
    ∃! link : AKey × Str, childOf data link.1 link.2 = some c
  /-- Every a-node is reachable from the root. -/
  reachable : ∀ {k : AKey}, data.contains k = true →
    ∃ names, Layout.walk data.get .root names = some k
  /-- No chain of links returns to where it starts. -/
  acyclic : ∀ {k : AKey} {names : List Str}, names ≠ [] → Layout.walk data.get k names ≠ some k

theorem wellFormed_of_holds {data : SortedMap AKey Entry} {t : ATree}
    (h : Holds .root data.get t) : WellFormed data := by
  have hstored : ∀ {k : AKey}, data.contains k = true → ∃ p a, t p = some a ∧ a.key = k := by
    intro k hk
    obtain ⟨c, hc⟩ := Option.isSome_iff_exists.1 hk
    exact h.covered hc
  -- A link leaves a node of the tree and reaches its child.
  have hlink : ∀ {k c : AKey} {name : Str}, Layout.childOf data.get k name = some c →
      ∃ p a b, t p = some a ∧ a.key = k ∧ t (p ++ [name]) = some b ∧ b.key = c := by
    intro k c name hc
    have hk : data.contains k = true := by
      unfold SortedMap.contains
      unfold Layout.childOf at hc
      cases hd : data.get k with
      | none =>
        rw [hd] at hc
        cases hc
      | some _ => rfl
    obtain ⟨p, a, ha, rfl⟩ := hstored hk
    rw [h.childOf ha] at hc
    obtain ⟨b, hb, hkey⟩ := Option.map_eq_some_iff.1 hc
    exact ⟨p, a, b, ha, rfl, hb, hkey⟩
  refine ⟨?_, ?_, ?_, ?_⟩
  · intro k c name hc
    obtain ⟨p, a, b, -, -, hb, rfl⟩ := hlink hc
    exact Option.isSome_iff_ne_none.2 (h.stored hb)
  · intro c hc hroot
    obtain ⟨q, b, hb, rfl⟩ := hstored hc
    rcases List.eq_nil_or_concat q with rfl | ⟨p, name, rfl⟩
    · rw [h.top hb] at hroot
      exact absurd rfl hroot
    · rw [List.concat_eq_append] at hb
      obtain ⟨k, hk⟩ := h.parent hb
      refine ⟨(k, name), ?_, ?_⟩
      · have hchild := h.childOf hk name
        rw [hb] at hchild
        exact hchild
      · rintro ⟨k', name'⟩ hk'
        obtain ⟨p', a', b', ha', rfl, hb', hkey⟩ := hlink hk'
        have hpath := h.inj hb' hb hkey
        obtain ⟨rfl, hname⟩ := List.append_inj' hpath rfl
        rw [hk] at ha'
        cases ha'
        cases hname
        rfl
  · intro k hk
    obtain ⟨q, a, ha, rfl⟩ := hstored hk
    refine ⟨q, ?_⟩
    by_cases hq : q = []
    · subst hq
      rw [h.top ha]
      rfl
    · rw [h.walk_root hq, ha]
      rfl
  · intro k names hnames hwalk
    obtain ⟨name, rest, rfl⟩ := List.exists_cons_of_ne_nil hnames
    have hfirst : ∃ c, Layout.childOf data.get k name = some c := by
      unfold Layout.walk at hwalk
      obtain ⟨c, hc, -⟩ := Option.bind_eq_some_iff.1 hwalk
      exact ⟨c, hc⟩
    obtain ⟨c, hc⟩ := hfirst
    obtain ⟨p, a, -, ha, rfl, -⟩ := hlink hc
    rw [h.walk ha] at hwalk
    obtain ⟨b, hb, hkey⟩ := Option.map_eq_some_iff.1 hwalk
    have hpath := h.inj hb ha hkey
    simp at hpath

/-! ## The lists of a run -/

section Defaults

variable {e : Env}

/-- Every a-node but the root has the default list of some user, and an absent one has none. -/
def Defaults (v : View) (acl : AKey → Option Acl) : Prop :=
  (∀ k, v k = none → acl k = none) ∧
    ∀ k, v k ≠ none → k ≠ .root → ∃ uid, acl k = some (.defaultFor uid)

theorem Defaults.write {v : View} {acl acl' : AKey → Option Acl} {k : AKey} {c : Entry}
    (h : Defaults v acl) (hp : e.principal ≠ .unrestricted)
    (hacl : ∀ j, acl' j = if j = k then (acl k).or (e.ownAcl k) else acl j) :
    Defaults (Function.update v k (some c)) acl' := by
  constructor
  · intro j hj
    have hjk : j ≠ k := by
      rintro rfl
      simp at hj
    rw [Function.update_of_ne hjk] at hj
    rw [hacl, if_neg hjk, h.1 j hj]
  · intro j hj hroot
    rw [hacl]
    by_cases hjk : j = k
    · subst hjk
      rw [if_pos rfl]
      cases hv : v j with
      | some _ =>
        obtain ⟨uid, huid⟩ := h.2 j (by simp [hv]) hroot
        exact ⟨uid, by rw [huid, Option.some_or]⟩
      | none =>
        rw [h.1 j hv, Option.none_or]
        unfold Env.ownAcl
        cases hpr : e.principal with
        | unrestricted => exact absurd hpr hp
        | guest => exact absurd hpr e.writer
        | user session => exact ⟨session.uid, if_neg hroot⟩
    · rw [if_neg hjk]
      rw [Function.update_of_ne hjk] at hj
      exact h.2 j hj hroot

/-- In a protected database every a-node but the root has the default list of some user. -/
def Policy.defaults (e : Env) : Policy e where
  holds v inodes := e.principal ≠ .unrestricted → Defaults v inodes.readAcl
  tidy h hp hk := (h hp).1 _ hk
  record k c h hp := (h hp).write hp fun j => readAcl_record e _ k j c
  stamp k c h hp := (h hp).write hp fun j => readAcl_stamp e _ k j
  edit {v inodes k} c hk h hp := by
    refine ⟨?_, ?_⟩
    · intro j hj
      have hjk : j ≠ k := by
        rintro rfl
        simp at hj
      rw [Function.update_of_ne hjk] at hj
      exact (h hp).1 j hj
    · intro j hj hroot
      by_cases hjk : j = k
      · subst hjk
        exact (h hp).2 j hk hroot
      · rw [Function.update_of_ne hjk] at hj
        exact (h hp).2 j hj hroot
  remove k h hp := by
    rw [if_neg (Policy.ne_plain hp)]
    refine ⟨?_, ?_⟩
    · intro j hj
      rw [Policy.readAcl_forget]
      by_cases hjk : j = k
      · rw [if_pos hjk]
      · rw [if_neg hjk]
        rw [Function.update_of_ne hjk] at hj
        exact (h hp).1 j hj
    · intro j hj hroot
      have hjk : j ≠ k := by
        rintro rfl
        simp at hj
      rw [Function.update_of_ne hjk] at hj
      rw [Policy.readAcl_forget, if_neg hjk]
      exact (h hp).2 j hj hroot

theorem Policy.defaults_readable (e : Env) : (Policy.defaults e).Readable := by
  intro v inodes k h hk
  by_cases hroot : k = .root
  · subst hroot
    exact grants_root e _ _
  · cases hp : e.principal with
    | unrestricted => exact authorize_unrestricted ..
    | guest => exact absurd hp e.writer
    | user session =>
      obtain ⟨uid, huid⟩ := (h (by rw [hp]; simp)).2 k hk hroot
      rw [huid]
      exact authorize_access_default ..

theorem Policy.defaults_settled (e : Env) : (Policy.defaults e).Settled := by
  intro v inodes k h hk
  by_cases hp : e.principal = .unrestricted
  · unfold Env.ownAcl
    rw [hp, Option.or_none]
  · by_cases hroot : k = .root
    · subst hroot
      unfold Env.ownAcl
      cases hpr : e.principal with
      | unrestricted => exact absurd hpr hp
      | guest => exact absurd hpr e.writer
      | user session => simp
    · obtain ⟨uid, huid⟩ := (h hp).2 k hk hroot
      rw [huid, Option.some_or]

end Defaults

/-! ## One call -/

section Calls

variable [Externals] {e : Env} {P : Policy e} {n d : Nat} {v : View} {s s₀ : TxState} {t : ATree}

/-- The state shows a tree. -/
def Showing (P : Policy e) (n d : Nat) : TxState → Prop := Shows P n d fun _ => True

/-- A call is about to delete the source it moves or copies. -/
def Call.Engulfs (e : Env) (s : TxState) : Call → Prop
  | .mv src dst => ArborDb.Engulfs e s src dst
  | .cp src dst => ArborDb.Engulfs e s src dst
  | _ => False

omit [Externals] in
theorem Showing.unindexed : Unindexed (Showing P n d) := by
  rintro s index ⟨d', v', t', hd', hs', ht', -⟩
  exact ⟨d', v', t', hd', hs'.setIndex index, ht', trivial⟩

omit [Externals] in
theorem Shows.showing {R : ATree → Prop} (h : Shows P n d R s) : Showing P n d s := by
  obtain ⟨d', v', t', hd', hs', ht', -⟩ := h
  exact ⟨d', v', t', hd', hs', ht', trivial⟩

/-- A mutation that leaves a tree or fails before it writes leaves a tree in its bracket too. -/
theorem reindexAround_showing {α : Type} {indexes : List IndexEntry} {scopes : List APath}
    {apply : TxM α} (hs₀ : Sees P n d v s₀) (ht : Holds .root v t)
    (happly : ∀ s₁, Ready P n d v s₀ s₁ →
      Triple e n (· = s₁) apply (fun _ => Showing P n d) (fun _ s => s = s₁)) :
    Triple e n (· = s₀) (reindexAround indexes scopes apply) (fun _ => Showing P n d)
      (fun _ => Showing P n d) := by
  refine (reindexAround_spec hs₀ (fun _ => Showing.unindexed) happly).consequence (fun _ h => h)
    (fun _ _ h => h) ?_
  rintro _ s (hready | ⟨_, hshowing⟩)
  · exact ⟨d, v, t, Nat.le_refl d, hready.sees, ht, trivial⟩
  · exact hshowing

/-- Every call leaves a tree, unless it deletes its own source. -/
theorem call_showing {indexes : List IndexEntry} {call : Call} (hdist : Distinct e n)
    (hread : P.Readable) (hsettled : P.Settled) (hs₀ : Sees P n d v s₀) (ht : Holds .root v t)
    (hsafe : ¬ call.Engulfs e s₀) :
    Triple e n (· = s₀) (call.prog indexes) (fun _ => Showing P n d) (fun _ => Showing P n d) := by
  have hstart : ∀ {s : TxState}, s = s₀ → Showing P n d s := by
    rintro _ rfl
    exact ⟨d, v, t, Nat.le_refl d, hs₀, ht, trivial⟩
  cases call with
  | store path blob =>
    rw [Call.prog]
    unfold storeBlobAt
    split
    · exact Triple.fail fun _ hs => hstart hs
    · refine reindexAround_showing hs₀ ht ?_
      intro s₁ hs₁
      exact (storeBlobInto_spec hdist hs₁.sees ht).consequence (fun _ h => h)
        (fun _ _ h => h.showing) fun _ _ h => h.1
  | storeValue path value =>
    rw [Call.prog]
    unfold storeValueAt
    split
    · exact Triple.fail fun _ hs => hstart hs
    · refine reindexAround_showing hs₀ ht ?_
      intro s₁ hs₁
      exact (storeBlobInto_spec hdist hs₁.sees ht).consequence (fun _ h => h)
        (fun _ _ h => h.showing) fun _ _ h => h.1
  | putScalar path hint vpath scalar =>
    rw [Call.prog]
    unfold putScalarAt
    refine reindexAround_showing hs₀ ht ?_
    intro s₁ hs₁
    exact (putScalarInto_spec hdist hs₁.sees ht).post fun _ _ h => h.showing
  | mkdir path =>
    rw [Call.prog]
    unfold ArborDb.mkdir
    refine Triple.bind (R := fun _ => Showing P n d) ?_ fun _ => Triple.pure fun _ h => h
    exact (mkdir_spec hdist hs₀ ht).consequence (fun _ h => h) (fun _ _ h => h.showing)
      fun _ _ h => hstart h.1
  | rm path =>
    rw [Call.prog]
    unfold ArborDb.rm
    refine Triple.bind (R := fun _ => Showing P n d) ?_ fun _ => Triple.pure fun _ h => h
    split
    · exact Triple.fail fun _ hs => hstart hs
    · refine reindexAround_showing hs₀ ht ?_
      intro s₁ hs₁
      refine (rmInto_spec hs₁.sees ht).consequence (fun _ h => h) ?_ fun _ _ h => h.1
      intro removed s h
      cases removed with
      | true => exact h.2.showing
      | false =>
        obtain ⟨-, rfl⟩ := h
        exact ⟨d, v, t, Nat.le_refl d, hs₁.sees, ht, trivial⟩
  | mv src dst =>
    rw [Call.prog]
    unfold ArborDb.mv
    split
    · exact Triple.fail fun _ hs => hstart hs
    · rename_i hsd
      split
      · exact Triple.fail fun _ hs => hstart hs
      · split
        · exact Triple.fail fun _ hs => hstart hs
        · refine reindexAround_showing hs₀ ht ?_
          intro s₁ hs₁
          by_cases hds : dst.names <+: src.names
          · refine mvInto_blocked hdist hs₀ ht hsettled hs₁ hds ?_ hsafe
            rintro rfl
            exact hsd (List.prefix_refl _)
          · exact (mvInto_spec hdist hs₁.sees ht hsd hds).consequence (fun _ h => h)
              (fun _ _ h => h.2.showing) fun _ _ h => h.1
  | cp src dst =>
    rw [Call.prog]
    unfold ArborDb.cp
    split
    · exact Triple.fail fun _ hs => hstart hs
    · rename_i hsd
      split
      · exact Triple.fail fun _ hs => hstart hs
      · refine reindexAround_showing hs₀ ht ?_
        intro s₁ hs₁
        by_cases hds : dst.names <+: src.names
        · refine cpInto_blocked hdist hs₀ ht hsettled hs₁ hds ?_ hsafe
          rintro rfl
          exact hsd (List.prefix_refl _)
        · exact (cpInto_spec hdist hread hs₁.sees ht hsd hds).consequence (fun _ h => h)
            (fun _ _ h => h.2.showing) fun _ _ h => h.1

end Calls

end ArborDb
