import ArborDb.Lib.Layout

/-!
# Operations on trees, as relations

How the tree after an operation relates to the tree before it: making the directories on the way to
a path, storing a leaf, moving a subtree, copying one. Each relation says what is at and below the
paths the operation names, and that everything else stays, but for the branches made on the way.
-/

namespace Layout

variable {K N X Y : Type} {t t' t₁ t₂ : Tree K N X} {p q : List N}

/-- The tree `t'` is `t` with the missing branches on the way to `p`. -/
structure Made (t t' : Tree K N X) (p : List N) : Prop where
  kept : ∀ {q : List N} {a : Node K X}, t q = some a → t' q = some a
  made : ∀ {q : List N} {a : Node K X}, t q = none → t' q = some a → q <+: p ∧ a.leaf = none

/-- Outside the subtree at `p`, the tree `t'` is `t` with the missing branches on the way. -/
structure Outside (t t' : Tree K N X) (p : List N) : Prop where
  kept : ∀ {q : List N} {a : Node K X}, ¬ p <+: q → t q = some a → t' q = some a
  made : ∀ {q : List N} {a : Node K X}, ¬ p <+: q → t q = none → t' q = some a →
    q <+: p ∧ a.leaf = none

/-- The path became a leaf with this data; a leaf that was there keeps its key. -/
structure StoredAt (t t' : Tree K N X) (p : List N) (x : X) : Prop extends Outside t t' p where
  leaf : ∃ k, t' p = some ⟨k, some x⟩
  key : ∀ {k : K} {y : X}, t p = some ⟨k, some y⟩ → t' p = some ⟨k, some x⟩

/-- The subtree at `src` is at `dst`, with its keys, and nothing is at `src`. -/
structure Moved (t t' : Tree K N X) (src dst : List N) : Prop where
  moved : ∀ q, t' (dst ++ q) = t (src ++ q)
  gone : ∀ q, t' (src ++ q) = none
  kept : ∀ {q : List N} {a : Node K X}, ¬ dst <+: q → ¬ src <+: q → t q = some a → t' q = some a
  made : ∀ {q : List N} {a : Node K X}, ¬ dst <+: q → t q = none → t' q = some a →
    q <+: dst ∧ a.leaf = none

/-- The subtree at `src` has a copy at `dst` under keys that were not in use. -/
structure CopiedTo (used : K → Prop) (t t' : Tree K N X) (src dst : List N) : Prop extends
    Outside t t' dst where
  shape : ∀ q, (t' (dst ++ q)).map Node.leaf = (t (src ++ q)).map Node.leaf
  fresh : ∀ {q : List N} {a : Node K X}, t' (dst ++ q) = some a → ¬ used a.key

/-! ## Making branches -/

namespace Made

theorem refl (t : Tree K N X) (p : List N) : Made t t p where
  kept h := h
  made h h' := by
    rw [h] at h'
    cases h'

theorem trans (h : Made t t₁ p) (h' : Made t₁ t₂ (p ++ q)) : Made t t₂ (p ++ q) where
  kept ha := h'.kept (h.kept ha)
  made {r a} hnone ha := by
    cases hr : t₁ r with
    | none => exact h'.made hr ha
    | some b =>
      rw [h'.kept hr] at ha
      cases ha
      obtain ⟨hpre, hleaf⟩ := h.made hnone hr
      exact ⟨hpre.trans (List.prefix_append p q), hleaf⟩

theorem outside {n : N} (h : Made t t₁ p) (ht' : ∀ q, ¬ p ++ [n] <+: q → t' q = t₁ q) :
    Outside t t' (p ++ [n]) where
  kept hq ha := by
    rw [ht' _ hq, h.kept ha]
  made {q a} hq hnone ha := by
    rw [ht' _ hq] at ha
    obtain ⟨hpre, hleaf⟩ := h.made hnone ha
    exact ⟨hpre.trans (List.prefix_append p [n]), hleaf⟩

/-- What is not on the way is not made. -/
theorem sub_eq {src : List N} {n : N} (h : Made t t₁ p) (hsd : ¬ src <+: p ++ [n]) (q : List N) :
    t₁ (src ++ q) = t (src ++ q) := by
  cases hq : t (src ++ q) with
  | some a => exact h.kept hq
  | none =>
    by_contra hne
    obtain ⟨a, ha⟩ := Option.ne_none_iff_exists'.1 hne
    obtain ⟨hpre, -⟩ := h.made hq ha
    exact hsd (((List.prefix_append src q).trans hpre).trans (List.prefix_append p [n]))

end Made

section Order

variable [LinearOrder N]

/-- There is nothing to make on the way to a node. -/
theorem Made.eq_self {v : Store K N X} {a : Node K X} (h : Made t t' p) (ht : Lays v t)
    (ha : t p = some a) : t' = t := by
  funext q
  cases hq : t q with
  | some b => exact h.kept hq
  | none =>
    by_contra hne
    obtain ⟨b, hb⟩ := Option.ne_none_iff_exists'.1 hne
    obtain ⟨⟨r, rfl⟩, -⟩ := h.made hq hb
    rw [ht.none_append hq r] at ha
    cases ha

/-- A new leaf in a slot of a branch that was there or was just made. -/
theorem Made.storedAt {n : N} {x : X} (h : Made t t₁ p)
    (hleaf : ∀ {k : K} {y : X}, t (p ++ [n]) ≠ some ⟨k, some y⟩) (f : K) :
    StoredAt t (graft t₁ (p ++ [n]) (single ⟨f, some x⟩)) (p ++ [n]) x := by
  refine ⟨h.outside fun q hq => graft_of_not hq, ⟨f, ?_⟩, ?_⟩
  · have hself := graft_append (t := t₁) (c := single ⟨f, some x⟩) (d := p ++ [n]) []
    rw [List.append_nil] at hself
    exact hself
  · intro k y hk
    exact absurd hk hleaf

theorem storedAt_setLeaf {k : K} {y x : X} (hp : t p = some ⟨k, some y⟩) :
    StoredAt t (setLeaf t p k x) p x := by
  have hne : ∀ {q : List N}, ¬ p <+: q → setLeaf t p k x q = t q := by
    intro q hq
    refine if_neg ?_
    rintro rfl
    exact hq (List.prefix_refl _)
  refine ⟨⟨?_, ?_⟩, ⟨k, if_pos rfl⟩, ?_⟩
  · intro q a hq ha
    rw [hne hq, ha]
  · intro q a hq hnone ha
    rw [hne hq, hnone] at ha
    cases ha
  · intro k' y' hk'
    rw [hp] at hk'
    cases hk'
    exact if_pos rfl

theorem Made.moved {src : List N} {n : N} (h : Made t t₁ p) (hsd : ¬ src <+: p ++ [n])
    (hds : ¬ p ++ [n] <+: src) :
    Moved t (graft (prune t₁ src) (p ++ [n]) (sub t₁ src)) src (p ++ [n]) where
  moved q := by
    rw [graft_append, sub, h.sub_eq hsd]
  gone q := by
    rw [graft_of_not, prune_of_le (List.prefix_append src q)]
    intro hpre
    rcases List.prefix_or_prefix_of_prefix hpre (List.prefix_append src q) with hpre | hpre
    · exact hds hpre
    · exact hsd hpre
  kept hd hs ha := by
    rw [graft_of_not hd, prune_of_not hs, h.kept ha]
  made hd hnone ha := by
    rw [graft_of_not hd] at ha
    obtain ⟨hpre, hleaf⟩ := h.made hnone (prune_eq_some ha).2
    exact ⟨hpre.trans (List.prefix_append p [n]), hleaf⟩

end Order

/-! ## Other data at the leaves -/

section MapLeaf

variable (f : X → Y)

/-- The node with its data translated. -/
def Node.mapLeaf (a : Node K X) : Node K Y := ⟨a.key, a.leaf.map f⟩

/-- The tree with the data of its leaves translated. -/
def mapLeaf (t : Tree K N X) : Tree K N Y := fun p => (t p).map (Node.mapLeaf f)

variable {f}

theorem mapLeaf_eq_some {b : Node K Y} (h : mapLeaf f t p = some b) :
    ∃ a, t p = some a ∧ b = a.mapLeaf f := by
  obtain ⟨a, ha, hb⟩ := Option.map_eq_some_iff.1 h
  exact ⟨a, ha, hb.symm⟩

theorem mapLeaf_of_some {a : Node K X} (h : t p = some a) : mapLeaf f t p = some (a.mapLeaf f) := by
  unfold mapLeaf
  rw [h]
  rfl

theorem mapLeaf_eq_none : mapLeaf f t p = none ↔ t p = none := Option.map_eq_none_iff

theorem Made.mapLeaf (h : Made t t' p) : Made (mapLeaf f t) (mapLeaf f t') p where
  kept hb := by
    obtain ⟨a, ha, rfl⟩ := mapLeaf_eq_some hb
    exact mapLeaf_of_some (h.kept ha)
  made hnone hb := by
    obtain ⟨a, ha, rfl⟩ := mapLeaf_eq_some hb
    obtain ⟨hpre, hleaf⟩ := h.made (mapLeaf_eq_none.1 hnone) ha
    refine ⟨hpre, ?_⟩
    unfold Node.mapLeaf
    rw [hleaf]
    rfl

theorem Outside.mapLeaf (h : Outside t t' p) : Outside (mapLeaf f t) (mapLeaf f t') p where
  kept hq hb := by
    obtain ⟨a, ha, rfl⟩ := mapLeaf_eq_some hb
    exact mapLeaf_of_some (h.kept hq ha)
  made hq hnone hb := by
    obtain ⟨a, ha, rfl⟩ := mapLeaf_eq_some hb
    obtain ⟨hpre, hleaf⟩ := h.made hq (mapLeaf_eq_none.1 hnone) ha
    refine ⟨hpre, ?_⟩
    unfold Node.mapLeaf
    rw [hleaf]
    rfl

theorem StoredAt.mapLeaf {x : X} (h : StoredAt t t' p x) :
    StoredAt (mapLeaf f t) (mapLeaf f t') p (f x) where
  toOutside := h.toOutside.mapLeaf
  leaf := by
    obtain ⟨k, hk⟩ := h.leaf
    exact ⟨k, mapLeaf_of_some hk⟩
  key {k y} hk := by
    obtain ⟨⟨j, _ | z⟩, ha, hb⟩ := mapLeaf_eq_some hk
    · cases hb
    · cases hb
      exact mapLeaf_of_some (h.key ha)

theorem Moved.mapLeaf {src dst : List N} (h : Moved t t' src dst) :
    Moved (mapLeaf f t) (mapLeaf f t') src dst where
  moved q := congrArg (Option.map _) (h.moved q)
  gone q := mapLeaf_eq_none.2 (h.gone q)
  kept hd hs hb := by
    obtain ⟨a, ha, rfl⟩ := mapLeaf_eq_some hb
    exact mapLeaf_of_some (h.kept hd hs ha)
  made hd hnone hb := by
    obtain ⟨a, ha, rfl⟩ := mapLeaf_eq_some hb
    obtain ⟨hpre, hleaf⟩ := h.made hd (mapLeaf_eq_none.1 hnone) ha
    refine ⟨hpre, ?_⟩
    unfold Node.mapLeaf
    rw [hleaf]
    rfl

theorem CopiedTo.mono {used used' : K → Prop} {src dst : List N} (h : CopiedTo used t t' src dst)
    (hused : ∀ k, used' k → used k) : CopiedTo used' t t' src dst where
  toOutside := h.toOutside
  shape := h.shape
  fresh ha hk := h.fresh ha (hused _ hk)

theorem prune_mapLeaf [LinearOrder N] (t : Tree K N X) (p : List N) :
    Layout.mapLeaf f (prune t p) = prune (Layout.mapLeaf f t) p := by
  funext q
  unfold Layout.mapLeaf prune
  split <;> rfl

theorem CopiedTo.mapLeaf {used : K → Prop} {src dst : List N} (h : CopiedTo used t t' src dst) :
    CopiedTo used (mapLeaf f t) (mapLeaf f t') src dst where
  toOutside := h.toOutside.mapLeaf
  shape q := by
    have hmap : ∀ (u : Tree K N X) (r : List N),
        (Layout.mapLeaf f u r).map Node.leaf = ((u r).map Node.leaf).map (Option.map f) := by
      intro u r
      unfold Layout.mapLeaf
      rw [Option.map_map, Option.map_map]
      rfl
    rw [hmap, hmap, h.shape q]
  fresh hb := by
    obtain ⟨a, ha, rfl⟩ := mapLeaf_eq_some hb
    exact h.fresh ha

end MapLeaf

end Layout
