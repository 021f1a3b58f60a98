import ArborDb.Lib.Layout

/-!
# Thinned stores

A store is thinned by removing nodes with everything below them and by dropping links to removed
nodes. Nothing is added, what stays keeps its data, and no removed node lies above a node that stays.
A removal that ends walks everything below what it removes, so nothing removed lies on a cycle.
-/

namespace Layout

variable {K N X : Type} [LinearOrder N] {v w u : Store K N X} {k c j : K} {n : N} {p : List N}

/-- The node `c` is linked by `k`. -/
def Link (v : Store K N X) (c k : K) : Prop := (∃ n, childOf v k n = some c) ∧ v c ≠ none

/-- The store `w` is `v` without some nodes, everything below them, and some links to them. -/
structure Thins (v w : Store K N X) : Prop where
  leaf : ∀ {k : K} {x : X}, w k = some (.leaf x) → v k = some (.leaf x)
  branch : ∀ {k : K} {kept : SortedMap N K}, w k = some (.branch kept) →
    ∃ links, v k = some (.branch links) ∧
      ∀ n, kept.get n = links.get n ∨ kept.get n = none ∧ ∀ c, links.get n = some c → w c = none
  closed : ∀ {k : K} {n : N} {c : K}, w k = none → childOf v k n = some c → w c = none
  ends : ∀ {k : K}, v k ≠ none → w k = none → Acc (Link v) k

theorem childOf_branch {links : SortedMap N K} (h : v k = some (.branch links)) (n : N) :
    childOf v k n = links.get n := by
  rw [childOf, h]

theorem present_of_childOf (h : childOf v k n = some c) : ∃ links, v k = some (.branch links) := by
  unfold childOf at h
  split at h
  · exact ⟨_, ‹_›⟩
  · cases h

theorem walk_append (v : Store K N X) (k : K) (p q : List N) :
    walk v k (p ++ q) = (walk v k p).bind fun j => walk v j q := by
  induction p generalizing k with
  | nil => rfl
  | cons n p ih =>
    rw [List.cons_append, walk, walk]
    cases childOf v k n with
    | none => rfl
    | some c => exact ih c

/-- A node that every chain of links leaves for good lies on no cycle. -/
theorem walk_ne_self (h : Acc (Link v) k) (hk : v k ≠ none) (hp : p ≠ []) : walk v k p ≠ some k := by
  have hchain : ∀ p, p ≠ [] → ∀ i j, v j ≠ none → walk v i p = some j → Relation.TransGen (Link v) j i := by
    intro p
    induction p with
    | nil => exact fun h => absurd rfl h
    | cons n p ih =>
      intro _ i j hj hwalk
      obtain ⟨c, hc, hwalk⟩ := Option.bind_eq_some_iff.1 hwalk
      cases p with
      | nil =>
        cases hwalk
        exact .single ⟨⟨n, hc⟩, hj⟩
      | cons m p =>
        obtain ⟨d, hd, -⟩ := Option.bind_eq_some_iff.1 hwalk
        obtain ⟨links, hlinks⟩ := present_of_childOf hd
        exact .tail (ih (by simp) c j hj hwalk) ⟨⟨n, hc⟩, by simp [hlinks]⟩
  intro hwalk
  have hcycle := hchain p hp k k hk hwalk
  have hacc := h.transGen
  clear h hk hp hwalk
  induction hacc with
  | intro k _ ih => exact ih k hcycle hcycle

namespace Thins

theorem refl (v : Store K N X) : Thins v v where
  leaf h := h
  branch h := ⟨_, h, fun _ => .inl rfl⟩
  closed h hc := by
    obtain ⟨links, hlinks⟩ := present_of_childOf hc
    rw [h] at hlinks
    cases hlinks
  ends h h' := absurd h' h

/-- Nothing is added. -/
theorem absent (h : Thins v w) (hk : v k = none) : w k = none := by
  cases hw : w k with
  | none => rfl
  | some cell =>
    cases cell with
    | leaf x => exact absurd (h.leaf hw) (by simp [hk])
    | branch kept =>
      obtain ⟨links, hlinks, -⟩ := h.branch hw
      rw [hk] at hlinks
      cases hlinks

theorem childOf (h : Thins v w) (hc : Layout.childOf w k n = some c) : Layout.childOf v k n = some c := by
  obtain ⟨kept, hkept⟩ := present_of_childOf hc
  obtain ⟨links, hlinks, hget⟩ := h.branch hkept
  rw [childOf_branch hkept] at hc
  rw [childOf_branch hlinks]
  rcases hget n with hsame | ⟨hnone, -⟩
  · exact hsame ▸ hc
  · rw [hnone] at hc
    cases hc

/-- A link stays, or what it links is gone. -/
theorem childOf_or (h : Thins v w) (hc : Layout.childOf v k n = some c) :
    Layout.childOf w k n = some c ∨ w c = none := by
  cases hw : w k with
  | none => exact .inr (h.closed hw hc)
  | some cell =>
    cases cell with
    | leaf x =>
      rw [Layout.childOf, h.leaf hw] at hc
      cases hc
    | branch kept =>
      obtain ⟨links, hlinks, hget⟩ := h.branch hw
      rw [childOf_branch hlinks] at hc
      rcases hget n with hsame | ⟨-, hgone⟩
      · exact .inl (by rw [childOf_branch hw, hsame, hc])
      · exact .inr (hgone c hc)

theorem walk (h : Thins v w) (hp : walk w k p = some j) : Layout.walk v k p = some j := by
  induction p generalizing k with
  | nil => exact hp
  | cons n p ih =>
    obtain ⟨c, hc, hp⟩ := Option.bind_eq_some_iff.1 hp
    rw [Layout.walk, h.childOf hc]
    exact ih hp

/-- Everything below a removed node is gone. -/
theorem gone_below (h : Thins v w) (hk : w k = none) (hp : Layout.walk v k p = some j) : w j = none := by
  induction p generalizing k with
  | nil =>
    cases hp
    exact hk
  | cons n p ih =>
    obtain ⟨c, hc, hp⟩ := Option.bind_eq_some_iff.1 hp
    exact ih (h.closed hk hc) hp

/-- The way to a node that stays is kept. -/
theorem walk_of_stays (h : Thins v w) (hp : Layout.walk v k p = some j) (hj : w j ≠ none) :
    Layout.walk w k p = some j := by
  induction p generalizing k with
  | nil => exact hp
  | cons n p ih =>
    rw [Layout.walk] at hp ⊢
    obtain ⟨c, hc, hp⟩ := Option.bind_eq_some_iff.1 hp
    rcases h.childOf_or hc with hchild | hgone
    · rw [hchild]
      exact ih hp
    · exact absurd (h.gone_below hgone hp) hj

theorem acc (h : Thins v w) (hk : Acc (Link w) k) : Acc (Link v) k := by
  induction hk with
  | intro k _ ih =>
    refine ⟨k, fun c hc => ?_⟩
    obtain ⟨⟨n, hchild⟩, hstored⟩ := hc
    by_cases hgone : w c = none
    · exact h.ends hstored hgone
    · exact ih c ⟨⟨n, (h.childOf_or hchild).resolve_right hgone⟩, hgone⟩

theorem trans (h : Thins v w) (h' : Thins w u) : Thins v u where
  leaf hk := h.leaf (h'.leaf hk)
  branch hk := by
    obtain ⟨middle, hmiddle, hget'⟩ := h'.branch hk
    obtain ⟨links, hlinks, hget⟩ := h.branch hmiddle
    refine ⟨links, hlinks, fun n => ?_⟩
    rcases hget' n with hsame' | ⟨hnone', hgone'⟩
    · rcases hget n with hsame | ⟨hnone, hgone⟩
      · exact .inl (hsame'.trans hsame)
      · exact .inr ⟨hsame'.trans hnone, fun c hc => h'.absent (hgone c hc)⟩
    · refine .inr ⟨hnone', fun c hc => ?_⟩
      rcases hget n with hsame | ⟨-, hgone⟩
      · exact hgone' c (hsame.trans hc)
      · exact h'.absent (hgone c hc)
  closed hk hc := by
    rcases h.childOf_or hc with hchild | hgone
    · exact h'.closed hk hchild
    · exact h'.absent hgone
  ends hk hgone := by
    rename_i k
    by_cases hw : w k = none
    · exact h.ends hk hw
    · exact h.acc (h'.ends hw hgone)

variable [DecidableEq K]

/-- Removing a node once everything it links is gone. -/
theorem remove (hgone : ∀ n c, Layout.childOf v k n = some c → v c = none) :
    Thins v (Function.update v k none) where
  leaf {j x} hj := by
    rw [Function.update_apply] at hj
    split at hj
    · cases hj
    · exact hj
  branch {j kept} hj := by
    rw [Function.update_apply] at hj
    split at hj
    · cases hj
    · exact ⟨kept, hj, fun _ => .inl rfl⟩
  closed {j n c} hj hc := by
    obtain ⟨links, hlinks⟩ := present_of_childOf hc
    by_cases hjk : j = k
    · subst hjk
      rw [Function.update_apply, hgone n c hc]
      split <;> rfl
    · rw [Function.update_of_ne hjk, hlinks] at hj
      cases hj
  ends {j} hj hgone' := by
    by_cases hjk : j = k
    · subst hjk
      exact ⟨j, fun c hc => absurd (hc.1.elim fun n hn => hgone n c hn) hc.2⟩
    · rw [Function.update_of_ne hjk] at hgone'
      exact absurd hgone' hj

/-- Dropping a link to a node that is gone. -/
theorem unlink {links : SortedMap N K} (hk : v k = some (.branch links))
    (hgone : ∀ c, links.get n = some c → v c = none) :
    Thins v (Function.update v k (some (.branch (links.erase n)))) := by
  have hsame : ∀ j, Function.update v k (some (.branch (links.erase n))) j = none ↔ v j = none := by
    intro j
    rw [Function.update_apply]
    split
    · rename_i hj
      simp [hj, hk]
    · exact Iff.rfl
  refine ⟨?_, ?_, ?_, ?_⟩
  · intro j x hj
    rw [Function.update_apply] at hj
    split at hj
    · cases hj
    · exact hj
  · intro j kept hj
    rw [Function.update_apply] at hj
    split at hj
    · rename_i hjk
      cases hj
      refine ⟨links, hjk ▸ hk, fun m => ?_⟩
      rw [SortedMap.get_erase]
      split
      · rename_i hm
        exact .inr ⟨rfl, fun c hc => (hsame c).2 (hgone c (hm ▸ hc))⟩
      · exact .inl rfl
    · exact ⟨kept, hj, fun _ => .inl rfl⟩
  · intro j m c hj hc
    obtain ⟨links', hlinks'⟩ := present_of_childOf hc
    rw [(hsame j).1 hj] at hlinks'
    cases hlinks'
  · intro j hj hgone'
    exact absurd ((hsame j).1 hgone') hj

end Thins

end Layout
