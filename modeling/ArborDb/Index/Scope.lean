import ArborDb.Index.Agree
import ArborDb.Txn.WellFormed

/-!
# The affected-entity walk is exact

On a well-formed table every a-node has one access path, so the fan-out of a wildcard meets no
a-node twice.
-/

namespace ArborDb

section Scope

variable {data : SortedMap AKey Entry} (h : WellFormed data)

include h

/-- No link leads to the root. -/
theorem WellFormed.childOf_ne_root {k : AKey} {name : Str} : childOf data k name ≠ some .root := by
  intro hc
  obtain ⟨links, hk⟩ := Layout.present_of_childOf hc
  obtain ⟨names, hnames⟩ := h.reachable (k := k) (Option.isSome_iff_ne_none.2 (by rw [hk]; simp))
  have hcycle : Layout.walk data.get .root (names ++ [name]) = some .root := by
    rw [Layout.walk_append, hnames, Option.bind_some, Layout.walk]
    rw [show Layout.childOf data.get k name = some .root from hc]
    rfl
  exact h.acyclic (by simp) hcycle

/-- What a chain of links leads to is an a-node. -/
theorem WellFormed.contains_of_walk {k j : AKey} {names : List Str} (hk : data.contains k = true)
    (hj : Layout.walk data.get k names = some j) : data.contains j = true := by
  induction names generalizing k with
  | nil =>
    cases hj
    exact hk
  | cons name names ih =>
    obtain ⟨c, hc, hj⟩ := Option.bind_eq_some_iff.1 hj
    exact ih (h.linked hc) hj

/-- An a-node is under one name of one directory. -/
theorem WellFormed.link_inj {k k' c : AKey} {name name' : Str} (hc : childOf data k name = some c)
    (hc' : childOf data k' name' = some c) : k = k' ∧ name = name' := by
  have hroot : c ≠ .root := by
    rintro rfl
    exact h.childOf_ne_root hc
  obtain ⟨link, -, honly⟩ := h.unique (h.linked hc) hroot
  have heq : (k, name) = (k', name') := (honly (k, name) hc).trans (honly (k', name') hc').symm
  exact Prod.mk.inj heq

/-- Chains of one length from one a-node to another are equal. -/
theorem WellFormed.walk_inj {cur cur' k : AKey} {names names' : List Str}
    (hlen : names.length = names'.length) (hk : Layout.walk data.get cur names = some k)
    (hk' : Layout.walk data.get cur' names' = some k) : cur = cur' ∧ names = names' := by
  induction names using List.reverseRecOn generalizing names' k with
  | nil =>
    obtain rfl := List.length_eq_zero_iff.1 hlen.symm
    exact ⟨(Option.some.inj hk).trans (Option.some.inj hk').symm, rfl⟩
  | append_singleton init last ih =>
    rcases List.eq_nil_or_concat names' with rfl | ⟨init', last', rfl⟩
    · simp at hlen
    · rw [List.concat_eq_append] at hlen hk' ⊢
      rw [Layout.walk_append] at hk hk'
      obtain ⟨p, hp, hk⟩ := Option.bind_eq_some_iff.1 hk
      obtain ⟨p', hp', hk'⟩ := Option.bind_eq_some_iff.1 hk'
      have hlast : Layout.childOf data.get p last = some k := by simpa [Layout.walk] using hk
      have hlast' : Layout.childOf data.get p' last' = some k := by simpa [Layout.walk] using hk'
      obtain ⟨rfl, rfl⟩ := h.link_inj hlast hlast'
      obtain ⟨rfl, rfl⟩ := ih (by simpa using hlen) hp hp'
      exact ⟨rfl, rfl⟩

theorem WellFormed.nodup_childrenOf (k : AKey) : (childrenOf data k).Nodup := by
  unfold childrenOf
  split
  · rename_i children hk
    refine List.Nodup.map_on ?_ children.nodup_entries
    rintro ⟨name, c⟩ hc ⟨name', c'⟩ hc' heq
    obtain rfl : c = c' := heq
    have hlink : ∀ n, (n, c) ∈ children.entries → childOf data k n = some c := by
      intro n hn
      rw [childOf, Layout.childOf_branch hk]
      exact SortedMap.get_iff_mem.2 hn
    rw [(h.link_inj (hlink name hc) (hlink name' hc')).2]
  · exact List.nodup_nil

/-- The walk meets no a-node twice. -/
theorem WellFormed.nodup_walk (segs : List PatternSeg) (cur : AKey) (scope : List Str) :
    (Pattern.walk data segs cur scope).Nodup := by
  induction segs generalizing cur scope with
  | nil => exact List.nodup_singleton cur
  | cons seg segs ih =>
    cases seg with
    | lit name =>
      cases scope with
      | nil =>
        rw [Pattern.walk]
        split
        · exact ih _ _
        · exact List.nodup_nil
      | cons s scope =>
        rw [Pattern.walk]
        split_ifs
        · exact List.nodup_nil
        · split
          · exact ih _ _
          · exact List.nodup_nil
    | star =>
      cases scope with
      | nil =>
        rw [Pattern.walk, List.nodup_flatMap]
        refine ⟨fun c _ => ih c [], (h.nodup_childrenOf cur).imp ?_⟩
        -- What two children lead to lies at the ends of two chains of one length.
        intro c c' hne k hk hk'
        obtain ⟨names, hmatch, hwalk, -⟩ := Pattern.mem_walk_iff.1 hk
        obtain ⟨names', hmatch', hwalk', -⟩ := Pattern.mem_walk_iff.1 hk'
        have hlen : names.length = names'.length := by
          rw [← hmatch.length_eq, ← hmatch'.length_eq]
        exact hne (h.walk_inj hlen hwalk hwalk').1
      | cons s scope =>
        rw [Pattern.walk]
        split
        · exact ih _ _
        · exact List.nodup_nil

end Scope

/-- The a-node at an access path. -/
def AtPath (data : SortedMap AKey Entry) (names : List Str) (k : AKey) : Prop :=
  data.contains k = true ∧ Layout.walk data.get .root names = some k

/-- **The affected-entity walk is exact**: it returns, each once, the a-nodes whose access path
matches the pattern segment by segment and is a prefix of the scope or has it as a prefix. -/
theorem Pattern.affectedEntities_exact (data : SortedMap AKey Entry) (h : WellFormed data)
    (hroot : data.contains .root = true) (p : Pattern) (scope : APath) :
    (p.affectedEntities data scope).Nodup ∧
    ∀ k, k ∈ p.affectedEntities data scope ↔
      ∃ names, AtPath data names k ∧ PatternSeg.MatchesAll p.segs names ∧
        (names <+: scope.names ∨ scope.names <+: names) := by
  refine ⟨h.nodup_walk p.segs .root scope.names, fun k => ?_⟩
  rw [affectedEntities, mem_walk_iff]
  constructor
  · rintro ⟨names, hmatch, hwalk, hline⟩
    exact ⟨names, ⟨h.contains_of_walk hroot hwalk, hwalk⟩, hmatch, hline⟩
  · rintro ⟨names, ⟨-, hwalk⟩, hmatch, hline⟩
    exact ⟨names, hmatch, hwalk, hline⟩

/-! ## A small table -/

/-- A directory with one file. -/
def oneChild : SortedMap AKey Entry :=
  (SortedMap.empty.insert .root (.dir (SortedMap.empty.insert ⟨"a"⟩ (.ofNat 1)))).insert (.ofNat 1) (.file [])

theorem oneChild_get (k : AKey) : oneChild.get k =
    if k = .ofNat 1 then some (.file [])
    else if k = .root then some (.dir (SortedMap.empty.insert ⟨"a"⟩ (.ofNat 1))) else none := by
  unfold oneChild
  rw [SortedMap.get_insert, SortedMap.get_insert, SortedMap.get_empty]

theorem oneChild_childOf {k c : AKey} {name : Str} (hc : childOf oneChild k name = some c) :
    k = .root ∧ name = ⟨"a"⟩ ∧ c = .ofNat 1 := by
  unfold childOf Layout.childOf at hc
  rw [oneChild_get] at hc
  by_cases h1 : k = .ofNat 1
  · rw [if_pos h1] at hc
    cases hc
  · rw [if_neg h1] at hc
    by_cases h2 : k = .root
    · rw [if_pos h2] at hc
      simp only [SortedMap.get_insert] at hc
      by_cases h3 : name = ⟨"a"⟩
      · rw [if_pos h3] at hc
        exact ⟨h2, h3, (Option.some.inj hc).symm⟩
      · rw [if_neg h3] at hc
        cases hc
    · rw [if_neg h2] at hc
      cases hc

theorem oneChild_wellFormed : WellFormed oneChild where
  linked := by
    intro k c name hc
    obtain ⟨-, -, rfl⟩ := oneChild_childOf hc
    decide
  unique := by
    intro c hc hroot
    have hone : c = .ofNat 1 := by
      unfold SortedMap.contains at hc
      rw [oneChild_get] at hc
      split_ifs at hc with h1
      · exact h1
      · cases hc
    subst hone
    refine ⟨(.root, ⟨"a"⟩), by decide, ?_⟩
    rintro ⟨k, name⟩ hk
    obtain ⟨rfl, rfl, -⟩ := oneChild_childOf hk
    rfl
  reachable := by
    intro k hk
    unfold SortedMap.contains at hk
    rw [oneChild_get] at hk
    split_ifs at hk with h1 h2
    · exact ⟨[⟨"a"⟩], by rw [h1]; decide⟩
    · exact ⟨[], by rw [h2]; rfl⟩
    · cases hk
  acyclic := by
    intro k names hne hwalk
    cases names with
    | nil => exact hne rfl
    | cons name names =>
      obtain ⟨c, hc, hrest⟩ := Option.bind_eq_some_iff.1 hwalk
      obtain ⟨rfl, -, rfl⟩ := oneChild_childOf hc
      cases names with
      | nil => exact absurd (Option.some.inj hrest) (by decide)
      | cons name' names =>
        obtain ⟨c, hc, -⟩ := Option.bind_eq_some_iff.1 hrest
        exact absurd (oneChild_childOf hc).1 (by decide)

theorem Pattern.affectedEntities_exact_oneChild :
    (Pattern.affectedEntities oneChild ⟨[.star]⟩ .root).Nodup ∧
    ∀ k, k ∈ Pattern.affectedEntities oneChild ⟨[.star]⟩ .root ↔
      ∃ names, AtPath oneChild names k ∧ PatternSeg.MatchesAll [.star] names ∧
        (names <+: [] ∨ [] <+: names) :=
  Pattern.affectedEntities_exact oneChild oneChild_wellFormed (by decide) ⟨[.star]⟩ .root

end ArborDb
