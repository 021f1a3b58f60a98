import ArborDb.Lib.SortedMap
import Mathlib.Data.Finset.Card
import Mathlib.Data.Finset.Range
import Mathlib.Logic.Function.Basic
import Mathlib.Data.List.Infix

/-!
# Trees laid out in a keyed store

A `Tree` is a partial function from paths to nodes, each with its key and, if it is a leaf, its
data. A `Store` maps a key to a cell: a leaf's data, or a branch's links from names to keys.
`Lays v t` says that the store `v` holds every node of `t` under its key, that a branch links
exactly the children its tree has, and that no key serves two paths. `Holds root v t` adds that
`t` starts at `root` and that the store holds nothing else.

The operations on trees are cutting a subtree off (`prune`), taking it by itself (`sub`), and
putting one into a free slot (`graft`); each one is a change of a single cell of the store.
-/

namespace Layout

/-- What a store keeps under a key. -/
inductive Cell (K N X : Type) [LinearOrder N] where
  | leaf (x : X)
  | branch (links : SortedMap N K)
  deriving DecidableEq

/-- The keys a cell links. -/
def Cell.linked {K N X : Type} [LinearOrder N] : Cell K N X → List K
  | .branch links => links.values
  | .leaf _ => []

/-- A tree's node: its key, and its data if it is a leaf. -/
structure Node (K X : Type) where
  key : K
  leaf : Option X
  deriving DecidableEq

abbrev Store (K N X : Type) [LinearOrder N] := K → Option (Cell K N X)

abbrev Tree (K N X : Type) := List N → Option (Node K X)

variable {K N X : Type} [LinearOrder N]

/-- The child a branch links under a name. -/
def childOf (v : Store K N X) (k : K) (n : N) : Option K :=
  match v k with
  | some (.branch links) => links.get n
  | _ => none

/-- Follows a chain of names. -/
def walk (v : Store K N X) : K → List N → Option K
  | k, [] => some k
  | k, n :: p => (childOf v k n).bind fun c => walk v c p

/-- The store holds every node of the tree, under a key of its own. -/
structure Lays (v : Store K N X) (t : Tree K N X) : Prop where
  leaf : ∀ {p : List N} {k : K} {x : X}, t p = some ⟨k, some x⟩ → v k = some (.leaf x)
  branch : ∀ {p : List N} {k : K}, t p = some ⟨k, none⟩ →
    ∃ links, v k = some (.branch links) ∧ ∀ n, links.get n = (t (p ++ [n])).map Node.key
  parent : ∀ {p : List N} {n : N} {a : Node K X}, t (p ++ [n]) = some a → ∃ k, t p = some ⟨k, none⟩
  inj : ∀ {p q : List N} {a b : Node K X}, t p = some a → t q = some b → a.key = b.key → p = q

/-- The store holds the tree from `root` down, and nothing else. -/
structure Holds (root : K) (v : Store K N X) (t : Tree K N X) : Prop extends Lays v t where
  covered : ∀ {k : K} {c : Cell K N X}, v k = some c → ∃ p a, t p = some a ∧ a.key = k
  top : ∀ {a : Node K X}, t [] = some a → a = ⟨root, none⟩

/-! ## Reading -/

section Reading

variable {v : Store K N X} {t : Tree K N X} {p : List N} {a : Node K X}

theorem Lays.ancestor (h : Lays v t) {q : List N} (hq : q ≠ []) (ha : t (p ++ q) = some a) :
    ∃ k, t p = some ⟨k, none⟩ := by
  induction q using List.reverseRecOn generalizing a with
  | nil => exact absurd rfl hq
  | append_singleton q n ih =>
    rw [← List.append_assoc] at ha
    obtain ⟨k, hk⟩ := h.parent ha
    by_cases hnil : q = []
    · subst hnil
      rw [List.append_nil] at hk
      exact ⟨k, hk⟩
    · exact ih hnil hk

theorem Lays.none_append (h : Lays v t) (hp : t p = none) (q : List N) : t (p ++ q) = none := by
  by_cases hq : q = []
  · rw [hq, List.append_nil]
    exact hp
  · by_contra hne
    obtain ⟨a, ha⟩ := Option.ne_none_iff_exists'.1 hne
    obtain ⟨k, hk⟩ := h.ancestor hq ha
    rw [hp] at hk
    cases hk

theorem Lays.leaf_append (h : Lays v t) {k : K} {x : X} (hp : t p = some ⟨k, some x⟩)
    {q : List N} (hq : q ≠ []) : t (p ++ q) = none := by
  by_contra hne
  obtain ⟨a, ha⟩ := Option.ne_none_iff_exists'.1 hne
  obtain ⟨k', hk'⟩ := h.ancestor hq ha
  rw [hp] at hk'
  cases hk'

theorem Lays.childOf (h : Lays v t) (ha : t p = some a) (n : N) :
    childOf v a.key n = (t (p ++ [n])).map Node.key := by
  obtain ⟨k, _ | x⟩ := a
  · obtain ⟨links, hv, hget⟩ := h.branch ha
    rw [Layout.childOf, hv]
    exact hget n
  · rw [Layout.childOf, h.leaf ha, h.leaf_append ha (by simp)]
    rfl

theorem Lays.walk (h : Lays v t) (ha : t p = some a) (q : List N) :
    walk v a.key q = (t (p ++ q)).map Node.key := by
  induction q generalizing p a with
  | nil => rw [List.append_nil, ha]; rfl
  | cons n q ih =>
    rw [Layout.walk, h.childOf ha]
    cases hc : t (p ++ [n]) with
    | none =>
      have hrest := h.none_append hc q
      rw [List.append_assoc, List.singleton_append] at hrest
      rw [hrest]
      rfl
    | some b =>
      have hrest := ih hc
      rw [List.append_assoc, List.singleton_append] at hrest
      exact hrest

theorem Lays.stored (h : Lays v t) (ha : t p = some a) : v a.key ≠ none := by
  obtain ⟨k, _ | x⟩ := a
  · obtain ⟨links, hv, -⟩ := h.branch ha
    simp [hv]
  · simp [h.leaf ha]

/-- A node's cell links its children, each once. -/
theorem Lays.linked (h : Lays v t) (ha : t p = some a) :
    ∃ c, v a.key = some c ∧ c.linked.Nodup ∧
      ∀ k, k ∈ c.linked ↔ ∃ n b, t (p ++ [n]) = some b ∧ b.key = k := by
  obtain ⟨k, _ | x⟩ := a
  · obtain ⟨links, hv, hget⟩ := h.branch ha
    have hentry : ∀ {n : N} {c : K}, (n, c) ∈ links.entries →
        ∃ b, t (p ++ [n]) = some b ∧ b.key = c := by
      intro n c hmem
      rw [← SortedMap.get_iff_mem, hget n] at hmem
      exact Option.map_eq_some_iff.1 hmem
    refine ⟨_, hv, ?_, ?_⟩
    · refine List.Nodup.map_on ?_ links.nodup_entries
      rintro ⟨n, c⟩ hn ⟨n', c'⟩ hn' (rfl : c = c')
      obtain ⟨b, hb, hkey⟩ := hentry hn
      obtain ⟨b', hb', hkey'⟩ := hentry hn'
      have hpath := h.inj hb hb' (hkey.trans hkey'.symm)
      rw [List.append_cancel_left_eq] at hpath
      cases hpath
      rfl
    · intro c
      constructor
      · intro hc
        obtain ⟨⟨n, _⟩, hmem, rfl⟩ := List.mem_map.1 hc
        exact ⟨n, hentry hmem⟩
      · rintro ⟨n, b, hb, rfl⟩
        refine List.mem_map.2 ⟨(n, b.key), ?_, rfl⟩
        rw [← SortedMap.get_iff_mem, hget n, hb]
        rfl
  · refine ⟨_, h.leaf ha, List.nodup_nil, ?_⟩
    intro c
    constructor
    · intro hc
      cases hc
    · rintro ⟨n, b, hb, -⟩
      rw [h.leaf_append ha (by simp)] at hb
      cases hb

theorem Holds.eq_none {root : K} (h : Holds root v t) (hroot : t [] = none) (k : K) : v k = none := by
  by_contra hne
  obtain ⟨c, hc⟩ := Option.ne_none_iff_exists'.1 hne
  obtain ⟨p, a, ha, -⟩ := h.covered hc
  have hp := h.none_append hroot p
  rw [List.nil_append, ha] at hp
  cases hp

/-- The root's cell is there exactly when the tree has a root. -/
theorem Holds.root_of_stored {root : K} (h : Holds root v t) (hroot : v root ≠ none) :
    t [] = some ⟨root, none⟩ := by
  cases ht : t [] with
  | some a => rw [h.top ht]
  | none => exact absurd (h.eq_none ht root) hroot

/-- Walking from the root ends at the key of the node the path names. -/
theorem Holds.walk_root {root : K} (h : Holds root v t) {q : List N} (hq : q ≠ []) :
    Layout.walk v root q = (t q).map Node.key := by
  cases hroot : t [] with
  | some a =>
    have ha := h.top hroot
    subst ha
    have hwalk := h.walk hroot q
    rw [List.nil_append] at hwalk
    exact hwalk
  | none =>
    have hnone := h.none_append hroot q
    rw [List.nil_append] at hnone
    obtain ⟨n, q, rfl⟩ := List.exists_cons_of_ne_nil hq
    rw [hnone, Layout.walk, Layout.childOf, h.eq_none hroot root]
    rfl

/-- A path is shorter than the number of keys in use. -/
theorem Lays.length_lt (h : Lays v t) {S : Finset K}
    (hS : ∀ {q : List N} {b : Node K X}, t q = some b → b.key ∈ S) (ha : t p = some a) :
    p.length < S.card := by
  classical
  have hsome : ∀ i, i ≤ p.length → ∃ b, t (p.take i) = some b := by
    intro i hi
    by_contra hne
    rw [not_exists] at hne
    have hnone : t (p.take i) = none := Option.eq_none_iff_forall_ne_some.2 hne
    have hp := h.none_append hnone (p.drop i)
    rw [List.take_append_drop, ha] at hp
    cases hp
  have : Nonempty (Node K X) := ⟨a⟩
  choose! b hb using hsome
  have hcard : (Finset.range (p.length + 1)).card ≤ S.card := by
    refine Finset.card_le_card_of_injOn (fun i => (b i).key) ?_ ?_
    · intro i hi
      rw [Finset.coe_range, Set.mem_Iio] at hi
      exact hS (hb i (by omega))
    · intro i hi j hj hij
      rw [Finset.coe_range, Set.mem_Iio] at hi hj
      have htake := h.inj (hb i (by omega)) (hb j (by omega)) hij
      have hlen := congrArg List.length htake
      rw [List.length_take, List.length_take] at hlen
      omega
  rw [Finset.card_range] at hcard
  omega

end Reading

/-! ## Frames -/

section Frames

variable {v v' : Store K N X} {t : Tree K N X}

/-- Only the cells under a tree's own keys matter to it. -/
theorem Lays.congr (h : Lays v t)
    (hv : ∀ {p : List N} {a : Node K X}, t p = some a → v' a.key = v a.key) : Lays v' t where
  leaf hp := by
    rw [hv hp]
    exact h.leaf hp
  branch hp := by
    rw [hv hp]
    exact h.branch hp
  parent hp := h.parent hp
  inj hp hq := h.inj hp hq

/-- The keys of the subtree at `d`. -/
def Under (t : Tree K N X) (d : List N) (k : K) : Prop := ∃ q a, t (d ++ q) = some a ∧ a.key = k

theorem Lays.not_under (h : Lays v t) {p d : List N} {a : Node K X} (ha : t p = some a)
    (hd : ¬ d <+: p) : ¬ Under t d a.key := by
  rintro ⟨q, b, hb, hkey⟩
  exact hd ⟨q, h.inj hb ha hkey⟩

/-- What is under a path: the node there and what is under its children. -/
theorem Lays.under_iff (h : Lays v t) {p : List N} {a : Node K X} (ha : t p = some a) (k : K) :
    Under t p k ↔ k = a.key ∨ ∃ n b, t (p ++ [n]) = some b ∧ Under t (p ++ [n]) k := by
  constructor
  · rintro ⟨q, b, hb, rfl⟩
    cases q with
    | nil =>
      rw [List.append_nil, ha] at hb
      cases hb
      exact .inl rfl
    | cons n q =>
      have happ : p ++ n :: q = p ++ [n] ++ q := by simp
      rw [happ] at hb
      cases hn : t (p ++ [n]) with
      | none =>
        rw [h.none_append hn q] at hb
        cases hb
      | some c => exact .inr ⟨n, c, hn, q, b, hb, rfl⟩
  · rintro (rfl | ⟨n, b, -, q, c, hc, rfl⟩)
    · exact ⟨[], a, by rw [List.append_nil, ha], rfl⟩
    · exact ⟨[n] ++ q, c, by rw [← List.append_assoc, hc], rfl⟩

omit [LinearOrder N] in
theorem under_of_le {p d : List N} {a : Node K X} (ha : t p = some a) (hd : d <+: p) :
    Under t d a.key := by
  obtain ⟨q, rfl⟩ := hd
  exact ⟨q, a, ha, rfl⟩

end Frames

/-! ## Operations on trees -/

section Operations

/-- The tree without its subtree at `d`. -/
def prune (t : Tree K N X) (d : List N) : Tree K N X := fun q => if d <+: q then none else t q

/-- The subtree at `d`. -/
def sub (t : Tree K N X) (d : List N) : Tree K N X := fun q => t (d ++ q)

/-- The tree with `c` as its subtree at `d`. -/
def graft (t : Tree K N X) (d : List N) (c : Tree K N X) : Tree K N X :=
  fun q => if d <+: q then c (q.drop d.length) else t q

/-- The tree of one node. -/
def single (a : Node K X) : Tree K N X := fun q => if q = [] then some a else none

/-- The tree with other data at the leaf `d`. -/
def setLeaf (t : Tree K N X) (d : List N) (k : K) (x : X) : Tree K N X :=
  fun q => if q = d then some ⟨k, some x⟩ else t q

omit [LinearOrder N] in
theorem single_eq_some {a b : Node K X} {q : List N} (h : single a q = some b) :
    q = [] ∧ b = a := by
  unfold single at h
  split at h
  · exact ⟨‹_›, (Option.some.inj h).symm⟩
  · cases h

theorem prune_of_le {t : Tree K N X} {d q : List N} (h : d <+: q) : prune t d q = none :=
  if_pos h

theorem prune_of_not {t : Tree K N X} {d q : List N} (h : ¬ d <+: q) : prune t d q = t q :=
  if_neg h

theorem prune_eq_some {t : Tree K N X} {d q : List N} {a : Node K X} (h : prune t d q = some a) :
    ¬ d <+: q ∧ t q = some a := by
  unfold prune at h
  split at h
  · cases h
  · exact ⟨‹_›, h⟩

theorem graft_append {t c : Tree K N X} {d : List N} (q : List N) : graft t d c (d ++ q) = c q := by
  unfold graft
  rw [if_pos (List.prefix_append d q), List.drop_left]

theorem graft_of_not {t c : Tree K N X} {d q : List N} (h : ¬ d <+: q) : graft t d c q = t q :=
  if_neg h

theorem prune_eq_self {v : Store K N X} {t : Tree K N X} {d : List N} (h : Lays v t)
    (hd : t d = none) : prune t d = t := by
  funext q
  unfold prune
  split
  · rename_i hq
    obtain ⟨r, rfl⟩ := hq
    rw [h.none_append hd r]
  · rfl

variable [DecidableEq K] {v : Store K N X} {t : Tree K N X}

omit [DecidableEq K] in
theorem Lays.sub (h : Lays v t) (d : List N) : Lays v (Layout.sub t d) where
  leaf hp := h.leaf hp
  branch {p k} hp := by
    obtain ⟨links, hv, hget⟩ := h.branch hp
    refine ⟨links, hv, ?_⟩
    intro n
    rw [hget n, Layout.sub, List.append_assoc]
  parent {p n a} hp := by
    rw [Layout.sub, ← List.append_assoc] at hp
    exact h.parent hp
  inj hp hq hkey := List.append_cancel_left (h.inj hp hq hkey)

/-- Unlinking a name cuts its subtree off. -/
theorem Lays.prune (h : Lays v t) {p : List N} {k : K} {links : SortedMap N K} (n : N)
    (hp : t p = some ⟨k, none⟩) (hk : v k = some (.branch links)) :
    Lays (Function.update v k (some (.branch (links.erase n)))) (Layout.prune t (p ++ [n])) where
  leaf {q j x} hq := by
    obtain ⟨-, hq⟩ := prune_eq_some hq
    have hleaf := h.leaf hq
    rw [Function.update_of_ne, hleaf]
    rintro rfl
    rw [hk] at hleaf
    cases hleaf
  branch {q j} hq := by
    obtain ⟨hnot, hq⟩ := prune_eq_some hq
    by_cases hj : j = k
    · subst hj
      obtain rfl : q = p := h.inj hq hp rfl
      refine ⟨links.erase n, Function.update_self .., ?_⟩
      intro n'
      obtain ⟨links', hv, hget⟩ := h.branch hp
      rw [hk] at hv
      cases hv
      rw [SortedMap.get_erase]
      by_cases hn : n' = n
      · rw [if_pos hn, hn, prune_of_le (List.prefix_refl _)]
        rfl
      · rw [if_neg hn, hget n', prune_of_not]
        intro hpre
        have heq := hpre.eq_of_length (by simp)
        rw [List.append_cancel_left_eq] at heq
        exact hn (List.cons.inj heq).1.symm
    · obtain ⟨links', hv, hget⟩ := h.branch hq
      refine ⟨links', by rw [Function.update_of_ne hj, hv], ?_⟩
      intro n'
      rw [hget n', prune_of_not]
      intro hpre
      rcases List.prefix_concat_iff.1 hpre with heq | hpre
      · have hpq := (List.append_inj' heq rfl).1
        subst hpq
        rw [hq] at hp
        cases hp
        exact hj rfl
      · exact hnot hpre
  parent {q n' a} hq := by
    obtain ⟨hnot, hq⟩ := prune_eq_some hq
    obtain ⟨j, hj⟩ := h.parent hq
    refine ⟨j, ?_⟩
    rw [prune_of_not, hj]
    intro hpre
    exact hnot (hpre.trans (List.prefix_append q [n']))
  inj hq hr := h.inj (prune_eq_some hq).2 (prune_eq_some hr).2

/-- Linking a name to a tree laid out beside puts that tree into the slot. -/
theorem Lays.graft (h : Lays v t) {c : Tree K N X} (hc : Lays v c) {p : List N} {n : N} {k : K}
    {a : Node K X} {links : SortedMap N K} (hp : t p = some ⟨k, none⟩)
    (hk : v k = some (.branch links)) (hslot : t (p ++ [n]) = none) (ha : c [] = some a)
    (hdisj : ∀ {q r : List N} {x y : Node K X}, t q = some x → c r = some y → x.key ≠ y.key) :
    Lays (Function.update v k (some (.branch (links.insert n a.key))))
      (Layout.graft t (p ++ [n]) c) := by
  have hcv : ∀ {q : List N} {b : Node K X}, c q = some b →
      Function.update v k (some (.branch (links.insert n a.key))) b.key = v b.key := by
    intro q b hb
    exact Function.update_of_ne (fun hkey => hdisj hp hb hkey.symm) _ _
  have hc' := hc.congr hcv
  -- A path of the grafted tree lies in the new subtree, or does not start with its slot.
  have hcases : ∀ {q : List N} {b : Node K X}, Layout.graft t (p ++ [n]) c q = some b →
      (∃ r, q = p ++ [n] ++ r ∧ c r = some b) ∨ (¬ p ++ [n] <+: q ∧ t q = some b) := by
    intro q b hq
    by_cases hpre : p ++ [n] <+: q
    · obtain ⟨r, rfl⟩ := hpre
      rw [graft_append] at hq
      exact .inl ⟨r, rfl, hq⟩
    · rw [graft_of_not hpre] at hq
      exact .inr ⟨hpre, hq⟩
  constructor
  · intro q j x hq
    obtain ⟨r, -, hr⟩ | ⟨-, hq⟩ := hcases hq
    · exact hc'.leaf hr
    · have hleaf := h.leaf hq
      rw [Function.update_of_ne, hleaf]
      rintro rfl
      rw [hk] at hleaf
      cases hleaf
  · intro q j hq
    obtain ⟨r, rfl, hr⟩ | ⟨hnot, hq⟩ := hcases hq
    · obtain ⟨links', hv, hget⟩ := hc'.branch hr
      refine ⟨links', hv, ?_⟩
      intro n'
      rw [hget n', List.append_assoc (p ++ [n]), graft_append]
    · by_cases hj : j = k
      · subst hj
        obtain rfl : q = p := h.inj hq hp rfl
        obtain ⟨links', hv, hget⟩ := h.branch hp
        rw [hk] at hv
        cases hv
        refine ⟨_, Function.update_self .., ?_⟩
        intro n'
        rw [SortedMap.get_insert]
        by_cases hn : n' = n
        · subst hn
          have hg := graft_append (t := t) (c := c) (d := q ++ [n']) []
          rw [List.append_nil] at hg
          rw [if_pos rfl, hg, ha]
          rfl
        · rw [if_neg hn, hget n', graft_of_not]
          intro hpre
          have heq := hpre.eq_of_length (by simp)
          rw [List.append_cancel_left_eq] at heq
          exact hn (List.cons.inj heq).1.symm
      · obtain ⟨links', hv, hget⟩ := h.branch hq
        refine ⟨links', by rw [Function.update_of_ne hj, hv], ?_⟩
        intro n'
        rw [hget n', graft_of_not]
        intro hpre
        rcases List.prefix_concat_iff.1 hpre with heq | hpre
        · have hpq := (List.append_inj' heq rfl).1
          subst hpq
          rw [hq] at hp
          cases hp
          exact hj rfl
        · exact hnot hpre
  · intro q n' b hq
    obtain ⟨r, hqr, hr⟩ | ⟨hnot, hq⟩ := hcases hq
    · rcases List.eq_nil_or_concat r with rfl | ⟨r, n'', rfl⟩
      · rw [List.append_nil] at hqr
        obtain ⟨rfl, -⟩ := List.append_inj' hqr rfl
        refine ⟨k, ?_⟩
        rw [graft_of_not, hp]
        intro hpre
        have hlen := hpre.length_le
        rw [List.length_append, List.length_singleton] at hlen
        omega
      · rw [List.concat_eq_append, ← List.append_assoc] at hqr
        obtain ⟨rfl, hn⟩ := List.append_inj' hqr rfl
        rw [List.concat_eq_append] at hr
        obtain ⟨j, hj⟩ := hc.parent hr
        exact ⟨j, by rw [graft_append, hj]⟩
    · obtain ⟨j, hj⟩ := h.parent hq
      refine ⟨j, ?_⟩
      rw [graft_of_not, hj]
      intro hpre
      exact hnot (hpre.trans (List.prefix_append q [n']))
  · intro q r x y hq hr hkey
    obtain ⟨q', rfl, hq'⟩ | ⟨-, hq'⟩ := hcases hq
    · obtain ⟨r', rfl, hr'⟩ | ⟨-, hr'⟩ := hcases hr
      · rw [hc.inj hq' hr' hkey]
      · exact absurd hkey.symm (hdisj hr' hq')
    · obtain ⟨r', rfl, hr'⟩ | ⟨-, hr'⟩ := hcases hr
      · exact absurd hkey (hdisj hq' hr')
      · exact h.inj hq' hr' hkey

/-- Rewriting a leaf's data. -/
theorem Lays.setLeaf (h : Lays v t) {d : List N} {k : K} {x y : X}
    (hd : t d = some ⟨k, some x⟩) :
    Lays (Function.update v k (some (.leaf y))) (Layout.setLeaf t d k y) := by
  have hcases : ∀ {q : List N} {b : Node K X}, Layout.setLeaf t d k y q = some b →
      (q = d ∧ b = ⟨k, some y⟩) ∨ (q ≠ d ∧ t q = some b ∧ b.key ≠ k) := by
    intro q b hq
    unfold Layout.setLeaf at hq
    split at hq
    · exact .inl ⟨‹_›, (Option.some.inj hq).symm⟩
    · rename_i hne
      exact .inr ⟨hne, hq, fun hkey => hne (h.inj hq hd hkey)⟩
  constructor
  · intro q j z hq
    obtain ⟨-, hb⟩ | ⟨-, hq, hkey⟩ := hcases hq
    · cases hb
      exact Function.update_self ..
    · rw [Function.update_of_ne hkey, h.leaf hq]
  · intro q j hq
    obtain ⟨-, hb⟩ | ⟨-, hq, hkey⟩ := hcases hq
    · cases hb
    · obtain ⟨links, hv, hget⟩ := h.branch hq
      refine ⟨links, by rw [Function.update_of_ne hkey, hv], ?_⟩
      intro n
      rw [hget n]
      unfold Layout.setLeaf
      split
      · rename_i heq
        rw [heq, hd]
        rfl
      · rfl
  · intro q n b hq
    have hparent : ∃ j, t q = some ⟨j, none⟩ := by
      obtain ⟨hqd, -⟩ | ⟨-, hq, -⟩ := hcases hq
      · rw [← hqd] at hd
        exact h.parent hd
      · exact h.parent hq
    obtain ⟨j, hj⟩ := hparent
    refine ⟨j, ?_⟩
    unfold Layout.setLeaf
    rw [if_neg, hj]
    rintro rfl
    rw [hd] at hj
    cases hj
  · intro q r a b hq hr hkey
    obtain ⟨hqd, ha⟩ | ⟨-, hq, ha⟩ := hcases hq
    · obtain ⟨hrd, -⟩ | ⟨-, -, hb⟩ := hcases hr
      · rw [hqd, hrd]
      · rw [ha] at hkey
        exact absurd hkey.symm hb
    · obtain ⟨-, hb⟩ | ⟨-, hr, -⟩ := hcases hr
      · rw [hb] at hkey
        exact absurd hkey ha
      · exact h.inj hq hr hkey

omit [DecidableEq K] in
theorem lays_single_leaf {k : K} {x : X} (hk : v k = some (.leaf x)) :
    Lays v (single ⟨k, some x⟩) := by
  refine ⟨?_, ?_, ?_, ?_⟩
  · intro p j y hp
    unfold single at hp
    split at hp
    · cases hp
      exact hk
    · cases hp
  · intro p j hp
    unfold single at hp
    split at hp <;> cases hp
  · intro p n a hp
    unfold single at hp
    rw [if_neg (by simp)] at hp
    cases hp
  · intro p q a b hp hq _
    unfold single at hp hq
    split at hp
    · split at hq
      · rw [‹p = []›, ‹q = []›]
      · cases hq
    · cases hp

omit [DecidableEq K] in
theorem lays_single_branch {k : K} (hk : v k = some (.branch .empty)) :
    Lays v (single ⟨k, none⟩) := by
  refine ⟨?_, ?_, ?_, ?_⟩
  · intro p j y hp
    unfold single at hp
    split at hp <;> cases hp
  · intro p j hp
    unfold single at hp
    split at hp
    · cases hp
      refine ⟨.empty, hk, ?_⟩
      intro n
      unfold single
      rw [if_neg (by simp)]
      rfl
    · cases hp
  · intro p n a hp
    unfold single at hp
    rw [if_neg (by simp)] at hp
    cases hp
  · intro p q a b hp hq _
    unfold single at hp hq
    split at hp
    · split at hq
      · rw [‹p = []›, ‹q = []›]
      · cases hq
    · cases hp

end Operations

/-! ## Whole stores -/

section Whole

variable {root : K} {v v' : Store K N X} {t c : Tree K N X}

omit [LinearOrder N] in
open Classical in
/-- The store without the cells in `S`. -/
noncomputable def wipe (v : K → Option X) (S : K → Prop) : K → Option X :=
  fun k => if S k then none else v k

theorem wipe_of {v : K → Option X} {S : K → Prop} {k : K} (h : S k) : wipe v S k = none := if_pos h

theorem wipe_of_not {v : K → Option X} {S : K → Prop} {k : K} (h : ¬ S k) : wipe v S k = v k :=
  if_neg h

theorem wipe_wipe (v : K → Option X) (S T : K → Prop) :
    wipe (wipe v S) T = wipe v fun k => S k ∨ T k := by
  funext k
  unfold wipe
  by_cases hT : T k <;> by_cases hS : S k <;> simp [hT, hS]

theorem wipe_congr (v : K → Option X) {S T : K → Prop} {k : K} (h : S k ↔ T k) :
    wipe v S k = wipe v T k := by
  unfold wipe
  by_cases hT : T k
  · rw [if_pos (h.2 hT), if_pos hT]
  · rw [if_neg (fun hS => hT (h.1 hS)), if_neg hT]

theorem wipe_eq_self {v : K → Option X} {S : K → Prop} (h : ∀ k, ¬ S k) : wipe v S = v :=
  funext fun k => wipe_of_not (h k)

theorem holds_empty : Holds root (fun _ => none : Store K N X) fun _ => none where
  leaf h := nomatch h
  branch h := nomatch h
  parent h := nomatch h
  inj h := nomatch h
  covered h := nomatch h
  top h := nomatch h

variable [DecidableEq K]

/-- An empty store with an empty root. -/
theorem Holds.single_root (h : Holds root v t) (hroot : t [] = none) :
    Holds root (Function.update v root (some (.branch .empty))) (single ⟨root, none⟩) where
  toLays := lays_single_branch (Function.update_self ..)
  covered {k c} hk := by
    refine ⟨[], ⟨root, none⟩, rfl, ?_⟩
    by_contra hne
    rw [Function.update_of_ne (Ne.symm hne), h.eq_none hroot k] at hk
    cases hk
  top ha := (Option.some.inj ha).symm

/-- Unlinking a name and removing what is under it. -/
theorem Holds.prune (h : Holds root v t) {p : List N} {k : K} {links : SortedMap N K} (n : N)
    (hp : t p = some ⟨k, none⟩) (hk : v k = some (.branch links)) :
    Holds root (Function.update (wipe v (Under t (p ++ [n]))) k (some (.branch (links.erase n))))
      (Layout.prune t (p ++ [n])) where
  toLays := by
    refine (h.toLays.prune n hp hk).congr ?_
    intro q a hq
    obtain ⟨hnot, hq⟩ := prune_eq_some hq
    by_cases hak : a.key = k
    · rw [hak, Function.update_self, Function.update_self]
    · rw [Function.update_of_ne hak, Function.update_of_ne hak]
      exact wipe_of_not (h.not_under hq hnot)
  covered {j c} hj := by
    by_cases hjk : j = k
    · refine ⟨p, ⟨k, none⟩, ?_, hjk.symm⟩
      rw [prune_of_not, hp]
      intro hpre
      have hlen := hpre.length_le
      rw [List.length_append, List.length_singleton] at hlen
      omega
    · rw [Function.update_of_ne hjk] at hj
      have hnot : ¬ Under t (p ++ [n]) j := by
        intro hunder
        rw [wipe_of hunder] at hj
        cases hj
      rw [wipe_of_not hnot] at hj
      obtain ⟨q, a, ha, rfl⟩ := h.covered hj
      refine ⟨q, a, ?_, rfl⟩
      rw [prune_of_not, ha]
      exact fun hpre => hnot (under_of_le ha hpre)
  top ha := h.top (prune_eq_some ha).2

/-- Linking a free name to a tree laid out in free cells. -/
theorem Holds.graft (h : Holds root v t) (hc : Lays v' c) {p : List N} {n : N} {k : K}
    {a : Node K X} {links : SortedMap N K}
    (hagree : ∀ j, (∀ {r : List N} {y : Node K X}, c r = some y → y.key ≠ j) → v' j = v j)
    (hfree : ∀ {r : List N} {y : Node K X}, c r = some y → v y.key = none)
    (hp : t p = some ⟨k, none⟩) (hk : v k = some (.branch links)) (hslot : t (p ++ [n]) = none)
    (ha : c [] = some a) :
    Holds root (Function.update v' k (some (.branch (links.insert n a.key))))
      (Layout.graft t (p ++ [n]) c) := by
  have hdisj : ∀ {q r : List N} {x y : Node K X}, t q = some x → c r = some y → x.key ≠ y.key := by
    intro q r x y hx hy hkey
    have hstored := h.stored hx
    rw [hkey, hfree hy] at hstored
    exact hstored rfl
  have hsame : ∀ {q : List N} {x : Node K X}, t q = some x → v' x.key = v x.key := by
    intro q x hx
    exact hagree _ fun hy hkey => hdisj hx hy hkey.symm
  refine ⟨(h.congr hsame).graft hc hp (by rw [hsame hp]; exact hk) hslot ha hdisj, ?_, ?_⟩
  · intro j cell hj
    by_cases hjk : j = k
    · refine ⟨p, ⟨k, none⟩, ?_, hjk.symm⟩
      rw [graft_of_not, hp]
      intro hpre
      have hlen := hpre.length_le
      rw [List.length_append, List.length_singleton] at hlen
      omega
    · rw [Function.update_of_ne hjk] at hj
      by_cases hin : ∃ r y, c r = some y ∧ y.key = j
      · obtain ⟨r, y, hy, rfl⟩ := hin
        exact ⟨p ++ [n] ++ r, y, by rw [graft_append, hy], rfl⟩
      · rw [hagree j fun hy hkey => hin ⟨_, _, hy, hkey⟩] at hj
        obtain ⟨q, x, hx, rfl⟩ := h.covered hj
        refine ⟨q, x, ?_, rfl⟩
        rw [graft_of_not, hx]
        rintro ⟨r, rfl⟩
        rw [h.none_append hslot r] at hx
        cases hx
  · intro b hb
    rw [graft_of_not] at hb
    · exact h.top hb
    · intro hpre
      simpa using hpre.length_le

/-- Relinking a subtree into a free slot outside it: unlinked at `S`, linked at `D`. -/
theorem Holds.move (h : Holds root v t) {p q : List N} {n n' : N} {S D : K} {a : Node K X}
    {m m' : SortedMap N K} (hp : t p = some ⟨S, none⟩) (hS : v S = some (.branch m))
    (ha : t (p ++ [n]) = some a) (hq : t q = some ⟨D, none⟩) (hout : ¬ p ++ [n] <+: q)
    (hslot : t (q ++ [n']) = none)
    (hD : Function.update v S (some (.branch (m.erase n))) D = some (.branch m')) :
    Holds root (Function.update (Function.update v S (some (.branch (m.erase n)))) D
        (some (.branch (m'.insert n' a.key))))
      (Layout.graft (Layout.prune t (p ++ [n])) (q ++ [n']) (Layout.sub t (p ++ [n]))) := by
  have hps : ¬ p ++ [n] <+: p := by
    intro hpre
    have hlen := hpre.length_le
    rw [List.length_append, List.length_singleton] at hlen
    omega
  have hrest := h.toLays.prune n hp hS
  have hmoved : Lays (Function.update v S (some (.branch (m.erase n))))
      (Layout.sub t (p ++ [n])) := by
    refine (h.toLays.sub (p ++ [n])).congr ?_
    intro r b hb
    apply Function.update_of_ne
    intro hkey
    exact hps ⟨r, h.inj hb hp hkey⟩
  have hsub : Layout.sub t (p ++ [n]) [] = some a := by rw [Layout.sub, List.append_nil, ha]
  have hq' : Layout.prune t (p ++ [n]) q = some ⟨D, none⟩ := by rw [prune_of_not hout, hq]
  have hslot' : Layout.prune t (p ++ [n]) (q ++ [n']) = none := by
    unfold Layout.prune
    split
    · rfl
    · exact hslot
  have hlays := hrest.graft hmoved hq' hD hslot' hsub ?_
  · refine ⟨hlays, ?_, ?_⟩
    · intro j cell hj
      have hvj : ∃ q b, t q = some b ∧ b.key = j := by
        by_cases hjD : j = D
        · exact ⟨q, _, hq, hjD.symm⟩
        · rw [Function.update_of_ne hjD] at hj
          by_cases hjS : j = S
          · exact ⟨p, _, hp, hjS.symm⟩
          · rw [Function.update_of_ne hjS] at hj
            exact h.covered hj
      obtain ⟨r, b, hb, hkey⟩ := hvj
      by_cases hpre : p ++ [n] <+: r
      · obtain ⟨r, rfl⟩ := hpre
        exact ⟨q ++ [n'] ++ r, b, by rw [graft_append]; exact hb, hkey⟩
      · refine ⟨r, b, ?_, hkey⟩
        rw [graft_of_not, prune_of_not hpre, hb]
        rintro ⟨r', rfl⟩
        rw [h.none_append hslot r'] at hb
        cases hb
    · intro b hb
      rw [graft_of_not] at hb
      · exact h.top (prune_eq_some hb).2
      · intro hpre
        simpa using hpre.length_le
  · intro r r' x y hx hy hkey
    obtain ⟨hnot, hx⟩ := prune_eq_some hx
    exact hnot ⟨r', (h.inj hx hy hkey).symm⟩

omit [DecidableEq K] in
theorem graft_prune (t c : Tree K N X) (d : List N) :
    Layout.graft (Layout.prune t d) d c = Layout.graft t d c := by
  funext q
  by_cases hq : d <+: q
  · obtain ⟨r, rfl⟩ := hq
    rw [graft_append, graft_append]
  · rw [graft_of_not hq, graft_of_not hq, prune_of_not hq]

/-- Replacing what a name links: the old subtree is removed, the name links a new tree. -/
theorem Holds.refill (h : Holds root v t) (hc : Lays v' c) {p : List N} {n : N} {k : K}
    {a : Node K X} {links : SortedMap N K}
    (hagree : ∀ j, (∀ {r : List N} {y : Node K X}, c r = some y → y.key ≠ j) →
      v' j = wipe v (Under t (p ++ [n])) j)
    (hfree : ∀ {r : List N} {y : Node K X}, c r = some y → wipe v (Under t (p ++ [n])) y.key = none)
    (hp : t p = some ⟨k, none⟩) (hk : v k = some (.branch links)) (ha : c [] = some a) :
    Holds root (Function.update v' k (some (.branch (links.insert n a.key))))
      (Layout.graft t (p ++ [n]) c) := by
  have hps : ¬ p ++ [n] <+: p := by
    intro hpre
    have hlen := hpre.length_le
    rw [List.length_append, List.length_singleton] at hlen
    omega
  have hkc : ∀ {r : List N} {y : Node K X}, c r = some y → y.key ≠ k := by
    intro r y hy hkey
    have hnone := hfree hy
    rw [hkey, wipe_of_not (h.not_under hp hps), hk] at hnone
    cases hnone
  have hprune := h.prune n hp hk
  have hc' : Lays (Function.update v' k (some (.branch (links.erase n)))) c :=
    hc.congr fun hy => Function.update_of_ne (hkc hy) _ _
  have hlinks : Function.update (wipe v (Under t (p ++ [n]))) k (some (.branch (links.erase n))) k =
      some (.branch (links.erase n)) := Function.update_self ..
  have hgraft := hprune.graft hc' (p := p) (n := n) ?_ ?_ (by rw [prune_of_not hps, hp]) hlinks
    (prune_of_le (List.prefix_refl _)) ha
  · rw [Function.update_idem, SortedMap.insert_erase, graft_prune] at hgraft
    exact hgraft
  · intro j hj
    by_cases hjk : j = k
    · rw [hjk, Function.update_self, Function.update_self]
    · rw [Function.update_of_ne hjk, Function.update_of_ne hjk, hagree j hj]
  · intro r y hy
    rw [Function.update_of_ne (hkc hy), hfree hy]

omit [DecidableEq K] in
theorem graft_prune_sub (t : Tree K N X) {src dst : List N} (hsd : ¬ src <+: dst)
    (hds : ¬ dst <+: src) :
    Layout.graft (Layout.prune (Layout.prune t dst) src) dst
        (Layout.sub (Layout.prune t dst) src) =
      Layout.graft (Layout.prune t src) dst (Layout.sub t src) := by
  funext q
  by_cases hq : dst <+: q
  · obtain ⟨r, rfl⟩ := hq
    rw [graft_append, graft_append, Layout.sub, Layout.sub, prune_of_not]
    intro hpre
    rcases List.prefix_or_prefix_of_prefix hpre (List.prefix_append src r) with hpre | hpre
    · exact hds hpre
    · exact hsd hpre
  · rw [graft_of_not hq, graft_of_not hq]
    by_cases hsrc : src <+: q
    · rw [prune_of_le hsrc, prune_of_le hsrc]
    · rw [prune_of_not hsrc, prune_of_not hsrc, prune_of_not hq]

/-- Moving a subtree over another one: what the target links is removed, the target is linked to
the moved subtree, and the source name is unlinked, in this order. -/
theorem Holds.relink (h : Holds root v t) {p q : List N} {n n' : N} {S D : K} {a : Node K X}
    {m m' : SortedMap N K} (hp : t p = some ⟨S, none⟩) (ha : t (p ++ [n]) = some a)
    (hq : t q = some ⟨D, none⟩) (hD : v D = some (.branch m'))
    (hsd : ¬ p ++ [n] <+: q ++ [n']) (hds : ¬ q ++ [n'] <+: p ++ [n])
    (hS : Function.update (wipe v (Under t (q ++ [n']))) D (some (.branch (m'.insert n' a.key))) S =
      some (.branch m)) :
    Holds root (Function.update (Function.update (wipe v (Under t (q ++ [n']))) D
        (some (.branch (m'.insert n' a.key)))) S (some (.branch (m.erase n))))
      (Layout.graft (Layout.prune t (p ++ [n])) (q ++ [n']) (Layout.sub t (p ++ [n]))) := by
  have hdp : ¬ q ++ [n'] <+: p := fun hpre => hds (hpre.trans (List.prefix_append p [n]))
  have hdq : ¬ q ++ [n'] <+: q := by
    intro hpre
    have hlen := hpre.length_le
    rw [List.length_append, List.length_singleton] at hlen
    omega
  have hprune := h.prune n' hq hD
  have hmove : ∀ {m₁ m₂ : SortedMap N K},
      Function.update (wipe v (Under t (q ++ [n']))) D (some (.branch (m'.erase n'))) S =
        some (.branch m₁) →
      Function.update (Function.update (wipe v (Under t (q ++ [n']))) D
        (some (.branch (m'.erase n')))) S (some (.branch (m₁.erase n))) D = some (.branch m₂) →
      Holds root (Function.update (Function.update (Function.update (wipe v (Under t (q ++ [n'])))
        D (some (.branch (m'.erase n')))) S (some (.branch (m₁.erase n)))) D
        (some (.branch (m₂.insert n' a.key))))
        (Layout.graft (Layout.prune t (p ++ [n])) (q ++ [n']) (Layout.sub t (p ++ [n]))) := by
    intro m₁ m₂ h₁ h₂
    rw [← graft_prune_sub t hsd hds]
    exact hprune.move (by rw [prune_of_not hdp, hp]) h₁ (by rw [prune_of_not hds, ha])
      (by rw [prune_of_not hdq, hq]) (fun hpre => hsd (hpre.trans (List.prefix_append q [n'])))
      (prune_of_le (List.prefix_refl _)) h₂
  by_cases hSD : S = D
  · subst hSD
    have hnn : n ≠ n' := by
      rintro rfl
      have hpq := h.inj hp hq rfl
      rw [hpq] at hsd
      exact hsd (List.prefix_refl _)
    rw [Function.update_self] at hS
    cases hS
    have hfinal := hmove (Function.update_self ..) (Function.update_self ..)
    rw [Function.update_idem, Function.update_idem] at hfinal
    rw [Function.update_idem, SortedMap.erase_insert_comm _ _ hnn]
    exact hfinal
  · rw [Function.update_of_ne hSD] at hS
    have hfinal := hmove (by rw [Function.update_of_ne hSD, hS])
      (by rw [Function.update_of_ne (Ne.symm hSD), Function.update_self])
    rw [Function.update_comm hSD, Function.update_idem, SortedMap.insert_erase] at hfinal
    exact hfinal

theorem Holds.setLeaf (h : Holds root v t) {d : List N} {k : K} {x y : X}
    (hd : t d = some ⟨k, some x⟩) :
    Holds root (Function.update v k (some (.leaf y))) (Layout.setLeaf t d k y) where
  toLays := h.toLays.setLeaf hd
  covered {j c} hj := by
    unfold Layout.setLeaf
    by_cases hjk : j = k
    · exact ⟨d, ⟨k, some y⟩, if_pos rfl, hjk.symm⟩
    · rw [Function.update_of_ne hjk] at hj
      obtain ⟨q, a, ha, rfl⟩ := h.covered hj
      refine ⟨q, a, ?_, rfl⟩
      rw [if_neg, ha]
      rintro rfl
      rw [hd] at ha
      cases ha
      exact hjk rfl
  top {a} ha := by
    unfold Layout.setLeaf at ha
    split at ha
    · rename_i hnil
      rw [← hnil] at hd
      have htop := h.top hd
      cases htop
    · exact h.top ha

end Whole

end Layout
