import Mathlib.Order.Lattice
import Mathlib.Data.List.Basic
import Mathlib.Data.Option.Basic

/-!
# Finite maps kept in key order

A finite map is a list of bindings whose keys increase strictly, so that iterating it is iterating
the list and two maps with the same bindings are equal (`SortedMap.ext`). The operations are
defined on bare lists (`Assoc`), where a nested inductive type can use them too, and packaged with
the order invariant in `SortedMap`.
-/

universe u v w

namespace Assoc

variable {K : Type u} {V : Type v} [LinearOrder K]

/-- The value bound to `k`. -/
def find (k : K) : List (K × V) → Option V
  | [] => none
  | (k', v) :: l => if k = k' then some v else find k l

/-- Binds `k` to `v`, replacing an earlier binding and keeping the key order. -/
def insert (k : K) (v : V) : List (K × V) → List (K × V)
  | [] => [(k, v)]
  | (k', v') :: l =>
    if k < k' then (k, v) :: (k', v') :: l
    else if k = k' then (k, v) :: l
    else (k', v') :: insert k v l

/-- Drops the binding of `k`. -/
def erase (k : K) : List (K × V) → List (K × V)
  | [] => []
  | (k', v') :: l => if k = k' then l else (k', v') :: erase k l

/-- The keys increase strictly. -/
def Sorted (l : List (K × V)) : Prop := (l.map Prod.fst).Pairwise (· < ·)

instance (l : List (K × V)) : Decidable (Sorted l) :=
  inferInstanceAs (Decidable ((l.map Prod.fst).Pairwise (· < ·)))

theorem sorted_nil : Sorted ([] : List (K × V)) := List.Pairwise.nil

theorem sorted_cons {k : K} {v : V} {l : List (K × V)} :
    Sorted ((k, v) :: l) ↔ (∀ b ∈ l, k < b.1) ∧ Sorted l := by
  simp [Sorted, List.pairwise_cons]

theorem find_eq_none {k : K} {l : List (K × V)} : find k l = none ↔ ∀ b ∈ l, b.1 ≠ k := by
  induction l with
  | nil => simp [find]
  | cons b l ih =>
    obtain ⟨k', v⟩ := b
    by_cases h : k = k'
    · simp [find, h]
    · simp [find, h, ih, Ne.symm h]

theorem find_none_of_lt {k : K} {l : List (K × V)} (h : ∀ b ∈ l, k < b.1) : find k l = none :=
  find_eq_none.2 fun b hb => (h b hb).ne'

theorem mem_of_find {k : K} {v : V} {l : List (K × V)} (h : find k l = some v) : (k, v) ∈ l := by
  induction l with
  | nil => simp [find] at h
  | cons b l ih =>
    obtain ⟨k', v'⟩ := b
    by_cases hk : k = k'
    · simp only [find, hk, if_true, Option.some.injEq] at h
      simp [hk, h]
    · simp only [find, hk, if_false] at h
      exact List.mem_cons_of_mem _ (ih h)

theorem find_of_mem_nodup {k : K} {v : V} {l : List (K × V)} (hnodup : (l.map Prod.fst).Nodup)
    (h : (k, v) ∈ l) : find k l = some v := by
  induction l with
  | nil => cases h
  | cons b l ih =>
    obtain ⟨k', v'⟩ := b
    obtain ⟨hnot, hnodup⟩ := List.nodup_cons.1 hnodup
    rcases List.mem_cons.1 h with heq | hm
    · obtain ⟨rfl, rfl⟩ := Prod.mk.inj heq
      simp [find]
    · have hne : k ≠ k' := fun heq => hnot (List.mem_map.2 ⟨(k, v), hm, heq⟩)
      rw [find, if_neg hne]
      exact ih hnodup hm

theorem Sorted.nodup {l : List (K × V)} (hs : Sorted l) : (l.map Prod.fst).Nodup := hs.imp ne_of_lt

theorem find_of_mem {k : K} {v : V} {l : List (K × V)} (hs : Sorted l) (h : (k, v) ∈ l) :
    find k l = some v := find_of_mem_nodup hs.nodup h

/-- Which value a key is bound to does not depend on the order of the bindings. -/
theorem find_perm {k : K} {l m : List (K × V)} (hnodup : (l.map Prod.fst).Nodup) (hperm : l.Perm m) :
    find k l = find k m := by
  have hm : (m.map Prod.fst).Nodup := (hperm.map Prod.fst).nodup_iff.1 hnodup
  apply Option.ext
  intro v
  constructor
  · intro h
    exact find_of_mem_nodup hm (hperm.mem_iff.1 (mem_of_find h))
  · intro h
    exact find_of_mem_nodup hnodup (hperm.mem_iff.2 (mem_of_find h))

theorem find_iff_mem {k : K} {v : V} {l : List (K × V)} (hs : Sorted l) :
    find k l = some v ↔ (k, v) ∈ l := ⟨mem_of_find, find_of_mem hs⟩

theorem mem_insert {k : K} {v : V} {l : List (K × V)} {b : K × V} (h : b ∈ insert k v l) :
    b = (k, v) ∨ b ∈ l := by
  induction l with
  | nil => exact .inl (by simpa [insert] using h)
  | cons c l ih =>
    obtain ⟨k', v'⟩ := c
    simp only [insert] at h
    split at h
    · exact List.mem_cons.1 h
    · split at h
      · rcases List.mem_cons.1 h with h | h
        · exact .inl h
        · exact .inr (List.mem_cons_of_mem _ h)
      · rcases List.mem_cons.1 h with rfl | h
        · exact .inr List.mem_cons_self
        · exact (ih h).imp_right (List.mem_cons_of_mem _)

theorem mem_erase {k : K} {l : List (K × V)} {b : K × V} (h : b ∈ erase k l) : b ∈ l := by
  induction l with
  | nil => simp [erase] at h
  | cons c l ih =>
    obtain ⟨k', v'⟩ := c
    simp only [erase] at h
    split at h
    · exact List.mem_cons_of_mem _ h
    · rcases List.mem_cons.1 h with rfl | h
      · exact List.mem_cons_self
      · exact List.mem_cons_of_mem _ (ih h)

theorem sorted_insert {k : K} {v : V} {l : List (K × V)} (hs : Sorted l) :
    Sorted (insert k v l) := by
  induction l with
  | nil => simp [insert, Sorted]
  | cons c l ih =>
    obtain ⟨k', v'⟩ := c
    obtain ⟨hlt, hs'⟩ := sorted_cons.1 hs
    simp only [insert]
    split
    · rename_i hk
      refine sorted_cons.2 ⟨fun b hb => ?_, hs⟩
      rcases List.mem_cons.1 hb with rfl | hb
      · exact hk
      · exact hk.trans (hlt b hb)
    · split
      · rename_i hk
        subst hk
        exact sorted_cons.2 ⟨hlt, hs'⟩
      · rename_i hnlt hne
        refine sorted_cons.2 ⟨fun b hb => ?_, ih hs'⟩
        rcases mem_insert hb with rfl | hb
        · exact lt_of_le_of_ne (not_lt.1 hnlt) (Ne.symm hne)
        · exact hlt b hb

theorem sorted_erase {k : K} {l : List (K × V)} (hs : Sorted l) : Sorted (erase k l) := by
  induction l with
  | nil => exact hs
  | cons c l ih =>
    obtain ⟨k', v'⟩ := c
    obtain ⟨hlt, hs'⟩ := sorted_cons.1 hs
    simp only [erase]
    split
    · exact hs'
    · exact sorted_cons.2 ⟨fun b hb => hlt b (mem_erase hb), ih hs'⟩

theorem find_insert {k j : K} {v : V} {l : List (K × V)} :
    find j (insert k v l) = if j = k then some v else find j l := by
  induction l with
  | nil => simp [insert, find]
  | cons c l ih =>
    obtain ⟨k', v'⟩ := c
    simp only [insert]
    split
    · simp only [find]
    · split
      · rename_i hk
        subst hk
        by_cases hj : j = k <;> simp [find, hj]
      · rename_i hne
        simp only [find, ih]
        by_cases hj : j = k'
        · subst hj; simp [Ne.symm hne]
        · simp [hj]

theorem find_erase {k j : K} {l : List (K × V)} (hs : Sorted l) :
    find j (erase k l) = if j = k then none else find j l := by
  induction l with
  | nil => simp [erase, find]
  | cons c l ih =>
    obtain ⟨k', v'⟩ := c
    obtain ⟨hlt, hs'⟩ := sorted_cons.1 hs
    simp only [erase]
    split
    · rename_i hk
      subst hk
      by_cases hj : j = k
      · subst hj; simp [find_none_of_lt hlt]
      · simp [find, hj]
    · rename_i hne
      simp only [find, ih hs']
      by_cases hj : j = k'
      · subst hj; simp [Ne.symm hne]
      · simp [hj]

theorem ext_of_find {l m : List (K × V)} (hl : Sorted l) (hm : Sorted m)
    (h : ∀ k, find k l = find k m) : l = m := by
  induction l generalizing m with
  | nil =>
    cases m with
    | nil => rfl
    | cons c m => have := h c.1; simp [find] at this
  | cons b l ih =>
    cases m with
    | nil => have := h b.1; simp [find] at this
    | cons c m =>
      obtain ⟨k, v⟩ := b
      obtain ⟨k', v'⟩ := c
      obtain ⟨hl1, hl2⟩ := sorted_cons.1 hl
      obtain ⟨hm1, hm2⟩ := sorted_cons.1 hm
      -- the smaller of the two first keys would be missing on the other side
      have hk : k = k' := by
        rcases lt_trichotomy k k' with hlt | heq | hgt
        · have hk := h k
          have : find k ((k', v') :: m) = none :=
            find_none_of_lt (by
              intro b hb
              rcases List.mem_cons.1 hb with rfl | hb
              · exact hlt
              · exact hlt.trans (hm1 b hb))
          rw [this] at hk; simp [find] at hk
        · exact heq
        · have hk := h k'
          have : find k' ((k, v) :: l) = none :=
            find_none_of_lt (by
              intro b hb
              rcases List.mem_cons.1 hb with rfl | hb
              · exact hgt
              · exact hgt.trans (hl1 b hb))
          rw [this] at hk; simp [find] at hk
      subst hk
      have hv := h k
      simp only [find, if_true, Option.some.injEq] at hv
      subst hv
      congr 1
      refine ih hl2 hm2 fun j => ?_
      have hj := h j
      by_cases hjk : j = k
      · subst hjk; rw [find_none_of_lt hl1, find_none_of_lt hm1]
      · simpa [find, hjk] using hj

/-- Binding a key above all others appends it. -/
theorem insert_append {k : K} {v : V} {l : List (K × V)} (h : ∀ b ∈ l, b.1 < k) :
    insert k v l = l ++ [(k, v)] := by
  induction l with
  | nil => rfl
  | cons c l ih =>
    obtain ⟨k', v'⟩ := c
    have hk : k' < k := h (k', v') List.mem_cons_self
    simp only [insert, not_lt_of_gt hk, hk.ne', if_false, List.cons_append]
    rw [ih fun b hb => h b (List.mem_cons_of_mem _ hb)]

/-- **Rebuilding a sorted list binding by binding gives it back.** -/
theorem foldl_insert_sorted {l m : List (K × V)} (hs : Sorted (m ++ l)) :
    l.foldl (fun acc b => insert b.1 b.2 acc) m = m ++ l := by
  induction l generalizing m with
  | nil => simp
  | cons b l ih =>
    have hlt : ∀ c ∈ m, c.1 < b.1 := by
      intro c hc
      unfold Sorted at hs
      rw [List.map_append, List.pairwise_append] at hs
      exact hs.2.2 _ (List.mem_map_of_mem hc) _ (by simp)
    rw [List.foldl_cons, insert_append hlt, ih (by simpa using hs)]
    simp

theorem insert_insert {k : K} {v w : V} {l : List (K × V)} : insert k w (insert k v l) = insert k w l := by
  induction l with
  | nil => simp [insert]
  | cons b l ih =>
    obtain ⟨j, x⟩ := b
    rcases lt_trichotomy k j with hlt | rfl | hgt
    · simp [insert, hlt]
    · simp [insert]
    · simp [insert, hgt.ne', not_lt_of_gt hgt, ih]

/-- Related lists stay related. -/
theorem forall₂_insert {α β : Type*} {R : α → β → Prop} {l : List (K × α)} {m : List (K × β)} {name : K} {a : α}
    {b : β} (h : List.Forall₂ (fun e f => e.1 = f.1 ∧ R e.2 f.2) l m) (hab : R a b) :
    List.Forall₂ (fun e f => e.1 = f.1 ∧ R e.2 f.2) (insert name a l) (insert name b m) := by
  induction h with
  | nil => exact .cons ⟨rfl, hab⟩ .nil
  | @cons e f l m hef hrest ih =>
    obtain ⟨n, c⟩ := e
    obtain ⟨n', c'⟩ := f
    obtain ⟨rfl, hc⟩ := hef
    simp only [insert]
    split
    · exact .cons ⟨rfl, hab⟩ (.cons ⟨rfl, hc⟩ hrest)
    · split
      · exact .cons ⟨rfl, hab⟩ hrest
      · exact .cons ⟨rfl, hc⟩ ih

/-- Binding a key to its own value changes nothing. -/
theorem erase_insert_absent {k : K} {v : V} {l : List (K × V)} (h : find k l = none) :
    erase k (insert k v l) = l := by
  induction l with
  | nil =>
    rw [insert, erase, if_pos rfl]
  | cons b l ih =>
    obtain ⟨k', v'⟩ := b
    rw [find] at h
    split at h
    · cases h
    · rename_i hne
      rw [insert]
      split
      · rw [erase, if_pos rfl]
      · rw [erase, if_neg hne, ih h]
theorem insert_erase {k : K} {v : V} {l : List (K × V)} (hs : Sorted l) : insert k v (erase k l) = insert k v l := by
  apply ext_of_find (sorted_insert (sorted_erase hs)) (sorted_insert hs)
  intro j
  rw [find_insert, find_insert, find_erase hs]
  split <;> rfl

theorem erase_of_find_none {k : K} {l : List (K × V)} (h : find k l = none) : erase k l = l := by
  induction l with
  | nil => rfl
  | cons b l ih =>
    obtain ⟨k', v⟩ := b
    rw [find] at h
    split at h
    · cases h
    · rename_i hne
      rw [erase, if_neg hne, ih h]

theorem insert_find {k : K} {v : V} {l : List (K × V)} (hs : Sorted l) (h : find k l = some v) :
    insert k v l = l := by
  refine ext_of_find (sorted_insert hs) hs fun j => ?_
  rw [find_insert]
  split
  · rename_i hj
    rw [hj, h]
  · rfl

section Map
variable {W : Type w} (f : V → W)

/-- Binding a bound key replaces its value in place. -/
theorem insert_split {k : K} {v w : V} {l m : List (K × V)} (hs : Sorted (l ++ (k, v) :: m)) :
    insert k w (l ++ (k, v) :: m) = l ++ (k, w) :: m := by
  induction l with
  | nil => simp [insert]
  | cons b l ih =>
    obtain ⟨k', v'⟩ := b
    obtain ⟨hlt, hs⟩ := sorted_cons.1 hs
    have hk : k' < k := hlt (k, v) (List.mem_append_right l List.mem_cons_self)
    rw [List.cons_append, insert, if_neg (not_lt_of_gt hk), if_neg hk.ne', ih hs]
    rfl

theorem find_split {k : K} {v : V} {l : List (K × V)} (h : find k l = some v) :
    ∃ l₁ l₂, l = l₁ ++ (k, v) :: l₂ := List.append_of_mem (mem_of_find h)

/-- Binding the entries of a list one by one. -/
def insertAll (acc l : List (K × V)) : List (K × V) := l.foldl (fun acc b => insert b.1 b.2 acc) acc

theorem sorted_insertAll {acc l : List (K × V)} (hs : Sorted acc) : Sorted (insertAll acc l) := by
  induction l generalizing acc with
  | nil => exact hs
  | cons b l ih => exact ih (sorted_insert hs)

theorem insertAll_sorted {l : List (K × V)} (hs : Sorted l) : insertAll [] l = l := foldl_insert_sorted hs

theorem mem_insertAll {acc l : List (K × V)} {b : K × V} (h : b ∈ insertAll acc l) : b ∈ acc ∨ b ∈ l := by
  induction l generalizing acc with
  | nil => exact .inl h
  | cons c l ih =>
    rcases ih h with hacc | hl
    · rcases mem_insert hacc with rfl | hacc
      · exact .inr List.mem_cons_self
      · exact .inl hacc
    · exact .inr (List.mem_cons_of_mem _ hl)

theorem find_insertAll {k : K} {acc l : List (K × V)} (hnodup : (l.map Prod.fst).Nodup) :
    find k (insertAll acc l) = (find k l).or (find k acc) := by
  induction l generalizing acc with
  | nil => rfl
  | cons b l ih =>
    obtain ⟨k', v⟩ := b
    obtain ⟨hnot, hnodup⟩ := List.nodup_cons.1 hnodup
    change find k (insertAll (insert k' v acc) l) = _
    rw [ih hnodup, find_insert, find]
    split
    · rename_i heq
      have hnone : find k l = none := find_eq_none.2 fun b hb hb' => hnot (List.mem_map.2 ⟨b, hb, hb'.trans heq⟩)
      rw [hnone]
      rfl
    · rfl

/-- Sorting a list with distinct keys by key. -/
theorem sorted_mergeSort {l : List (K × V)} (hnodup : (l.map Prod.fst).Nodup) :
    Sorted (l.mergeSort (fun a b => decide (a.1 ≤ b.1))) := by
  have hperm : l.Perm (l.mergeSort (fun a b => decide (a.1 ≤ b.1))) := (List.mergeSort_perm l _).symm
  have hkeys := (hperm.map Prod.fst).nodup_iff.1 hnodup
  have hle : (l.mergeSort (fun a b => decide (a.1 ≤ b.1))).Pairwise (fun a b => a.1 ≤ b.1) := by
    have htrans : ∀ a b c : K × V, decide (a.1 ≤ b.1) = true → decide (b.1 ≤ c.1) = true →
        decide (a.1 ≤ c.1) = true :=
      fun a b c hab hbc => decide_eq_true (le_trans (of_decide_eq_true hab) (of_decide_eq_true hbc))
    have htotal : ∀ a b : K × V, (decide (a.1 ≤ b.1) || decide (b.1 ≤ a.1)) = true :=
      fun a b => by simpa using le_total a.1 b.1
    exact (List.pairwise_mergeSort htrans htotal l).imp of_decide_eq_true
  rw [Sorted, List.pairwise_map]
  exact (hle.and (List.pairwise_map.1 hkeys)).imp fun h => lt_of_le_of_ne h.1 h.2

/-- Binding distinct keys one by one sorts them. -/
theorem insertAll_eq_mergeSort {l : List (K × V)} (hnodup : (l.map Prod.fst).Nodup) :
    insertAll [] l = l.mergeSort (fun a b => decide (a.1 ≤ b.1)) := by
  have hperm : l.Perm (l.mergeSort (fun a b => decide (a.1 ≤ b.1))) := (List.mergeSort_perm l _).symm
  apply ext_of_find (sorted_insertAll sorted_nil) (sorted_mergeSort hnodup)
  intro k
  rw [find_insertAll hnodup, ← find_perm hnodup hperm]
  exact Option.or_none

theorem find_map {k : K} {l : List (K × V)} :
    find k (l.map fun b => (b.1, f b.2)) = (find k l).map f := by
  induction l with
  | nil => rfl
  | cons c l ih =>
    by_cases h : k = c.1 <;> simp [find, h, ih]

theorem map_insert {k : K} {v : V} {l : List (K × V)} :
    (insert k v l).map (fun b => (b.1, f b.2)) = insert k (f v) (l.map fun b => (b.1, f b.2)) := by
  induction l with
  | nil => rfl
  | cons c l ih =>
    simp only [insert, List.map_cons]
    split
    · rfl
    · split
      · rfl
      · rw [List.map_cons, ih]

theorem map_insertAll {acc l : List (K × V)} :
    (insertAll acc l).map (fun b => (b.1, f b.2)) =
      insertAll (acc.map fun b => (b.1, f b.2)) (l.map fun b => (b.1, f b.2)) := by
  induction l generalizing acc with
  | nil => rfl
  | cons b l ih =>
    change (insertAll (insert b.1 b.2 acc) l).map _ = insertAll (insert b.1 (f b.2) (acc.map _)) (l.map _)
    rw [ih, map_insert]

theorem map_erase {k : K} {l : List (K × V)} :
    (erase k l).map (fun b => (b.1, f b.2)) = erase k (l.map fun b => (b.1, f b.2)) := by
  induction l with
  | nil => rfl
  | cons c l ih =>
    simp only [erase, List.map_cons]
    split
    · rfl
    · rw [List.map_cons, ih]

theorem sorted_map {l : List (K × V)} :
    Sorted (l.map fun b => (b.1, f b.2)) ↔ Sorted l := by
  simp [Sorted, List.map_map, Function.comp_def]

end Map

end Assoc

/-- A finite map with its bindings in key order. -/
structure SortedMap (K : Type u) (V : Type v) [LinearOrder K] where
  entries : List (K × V)
  sorted : Assoc.Sorted entries

namespace SortedMap

variable {K : Type u} {V : Type v} [LinearOrder K]

instance [DecidableEq V] : DecidableEq (SortedMap K V) := fun a b =>
  decidable_of_iff (a.entries = b.entries) (by cases a; cases b; simp)

def empty : SortedMap K V := ⟨[], Assoc.sorted_nil⟩

instance : Inhabited (SortedMap K V) := ⟨empty⟩

def get (m : SortedMap K V) (k : K) : Option V := Assoc.find k m.entries

def contains (m : SortedMap K V) (k : K) : Bool := (m.get k).isSome

def insert (m : SortedMap K V) (k : K) (v : V) : SortedMap K V :=
  ⟨Assoc.insert k v m.entries, Assoc.sorted_insert m.sorted⟩

def erase (m : SortedMap K V) (k : K) : SortedMap K V :=
  ⟨Assoc.erase k m.entries, Assoc.sorted_erase m.sorted⟩

/-- The values, in key order. -/
def values (m : SortedMap K V) : List V := m.entries.map Prod.snd

@[simp] theorem get_empty (k : K) : (empty : SortedMap K V).get k = none := rfl

@[simp] theorem entries_empty : (empty : SortedMap K V).entries = [] := rfl

theorem get_insert (m : SortedMap K V) (k j : K) (v : V) :
    (m.insert k v).get j = if j = k then some v else m.get j := Assoc.find_insert

@[simp] theorem get_insert_self (m : SortedMap K V) (k : K) (v : V) :
    (m.insert k v).get k = some v := by simp [get_insert]

theorem get_insert_ne (m : SortedMap K V) {k j : K} (v : V) (h : j ≠ k) :
    (m.insert k v).get j = m.get j := by simp [get_insert, h]

theorem get_erase (m : SortedMap K V) (k j : K) :
    (m.erase k).get j = if j = k then none else m.get j := Assoc.find_erase m.sorted

@[simp] theorem get_erase_self (m : SortedMap K V) (k : K) : (m.erase k).get k = none := by
  simp [get_erase]

theorem get_erase_ne (m : SortedMap K V) {k j : K} (h : j ≠ k) : (m.erase k).get j = m.get j := by
  simp [get_erase, h]

theorem get_iff_mem {m : SortedMap K V} {k : K} {v : V} : m.get k = some v ↔ (k, v) ∈ m.entries :=
  Assoc.find_iff_mem m.sorted

theorem nodup_entries (m : SortedMap K V) : m.entries.Nodup :=
  List.Pairwise.of_map Prod.fst (fun _ _ h => fun heq => h (congrArg Prod.fst heq))
    (m.sorted.imp fun h => ne_of_lt h)

@[ext] theorem ext {m n : SortedMap K V} (h : ∀ k, m.get k = n.get k) : m = n := by
  cases m with
  | mk l hl =>
    cases n with
    | mk l' hl' =>
      obtain rfl : l = l' := Assoc.ext_of_find hl hl' h
      rfl

theorem insert_erase (m : SortedMap K V) (k : K) (v : V) : (m.erase k).insert k v = m.insert k v := by
  ext1 j
  rw [get_insert, get_insert, get_erase]
  split <;> rfl

theorem erase_insert_comm (m : SortedMap K V) {k j : K} (v : V) (h : j ≠ k) :
    (m.insert k v).erase j = ((m.erase k).erase j).insert k v := by
  ext1 i
  rw [get_erase, get_insert, get_insert, get_erase, get_erase]
  by_cases hi : i = j
  · rw [if_pos hi, if_pos hi, if_neg (hi ▸ h)]
  · rw [if_neg hi, if_neg hi]
    split <;> rfl

/-- Changes every value. -/
def mapValues {W : Type w} (m : SortedMap K V) (f : V → W) : SortedMap K W :=
  ⟨m.entries.map fun b => (b.1, f b.2), (Assoc.sorted_map f).2 m.sorted⟩

theorem get_mapValues {W : Type w} (m : SortedMap K V) (f : V → W) (k : K) :
    (m.mapValues f).get k = (m.get k).map f := Assoc.find_map f

theorem insert_insert (m : SortedMap K V) (k : K) (v w : V) :
    (m.insert k v).insert k w = m.insert k w := by
  ext1 j
  simp only [get_insert]
  split <;> rfl

/-- Inserting the entries of a map one by one gives the map. -/
theorem foldl_insert_entries (m : SortedMap K V) :
    m.entries.foldl (fun m e => m.insert e.1 e.2) empty = m := by
  have hentries : ∀ (l : List (K × V)) (acc : SortedMap K V),
      (l.foldl (fun m e => m.insert e.1 e.2) acc).entries =
        l.foldl (fun acc e => Assoc.insert e.1 e.2 acc) acc.entries := by
    intro l
    induction l with
    | nil => exact fun _ => rfl
    | cons e l ih => exact fun acc => ih (acc.insert e.1 e.2)
  obtain ⟨l, hl⟩ := m
  have hfold := (hentries l .empty).trans (Assoc.foldl_insert_sorted (m := []) hl)
  generalize l.foldl (fun m e => m.insert e.1 e.2) empty = m at hfold
  obtain ⟨l', hl'⟩ := m
  obtain rfl : l' = l := hfold
  rfl

end SortedMap
