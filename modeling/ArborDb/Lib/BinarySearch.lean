import Mathlib.Order.Compare
import Mathlib.Order.Lattice
import Mathlib.Data.List.Nodup

/-!
# Binary search over a sorted table that is read one row at a time

The search compares a needle with the keys of a table whose rows are fetched by a fallible `probe`.
Where the probe answers as a sorted list of keys does, the search finds the needle's row if there
is one (`binarySearch_of_mem`) and none otherwise (`binarySearch_of_not_mem`).
-/

section

variable {ε : Type*}

/-- Searches the rows `lo ..< hi`; `probe i` compares the key of row `i` with the needle. The
first argument bounds the number of probes. -/
def binarySearch (probe : Nat → Except ε Ordering) : Nat → Nat → Nat → Except ε (Option Nat)
  | 0, _, _ => .ok none
  | fuel + 1, lo, hi =>
    if lo < hi then
      let mid := lo + (hi - lo) / 2
      match probe mid with
      | .error e => .error e
      | .ok .lt => binarySearch probe fuel (mid + 1) hi
      | .ok .gt => binarySearch probe fuel lo mid
      | .ok .eq => .ok (some mid)
    else .ok none

variable {K : Type*} [LinearOrder K] {keys : List K} {needle : K}
  {probe : Nat → Except ε Ordering}

/-- The probe answers as the list of keys does. -/
def Probes (probe : Nat → Except ε Ordering) (keys : List K) (needle : K) : Prop :=
  ∀ i (h : i < keys.length), probe i = .ok (cmp keys[i] needle)

theorem lt_of_getElem_lt (hs : keys.Pairwise (· < ·)) {i j : Nat} (hi : i < keys.length)
    (hj : j < keys.length) (h : keys[i] < keys[j]) : i < j := by
  by_contra hij
  rcases Nat.lt_or_eq_of_le (Nat.le_of_not_lt hij) with hlt | rfl
  · exact absurd (List.pairwise_iff_getElem.1 hs j i hj hi hlt) (not_lt_of_gt h)
  · exact absurd h (lt_irrefl _)

/-- **The row that holds the needle is found.** -/
theorem binarySearch_of_mem (hs : keys.Pairwise (· < ·)) (hp : Probes probe keys needle)
    {k : Nat} (fuel lo hi : Nat) (hhi : hi ≤ keys.length) (hfuel : hi - lo ≤ fuel) (hlo : lo ≤ k)
    (hk : k < hi) (hkey : keys[k]? = some needle) : binarySearch probe fuel lo hi = .ok (some k) := by
  obtain ⟨hlen, rfl⟩ := List.getElem?_eq_some_iff.1 hkey
  induction fuel generalizing lo hi with
  | zero => omega
  | succ fuel ih =>
    have hmid : lo + (hi - lo) / 2 < keys.length := by omega
    rw [binarySearch, if_pos (by omega)]
    dsimp only
    rw [hp _ hmid]
    -- The needle sits on the side of the middle row that the comparison points to.
    cases hc : cmp keys[lo + (hi - lo) / 2] keys[k] with
    | lt =>
      have hlt := lt_of_getElem_lt hs hmid hlen ((cmp_eq_lt_iff _ _).1 hc)
      exact ih _ _ hhi (by omega) (by omega) hk
    | gt =>
      have hlt := lt_of_getElem_lt hs hlen hmid ((cmp_eq_gt_iff _ _).1 hc)
      exact ih _ _ (by omega) (by omega) hlo hlt
    | eq =>
      have hnodup : keys.Nodup := hs.imp ne_of_lt
      have hmk := (List.Nodup.getElem_inj_iff hnodup).1 ((cmp_eq_eq_iff _ _).1 hc)
      rw [← hmk]

/-- **Nothing is found when no row holds the needle.** -/
theorem binarySearch_of_not_mem (hp : Probes probe keys needle) (hn : needle ∉ keys)
    (fuel lo hi : Nat) (hhi : hi ≤ keys.length) : binarySearch probe fuel lo hi = .ok none := by
  induction fuel generalizing lo hi with
  | zero => rfl
  | succ fuel ih =>
    rw [binarySearch]
    split
    · rename_i hlt
      have hmid : lo + (hi - lo) / 2 < keys.length := by omega
      dsimp only
      rw [hp _ hmid]
      cases hc : cmp keys[lo + (hi - lo) / 2] needle with
      | lt => exact ih _ _ hhi
      | gt => exact ih _ _ (by omega)
      | eq =>
        rw [cmp_eq_eq_iff] at hc
        exact absurd (hc ▸ List.getElem_mem hmid) hn
    · rfl

end
