import Mathlib.Data.List.Forall2

/-!
# Lists matched element by element
-/

namespace List

variable {α β γ : Type*} {R : α → β → Prop} {l : List α} {m : List β}

theorem forall₂_comp {S : β → γ → Prop} {n : List γ} (h : Forall₂ R l m) (h' : Forall₂ S m n) :
    Forall₂ (fun a c => ∃ b, R a b ∧ S b c) l n := by
  induction h generalizing n with
  | nil =>
    cases h'
    exact Forall₂.nil
  | cons hab _ ih =>
    cases h' with
    | cons hbc hrest => exact Forall₂.cons ⟨_, hab, hbc⟩ (ih hrest)

theorem Forall₂.imp_of_mem {S : α → β → Prop} (h : Forall₂ R l m)
    (hRS : ∀ a, ∀ b ∈ m, R a b → S a b) : Forall₂ S l m := by
  induction h with
  | nil => exact Forall₂.nil
  | cons hab _ ih =>
    refine Forall₂.cons (hRS _ _ mem_cons_self hab) (ih ?_)
    intro a b hb
    exact hRS a b (mem_cons_of_mem _ hb)

theorem Forall₂.exists_of_mem (h : Forall₂ R l m) {a : α} (ha : a ∈ l) : ∃ b ∈ m, R a b := by
  induction h with
  | nil => cases ha
  | @cons x y l m hxy _ ih =>
    rcases mem_cons.1 ha with rfl | ha
    · exact ⟨y, mem_cons_self, hxy⟩
    · obtain ⟨b, hb, hab⟩ := ih ha
      exact ⟨b, mem_cons_of_mem _ hb, hab⟩

theorem forall₂_getElem? (h : Forall₂ R l m) {i : Nat} {a : α} {b : β} (ha : l[i]? = some a) (hb : m[i]? = some b) :
    R a b := by
  induction h generalizing i with
  | nil => cases ha
  | cons hab _ ih =>
    cases i with
    | zero =>
      cases Option.some.inj ha
      cases Option.some.inj hb
      exact hab
    | succ i => exact ih ha hb

theorem length_le_length_flatMap {f : α → List β} {a : α} (h : a ∈ l) : (f a).length ≤ (l.flatMap f).length := by
  obtain ⟨before, after, rfl⟩ := append_of_mem h
  rw [flatMap_append, flatMap_cons, length_append, length_append]
  omega

theorem length_le_of_flatMap {f : α → List β} (h : ∀ a ∈ l, f a ≠ []) : l.length ≤ (l.flatMap f).length := by
  induction l with
  | nil => exact Nat.le_refl _
  | cons a l ih =>
    have hhead : 0 < (f a).length := length_pos_of_ne_nil (h a mem_cons_self)
    have hrest := ih fun b hb => h b (mem_cons_of_mem _ hb)
    rw [flatMap_cons, length_append, length_cons]
    omega

/-- What stands before an index of a range is every smaller one. -/
theorem mem_of_range_eq {count i j : Nat} {before after : List Nat}
    (h : List.range count = before ++ i :: after) (hj : j < i) : j ∈ before := by
  have hsorted : (before ++ i :: after).Pairwise (· < ·) := h ▸ List.pairwise_lt_range
  rw [List.pairwise_append, List.pairwise_cons] at hsorted
  have hi : i ∈ List.range count := by
    rw [h]
    simp
  have hmem : j ∈ before ++ i :: after := by
    rw [← h, List.mem_range]
    exact Nat.lt_trans hj (List.mem_range.1 hi)
  obtain hmem | hmem := List.mem_append.1 hmem
  · exact hmem
  · obtain rfl | hmem := List.mem_cons.1 hmem
    · omega
    · have := hsorted.2.1.1 j hmem
      omega

/-- The first element that has a property, with its index. -/
theorem find?_zipIdx (p : α → Bool) {i k : Nat} {x : α} (hx : l[i]? = some x) (hp : p x = true)
    (hbefore : ∀ j y, j < i → l[j]? = some y → p y = false) :
    (l.zipIdx k).find? (fun y => p y.1) = some (x, k + i) := by
  induction l generalizing i k with
  | nil => cases hx
  | cons y l ih =>
    rw [List.zipIdx_cons, List.find?_cons]
    cases i with
    | zero =>
      cases Option.some.inj hx
      rw [hp]
      rfl
    | succ i =>
      have hy : p y = false := hbefore 0 y (Nat.zero_lt_succ i) rfl
      rw [hy, Nat.add_comm i 1, ← Nat.add_assoc]
      apply ih hx
      intro j z hj hz
      exact hbefore (j + 1) z (Nat.succ_lt_succ hj) hz

theorem find?_zipIdx_none (p : α → Bool) {k : Nat} (h : ∀ y ∈ l, p y = false) :
    (l.zipIdx k).find? (fun y => p y.1) = none := by
  rw [List.find?_eq_none]
  intro y hy
  rw [h y.1 (List.fst_mem_of_mem_zipIdx hy)]
  exact Bool.false_ne_true

end List
