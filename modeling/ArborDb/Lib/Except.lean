import Mathlib.Data.List.Basic

/-!
# Reasoning about `Except` programs

How a fallible program unfolds along `>>=`, and what a loop over a list or a range of indices
returns when every pass through its body succeeds.
-/

namespace Except

universe u v

variable {ε : Type u} {α β : Type v}

@[simp] theorem ok_bind (a : α) (f : α → Except ε β) : ((.ok a : Except ε α) >>= f) = f a := rfl

@[simp] theorem error_bind (e : ε) (f : α → Except ε β) :
    ((.error e : Except ε α) >>= f) = .error e := rfl

@[simp] theorem pure_eq_ok (a : α) : (pure a : Except ε α) = .ok a := rfl

@[simp] theorem throw_eq_error (e : ε) : (throw e : Except ε α) = .error e := rfl

theorem bind_eq_ok {x : Except ε α} {f : α → Except ε β} {b : β} :
    (x >>= f) = .ok b ↔ ∃ a, x = .ok a ∧ f a = .ok b := by
  cases x with
  | error e => simp
  | ok a => simp

theorem bind_eq_error {x : Except ε α} {f : α → Except ε β} {err : ε} :
    (x >>= f) = .error err ↔ x = .error err ∨ ∃ a, x = .ok a ∧ f a = .error err := by
  cases x with
  | error e => simp
  | ok a => simp

theorem toOption_eq_some {x : Except ε α} {a : α} : x.toOption = some a ↔ x = .ok a := by
  cases x with
  | error e => simp [Except.toOption]
  | ok a => simp [Except.toOption]

theorem mapM_range' {f : Nat → Except ε α} {xs : List α} {s : Nat}
    (h : ∀ i x, xs[i]? = some x → f (s + i) = .ok x) :
    (List.range' s xs.length).mapM f = .ok xs := by
  induction xs generalizing s with
  | nil => rfl
  | cons x xs ih =>
    have htail : (List.range' (s + 1) xs.length).mapM f = .ok xs := by
      apply ih
      intro i y hy
      rw [Nat.add_assoc, Nat.add_comm 1 i]
      exact h (i + 1) y hy
    rw [List.length_cons, List.range'_succ, List.mapM_cons, show f s = .ok x from h 0 x rfl]
    simp [htail]

/-- A loop over `0..n` that yields the elements of a list yields the list. -/
theorem mapM_range {f : Nat → Except ε α} {xs : List α} (h : ∀ i x, xs[i]? = some x → f i = .ok x) :
    (List.range xs.length).mapM f = .ok xs := by
  rw [List.range_eq_range']
  apply mapM_range'
  intro i x hx
  rw [Nat.zero_add]
  exact h i x hx

/-- A loop whose passes yield the elements of another list yields that list. -/
theorem mapM_forall₂ {f : α → Except ε β} {xs : List α} {bs : List β}
    (h : List.Forall₂ (fun x b => f x = .ok b) xs bs) : xs.mapM f = .ok bs := by
  induction h with
  | nil => rfl
  | cons hx _ ih => rw [List.mapM_cons, hx, ok_bind, ih, ok_bind, pure_eq_ok]

/-! ## Failing loops -/

/-- A program that fails with an error of a given kind. -/
def FailsWith (P : ε → Prop) (x : Except ε α) : Prop := ∃ e, P e ∧ x = .error e

theorem failsWith_bind {P : ε → Prop} {x : Except ε α} {f : α → Except ε β} :
    FailsWith P (x >>= f) ↔ FailsWith P x ∨ ∃ a, x = .ok a ∧ FailsWith P (f a) := by
  cases x with
  | error e => simp [FailsWith]
  | ok a => simp [FailsWith]

theorem not_failsWith_ok {P : ε → Prop} (a : α) : ¬ FailsWith P (.ok a : Except ε α) := by
  rintro ⟨e, _, h⟩
  cases h

/-- A loop fails where its first failing pass does. -/
theorem failsWith_mapM {P : ε → Prop} {f : α → Except ε β} {xs : List α} :
    FailsWith P (xs.mapM f) ↔
      ∃ before x after, xs = before ++ x :: after ∧ (∀ y ∈ before, ∃ b, f y = .ok b) ∧
        FailsWith P (f x) := by
  induction xs with
  | nil =>
    constructor
    · exact fun h => absurd h (not_failsWith_ok _)
    · rintro ⟨before, x, after, h, _⟩
      cases before <;> cases h
  | cons x xs ih =>
    rw [List.mapM_cons, failsWith_bind]
    constructor
    · rintro (hx | ⟨b, hb, hrest⟩)
      · exact ⟨[], x, xs, rfl, by simp, hx⟩
      · rw [failsWith_bind] at hrest
        obtain hrest | ⟨bs, _, hbs⟩ := hrest
        · obtain ⟨before, y, after, rfl, hbefore, hy⟩ := ih.1 hrest
          refine ⟨x :: before, y, after, rfl, ?_, hy⟩
          intro z hz
          obtain rfl | hz := List.mem_cons.1 hz
          · exact ⟨b, hb⟩
          · exact hbefore z hz
        · exact absurd hbs (not_failsWith_ok _)
    · rintro ⟨before, y, after, h, hbefore, hy⟩
      cases before with
      | nil =>
        obtain ⟨rfl, rfl⟩ := List.cons.inj h
        exact .inl hy
      | cons z before =>
        obtain ⟨rfl, rfl⟩ := List.cons.inj h
        obtain ⟨b, hb⟩ := hbefore _ List.mem_cons_self
        refine .inr ⟨b, hb, failsWith_bind.2 (.inl (ih.2 ⟨before, y, after, rfl, ?_, hy⟩))⟩
        exact fun w hw => hbefore w (List.mem_cons_of_mem _ hw)

/-- A loop fails with a given kind of error if some pass does and no pass before it fails in
another way. -/
theorem failsWith_mapM_of {P : ε → Prop} {f : α → Except ε β} {before after : List α} {x : α}
    (hbefore : ∀ y ∈ before, (∃ b, f y = .ok b) ∨ FailsWith P (f y)) (hx : FailsWith P (f x)) :
    FailsWith P ((before ++ x :: after).mapM f) := by
  induction before with
  | nil => exact failsWith_mapM.2 ⟨[], x, after, rfl, by simp, hx⟩
  | cons y before ih =>
    rw [List.cons_append, List.mapM_cons, failsWith_bind]
    obtain ⟨b, hb⟩ | hy := hbefore y List.mem_cons_self
    · refine .inr ⟨b, hb, failsWith_bind.2 (.inl (ih ?_))⟩
      exact fun z hz => hbefore z (List.mem_cons_of_mem y hz)
    · exact .inl hy

theorem mapM_ok {f : α → Except ε β} {xs : List α} {bs : List β} (h : xs.mapM f = .ok bs) :
    ∀ x ∈ xs, ∃ b, f x = .ok b := by
  induction xs generalizing bs with
  | nil => simp
  | cons x xs ih =>
    rw [List.mapM_cons, bind_eq_ok] at h
    obtain ⟨b, hb, h⟩ := h
    obtain ⟨rest, hrest, _⟩ := bind_eq_ok.1 h
    intro y hy
    obtain rfl | hy := List.mem_cons.1 hy
    · exact ⟨b, hb⟩
    · exact ih hrest y hy

theorem exists_mapM {f : α → Except ε β} {xs : List α} (h : ∀ x ∈ xs, ∃ b, f x = .ok b) :
    ∃ bs, xs.mapM f = .ok bs := by
  induction xs with
  | nil => exact ⟨[], rfl⟩
  | cons x xs ih =>
    obtain ⟨b, hb⟩ := h x List.mem_cons_self
    obtain ⟨bs, hbs⟩ := ih fun y hy => h y (List.mem_cons_of_mem _ hy)
    exact ⟨b :: bs, by rw [List.mapM_cons, hb, ok_bind, hbs]; rfl⟩

theorem mem_mapM {f : α → Except ε β} {xs : List α} {bs : List β} (h : xs.mapM f = .ok bs) {b : β} :
    b ∈ bs ↔ ∃ x ∈ xs, f x = .ok b := by
  induction xs generalizing bs with
  | nil =>
    cases h
    simp
  | cons x xs ih =>
    rw [List.mapM_cons] at h
    obtain ⟨c, hc, h⟩ := bind_eq_ok.1 h
    obtain ⟨cs, hcs, h⟩ := bind_eq_ok.1 h
    cases h
    simp [ih hcs, hc, eq_comm]

theorem forall_of_mapM {f : α → Except ε β} {P : β → Prop} {xs : List α} {bs : List β}
    (hP : ∀ x b, f x = .ok b → P b) (h : xs.mapM f = .ok bs) : ∀ b ∈ bs, P b := by
  induction xs generalizing bs with
  | nil =>
    cases h
    simp
  | cons x xs ih =>
    rw [List.mapM_cons, bind_eq_ok] at h
    obtain ⟨b, hb, h⟩ := h
    obtain ⟨rest, hrest, h⟩ := bind_eq_ok.1 h
    cases h
    intro c hc
    obtain rfl | hc := List.mem_cons.1 hc
    · exact hP x c hb
    · exact ih hrest c hc

/-- A loop that accumulates what its passes return fails as the loop that collects it does. -/
theorem foldlM_bind_cases {σ : Type v} {f : α → Except ε β} {g : σ → α → β → σ} (xs : List α) (s : σ) :
    (∃ e, xs.foldlM (fun s x => do let b ← f x; return g s x b) s = .error e ∧
        xs.mapM f = .error e) ∨
      ∃ r bs, xs.foldlM (fun s x => do let b ← f x; return g s x b) s = .ok r ∧
        xs.mapM f = .ok bs := by
  induction xs generalizing s with
  | nil => exact .inr ⟨s, [], rfl, rfl⟩
  | cons x xs ih =>
    rw [List.foldlM_cons, List.mapM_cons]
    cases hx : f x with
    | error e => exact .inl ⟨e, rfl, rfl⟩
    | ok b =>
      obtain ⟨e, h, h'⟩ | ⟨r, bs, h, h'⟩ := ih (g s x b)
      · exact .inl ⟨e, h, by rw [h']; rfl⟩
      · exact .inr ⟨r, b :: bs, h, by rw [h']; rfl⟩

/-- An accumulating loop whose body always succeeds is a fold. -/
theorem foldlM_eq_foldl {σ : Type v} {f : σ → α → Except ε σ} {g : σ → α → σ} {xs : List α} {s : σ}
    (h : ∀ s, ∀ x ∈ xs, f s x = .ok (g s x)) : xs.foldlM f s = .ok (xs.foldl g s) := by
  induction xs generalizing s with
  | nil => rfl
  | cons x xs ih =>
    rw [List.foldlM_cons, h s x List.mem_cons_self, ok_bind, List.foldl_cons]
    exact ih fun s y hy => h s y (List.mem_cons_of_mem x hy)

end Except
