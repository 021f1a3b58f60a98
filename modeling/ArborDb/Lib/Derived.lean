import ArborDb.Lib.SortedMap

/-!
# Derived tables

A derived table holds rows computed from a source: every row that it must hold, and under the keys of
its own none but rows that it may hold (`Tracks`). A change of the source is bracketed. The rows of what
the change can touch are removed before it, and the rows of what it has touched are inserted after it,
none of them over another row (`Extended`). The table then tracks the new source, provided that the
change leaves alone what it was not expected to touch (`Tracks.bracket`).
-/

namespace Derived

variable {K V : Type} [LinearOrder K] {m m₁ m₂ : SortedMap K V} {own : K → Prop} {must may must' may' : K × V → Prop}
  {rows before after : List (K × V)}

/-- Every row that has to be there is there, and a key of the table's own has a row that may be. -/
structure Tracks (m : SortedMap K V) (own : K → Prop) (must may : K × V → Prop) : Prop where
  has : ∀ {r : K × V}, must r → m.get r.1 = some r.2
  only : ∀ {k : K} {v : V}, own k → m.get k = some v → may (k, v)

/-! ## Rows removed -/

/-- The table without the keys of some rows. -/
def removed (m : SortedMap K V) (rows : List (K × V)) : SortedMap K V := rows.foldl (fun m r => m.erase r.1) m

theorem removed_append (rows rows' : List (K × V)) : removed m (rows ++ rows') = removed (removed m rows) rows' :=
  List.foldl_append

theorem get_removed {k : K} {v : V} : (removed m rows).get k = some v ↔ m.get k = some v ∧ ∀ r ∈ rows, r.1 ≠ k := by
  induction rows generalizing m with
  | nil => exact ⟨fun h => ⟨h, List.forall_mem_nil _⟩, And.left⟩
  | cons r rows ih =>
    have hstep : removed m (r :: rows) = removed (m.erase r.1) rows := rfl
    rw [hstep, ih, SortedMap.get_erase, List.forall_mem_cons]
    by_cases hkey : k = r.1
    · rw [if_pos hkey]
      constructor
      · rintro ⟨hnone, -⟩
        cases hnone
      · rintro ⟨-, hne, -⟩
        exact absurd hkey.symm hne
    · rw [if_neg hkey]
      constructor
      · rintro ⟨hget, hrest⟩
        exact ⟨hget, Ne.symm hkey, hrest⟩
      · rintro ⟨hget, -, hrest⟩
        exact ⟨hget, hrest⟩

theorem get_removed_ne {k : K} (h : ∀ r ∈ rows, r.1 ≠ k) : (removed m rows).get k = m.get k :=
  Option.ext fun _ => get_removed.trans (and_iff_left h)

/-! ## Rows inserted -/

/-- The table `m₁` with rows added, none of which changes a row that was there. -/
structure Extended (m₁ m₂ : SortedMap K V) (rows : List (K × V)) : Prop where
  added : ∀ {r : K × V}, r ∈ rows → m₂.get r.1 = some r.2
  kept : ∀ {k : K} {v : V}, m₁.get k = some v → m₂.get k = some v
  only : ∀ {k : K} {v : V}, m₂.get k = some v → m₁.get k = some v ∨ (k, v) ∈ rows

namespace Extended

theorem refl (m : SortedMap K V) : Extended m m [] where
  added hr := absurd hr List.not_mem_nil
  kept h := h
  only h := .inl h

theorem trans (h : Extended m m₁ before) (h' : Extended m₁ m₂ after) : Extended m m₂ (before ++ after) where
  added hr := (List.mem_append.1 hr).elim (fun hr => h'.kept (h.added hr)) h'.added
  kept hk := h'.kept (h.kept hk)
  only hk := by
    rcases h'.only hk with hk | hr
    · exact (h.only hk).imp_right (List.mem_append_left _)
    · exact .inr (List.mem_append_right _ hr)

theorem get_ne {k : K} (h : Extended m m₂ rows) (hne : ∀ r ∈ rows, r.1 ≠ k) : m₂.get k = m.get k := by
  refine Option.ext fun v => ⟨fun hk => ?_, h.kept⟩
  rcases h.only hk with hk | hr
  · exact hk
  · exact absurd rfl (hne _ hr)

/-- A row goes in under a key that is free, or that has this row already. -/
theorem insert {r : K × V} (hfree : ∀ v, m.get r.1 = some v → v = r.2) : Extended m (m.insert r.1 r.2) [r] where
  added hr := by
    rw [List.mem_singleton.1 hr, SortedMap.get_insert_self]
  kept {k v} hk := by
    by_cases hkey : k = r.1
    · subst hkey
      rw [SortedMap.get_insert_self, hfree v hk]
    · rw [SortedMap.get_insert_ne _ _ hkey, hk]
  only {k v} hk := by
    by_cases hkey : k = r.1
    · subst hkey
      rw [SortedMap.get_insert_self] at hk
      cases hk
      exact .inr (List.mem_singleton.2 rfl)
    · rw [SortedMap.get_insert_ne _ _ hkey] at hk
      exact .inl hk

end Extended

/-! ## The bracket -/

namespace Tracks

theorem mono (h : Tracks m own must may) (hmust : ∀ r, must' r → must r) (hmay : ∀ r, may r → may' r) :
    Tracks m own must' may' where
  has hr := h.has (hmust _ hr)
  only hk hget := hmay _ (h.only hk hget)

/-- **A bracketed change keeps the table true.** What has to be there afterwards was inserted, or had to
be there before under a key that was not removed; what was there before under such a key may stay. -/
theorem bracket (h : Tracks m own must may) (hext : Extended (removed m before) m₂ after)
    (hmust : ∀ r, must' r → r ∈ after ∨ must r ∧ ∀ b ∈ before, b.1 ≠ r.1)
    (hmay : ∀ r, own r.1 → may r → (∀ b ∈ before, b.1 ≠ r.1) → may' r) (hafter : ∀ r ∈ after, own r.1 → may' r) :
    Tracks m₂ own must' may' where
  has hr := by
    rcases hmust _ hr with hr | ⟨hr, hfree⟩
    · exact hext.added hr
    · exact hext.kept (get_removed.2 ⟨h.has hr, hfree⟩)
  only hk hget := by
    rcases hext.only hget with hget | hr
    · obtain ⟨hget, hfree⟩ := get_removed.1 hget
      exact hmay _ hk (h.only hk hget) hfree
    · exact hafter _ hr hk

/-- A change that has no row of the table's own leaves it true. -/
theorem foreign (h : Tracks m own must may) (hmust : ∀ r, must r → own r.1)
    (hsame : ∀ k, own k → m₂.get k = m.get k) : Tracks m₂ own must may where
  has hr := (hsame _ (hmust _ hr)).trans (h.has hr)
  only hk hget := h.only hk ((hsame _ hk).symm.trans hget)

end Tracks

end Derived
