import ArborDb.Txn.Edit
import ArborDb.Txn.Run

/-!
# What a key hint relies on

A cursor is opened with the key its path leads to and the count of structural changes then. While no link
is made or removed, the path leads to the same key, unless the a-node is deleted; and a key that was
deleted is never written again. `Tracked` says so of a cursor and a state, with a bound on the changes
made since the cursor was opened. Each write of the context keeps it.
-/

namespace ArborDb

open Prog (Triple)

/-! ## Where a path leads -/

section Views

variable {v v' : View} {c : Cursor} {a j k : AKey}

/-- A walk goes the same way as long as its links are there. -/
theorem walk_mono (h : ∀ a name j, Layout.childOf v a name = some j → Layout.childOf v' a name = some j) :
    ∀ (names : List Str) (a : AKey), Layout.walk v a names = some k → Layout.walk v' a names = some k
  | [], _, hwalk => hwalk
  | name :: names, a, hwalk => by
    obtain ⟨j, hj, hrest⟩ := Option.bind_eq_some_iff.1 hwalk
    exact Option.bind_eq_some_iff.2 ⟨j, h a name j hj, walk_mono h names j hrest⟩

theorem childOf_of_update_ne {o : Option Entry} {name : Str} (h : a ≠ k) :
    Layout.childOf (Function.update v k o) a name = Layout.childOf v a name := by
  unfold Layout.childOf
  rw [Function.update_of_ne h]

theorem childOf_update_self {o : Option Entry} {name : Str} :
    Layout.childOf (Function.update v k o) k name = Layout.childOf (fun _ => o) k name := by
  unfold Layout.childOf
  rw [Function.update_self]

/-- The cursor's key is that of the a-node its path leads to, or of an a-node that is gone. -/
def Points (v : View) (c : Cursor) : Prop :=
  Layout.walk v .root c.path.names = some c.akey ∨ v c.akey = none

/-- Writing a key that was absent takes nothing away. -/
theorem Points.insert {o : Option Entry} (h : Points v c) (hk : v k = none)
    (hkey : k = c.akey → Layout.walk (Function.update v k o) .root c.path.names = some c.akey) :
    Points (Function.update v k o) c := by
  rcases eq_or_ne k c.akey with heq | hne
  · exact .inl (hkey heq)
  · rcases h with hwalk | hnone
    · refine .inl (walk_mono ?_ _ _ hwalk)
      intro a name j hj
      have hak : a ≠ k := by
        rintro rfl
        rw [Layout.childOf, hk] at hj
        cases hj
      rwa [childOf_of_update_ne hak]
    · exact .inr ((Function.update_of_ne (Ne.symm hne) _ _).trans hnone)

/-- A file has no links. -/
theorem Points.overwrite {b b' : Bytes} (h : Points v c) (hk : v k = some (.file b)) :
    Points (Function.update v k (some (.file b'))) c := by
  rcases h with hwalk | hnone
  · refine .inl (walk_mono ?_ _ _ hwalk)
    intro a name j hj
    have hak : a ≠ k := by
      rintro rfl
      rw [Layout.childOf, hk] at hj
      cases hj
    rwa [childOf_of_update_ne hak]
  · have hne : c.akey ≠ k := by
      rintro heq
      rw [heq, hk] at hnone
      cases hnone
    exact .inr ((Function.update_of_ne hne _ _).trans hnone)

/-- `v'` is what a deletion leaves of `v`, at any moment: whatever is gone has left nothing behind that it
linked. -/
structure Pruned (v v' : View) : Prop where
  kept : ∀ k, v' k = v k ∨ v' k = none
  closed : ∀ {k j : AKey} {name : Str}, Layout.childOf v k name = some j → v' k = none → v' j = none

namespace Pruned

theorem refl (v : View) : Pruned v v where
  kept _ := .inl rfl
  closed hj hk := by
    rw [Layout.childOf, hk] at hj
    cases hj

theorem remove (h : Pruned v v') (hk : ∀ name j, Layout.childOf v k name = some j → v' j = none) :
    Pruned v (Function.update v' k none) where
  kept j := by
    rw [Function.update_apply]
    split
    · exact .inr rfl
    · exact h.kept j
  closed {i j name} hj hi := by
    have hgone : v' j = none := by
      rw [Function.update_apply] at hi
      split at hi
      · rename_i heq
        rw [heq] at hj
        exact hk name j hj
      · exact h.closed hj hi
    rw [Function.update_apply]
    split
    · rfl
    · exact hgone

/-- Everything below an a-node that is gone is gone. -/
theorem gone (h : Pruned v v') : ∀ (names : List Str) (a : AKey), v' a = none →
    Layout.walk v a names = some k → v' k = none
  | [], a, ha, hwalk => by
    cases hwalk
    exact ha
  | name :: names, a, ha, hwalk => by
    obtain ⟨j, hj, hrest⟩ := Option.bind_eq_some_iff.1 hwalk
    exact h.gone names j (h.closed hj ha) hrest

theorem walk (h : Pruned v v') : ∀ (names : List Str) (a : AKey), Layout.walk v a names = some k →
    Layout.walk v' a names = some k ∨ v' k = none
  | [], _, hwalk => .inl hwalk
  | name :: names, a, hwalk => by
    rcases h.kept a with hsame | hgone
    · obtain ⟨j, hj, hrest⟩ := Option.bind_eq_some_iff.1 hwalk
      have hj' : Layout.childOf v' a name = some j := by
        rw [Layout.childOf, hsame]
        exact hj
      refine (h.walk names j hrest).imp_left fun hrest' => ?_
      exact Option.bind_eq_some_iff.2 ⟨j, hj', hrest'⟩
    · exact .inr (h.gone _ a hgone hwalk)

end Pruned

theorem Points.pruned (h : Points v c) (hv : Pruned v v') : Points v' c := by
  rcases h with hwalk | hnone
  · exact hv.walk _ _ hwalk
  · refine .inr ?_
    rcases hv.kept c.akey with hsame | hgone
    · rw [hsame, hnone]
    · exact hgone

end Views

/-! ## What a transaction keeps about a hint -/

section Tracked

variable {e : Env} {n d : Nat} {c : Cursor} {A : List AKey} {b : Nat} {v v' : View} {s s' : TxState} {k : AKey}

theorem Used.mono {d' : Nat} (h : Used e n d k) (hd : d ≤ d') : Used e n d' k := fun i hi => h i (hd.trans hi)

/-- The state shows `v`, in which no link leads to the root or to a key still to be drawn and no key of `A`
has an entry. Since the cursor was opened, at most `b` structural changes were made; if none was, its key is
what its path leads to. -/
structure Tracks (e : Env) (n : Nat) (c : Cursor) (d : Nat) (A : List AKey) (b : Nat) (v : View) (s : TxState) :
    Prop where
  sees : Sees (.base e) n d v s
  anchored : ∀ {k j : AKey} {name : Str}, Layout.childOf v k name = some j → j ≠ .root ∧ Used e n d j
  absent : ∀ k ∈ A, v k = none ∧ Used e n d k
  used : Used e n d c.akey
  count : ∃ i ≤ b, s.buffer.epoch = c.epoch + .ofNat i ∧ (i = 0 → Points v c)

def Tracked (e : Env) (n : Nat) (c : Cursor) (d : Nat) (A : List AKey) (b : Nat) (s : TxState) : Prop :=
  ∃ v, Tracks e n c d A b v s

/-- However many keys are drawn. -/
def Known (e : Env) (n : Nat) (c : Cursor) (b : Nat) (s : TxState) : Prop := ∃ d, Tracked e n c d [] b s

namespace Tracks

/-- A write that changes no link. -/
theorem write {A' : List AKey} (h : Tracks e n c d A b v s) (hs : Sees (.base e) n d v' s')
    (hlinks : ∀ {k j : AKey} {name : Str}, Layout.childOf v' k name = some j →
      Layout.childOf v k name = some j ∨ j ≠ .root ∧ Used e n d j)
    (habsent : ∀ k ∈ A', v' k = none ∧ Used e n d k) (hepoch : s'.buffer.epoch = s.buffer.epoch)
    (hpoints : Points v c → Points v' c) : Tracks e n c d A' b v' s' where
  sees := hs
  anchored hj := (hlinks hj).elim h.anchored id
  absent := habsent
  used := h.used
  count := by
    obtain ⟨i, hi, heq, hp⟩ := h.count
    exact ⟨i, hi, hepoch.trans heq, fun hzero => hpoints (hp hzero)⟩

/-- A write that changes a link is counted. -/
theorem relink {A' : List AKey} (h : Tracks e n c d A b v s) (hs : Sees (.base e) n d v' s')
    (hlinks : ∀ {k j : AKey} {name : Str}, Layout.childOf v' k name = some j →
      Layout.childOf v k name = some j ∨ j ≠ .root ∧ Used e n d j)
    (habsent : ∀ k ∈ A', v' k = none ∧ Used e n d k) (hepoch : s'.buffer.epoch = s.buffer.epoch + 1) :
    Tracks e n c d A' (b + 1) v' s' where
  sees := hs
  anchored hj := (hlinks hj).elim h.anchored id
  absent := habsent
  used := h.used
  count := by
    obtain ⟨i, hi, heq, -⟩ := h.count
    refine ⟨i + 1, by omega, ?_, fun hzero => absurd hzero (by omega)⟩
    rw [hepoch, heq, UInt64.ofNat_add, UInt64.add_assoc]
    rfl

theorem mono {A' : List AKey} {b' : Nat} (h : Tracks e n c d A b v s) (hA : ∀ k ∈ A', k ∈ A) (hb : b ≤ b') :
    Tracks e n c d A' b' v s where
  sees := h.sees
  anchored := h.anchored
  absent k hk := h.absent k (hA k hk)
  used := h.used
  count := by
    obtain ⟨i, hi, hrest⟩ := h.count
    exact ⟨i, hi.trans hb, hrest⟩

end Tracks

theorem Tracked.mono {A' : List AKey} {b' : Nat} (h : Tracked e n c d A b s) (hA : ∀ k ∈ A', k ∈ A) (hb : b ≤ b') :
    Tracked e n c d A' b' s := by
  obtain ⟨v, h⟩ := h
  exact ⟨v, h.mono hA hb⟩

theorem Tracked.known {b' : Nat} (h : Tracked e n c d A b s) (hb : b ≤ b') : Known e n c b' s :=
  ⟨d, h.mono (fun _ hk => nomatch hk) hb⟩

theorem Known.mono {b' : Nat} (h : Known e n c b s) (hb : b ≤ b') : Known e n c b' s := by
  obtain ⟨d, h⟩ := h
  exact h.known hb

end Tracked

/-! ## Writes -/

section Writes

variable {e : Env} {n d : Nat} {c : Cursor} {A : List AKey} {b : Nat} {v : View} {s : TxState} {k f : AKey}

theorem base_holds (hp : e.principal = .unrestricted) (v : View) (inodes : InodeTable) :
    (Policy.base e).holds v inodes :=
  fun hne => absurd hp hne

/-- What a read of a directory's children says about its a-node. -/
theorem Sees.dirChildren_ok {P : Policy e} (h : Sees P n d v s) {m : SortedMap Str AKey}
    (hm : ArborDb.dirChildren e s k = .ok m) : v k = some (.dir m) ∨ v k = none ∧ m = .empty := by
  have hshow := h.shows k
  unfold observe at hshow
  unfold ArborDb.dirChildren at hm
  rw [WriteBuffer.dirGet_eq] at hm
  cases hd : s.buffer.dirs.get k with
  | some m' =>
    rw [hd] at hshow hm
    cases hm
    exact .inl (Except.ok.inj hshow).symm
  | none =>
    rw [hd] at hshow hm
    simp only [hshow, Except.ok_bind] at hm
    rcases hv : v k with _ | _ | m'
    · rw [hv] at hm
      cases hm
      exact .inr ⟨rfl, rfl⟩
    · rw [hv] at hm
      cases hm
    · rw [hv] at hm
      cases hm
      exact .inl rfl

variable (hroot : c.akey = .root → c.path.names = []) (hp : e.principal = .unrestricted)

section

include hroot

/-- A new a-node. -/
theorem Tracks.create {entry : Entry} {s' : TxState} (h : Tracks e n c d (f :: A) b v s) (hf : f ∉ A)
    (hkey : f ≠ c.akey ∨ f = .root)
    (hentry : ∀ {j : AKey} {name : Str}, Layout.childOf (fun _ => some entry) f name = some j →
      j ≠ .root ∧ Used e n d j)
    (hs : Sees (.base e) n d (Function.update v f (some entry)) s') (hepoch : s'.buffer.epoch = s.buffer.epoch) :
    Tracks e n c d A b (Function.update v f (some entry)) s' := by
  refine h.write hs ?_ ?_ hepoch ?_
  · intro k j name hj
    rcases eq_or_ne k f with rfl | hne
    · rw [childOf_update_self] at hj
      exact .inr (hentry hj)
    · rw [childOf_of_update_ne hne] at hj
      exact .inl hj
  · intro k hk
    have hne : k ≠ f := fun heq => hf (heq ▸ hk)
    rw [Function.update_of_ne hne]
    exact h.absent k (List.mem_cons_of_mem _ hk)
  · intro hpoints
    refine hpoints.insert (h.absent f List.mem_cons_self).1 ?_
    intro heq
    rcases hkey with hne | hf
    · exact absurd heq hne
    · have hkroot : c.akey = .root := heq.symm.trans hf
      rw [hroot hkroot, hkroot]
      rfl

include hp

theorem putDir_tracked {m : SortedMap Str AKey} {E : AdbError → TxState → Prop} (hf : f ∉ A)
    (hkey : f ≠ c.akey ∨ f = .root)
    (hm : ∀ {name : Str} {j : AKey}, m.get name = some j → j ≠ .root ∧ Used e n d j) :
    Triple e n (Tracked e n c d (f :: A) b) (putDir f m) (fun _ => Tracked e n c d A b) E := by
  apply Triple.modify
  rintro s ⟨v, h⟩ _
  obtain ⟨hnone, hused⟩ := h.absent f List.mem_cons_self
  have hlinks : ∀ {j : AKey} {name : Str}, Layout.childOf (fun _ => some (Entry.dir m)) f name = some j →
      j ≠ .root ∧ Used e n d j := fun hj => hm hj
  split
  · rename_i hon
    exact ⟨_, h.create hroot hf hkey hlinks (h.sees.dirPut hused (by simp [hnone]) hon
      (fun j hj => stampNewDirAcl_get_ne e s.inodes hj) (base_holds hp _ _)) rfl⟩
  · exact ⟨_, h.create hroot hf hkey hlinks (h.sees.putEntry _ hused (h.sees.dirs_none (by simp [hnone]))) rfl⟩

end

include hroot in
theorem putEntry_tracked {blob : Bytes} {E : AdbError → TxState → Prop} (hf : f ∉ A) (hkey : f ≠ c.akey) :
    Triple e n (Tracked e n c d (f :: A) b) (putEntry f (.file blob)) (fun _ => Tracked e n c d A b) E := by
  apply Triple.modify
  rintro s ⟨v, h⟩ _
  obtain ⟨hnone, hused⟩ := h.absent f List.mem_cons_self
  have hlinks : ∀ {j : AKey} {name : Str}, Layout.childOf (fun _ => some (Entry.file blob)) f name = some j →
      j ≠ .root ∧ Used e n d j := by
    intro j name hj
    cases hj
  exact ⟨_, h.create hroot hf (.inl hkey) hlinks (h.sees.putEntry _ hused (h.sees.dirs_none (by simp [hnone]))) rfl⟩

/-- A file that is there gets other data. -/
theorem Tracks.overwrite {blob blob' : Bytes} {s' : TxState} (h : Tracks e n c d A b v s)
    (hk : v k = some (.file blob)) (hs : Sees (.base e) n d (Function.update v k (some (.file blob'))) s')
    (hepoch : s'.buffer.epoch = s.buffer.epoch) :
    Tracks e n c d A b (Function.update v k (some (.file blob'))) s' := by
  refine h.write hs ?_ ?_ hepoch fun hpoints => hpoints.overwrite hk
  · intro a j name hj
    rcases eq_or_ne a k with rfl | hne
    · rw [childOf_update_self] at hj
      cases hj
    · rw [childOf_of_update_ne hne] at hj
      exact .inl hj
  · intro j hj
    have hne : j ≠ k := by
      rintro rfl
      rw [(h.absent j hj).1] at hk
      cases hk
    rw [Function.update_of_ne hne]
    exact h.absent j hj

theorem overwrite_tracked {blob : Bytes} {E : AdbError → TxState → Prop} :
    Triple e n (fun s => Tracked e n c d A b s ∧ ∃ o, observe e s k = .ok (some (.file o)))
      (putEntry k (.file blob)) (fun _ => Tracked e n c d A b) E := by
  apply Triple.modify
  rintro s ⟨⟨v, h⟩, o, ho⟩ _
  have hv : v k = some (.file o) := Except.ok.inj ((h.sees.shows k).symm.trans ho)
  exact ⟨_, h.overwrite hv (h.sees.putEntry _ (h.sees.used (by simp [hv])) (h.sees.dirs_none (by simp [hv]))) rfl⟩

theorem putFileEdit_tracked {blob : Bytes} {E : AdbError → TxState → Prop} :
    Triple e n (fun s => Tracked e n c d A b s ∧ ∃ o, observe e s k = .ok (some (.file o)))
      (putFileEdit k blob) (fun _ => Tracked e n c d A b) E := by
  apply Triple.of_states
  rintro s ⟨⟨v, h⟩, o, ho⟩
  have hv : v k = some (.file o) := Except.ok.inj ((h.sees.shows k).symm.trans ho)
  have hepoch : Triple e n (· = s) (putFileEdit k blob) (fun _ s' => s'.buffer.epoch = s.buffer.epoch) E := by
    apply Triple.modify
    rintro _ rfl _
    split <;> rfl
  refine (((putFileEdit_spec hv).pre fun _ hs => hs ▸ h.sees).and hepoch).post ?_
  rintro _ s' ⟨hs', heq⟩
  exact ⟨_, h.overwrite hv hs' heq⟩

include hp in
/-- A change of a link. -/
theorem editDir_tracked {edit : SortedMap Str AKey → SortedMap Str AKey} (hk : Used e n d k) (hkA : k ∉ A)
    (hedit : ∀ {m : SortedMap Str AKey} {name : Str} {j : AKey}, (edit m).get name = some j →
      m.get name = some j ∨ j ≠ .root ∧ Used e n d j) :
    Triple e n (Tracked e n c d A b) (editDir k edit) (fun _ => Tracked e n c d A (b + 1))
      (fun _ => Tracked e n c d A (b + 1)) := by
  apply Triple.of_states
  rintro s ⟨v, h⟩
  let s₁ : TxState := { s with buffer := s.buffer.bumpStructure }
  have hs₁ : Sees (.base e) n d v s₁ := h.sees.bumpStructure
  unfold editDir bumpStructure
  refine Triple.bind (R := fun _ s => s = s₁) (Triple.modify fun _ hs _ => by rw [hs]) fun _ => ?_
  refine Triple.inspect_at (fun _ _ => ⟨v, h.relink hs₁ .inl h.absent rfl⟩) ?_
  intro m hm
  have hmv := hs₁.dirChildren_ok hm
  have hfile : ∀ o, v k ≠ some (.file o) := by
    rcases hmv with hv | ⟨hv, -⟩ <;> simp [hv]
  have hwritten : ∀ {s' : TxState}, Sees (.base e) n d (Function.update v k (some (.dir (edit m)))) s' →
      s'.buffer.epoch = s.buffer.epoch + 1 → Tracked e n c d A (b + 1) s' := by
    intro s' hs' hepoch
    refine ⟨_, h.relink hs' ?_ ?_ hepoch⟩
    · intro a j name hj
      rcases eq_or_ne a k with rfl | hne
      · rw [childOf_update_self] at hj
        refine (hedit hj).imp_left fun hold => ?_
        rcases hmv with hv | ⟨-, rfl⟩
        · rw [Layout.childOf, hv]
          exact hold
        · cases hold
      · rw [childOf_of_update_ne hne] at hj
        exact .inl hj
    · intro j hj
      have hne : j ≠ k := fun heq => hkA (heq ▸ hj)
      rw [Function.update_of_ne hne]
      exact h.absent j hj
  refine Triple.inspect_at (fun _ hoff => by cases hoff) ?_
  intro on hon
  cases on with
  | true =>
    rw [if_pos rfl]
    apply Triple.modify
    rintro _ rfl _
    exact hwritten (hs₁.dirPut hk hfile (Except.ok.inj hon) (fun _ _ => rfl) (base_holds hp _ _)) rfl
  | false =>
    rw [if_neg Bool.false_ne_true]
    apply Triple.modify
    rintro _ rfl _
    rw [if_neg (by rw [Except.ok.inj hon]; exact Bool.false_ne_true)]
    exact hwritten (hs₁.putEntry _ hk (hs₁.coherent.off (Except.ok.inj hon) k).1) rfl

include hp in
theorem linkChild_tracked {name : Str} {j : AKey} (hk : Used e n d k) (hkA : k ∉ A) (hj : j ≠ .root ∧ Used e n d j) :
    Triple e n (Tracked e n c d A b) (linkChild k name j) (fun _ => Tracked e n c d A (b + 1))
      (fun _ => Tracked e n c d A (b + 1)) := by
  refine editDir_tracked hp hk hkA ?_
  intro m name' i hi
  rw [SortedMap.get_insert] at hi
  split at hi
  · cases hi
    exact .inr hj
  · exact .inl hi

include hp in
theorem unlinkChild_tracked {name : Str} (hk : Used e n d k) (hkA : k ∉ A) :
    Triple e n (Tracked e n c d A b) (unlinkChild k name) (fun _ => Tracked e n c d A (b + 1))
      (fun _ => Tracked e n c d A (b + 1)) := by
  refine editDir_tracked hp hk hkA ?_
  intro m name' i hi
  rw [SortedMap.get_erase] at hi
  split at hi
  · cases hi
  · exact .inl hi

/-- A fresh key has no entry, and no cursor is open over it. -/
theorem generate_tracked {α : Type} {rest : AKey → TxM α} {Q : α → TxState → Prop} {E : AdbError → TxState → Prop}
    (hdist : Distinct e n)
    (hrest : ∀ f, f ≠ .root → f ≠ c.akey → f ∉ A → (∀ k, Used e n d k → k ≠ f) → Used e n (d + 1) f →
      Triple e n (Tracked e n c (d + 1) (f :: A) b) (rest f) Q E) :
    Triple e n (Tracked e n c d A b) (generate >>= rest) Q E := by
  apply Triple.of_states
  rintro s ⟨v, h⟩ s rfl hn
  have hdn : d < n := by
    have hle : s.drawn + 1 ≤ n := (Prog.drawn_le (rest (e.gen s.drawn)) e _).trans hn
    rw [h.sees.drawn] at hle
    exact hle
  have hfresh : ∀ k, Used e n d k → k ≠ e.gen d := fun k hk heq => hk d le_rfl hdn heq.symm
  have hused : Used e n (d + 1) (e.gen d) := by
    intro i hi hin heq
    have := (hdist i hin).2 d hdn heq
    omega
  have hA : e.gen d ∉ A := fun hmem => hfresh _ (h.absent _ hmem).2 rfl
  have hsees : Sees (.base e) n (d + 1) v { s with drawn := s.drawn + 1 } :=
    ⟨h.sees.shows, ⟨h.sees.coherent.file, h.sees.coherent.dir, h.sees.coherent.off⟩,
      congrArg (· + 1) h.sees.drawn, fun i hi => h.sees.fresh i (by omega), h.sees.policy⟩
  have hnext : Tracked e n c (d + 1) (e.gen d :: A) b { s with drawn := s.drawn + 1 } := by
    refine ⟨v, hsees, fun hj => ⟨(h.anchored hj).1, (h.anchored hj).2.mono (by omega)⟩, ?_,
      h.used.mono (by omega), h.count⟩
    intro k hk
    rcases List.mem_cons.1 hk with rfl | hk
    · exact ⟨h.sees.fresh d le_rfl hdn, hused⟩
    · exact ⟨(h.absent k hk).1, (h.absent k hk).2.mono (by omega)⟩
  rw [← h.sees.drawn] at hnext
  have hrun := hrest (e.gen d) (hdist d hdn).1 (hfresh _ h.used).symm hA hfresh hused
  rw [← h.sees.drawn] at hrun
  exact hrun _ hnext hn

end Writes

end ArborDb
