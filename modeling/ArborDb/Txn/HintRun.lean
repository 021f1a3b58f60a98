import ArborDb.Lib.Thin
import ArborDb.Txn.HintCalls

/-!
# The key hint of a cursor

In a transaction that opens cursors and makes calls in any order, a scalar edit with the hint of a cursor
does what the edit does without: the hint is only trusted while the count of structural changes is the one
it was taken at, and then it names what a walk along the path finds (`hint_changes_nothing`). The count has
64 bits; once it has come round, a hint of a path that was moved away is trusted again.
-/

namespace ArborDb

open Prog (Keeps Triple)

/-! ## Transactions with cursors -/

section Cursors

variable [Externals] {e : Env} {n d : Nat} {c : Cursor} {b : Nat} {v : View} {s : TxState}

/-- A write transaction and the cursors opened in it. -/
structure CursorTxn where
  state : TxState
  cursors : List Cursor

/-- A cursor is opened, or a call is made, be it through a cursor. -/
inductive Action where
  | fetchMut (path : APath)
  | call (step : Step)

namespace CursorTxn

def act (e : Env) (x : CursorTxn) : Action → CursorTxn
  | .fetchMut path =>
    match ArborDb.fetchMut x.state path with
    | .ok (some c) => { x with cursors := x.cursors ++ [c] }
    | _ => x
  | .call step => { x with state := step.run e x.state }

def run (e : Env) (x : CursorTxn) (actions : List Action) : CursorTxn := actions.foldl (act e) x

/-- An open adds a cursor or does nothing. -/
theorem act_fetchMut (e : Env) (x : CursorTxn) (path : APath) :
    x.act e (.fetchMut path) = x ∨ ∃ c, ArborDb.fetchMut x.state path = .ok (some c) ∧
      x.act e (.fetchMut path) = { x with cursors := x.cursors ++ [c] } := by
  rcases hfetch : ArborDb.fetchMut x.state path with err | _ | c
  · refine .inl ?_
    rw [act, hfetch]
  · refine .inl ?_
    rw [act, hfetch]
  · refine .inr ⟨c, rfl, ?_⟩
    rw [act, hfetch]

theorem drawn_le_act (e : Env) (x : CursorTxn) (action : Action) : x.state.drawn ≤ (x.act e action).state.drawn := by
  cases action with
  | fetchMut path =>
    rcases act_fetchMut e x path with hx | ⟨c, -, hx⟩
    · rw [hx]
    · rw [hx]
  | call step => exact step.drawn_le e x.state

theorem drawn_le_run (e : Env) (x : CursorTxn) (actions : List Action) :
    x.state.drawn ≤ (x.run e actions).state.drawn := by
  induction actions generalizing x with
  | nil => exact le_rfl
  | cons action rest ih => exact (drawn_le_act e x action).trans (ih (x.act e action))

end CursorTxn

/-- How many links an action can make or remove. -/
def Action.changes : Action → Nat
  | .fetchMut _ => 0
  | .call step => step.call.changes

/-! ### Every hint is told by the count -/

omit [Externals] in
/-- The environments of one transaction differ in the time alone. -/
theorem Known.at (h : Known e n c b s) (now : Int) : Known (e.at now) n c b s := by
  obtain ⟨d, v, h⟩ := h
  exact ⟨d, v, ⟨h.sees.shows, h.sees.coherent, h.sees.drawn, h.sees.fresh, h.sees.policy⟩, h.anchored, h.absent,
    h.used, h.count⟩

omit [Externals] in
theorem Known.of_at {now : Int} (h : Known (e.at now) n c b s) : Known e n c b s := by
  obtain ⟨d, v, h⟩ := h
  exact ⟨d, v, ⟨h.sees.shows, h.sees.coherent, h.sees.drawn, h.sees.fresh, h.sees.policy⟩, h.anchored, h.absent,
    h.used, h.count⟩

/-- The cursor over the root, that a transaction could have been opened with. -/
def Cursor.root : Cursor := ⟨⟨[]⟩, .root, 0⟩

/-- What is known of every cursor, be none open. -/
structure CursorTxn.Tracked (e : Env) (n b : Nat) (x : CursorTxn) : Prop where
  root : Known e n .root b x.state
  cursors : ∀ c ∈ x.cursors, (c.akey = .root → c.path.names = []) ∧ Known e n c b x.state

omit [Externals] in
/-- A table of which the links form a tree. -/
theorem known_table {data : SortedMap AKey Entry} {inodes : InodeTable} {index : SortedMap Bytes Bytes}
    {buffering : Bool} (hp : e.principal = .unrestricted) (hdata : WellFormed data) (hdist : Distinct e n)
    (hfresh : ∀ i, d ≤ i → i < n → data.get (e.gen i) = none) :
    Known e n .root 0 ⟨data, inodes, index, .new buffering, d⟩ := by
  refine ⟨d, data.get, ⟨?_, ⟨nofun, nofun, fun _ _ => ⟨rfl, rfl⟩⟩, rfl, hfresh, base_holds hp _ _⟩, ?_, nofun,
    used_root hdist, ⟨0, le_rfl, rfl, fun _ => .inl rfl⟩⟩
  · intro k
    unfold observe readVerified readTable verifyIntegrity
    simp only [hp, WriteBuffer.fileGet_eq, WriteBuffer.new, SortedMap.get_empty]
    cases data.get k <;> rfl
  · intro k j name hj
    have hlink : childOf data k name = some j := hj
    refine ⟨?_, ?_⟩
    · rintro rfl
      have hk : data.contains k = true := by
        unfold SortedMap.contains
        unfold Layout.childOf at hj
        cases hd : data.get k with
        | none =>
          rw [hd] at hj
          cases hj
        | some _ => rfl
      obtain ⟨names, hwalk⟩ := hdata.reachable hk
      apply hdata.acyclic (List.append_ne_nil_of_right_ne_nil names (List.cons_ne_nil name []))
      rw [Layout.walk_append, hwalk, Option.bind_some, Layout.walk, hj]
      rfl
    · intro i hi hin heq
      have hthere := hdata.linked hlink
      unfold SortedMap.contains at hthere
      rw [← heq, hfresh i hi hin] at hthere
      cases hthere

section Runs

variable (hp : e.principal = .unrestricted) (hdist : Distinct e n)

omit [Externals] in
/-- A path with a name does not lead to the root. -/
theorem Tracks.walk_root {A : List AKey} (h : Tracks e n c d A b v s) :
    ∀ (names : List Str) (a : AKey), Layout.walk v a names = some .root → names = []
  | [], _, _ => rfl
  | name :: names, a, hwalk => by
    obtain ⟨j, hj, hrest⟩ := Option.bind_eq_some_iff.1 hwalk
    have hnil := h.walk_root names j hrest
    subst hnil
    exact absurd (Option.some.inj hrest) (h.anchored hj).1

omit [Externals] in
include hdist in
/-- A cursor just opened has the key its path leads to. -/
theorem fetchMut_known {path : APath} (h : Known e n .root b s) (hfetch : fetchMut s path = .ok (some c)) :
    (c.akey = .root → c.path.names = []) ∧ Known e n c b s := by
  obtain ⟨d, v, h⟩ := h
  have hc : ∃ k, resolveBuffered s path = some k ∧ c = ⟨path, k, s.buffer.epoch⟩ := by
    unfold fetchMut resolveWithKind at hfetch
    cases hr : resolveBuffered s path with
    | none =>
      rw [hr] at hfetch
      cases hfetch
    | some k =>
      refine ⟨k, rfl, ?_⟩
      rw [hr] at hfetch
      by_cases hdir : (s.buffer.dirGet k).isSome
      · simp only [hdir, if_pos] at hfetch
        cases hfetch
      · simp only [hdir, if_neg, Bool.false_eq_true, not_false_eq_true] at hfetch
        rcases hkind : (s.data.get k).map Entry.kind with _ | _ | _
        · rw [hkind] at hfetch
          cases hfetch
        · rw [hkind] at hfetch
          cases hfetch
        · rw [hkind] at hfetch
          cases hfetch
          rfl
  obtain ⟨k, hr, rfl⟩ := hc
  have hwalk : Layout.walk v .root path.names = some k := (h.sees.resolveBuffered_walk _ _).symm.trans hr
  refine ⟨?_, d, v, h.sees, h.anchored, nofun, h.walk_used hdist hwalk, 0, Nat.zero_le b, ?_, fun _ => .inl hwalk⟩
  · rintro rfl
    exact h.walk_root _ _ hwalk
  · exact (UInt64.add_zero _).symm

namespace CursorTxn.Tracked

include hp hdist

/-- What one action leaves known. -/
theorem act {x : CursorTxn} (h : x.Tracked e n b) (action : Action) (hn : (x.act e action).state.drawn ≤ n) :
    (x.act e action).Tracked e n (b + action.changes) := by
  cases action with
  | fetchMut path =>
    rcases CursorTxn.act_fetchMut e x path with hx | ⟨c, hfetch, hx⟩
    · rw [hx]
      exact h
    · rw [hx]
      refine ⟨h.root, ?_⟩
      intro c' hc'
      rcases List.mem_append.1 hc' with hold | hnew
      · exact h.cursors c' hold
      · rw [List.mem_singleton.1 hnew]
        exact fetchMut_known hdist h.root hfetch
  | call step =>
    have hcall : ∀ {c : Cursor}, (c.akey = .root → c.path.names = []) → Known e n c b x.state →
        Known e n c (b + step.call.changes) (step.run e x.state) := by
      intro c hroot hc
      have hcall := call_tracked (e := e.at step.now) (b := b) hroot hp hdist step.indexes step.call
      exact (hcall.reached (hc.at step.now) hn).of_at
    refine ⟨hcall (fun _ => rfl) h.root, ?_⟩
    intro c hc
    exact ⟨(h.cursors c hc).1, hcall (h.cursors c hc).1 (h.cursors c hc).2⟩

/-- What any number of actions leaves known. -/
theorem run {x : CursorTxn} (h : x.Tracked e n b) (actions : List Action) (hn : (x.run e actions).state.drawn ≤ n) :
    (x.run e actions).Tracked e n (b + (actions.map Action.changes).sum) := by
  induction actions generalizing x b with
  | nil => exact h
  | cons action rest ih =>
    have hn' : (x.act e action).state.drawn ≤ n := (CursorTxn.drawn_le_run e (x.act e action) rest).trans hn
    have hrest := ih (h.act hp hdist action hn') hn
    rw [Nat.add_assoc] at hrest
    exact hrest

end CursorTxn.Tracked

end Runs

section Hints

variable (hp : e.principal = .unrestricted)

omit [Externals] in
/-- Below 2^64 changes, the count tells whether there was one. -/
theorem Known.unmoved (h : Known e n c b s) (hb : b < 2 ^ 64) (hepoch : c.epoch = s.buffer.epoch) :
    ∃ d v, Sees (.base e) n d v s ∧ Points v c := by
  obtain ⟨d, v, h⟩ := h
  obtain ⟨i, hi, heq, hpoints⟩ := h.count
  have hzero : (.ofNat i : UInt64) = 0 := by
    have hadd : c.epoch + .ofNat i = c.epoch + 0 := by
      rw [← heq, ← hepoch, UInt64.add_zero]
    exact (UInt64.add_right_inj c.epoch).1 hadd
  have hi' : i = 0 := by
    have hnat := congrArg UInt64.toNat hzero
    rw [UInt64.toNat_ofNat_of_lt' (hi.trans_lt hb)] at hnat
    exact hnat
  exact ⟨d, v, h.sees, hpoints hi'⟩

include hp

omit [Externals] in
/-- With the hint, the a-node that is edited is the one the path leads to. -/
theorem Known.resolveTarget (h : Known e n c b s) (hb : b < 2 ^ 64) :
    ArborDb.resolveTarget e s c.path (some (c.akey, c.epoch)) = ArborDb.resolveTarget e s c.path none := by
  unfold ArborDb.resolveTarget
  by_cases hbuild : e.build = .permissions
  · simp only [hbuild, ne_eq, not_true_eq_false, if_false]
  simp only [ne_eq, hbuild, not_false_eq_true, if_true]
  by_cases hepoch : c.epoch = s.buffer.epoch
  · obtain ⟨d, v, hs, hpoints⟩ := h.unmoved hb hepoch
    rw [if_pos hepoch]
    rcases hpoints with hwalk | hgone
    · have hr : resolve e s c.path = .ok (some c.akey) := (hs.resolveFrom_walk hp _ _).trans (congrArg _ hwalk)
      cases hread : readVerified e s c.akey with
      | error err => exact absurd hp (readVerified_error hread)
      | ok found =>
        unfold resolveAndRead
        rw [hr, Except.ok_bind, Except.ok_bind]
        cases found with
        | none => simp only [hread, Except.ok_bind]
        | some entry => simp only [hread, Except.ok_bind]; rfl
    · have hread : readVerified e s c.akey = .ok none := by
        rw [hs.readVerified fun m => by simp [hgone], hgone]
      rw [hread, Except.ok_bind]
  · rw [if_neg hepoch]

/-- A scalar edit with the hint is the one without. -/
theorem Known.putScalarInto (h : Known e n c b s) (hb : b < 2 ^ 64) (vpath : VPath) (scalar : Scalar) :
    (ArborDb.putScalarInto c.path (some (c.akey, c.epoch)) vpath scalar).run e s =
      (ArborDb.putScalarInto c.path none vpath scalar).run e s := by
  unfold ArborDb.putScalarInto
  rw [Prog.run_bind, Prog.run_bind, Prog.run_inspect, Prog.run_inspect, h.resolveTarget hp hb]

/-- And so is the edit within its bracket of index maintenance. -/
theorem Known.putScalarAt (h : Known e n c b s) (hb : b < 2 ^ 64) (hn : s.drawn ≤ n) (indexes : List IndexEntry)
    (vpath : VPath) (scalar : Scalar) :
    (ArborDb.putScalarAt indexes c.path (some (c.akey, c.epoch)) vpath scalar).run e s =
      (ArborDb.putScalarAt indexes c.path none vpath scalar).run e s := by
  unfold ArborDb.putScalarAt reindexAround
  split
  · exact h.putScalarInto hp hb vpath scalar
  have hflush : (flushAndDisable.run e s).2.drawn ≤ n := (flushAndDisable_drawn e s).trans_le hn
  apply flushAndDisable_tracked.bind_congr (E := fun _ _ => True) h hflush
  intro _ s₁ h₁ hn₁
  have hdelete : Triple e n (Known e n c b) (Prog.forEach (deleteEntries indexes) [c.path]) (fun _ => Known e n c b)
      (fun _ => Known e n c b) := Triple.forEach_keeps fun scope _ => deleteEntries_keeps Known.unindexed
  apply hdelete.bind_congr h₁ ((Keeps.forEach deleteEntries_drawn _ e s₁).trans_le hn₁)
  intro _ s₂ h₂ _
  rw [Prog.run_bind, Prog.run_bind, h₂.putScalarInto hp hb]

end Hints

/-- **The hint of a cursor changes nothing.** From a well-formed table, in a transaction that opens cursors
and makes calls in any order, a scalar edit that passes a cursor's hint has the result and the effect of the
one that passes none, as long as the calls cannot make 2^64 structural changes. -/
theorem hint_changes_nothing (hbuild : e.build ≠ .permissions) {data : SortedMap AKey Entry} (hdata : WellFormed data)
    {inodes : InodeTable} {index : SortedMap Bytes Bytes} {buffering : Bool} {x : CursorTxn} {actions : List Action}
    (hx : x = CursorTxn.run e ⟨⟨data, inodes, index, .new buffering, d⟩, []⟩ actions) (hdist : Distinct e n)
    (hfresh : ∀ i, d ≤ i → i < n → data.get (e.gen i) = none) (hn : x.state.drawn ≤ n)
    (hchanges : (actions.map Action.changes).sum < 2 ^ 64) (hc : c ∈ x.cursors) (now : Int)
    (indexes : List IndexEntry) (vpath : VPath) (scalar : Scalar) :
    (c.putScalar indexes vpath scalar).run (e.at now) x.state =
      (putScalarAt indexes c.path none vpath scalar).run (e.at now) x.state := by
  subst hx
  have hp : e.principal = .unrestricted := e.unprotected hbuild
  have hstart : CursorTxn.Tracked e n 0 ⟨⟨data, inodes, index, .new buffering, d⟩, []⟩ :=
    ⟨known_table hp hdata hdist hfresh, nofun⟩
  have hrun := hstart.run hp hdist actions hn
  rw [Nat.zero_add] at hrun
  have hknown : Known (e.at now) n c (actions.map Action.changes).sum _ := (hrun.cursors c hc).2.at now
  exact hknown.putScalarAt (e := e.at now) hp hchanges hn indexes vpath scalar

end Cursors

/-- Storing a file at `a` and opening it. -/
def storeAndOpen : List (@Action Reference.externals) :=
  letI := Reference.externals
  [.call ⟨0, [], .storeValue (pathOf ["a"]) (.leaf .null)⟩, .fetchMut (pathOf ["a"])]

theorem hint_changes_nothing_stored :
    letI := Reference.externals
    let x := CursorTxn.run countingEnv ⟨.empty, []⟩ storeAndOpen
    (Cursor.putScalar ⟨pathOf ["a"], .ofNat 1, 1⟩ [] .root (.bool true)).run countingEnv x.state =
      (putScalarAt [] (pathOf ["a"]) none .root (.bool true)).run countingEnv x.state := by
  let _ := Reference.externals
  have hdist : Distinct countingEnv 2 := by
    unfold Distinct
    decide
  exact hint_changes_nothing (e := countingEnv) (n := 2) (d := 0) (c := ⟨pathOf ["a"], .ofNat 1, 1⟩) (by decide)
    (wellFormed_of_holds Layout.holds_empty) rfl hdist (fun _ _ _ => rfl)
    (by decide) (by decide) (by decide) 0 [] .root (.bool true)

/-- Moving the file away and back. -/
def moveAwayAndBack : List (@Action Reference.externals) :=
  letI := Reference.externals
  [.call ⟨0, [], .mv (pathOf ["a"]) (pathOf ["b"])⟩, .call ⟨0, [], .mv (pathOf ["b"]) (pathOf ["a"])⟩]

/-- Moving the file away for good. -/
def moveAway : List (@Action Reference.externals) :=
  letI := Reference.externals
  [.call ⟨0, [], .mv (pathOf ["a"]) (pathOf ["b"])⟩, .call ⟨0, [], .mv (pathOf ["b"]) (pathOf ["c"])⟩]

/-- The transaction with the file stored and opened, at a count of structural changes. -/
def openedAt (epoch : UInt64) : CursorTxn :=
  letI := Reference.externals
  let x := CursorTxn.run countingEnv ⟨.empty, []⟩ storeAndOpen
  { x with state := { x.state with buffer := { x.state.buffer with epoch := epoch } } }

/-- Away and back is four changes of the links, and nothing else. -/
theorem moveAwayAndBack_openedAt (epoch : UInt64) :
    letI := Reference.externals
    CursorTxn.run countingEnv (openedAt epoch) moveAwayAndBack = openedAt (epoch + 1 + 1 + 1 + 1) := by
  rfl

theorem rounds_openedAt (k : Nat) (epoch : UInt64) :
    letI := Reference.externals
    CursorTxn.run countingEnv (openedAt epoch) (List.replicate k moveAwayAndBack).flatten =
      openedAt (epoch + .ofNat (4 * k)) := by
  let _ := Reference.externals
  induction k generalizing epoch with
  | zero => exact congrArg openedAt (UInt64.add_zero epoch).symm
  | succ k ih =>
    unfold CursorTxn.run
    rw [List.replicate_succ, List.flatten_cons, List.foldl_append]
    refine (ih (epoch + 1 + 1 + 1 + 1)).trans (congrArg openedAt ?_)
    have hfour : (.ofNat (4 * (k + 1)) : UInt64) = .ofNat (4 * k) + (1 + 1 + 1 + 1) := UInt64.ofNat_add (4 * k) 4
    rw [hfour]
    ac_rfl

/-- **A hint is trusted again once the count has come round.** A file is stored at `a` and opened, moved away
and back until 2^64 - 4 changes were made, and moved away in the last four. The edit with the hint changes the
file where it is now; the edit without creates one. -/
theorem hint_trusted_again :
    letI := Reference.externals
    WellFormed TxState.empty.data ∧ ∃ actions : List Action,
      let x := CursorTxn.run countingEnv ⟨.empty, []⟩ actions
      ∃ c ∈ x.cursors, (c.putScalar [] .root (.bool true)).run countingEnv x.state ≠
        (putScalarAt [] c.path none .root (.bool true)).run countingEnv x.state := by
  let _ := Reference.externals
  refine ⟨wellFormed_of_holds Layout.holds_empty,
    storeAndOpen ++ (List.replicate (2 ^ 62 - 1) moveAwayAndBack).flatten ++ moveAway, ?_⟩
  have hround : CursorTxn.run countingEnv ⟨.empty, []⟩
      (storeAndOpen ++ (List.replicate (2 ^ 62 - 1) moveAwayAndBack).flatten ++ moveAway) =
      CursorTxn.run countingEnv (openedAt (1 + .ofNat (4 * (2 ^ 62 - 1)))) moveAway := by
    rw [← rounds_openedAt]
    unfold CursorTxn.run
    rw [List.foldl_append, List.foldl_append]
    rfl
  rw [hround]
  have hcount : (1 + .ofNat (4 * (2 ^ 62 - 1)) : UInt64) = .ofNat (2 ^ 64 - 3) := by decide
  rw [hcount]
  refine ⟨⟨pathOf ["a"], .ofNat 1, 1⟩, by decide, ?_⟩
  intro hsame
  have hdrawn := congrArg (fun out => out.2.drawn) hsame
  revert hdrawn
  decide

end ArborDb
