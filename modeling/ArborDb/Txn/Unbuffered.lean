import ArborDb.Txn.Run
import ArborDb.Txn.Transparent

/-!
# Runs with and without the buffer

A run of transactions in which each may buffer, and the same run with every write going straight to the table,
have the same results call by call and commit the same tables (`run_unbuffered`). The one exception is a scalar
written at a directory that only the buffer holds: the read of its target misses it (`putScalarInto_missed`).
-/

namespace ArborDb

open Prog (Keeps Lockstep Triple)
open Layout (Holds)

variable {e : Env} {P : Policy e} {n d : Nat} {v : View} {s s' : TxState} {k : AKey} {t : ATree}

/-! ## Scalars -/

/-- An entry without the links of a directory, which a scalar write does not look at. -/
def Entry.hollow : Entry → Entry
  | .file b => .file b
  | .dir _ => .dir .empty

/-- The target of a scalar write without its links. -/
def hollowTarget (target : Option (AKey × Entry)) : Option (AKey × Entry) := target.map fun x => (x.1, x.2.hollow)

namespace Mirror

/-- Without a buffer the read of an a-node is what the store shows. -/
theorem readVerified_direct (h : Mirror P n d v s s') (k : AKey) : ArborDb.readVerified e s' k = .ok (v k) := by
  have hshow := h.right.shows k
  rw [observe, (h.right.coherent.off h.direct k).1] at hshow
  exact hshow

/-- Both states read the same of an a-node, but for the links of a directory, unless only the buffer holds it. -/
theorem readVerified (h : Mirror P n d v s s') (hk : s.buffer.dirs.get k ≠ none → s.data.get k ≠ none) :
    ∃ o o', ArborDb.readVerified e s k = .ok o ∧ ArborDb.readVerified e s' k = .ok o' ∧
      o'.map Entry.hollow = o.map Entry.hollow := by
  by_cases hdir : ∃ m, v k = some (.dir m)
  · obtain ⟨m, hm⟩ := hdir
    have hright := h.readVerified_direct k
    rw [hm] at hright
    cases hdirs : s.buffer.dirs.get k with
    | none =>
      have hshow := h.left.shows k
      rw [observe, hdirs, hm] at hshow
      exact ⟨_, _, hshow, hright, rfl⟩
    | some m' =>
      obtain ⟨hfiles, hfile⟩ := h.left.coherent.dir hdirs
      obtain ⟨c, hc⟩ := Option.ne_none_iff_exists'.1 (hk (by simp [hdirs]))
      have hleft : ArborDb.readVerified e s k = .ok (some c) := by
        unfold ArborDb.readVerified readTable
        rw [WriteBuffer.fileGet_eq, hfiles, hc]
        simp only [h.verified k c hc, Except.ok_bind, Except.pure_eq_ok]
      cases c with
      | leaf b => exact absurd hc (hfile b)
      | branch m'' => exact ⟨_, _, hleft, hright, rfl⟩
  · have hfile : ∀ m, v k ≠ some (.dir m) := fun m hm => hdir ⟨m, hm⟩
    exact ⟨_, _, h.left.readVerified hfile, h.readVerified_direct k, rfl⟩

end Mirror

/-- The target of a scalar write is no directory that only the buffer holds. -/
def Reaches (e : Env) (path : APath) (hint : Option (AKey × UInt64)) (s : TxState) : Prop :=
  ∀ k, hint = some (k, s.buffer.epoch) ∨ resolve e s path = .ok (some k) →
    s.buffer.dirs.get k ≠ none → s.data.get k ≠ none

namespace Mirror

variable {path : APath} {hint : Option (AKey × UInt64)}

theorem resolveAndRead (h : Mirror P n d v s s') (hreach : Reaches e path hint s) :
    (ArborDb.resolveAndRead e s' path).map hollowTarget = (ArborDb.resolveAndRead e s path).map hollowTarget := by
  unfold ArborDb.resolveAndRead
  rw [h.resolve]
  cases hr : ArborDb.resolve e s path with
  | error err => rfl
  | ok r =>
    cases r with
    | none => rfl
    | some k =>
      obtain ⟨o, o', ho, ho', hsame⟩ := h.readVerified (hreach k (.inr hr))
      simp only [Except.ok_bind, ho, ho', Except.pure_eq_ok, Except.map, hollowTarget, Option.map_map]
      have hmap : ∀ x : Option Entry, x.map ((fun x => (x.1, x.2.hollow)) ∘ fun entry => (k, entry)) =
          (x.map Entry.hollow).map fun entry => (k, entry) := by
        intro x
        rw [Option.map_map]
        rfl
      rw [hmap, hmap, hsame]

/-- Both states find the same target. -/
theorem resolveTarget (h : Mirror P n d v s s') (hreach : Reaches e path hint s) :
    (ArborDb.resolveTarget e s' path hint).map hollowTarget =
      (ArborDb.resolveTarget e s path hint).map hollowTarget := by
  have hpath := h.resolveAndRead hreach
  unfold ArborDb.resolveTarget
  rw [h.epoch]
  split
  · cases hint with
    | none => exact hpath
    | some captured =>
      obtain ⟨key, epoch⟩ := captured
      simp only
      split
      · rename_i hepoch
        obtain ⟨o, o', ho, ho', hsame⟩ := h.readVerified (hreach key (.inl (by rw [hepoch])))
        simp only [ho, ho', Except.ok_bind]
        cases o with
        | none =>
          cases o' with
          | none => exact hpath
          | some c' => cases hsame
        | some c =>
          cases o' with
          | none => cases hsame
          | some c' =>
            have hc : c'.hollow = c.hollow := Option.some.inj hsame
            simp only [Except.pure_eq_ok, Except.map, hollowTarget, Option.map_some, hc]
      · exact hpath
  · exact hpath

end Mirror

section Scalars

variable [Externals]

theorem putScalarInto_mirror {path : APath} {hint : Option (AKey × UInt64)} {vpath : VPath} {scalar : Scalar}
    (hdist : Distinct e n) (hsettled : P.Settled) (ht : Holds .root v t) :
    Lockstep e n (fun s s' => Mirror P n d v s s' ∧ Reaches e path hint s) (putScalarInto path hint vpath scalar)
      (fun _ => Mirrored P n) (MirroredFault P n) := by
  unfold putScalarInto
  refine Lockstep.inspect_upTo hollowTarget ?_ (fun _ _ h => h.1.resolveTarget h.2) (fun _ _ _ h => h.1.mirrored)
    fun target htarget => ?_
  · intro target
    cases target with
    | none => rfl
    | some x =>
      obtain ⟨k, c⟩ := x
      cases c <;> rfl
  obtain ⟨s₀, s₀', h₀, htarget⟩ := htarget
  refine Lockstep.pre (S := Mirror P n d v) ?_ fun _ _ h => h.1
  cases target with
  | none => exact storeBlobInto_mirror hdist hsettled ht
  | some x =>
    obtain ⟨k, c⟩ := x
    refine Lockstep.guard (fun _ _ h => h.check k .modify) Mirror.fault fun _ => ?_
    cases c with
    | leaf b =>
      have hv : v k = some (.file b) := h₀.1.left.readVerified_file (resolveTarget_cases htarget).1
      refine Lockstep.guard (fun _ _ _ => rfl) Mirror.fault fun patched => ?_
      cases patched with
      | some blob => exact (putFileEdit_mirror hsettled hv).post fun _ _ _ h => h.mirrored
      | none =>
        refine Lockstep.guard (fun _ _ _ => rfl) Mirror.fault fun blob => ?_
        exact (putFileEdit_mirror hsettled hv).post fun _ _ _ h => h.mirrored
    | branch m =>
      refine Lockstep.inspect_known none (fun _ _ _ => ⟨rfl, rfl⟩) ?_
      refine Lockstep.inspect (fun _ _ _ => rfl) Mirror.fault fun blob hblob => ?_
      obtain ⟨-, -, -, hblob⟩ := hblob
      cases hblob

/-- A scalar write at a directory that only the buffer holds misses it and stores a new value in its place; without
the buffer it is refused. -/
theorem putScalarInto_missed {path : APath} {vpath : VPath} {scalar : Scalar} (h : Mirror P n d v s s')
    (hr : resolve e s path = .ok (some k)) (hdirs : s.buffer.dirs.get k ≠ none) (hdata : s.data.get k = none) :
    (putScalarInto path none vpath scalar).run e s =
        (storeValueInto path (Value.default.setValue vpath (.leaf scalar)).1).run e s ∧
      ∃ err, (putScalarInto path none vpath scalar).run e s' = (.error err, s') := by
  obtain ⟨m, hm⟩ := Option.ne_none_iff_exists'.1 hdirs
  have hv : v k = some (.dir m) := by
    have hshow := h.left.shows k
    rw [observe, hm] at hshow
    exact (Except.ok.inj hshow).symm
  have hpath : ∀ t, resolveTarget e t path none = resolveAndRead e t path := fun t => ite_self _
  constructor
  · have hmissed : resolveTarget e s path none = .ok none := by
      have hread : readVerified e s k = .ok none := by
        unfold readVerified readTable
        rw [WriteBuffer.fileGet_eq, (h.left.coherent.dir hm).1, hdata]
      rw [hpath, resolveAndRead, hr]
      simp only [Except.ok_bind, hread, Option.map_none, Except.pure_eq_ok]
    unfold putScalarInto
    rw [Prog.run_bind, Prog.run_inspect, hmissed, Prog.next_ok]
  · have hfound : resolveTarget e s' path none = .ok (some (k, .dir m)) := by
      rw [hpath, resolveAndRead, h.resolve, hr]
      simp only [Except.ok_bind, h.readVerified_direct k, hv, Option.map_some, Except.pure_eq_ok]
    unfold putScalarInto
    rw [Prog.run_bind, Prog.run_inspect, hfound, Prog.next_ok]
    dsimp only
    rw [Prog.run_bind, Prog.run_inspect]
    cases hcheck : check e s' k .modify with
    | error err => exact ⟨err, rfl⟩
    | ok passed => exact ⟨_, rfl⟩

end Scalars

/-! ## The bracket -/

/-- An entry of the table verifies where nothing is buffered. -/
theorem Sees.verified (h : Sees P n d v s) (hclean : ∀ k, s.buffer.dirs.get k = none ∧ s.buffer.files.get k = none)
    {c : Entry} (hk : s.data.get k = some c) : verifyIntegrity e s k c = .ok () := by
  have hshow := h.shows k
  unfold observe ArborDb.readVerified readTable at hshow
  rw [WriteBuffer.fileGet_eq, (hclean k).1, (hclean k).2, hk] at hshow
  obtain ⟨u, hu, -⟩ := Except.bind_eq_ok.1 hshow
  exact hu

/-- A flush of both states leaves them mirrored. -/
theorem Flushed.mirror {s₀ s₀' : TxState} (h : Mirror P n d v s₀ s₀') (hsettled : P.Settled)
    (hl : Flushed P n d v s₀ s) (hr : Flushed P n d v s₀' s') (hoff : s'.buffer.buffering = false) :
    Mirror P n d v s s' where
  left := hl.sees
  right := hr.sees
  direct := hoff
  verified _ _ hk := hl.sees.verified hl.clean hk
  lists k := by rw [hr.acl hsettled, hl.acl hsettled, h.lists]
  index := by rw [hr.index, hl.index, h.index]
  epoch := by rw [hr.epoch, hl.epoch, h.epoch]

theorem Flushed.same {s₀ s₀' : TxState} (hl : Flushed P n d v s₀ s) (hr : Flushed P n d v s₀' s') : s'.data = s.data :=
  SortedMap.ext fun k => (hr.data k).trans (hl.data k).symm

/-- Mirrored, with nothing in the buffers and the same table. -/
structure Level (P : Policy e) (n d : Nat) (v : View) (s s' : TxState) : Prop extends Mirror P n d v s s' where
  data : s'.data = s.data
  off : s.buffer.buffering = false

namespace Level

theorem setIndex (h : Level P n d v s s') (f : SortedMap Bytes Bytes → SortedMap Bytes Bytes) :
    Level P n d v { s with index := f s.index } { s' with index := f s'.index } where
  left := h.left.setIndex _
  right := h.right.setIndex _
  direct := h.direct
  verified := h.verified
  lists := h.lists
  index := congrArg f h.index
  epoch := h.epoch
  data := h.data
  off := h.off

theorem fault (err : AdbError) (s s' : TxState) (h : Level P n d v s s') : MirroredFault P n err s s' :=
  h.toMirror.mirrored

end Level

/-- Two states that mirror each other and do not buffer have the same table. -/
theorem Mirror.level (h : Mirror P n d v s s') (hoff : s.buffer.buffering = false) : Level P n d v s s' where
  toMirror := h
  data := SortedMap.ext fun k => (h.right.data_get (h.right.coherent.off h.direct) k).trans
    (h.left.data_get (h.left.coherent.off hoff) k).symm
  off := hoff

/-- A program that always returns and draws no key does so on both sides. -/
theorem Mirror.both {m : TxM Unit} {Q : TxState → TxState → Prop} (h : Mirror P n d v s s')
    (hdrawn : Keeps TxState.drawn m)
    (hm : ∀ {s₀}, Sees P n d v s₀ → Triple e n (· = s₀) m (fun _ s => Q s₀ s) (fun _ _ => False))
    (hn : (m.run e s).2.drawn ≤ n) :
    ∃ u u', m.run e s = (.ok (), u) ∧ m.run e s' = (.ok (), u') ∧ Q s u ∧ Q s' u' := by
  have hreturns : ∀ {s₀}, Sees P n d v s₀ → (m.run e s₀).2.drawn ≤ n → ∃ u, m.run e s₀ = (.ok (), u) ∧ Q s₀ u := by
    intro s₀ hs₀ hn
    have hrun := hm hs₀ s₀ rfl hn
    generalize m.run e s₀ = out at hrun ⊢
    obtain ⟨x, u⟩ := out
    cases x with
    | error _ => exact hrun.elim
    | ok _ => exact ⟨u, rfl, hrun⟩
  have hn' : (m.run e s').2.drawn ≤ n := by
    rw [hdrawn e s', h.right.drawn, ← h.left.drawn, ← hdrawn e s]
    exact hn
  obtain ⟨u, hu, hl⟩ := hreturns h.left hn
  obtain ⟨u', hu', hr⟩ := hreturns h.right hn'
  exact ⟨u, u', hu, hu', hl, hr⟩

theorem flushAndDisable_mirror [Externals] {E : AdbError → TxState → TxState → Prop} (hsettled : P.Settled) :
    Lockstep e n (Mirror P n d v) flushAndDisable (fun _ => Level P n d v) E := by
  intro s s' h hn
  obtain ⟨u, u', hu, hu', hl, hr⟩ := h.both flushAndDisable_drawn flushAndDisable_spec hn
  rw [hu, hu']
  exact ⟨rfl, (hl.1.mirror h hsettled hr.1 hr.2).level hl.2⟩

section Bracket

variable [Externals] {indexes : List IndexEntry} {scope : APath} {scopes : List APath}

theorem deleteEntries_mirror : Lockstep e n (Level P n d v) (deleteEntries indexes scope) (fun _ => Level P n d v)
    (MirroredFault P n) := by
  refine Lockstep.forEach fun entry _ => ?_
  refine Lockstep.guard (fun _ _ h => by rw [h.data]) Level.fault fun entries => ?_
  exact Lockstep.forEach fun kv _ => Lockstep.modify fun _ _ h => h.setIndex (·.erase kv.1)

theorem insertEntries_mirror : Lockstep e n (Level P n d v) (insertEntries indexes scope) (fun _ => Level P n d v)
    (MirroredFault P n) := by
  refine Lockstep.forEach fun entry _ => ?_
  refine Lockstep.guard (fun _ _ h => by rw [h.data]) Level.fault fun entries => ?_
  refine Lockstep.forEach fun kv _ => ?_
  have hinsert : Lockstep e n (Level P n d v) (insertKey kv.1 kv.2) (fun _ => Level P n d v) (MirroredFault P n) :=
    Lockstep.modify fun _ _ h => h.setIndex (·.insert kv.1 kv.2)
  split
  · exact Lockstep.guard (fun _ _ h => by rw [h.index]) Level.fault fun _ => hinsert
  · exact hinsert

/-- A mutation in its bracket; what it needs of the first state, a flush has to leave. -/
theorem reindexAround_mirror {α : Type} {apply : TxM α} {R : TxState → Prop} (hsettled : P.Settled)
    (hR : ∀ s, (∀ k, s.buffer.dirs.get k = none) → R s)
    (happly : Lockstep e n (fun s s' => Mirror P n d v s s' ∧ R s) apply (fun _ => Mirrored P n) (MirroredFault P n))
    (haside : Keeps TxState.aside apply) :
    Lockstep e n (fun s s' => Mirror P n d v s s' ∧ R s) (reindexAround indexes scopes apply) (fun _ => Mirrored P n)
      (MirroredFault P n) := by
  unfold reindexAround
  split
  · exact happly
  · refine Lockstep.bind ((flushAndDisable_mirror hsettled).pre fun _ _ h => h.1) fun _ => ?_
    refine Lockstep.bind (S := fun _ => Level P n d v) (Lockstep.forEach fun _ _ => deleteEntries_mirror) fun _ => ?_
    have hoff : ∀ s s', Level P n d v s s' →
        Triple e n (· = s) apply (fun _ u => u.buffer.buffering = false) (fun _ _ => True) := by
      intro s s' h u hu _
      have hkept : (apply.run e s).2.buffer.buffering = s.buffer.buffering := congrArg Prod.snd (haside e s)
      rw [h.off] at hkept
      rw [hu]
      generalize apply.run e s = out at hkept ⊢
      obtain ⟨x, u⟩ := out
      cases x with
      | error _ => trivial
      | ok _ => exact hkept
    have hboth : Lockstep e n (Level P n d v) apply (fun _ => Mirrored P n) (MirroredFault P n) :=
      happly.pre fun s _ h => ⟨h.toMirror, hR s fun k => (h.left.coherent.off h.off k).1⟩
    have hlevel : Lockstep e n (Level P n d v) apply (fun _ s s' => ∃ d v, Level P n d v s s') (MirroredFault P n) := by
      refine (hboth.with_triple hoff).post ?_
      rintro _ s s' ⟨⟨d', v', h⟩, hs⟩
      exact ⟨d', v', h.level hs⟩
    refine Lockstep.bind hlevel fun a => Lockstep.of_exists fun d' => Lockstep.of_exists fun v' => ?_
    refine Lockstep.bind (S := fun _ => Level P n d' v') (Lockstep.forEach fun _ _ => insertEntries_mirror) fun _ => ?_
    exact Lockstep.pure fun _ _ h => h.toMirror.mirrored

end Bracket

/-! ## Calls -/

section Calls

variable [Externals] {indexes : List IndexEntry} {call : Call}

/-- A scalar is not written at a directory that only the buffer holds. -/
def Call.Reaches (e : Env) (s : TxState) : Call → Prop
  | .putScalar path hint _ _ => ArborDb.Reaches e path hint s
  | _ => True

/-- A mutation other than a scalar write needs nothing. -/
theorem bracket_mirror {α : Type} {apply : TxM α} {scopes : List APath} (hsettled : P.Settled)
    (happly : Lockstep e n (Mirror P n d v) apply (fun _ => Mirrored P n) (MirroredFault P n))
    (haside : Keeps TxState.aside apply) :
    Lockstep e n (Mirror P n d v) (reindexAround indexes scopes apply) (fun _ => Mirrored P n) (MirroredFault P n) :=
  (reindexAround_mirror (R := fun _ => True) hsettled (fun _ _ => trivial) (happly.pre fun _ _ h => h.1) haside).pre
    fun _ _ h => ⟨h, trivial⟩

/-- A call does the same on two states that mirror each other. -/
theorem call_mirror (hdist : Distinct e n) (hsettled : P.Settled) (ht : Holds .root v t) (hapart : call.Apart) :
    Lockstep e n (fun s s' => Mirror P n d v s s' ∧ call.Reaches e s) (call.prog indexes) (fun _ => Mirrored P n)
      (MirroredFault P n) := by
  have hrefuse : ∀ {α : Type} {err : AdbError},
      Lockstep e n (Mirror P n d v) (Prog.fail err : TxM α) (fun _ => Mirrored P n) (MirroredFault P n) :=
    Lockstep.fail fun _ _ h => h.mirrored
  cases call with
  | store path blob =>
    refine Lockstep.pre (S := Mirror P n d v) ?_ fun _ _ h => h.1
    change Lockstep _ _ _ (if _ then _ else _) _ _
    split
    · exact hrefuse
    · exact bracket_mirror hsettled (storeBlobInto_mirror hdist hsettled ht) (storeBlobInto_aside path blob)
  | storeValue path value =>
    refine Lockstep.pre (S := Mirror P n d v) ?_ fun _ _ h => h.1
    change Lockstep _ _ _ (if _ then _ else _) _ _
    split
    · exact hrefuse
    · exact bracket_mirror hsettled (storeBlobInto_mirror hdist hsettled ht) (storeBlobInto_aside path _)
  | putScalar path hint vpath scalar =>
    have hclean : ∀ s, (∀ k, s.buffer.dirs.get k = none) → ArborDb.Reaches e path hint s :=
      fun s hclean k _ hk => absurd (hclean k) hk
    exact reindexAround_mirror hsettled hclean (putScalarInto_mirror hdist hsettled ht)
      (putScalarInto_aside path hint vpath scalar)
  | mkdir path =>
    refine Lockstep.pre (S := Mirror P n d v) ?_ fun _ _ h => h.1
    refine Lockstep.bind (ensureDir_mirror hdist hsettled ht) fun _ => Lockstep.pure ?_
    rintro s s' ⟨d', v', t', h, -⟩
    exact ⟨d', v', h⟩
  | rm path =>
    refine Lockstep.pre (S := Mirror P n d v) ?_ fun _ _ h => h.1
    refine Lockstep.bind (S := fun _ => Mirrored P n) ?_ fun _ => Lockstep.pure fun _ _ h => h
    change Lockstep _ _ _ (if _ then _ else _) _ _
    split
    · exact hrefuse
    · exact bracket_mirror hsettled (rmInto_mirror hsettled ht) (rmInto_aside path)
  | mv src dst =>
    refine Lockstep.pre (S := Mirror P n d v) ?_ fun _ _ h => h.1
    change Lockstep _ _ _ (if _ then _ else _) _ _
    split
    · exact hrefuse
    · split
      · exact hrefuse
      · split
        · exact hrefuse
        · exact bracket_mirror hsettled (mvInto_mirror hdist hsettled ht hapart) (mvInto_aside src dst)
  | cp src dst =>
    refine Lockstep.pre (S := Mirror P n d v) ?_ fun _ _ h => h.1
    change Lockstep _ _ _ (if _ then _ else _) _ _
    split
    · exact hrefuse
    · split
      · exact hrefuse
      · exact bracket_mirror hsettled (cpInto_mirror hdist hsettled ht) (cpInto_aside src dst)

end Calls

/-! ## Transactions -/

section Runs

variable {db : Database}

theorem Mirror.of_on {e' : Env} (he : e.On db) (he' : e'.On db) (h : Mirror (.defaults e) n d v s s') :
    Mirror (.defaults e') n d v s s' where
  left := h.left.of_on he he'
  right := h.right.of_on he he'
  direct := h.direct
  verified k c hk := (verifyIntegrity_of_on he' he k c).trans (h.verified k c hk)
  lists := h.lists
  index := h.index
  epoch := h.epoch

/-- To every transaction of the database the two states mirror each other and show a tree. -/
def Twinned (db : Database) (n : Nat) (s s' : TxState) : Prop :=
  ∃ d v t, Holds .root v t ∧ ∀ e : Env, e.On db → Mirror (.defaults e) n d v s s'

/-- Two states with nothing in the buffer that show the same store to every transaction of the database. -/
structure Paired (db : Database) (n : Nat) (v : View) (s s' : TxState) : Prop where
  tree : ∃ t, Holds .root v t
  left : ∀ e : Env, e.On db → Sees (.defaults e) n s.drawn v s
  right : ∀ e : Env, e.On db → Sees (.defaults e) n s.drawn v s'
  clean : ∀ k, s.buffer.dirs.get k = none ∧ s.buffer.files.get k = none
  clean' : ∀ k, s'.buffer.dirs.get k = none ∧ s'.buffer.files.get k = none
  lists : ∀ k, s'.inodes.readAcl k = s.inodes.readAcl k
  index : s'.index = s.index

/-- The transaction that writes straight to the table. -/
def Txn.unbuffered [Externals] (txn : Txn) : Txn := { txn with buffering := false }

theorem Paired.begin (h : Paired db n v s s') (buffering : Bool) :
    Twinned db n (s.begin buffering) (s'.begin false) := by
  obtain ⟨t, ht⟩ := h.tree
  refine ⟨s.drawn, v, t, ht, fun e he => ?_⟩
  exact {
    left := (h.left e he).begin h.clean buffering
    right := (h.right e he).begin h.clean' false
    direct := rfl
    verified := fun k c hk => (h.left e he).verified h.clean hk
    lists := h.lists
    index := h.index
    epoch := rfl }

variable [Externals]

/-- What a call answers. -/
def Step.answer (e : Env) (s : TxState) (step : Step) : AdbResult Unit :=
  ((step.call.prog step.indexes).run (e.at step.now) s).1

/-- A call answers the same on both sides and leaves them twinned. -/
theorem Twinned.step {step : Step} (h : Twinned db n s s') (he : e.On db) (hdist : db.Distinct n)
    (hn : (step.run e s).drawn ≤ n) (hapart : step.call.Apart) (hreach : step.call.Reaches (e.at step.now) s) :
    step.answer e s' = step.answer e s ∧ Twinned db n (step.run e s) (step.run e s') := by
  obtain ⟨d, v, t, ht, hmirror⟩ := h
  have he' := he.at step.now
  have hm := hmirror _ he'
  obtain ⟨hsame, hrun⟩ := call_mirror (hdist.on he') (Policy.defaults_settled _) ht hapart s s' ⟨hm, hreach⟩ hn
  have hshows := call_showing (hdist.on he') (Policy.defaults_readable _) (Policy.defaults_settled _) hm.left ht
    hapart.safe s rfl hn
  refine ⟨hsame, ?_⟩
  unfold Step.run
  have htwin : ∀ {u u'}, Mirrored (.defaults (e.at step.now)) n u u' → Showing (.defaults (e.at step.now)) n d u →
      Twinned db n u u' := by
    intro u u' hu hshow
    obtain ⟨d', v', t', hu', ht', -⟩ := hu.shows hshow
    exact ⟨d', v', t', ht', fun e'' he'' => hu'.of_on he' he''⟩
  generalize (step.call.prog step.indexes).run (e.at step.now) s = out at hrun hshows ⊢
  obtain ⟨x, u⟩ := out
  cases x with
  | error _ => exact htwin hrun hshows
  | ok _ => exact htwin hrun hshows

omit [Externals] in
theorem Twinned.commit (h : Twinned db n s s') (he : e.On db) (hn : (commit.run e s).2.drawn ≤ n) :
    ∃ v, Paired db n v (commit.run e s).2 (commit.run e s').2 := by
  obtain ⟨d, v, t, ht, hmirror⟩ := h
  have hm := hmirror e he
  have hsettled : (Policy.defaults e).Settled := Policy.defaults_settled e
  obtain ⟨u, u', hu, hu', hl, hr⟩ := hm.both commit_drawn commit_spec hn
  have hdrawn : u.drawn = d := hl.sees.drawn
  rw [hu, hu']
  refine ⟨v, ?_⟩
  exact {
    tree := ⟨t, ht⟩
    left := fun e' he' => hdrawn ▸ hl.sees.of_on he he'
    right := fun e' he' => hdrawn ▸ hr.sees.of_on he he'
    clean := hl.clean
    clean' := hr.clean
    lists := fun k => by rw [hr.acl hsettled, hl.acl hsettled, hm.lists]
    index := by rw [hr.index, hl.index, hm.index] }

/-! ## Runs -/

/-- What the calls of a transaction answer, in order. -/
def answersFrom (e : Env) : TxState → List Step → List (AdbResult Unit)
  | _, [] => []
  | s, step :: steps => step.answer e s :: answersFrom e (step.run e s) steps

/-- What the calls of a run answer, transaction by transaction. -/
def answersAll : TxState → List Txn → List (List (AdbResult Unit))
  | _, [] => []
  | s, txn :: txns => answersFrom txn.env (s.begin txn.buffering) txn.steps :: answersAll (txn.run s) txns

/-- No call writes a scalar at a directory that only the buffer holds. -/
def ReachingFrom (e : Env) : TxState → List Step → Prop
  | _, [] => True
  | s, step :: steps => step.call.Reaches (e.at step.now) s ∧ ReachingFrom e (step.run e s) steps

/-- No transaction writes a scalar at a directory that only its buffer holds. -/
def Reaching : TxState → List Txn → Prop
  | _, [] => True
  | s, txn :: txns => ReachingFrom txn.env (s.begin txn.buffering) txn.steps ∧ Reaching (txn.run s) txns

theorem Twinned.steps {steps : List Step} (h : Twinned db n s s') (he : e.On db) (hdist : db.Distinct n)
    (hn : (steps.foldl (Step.run e) s).drawn ≤ n) (hapart : ∀ step ∈ steps, step.call.Apart)
    (hreach : ReachingFrom e s steps) :
    answersFrom e s' steps = answersFrom e s steps ∧
      Twinned db n (steps.foldl (Step.run e) s) (steps.foldl (Step.run e) s') := by
  induction steps generalizing s s' with
  | nil => exact ⟨rfl, h⟩
  | cons step steps ih =>
    have hfirst : (step.run e s).drawn ≤ n := (foldl_drawn_le (Step.drawn_le e) steps _).trans hn
    obtain ⟨hanswer, hnext⟩ := h.step he hdist hfirst (hapart step List.mem_cons_self) hreach.1
    obtain ⟨hanswers, hlast⟩ := ih hnext hn (fun x hx => hapart x (List.mem_cons_of_mem step hx)) hreach.2
    refine ⟨?_, hlast⟩
    unfold answersFrom
    rw [hanswer, hanswers]

/-- A transaction answers the same without its buffer and commits the same. -/
theorem Paired.txn {txn : Txn} (h : Paired db n v s s') (he : txn.env.On db) (hdist : db.Distinct n)
    (hn : (txn.run s).drawn ≤ n) (hapart : ∀ step ∈ txn.steps, step.call.Apart)
    (hreach : ReachingFrom txn.env (s.begin txn.buffering) txn.steps) :
    answersFrom txn.env (s'.begin false) txn.steps = answersFrom txn.env (s.begin txn.buffering) txn.steps ∧
      ∃ v, Paired db n v (txn.run s) (txn.unbuffered.run s') := by
  have hsteps : (txn.after s txn.steps).drawn ≤ n := (commit.drawn_le txn.env _).trans hn
  obtain ⟨hanswers, htwin⟩ := (h.begin txn.buffering).steps he hdist hsteps hapart hreach
  exact ⟨hanswers, htwin.commit he hn⟩

theorem Paired.run {txns : List Txn} (h : Paired db n v s s') (henv : ∀ txn ∈ txns, txn.env.On db)
    (hdist : db.Distinct n) (hn : (txns.foldl Txn.run s).drawn ≤ n)
    (hapart : ∀ txn ∈ txns, ∀ step ∈ txn.steps, step.call.Apart) (hreach : Reaching s txns) :
    answersAll s' (txns.map Txn.unbuffered) = answersAll s txns ∧
      ∃ v, Paired db n v (txns.foldl Txn.run s) ((txns.map Txn.unbuffered).foldl Txn.run s') := by
  induction txns generalizing v s s' with
  | nil => exact ⟨rfl, v, h⟩
  | cons txn txns ih =>
    have hfirst : (txn.run s).drawn ≤ n := (foldl_drawn_le Txn.drawn_le txns _).trans hn
    obtain ⟨hanswer, v', hnext⟩ :=
      h.txn (henv txn List.mem_cons_self) hdist hfirst (hapart txn List.mem_cons_self) hreach.1
    obtain ⟨hanswers, hlast⟩ := ih hnext (fun x hx => henv x (List.mem_cons_of_mem txn hx)) hn
      (fun x hx => hapart x (List.mem_cons_of_mem txn hx)) hreach.2
    refine ⟨?_, hlast⟩
    rw [List.map_cons]
    unfold answersAll
    rw [hanswers]
    exact congrArg (· :: answersAll (txn.run s) txns) hanswer

omit [Externals] in
theorem paired_empty (db : Database) (n : Nat) : ∃ v, Paired db n v .empty .empty := by
  obtain ⟨⟨v, t, ht, hs⟩, hclean⟩ := committed_empty db n
  exact ⟨v, ⟨t, ht⟩, hs, hs, hclean, hclean, fun _ => rfl, rfl⟩

end Runs

/-! ## A small run -/

section Small

/-- A file is stored in a new directory and a scalar written to it. -/
def storeAndPut (path : List String) : List (@Txn Reference.externals) :=
  letI := Reference.externals
  [⟨countingEnv, true, [⟨0, [], .store (pathOf ["a", "b"]) (Codec.encode (.leaf .null))⟩,
    ⟨0, [], .putScalar (pathOf path) none .root (.bool true)⟩]⟩]

/-- A scalar written at a directory that only the buffer holds replaces it; without the buffer it is refused. -/
example : letI := Reference.externals
    (answersAll .empty (storeAndPut ["a"])).flatten.map Except.isOk = [true, true] ∧
      (answersAll .empty ((storeAndPut ["a"]).map Txn.unbuffered)).flatten.map Except.isOk = [true, false] := by
  decide

end Small

end ArborDb
