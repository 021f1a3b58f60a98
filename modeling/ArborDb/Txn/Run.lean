import ArborDb.Txn.WellFormed

/-!
# Runs from an empty table

The transactions of a run share one database: the table's name, the source of keys, the
cryptographic primitives, and the integrity key that its users hold. Everything else may differ
from one transaction to the next, the time and the registered indexes from one call to the next.
-/

namespace ArborDb

open Prog (Triple)
open Layout (Holds Lays Node Under wipe)

/-- What every transaction of a run shares. -/
structure Database where
  table : Str
  gen : Nat → AKey
  crypto : Crypto
  key : Option Bytes

/-- The environment is one of the database. -/
structure Env.On (e : Env) (db : Database) : Prop where
  table : e.table = db.table
  gen : e.gen = db.gen
  crypto : e.crypto = db.crypto
  key : e.principal.key = db.key

/-- The environment at another time. -/
def Env.at (e : Env) (now : Int) : Env := { e with now := now }

theorem Env.On.at {e : Env} {db : Database} (h : e.On db) (now : Int) : (e.at now).On db :=
  ⟨h.table, h.gen, h.crypto, h.key⟩

/-! ## The invariant -/

section Invariant

variable {e e' : Env} {db : Database} {n d : Nat} {v : View} {s : TxState}

theorem verifyIntegrity_of_on (he : e.On db) (he' : e'.On db) (k : AKey) (c : Entry) :
    verifyIntegrity e s k c = verifyIntegrity e' s k c := by
  have hkey : e.principal.key = e'.principal.key := he.key.trans he'.key.symm
  unfold verifyIntegrity
  rw [he.table, he.crypto, he'.table, he'.crypto]
  cases hp : e.principal <;> cases hp' : e'.principal <;> rw [hp, hp'] at hkey <;>
    first
    | rfl
    | cases hkey
    | (simp only [Principal.key, Option.some.injEq] at hkey; simp only [hkey])

theorem observe_of_on (he : e.On db) (he' : e'.On db) (k : AKey) : observe e s k = observe e' s k := by
  unfold observe readVerified readTable
  simp only [verifyIntegrity_of_on he he']

theorem unrestricted_of_on (he : e.On db) (he' : e'.On db) (h : e.principal = .unrestricted) :
    e'.principal = .unrestricted := by
  have hkey : e.principal.key = e'.principal.key := he.key.trans he'.key.symm
  rw [h] at hkey
  cases hp' : e'.principal with
  | unrestricted => rfl
  | guest => exact absurd hp' e'.writer
  | user session =>
    rw [hp'] at hkey
    cases hkey

/-- What one transaction sees, every transaction of the database sees. -/
theorem Sees.of_on (he : e.On db) (he' : e'.On db) (h : Sees (.defaults e) n d v s) :
    Sees (.defaults e') n d v s where
  shows k := by
    rw [← observe_of_on he he']
    exact h.shows k
  coherent := h.coherent
  drawn := h.drawn
  fresh i := by
    rw [he'.gen, ← he.gen]
    exact h.fresh i
  policy hp := h.policy fun hun => hp (unrestricted_of_on he he' hun)

/-- The state shows a tree to every transaction of the database. -/
def Good (db : Database) (n : Nat) (s : TxState) : Prop :=
  ∃ v t, Holds .root v t ∧ ∀ e : Env, e.On db → Sees (.defaults e) n s.drawn v s

/-- Besides, nothing is buffered. -/
def Committed (db : Database) (n : Nat) (s : TxState) : Prop :=
  Good db n s ∧ ∀ k, s.buffer.dirs.get k = none ∧ s.buffer.files.get k = none

theorem committed_empty (db : Database) (n : Nat) : Committed db n .empty := by
  refine ⟨⟨fun _ => none, fun _ => none, Layout.holds_empty, ?_⟩, fun _ => ⟨rfl, rfl⟩⟩
  intro e _
  refine ⟨fun _ => rfl, ⟨nofun, nofun, fun _ _ => ⟨rfl, rfl⟩⟩, rfl, fun _ _ _ => rfl, ?_⟩
  intro _
  exact ⟨fun _ _ => rfl, fun _ h => absurd rfl h⟩

/-- A transaction sees what the one before it left in the tables. -/
theorem Sees.begin {P : Policy e} (h : Sees P n d v s)
    (hclean : ∀ k, s.buffer.dirs.get k = none ∧ s.buffer.files.get k = none) (buffering : Bool) :
    Sees P n d v (s.begin buffering) where
  shows k := by
    rw [← h.shows k]
    exact observe_congr (hclean k).1.symm (hclean k).2.symm rfl rfl
  coherent := ⟨nofun, nofun, fun _ _ => ⟨rfl, rfl⟩⟩
  drawn := h.drawn
  fresh := h.fresh
  policy := h.policy

theorem Committed.begin (h : Committed db n s) (buffering : Bool) :
    Good db n (s.begin buffering) := by
  obtain ⟨⟨v, t, ht, hs⟩, hclean⟩ := h
  exact ⟨v, t, ht, fun e he => (hs e he).begin hclean buffering⟩

end Invariant

/-! ## Steps and runs -/

section Runs

variable [Externals] {db : Database} {n : Nat} {s : TxState}

/-- One call: when it is made, and the indexes registered then. -/
structure Step where
  now : Int
  indexes : List IndexEntry
  call : Call

/-- A transaction: its identity, whether it starts buffering, and its calls in order. -/
structure Txn where
  env : Env
  buffering : Bool
  steps : List Step

/-- The state after a call, whether it succeeds or fails. -/
def Step.run (e : Env) (s : TxState) (step : Step) : TxState :=
  ((step.call.prog step.indexes).run (e.at step.now) s).2

/-- The state after some calls of a transaction. -/
def Txn.after (txn : Txn) (s : TxState) (steps : List Step) : TxState :=
  steps.foldl (Step.run txn.env) (s.begin txn.buffering)

/-- The tables a transaction commits. -/
def Txn.run (s : TxState) (txn : Txn) : TxState :=
  (commit.run txn.env (txn.after s txn.steps)).2

/-- The tables after a run from the empty table. -/
def runAll (txns : List Txn) : TxState := txns.foldl Txn.run .empty

/-- The keys of a database up to the `n`-th differ from each other and from the root. -/
def Database.Distinct (db : Database) (n : Nat) : Prop :=
  ∀ i, i < n → db.gen i ≠ .root ∧ ∀ j, j < n → db.gen i = db.gen j → i = j

omit [Externals] in
theorem Database.Distinct.on {e : Env} (h : db.Distinct n) (he : e.On db) : ArborDb.Distinct e n := by
  unfold ArborDb.Distinct
  rw [he.gen]
  exact h

theorem Step.drawn_le (e : Env) (s : TxState) (step : Step) : s.drawn ≤ (step.run e s).drawn :=
  (step.call.prog step.indexes).drawn_le (e.at step.now) s

theorem Txn.drawn_le (s : TxState) (txn : Txn) : s.drawn ≤ (txn.run s).drawn := by
  have hsteps : s.drawn ≤ (txn.after s txn.steps).drawn :=
    foldl_drawn_le (Step.drawn_le txn.env) txn.steps (s.begin txn.buffering)
  exact hsteps.trans (commit.drawn_le txn.env _)

/-- One call keeps the invariant. -/
theorem Good.step {e : Env} {step : Step} (h : Good db n s) (he : e.On db)
    (hdist : db.Distinct n) (hn : (step.run e s).drawn ≤ n)
    (hsafe : ¬ step.call.Engulfs (e.at step.now) s) : Good db n (step.run e s) := by
  obtain ⟨v, t, ht, hs⟩ := h
  have he' := he.at step.now
  have hrun := call_showing (hdist.on he') (Policy.defaults_readable _)
    (Policy.defaults_settled _) (hs _ he') ht hsafe s rfl hn
  have hshowing : Showing (.defaults (e.at step.now)) n s.drawn (step.run e s) := by
    unfold Step.run
    generalize (step.call.prog step.indexes).run (e.at step.now) s = out at hrun ⊢
    obtain ⟨x, s'⟩ := out
    cases x with
    | error _ => exact hrun
    | ok _ => exact hrun
  obtain ⟨d', v', t', -, hs', ht', -⟩ := hshowing
  refine ⟨v', t', ht', ?_⟩
  intro e'' he''
  have hd := hs'.drawn
  subst hd
  exact hs'.of_on he' he''

/-- No call of a transaction deletes the source it moves or copies. -/
def Txn.Safe (txn : Txn) (s : TxState) : Prop :=
  ∀ done step rest, txn.steps = done ++ step :: rest →
    ¬ step.call.Engulfs (txn.env.at step.now) (txn.after s done)

theorem Good.after {txn : Txn} (h : Good db n (s.begin txn.buffering)) (he : txn.env.On db)
    (hdist : db.Distinct n) (hn : (txn.after s txn.steps).drawn ≤ n) (hsafe : txn.Safe s)
    (done rest : List Step) (hsteps : txn.steps = done ++ rest) : Good db n (txn.after s done) := by
  induction done using List.reverseRecOn generalizing rest with
  | nil => exact h
  | append_singleton done step ih =>
    rw [List.append_assoc, List.singleton_append] at hsteps
    have hlast : txn.after s (done ++ [step]) = step.run txn.env (txn.after s done) := by
      unfold Txn.after
      rw [List.foldl_append]
      rfl
    rw [hlast]
    refine (ih (step :: rest) hsteps).step he hdist ?_ (hsafe done step rest hsteps)
    have hall : txn.after s txn.steps =
        rest.foldl (Step.run txn.env) (txn.after s (done ++ [step])) := by
      unfold Txn.after
      rw [← List.foldl_append, hsteps, List.append_assoc, List.singleton_append]
    rw [hall] at hn
    rw [← hlast]
    exact (foldl_drawn_le (Step.drawn_le txn.env) rest _).trans hn

/-- One transaction keeps the invariant. -/
theorem Committed.txn {txn : Txn} (h : Committed db n s) (he : txn.env.On db)
    (hdist : db.Distinct n) (hn : (txn.run s).drawn ≤ n) (hsafe : txn.Safe s) :
    Committed db n (txn.run s) := by
  have hsteps : (txn.after s txn.steps).drawn ≤ n := (commit.drawn_le txn.env _).trans hn
  obtain ⟨v, t, ht, hs⟩ :=
    (h.begin txn.buffering).after he hdist hsteps hsafe txn.steps [] (by rw [List.append_nil])
  have hrun := commit_spec (hs _ he) _ rfl hn
  have hflushed : Flushed (.defaults txn.env) n (txn.after s txn.steps).drawn v
      (txn.after s txn.steps) (txn.run s) := by
    unfold Txn.run
    generalize commit.run txn.env (txn.after s txn.steps) = out at hrun ⊢
    obtain ⟨x, s'⟩ := out
    cases x with
    | error _ => exact hrun.elim
    | ok _ => exact hrun
  refine ⟨⟨v, t, ht, ?_⟩, hflushed.clean⟩
  intro e' he'
  have hd := hflushed.sees.drawn
  rw [hd]
  exact hflushed.sees.of_on he he'

/-- No call of a run deletes the source it moves or copies. -/
def Safe (txns : List Txn) : Prop :=
  ∀ done txn rest, txns = done ++ txn :: rest → txn.Safe (runAll done)

theorem committed_runAll {txns : List Txn} (henv : ∀ txn ∈ txns, txn.env.On db)
    (hdist : db.Distinct n) (hn : (runAll txns).drawn ≤ n) (hsafe : Safe txns) :
    Committed db n (runAll txns) := by
  induction txns using List.reverseRecOn with
  | nil => exact committed_empty db n
  | append_singleton txns txn ih =>
    have hlast : runAll (txns ++ [txn]) = txn.run (runAll txns) := by
      unfold runAll
      rw [List.foldl_append]
      rfl
    rw [hlast] at hn ⊢
    refine (ih (fun x hx => henv x (by simp [hx])) ((Txn.drawn_le _ txn).trans hn) ?_).txn
      (henv txn (by simp)) hdist hn (hsafe txns txn [] rfl)
    intro done txn' rest hdone
    exact hsafe done txn' (rest ++ [txn]) (by rw [hdone]; simp)

/-- Every run from the empty table in which no call deletes the source it moves or copies leaves a
well-formed table, whichever of its calls succeed. -/
theorem run_wellFormed {txns : List Txn} (henv : ∀ txn ∈ txns, txn.env.On db)
    (hdist : db.Distinct (runAll txns).drawn) (hsafe : Safe txns) :
    WellFormed (runAll txns).data := by
  obtain ⟨⟨v, t, ht, hs⟩, hclean⟩ := committed_runAll henv hdist (Nat.le_refl _) hsafe
  by_cases hnil : txns = []
  · subst hnil
    exact wellFormed_of_holds Layout.holds_empty
  · obtain ⟨txn, rest, rfl⟩ := List.exists_cons_of_ne_nil hnil
    have hdata := (hs txn.env (henv txn (by simp))).data_get hclean
    rw [← funext hdata] at ht
    exact wellFormed_of_holds ht

/-- The call is no move and no copy onto an ancestor of its source. -/
def Call.Apart : Call → Prop
  | .mv src dst => ¬ dst.names <+: src.names
  | .cp src dst => ¬ dst.names <+: src.names
  | _ => True

/-- A call that is no move and no copy onto an ancestor deletes no source. -/
theorem Call.Apart.safe {e : Env} {call : Call} (h : call.Apart) : ¬ call.Engulfs e s := by
  cases call with
  | mv src dst => exact fun hengulfs => h hengulfs.1
  | cp src dst => exact fun hengulfs => h hengulfs.1
  | store | storeValue | putScalar | mkdir | rm => exact fun hengulfs => hengulfs

/-- A run without moves and copies onto an ancestor is safe, whatever its states are. -/
theorem safe_of_apart {txns : List Txn}
    (h : ∀ txn ∈ txns, ∀ step ∈ txn.steps, step.call.Apart) : Safe txns := by
  intro before txn after htxns done step rest hsteps
  exact (h txn (by simp [htxns]) step (by simp [hsteps])).safe

end Runs

/-! ## Small runs -/

section Small

def countingDb : Database :=
  ⟨countingEnv.table, countingEnv.gen, countingEnv.crypto, countingEnv.principal.key⟩

theorem countingEnv_on : countingEnv.On countingDb := ⟨rfl, rfl, rfl, rfl⟩

/-- A file in a directory, moved to `dst`. -/
def storeAndMove (dst : List String) : List (@Txn Reference.externals) :=
  letI := Reference.externals
  [⟨countingEnv, true, [⟨0, [], .store (pathOf ["a", "b"]) []⟩,
    ⟨0, [], .mv (pathOf ["a", "b"]) (pathOf dst)⟩]⟩]

theorem run_wellFormed_move : letI := Reference.externals
    WellFormed (runAll (storeAndMove ["c"])).data := by
  let _ := Reference.externals
  have hon : ∀ txn ∈ storeAndMove ["c"], txn.env.On countingDb := by
    intro txn htxn
    rw [storeAndMove, List.mem_singleton] at htxn
    rw [htxn]
    exact countingEnv_on
  refine run_wellFormed hon ?_ (safe_of_apart ?_)
  · unfold Database.Distinct
    decide
  · intro txn htxn step hstep
    rw [storeAndMove, List.mem_singleton] at htxn
    subst htxn
    simp only [List.mem_cons, List.not_mem_nil, or_false] at hstep
    obtain rfl | rfl := hstep
    · trivial
    · unfold Call.Apart
      decide

/-- Moving a file onto its own directory deletes the file and links the deleted a-node. -/
theorem run_move_onto_ancestor : letI := Reference.externals
    ∃ (db : Database) (txns : List Txn), (∀ txn ∈ txns, txn.env.On db) ∧
      db.Distinct (runAll txns).drawn ∧ ¬ WellFormed (runAll txns).data := by
  let _ := Reference.externals
  refine ⟨countingDb, storeAndMove ["a"], ?_, ?_, ?_⟩
  · intro txn htxn
    rw [storeAndMove, List.mem_singleton] at htxn
    rw [htxn]
    exact countingEnv_on
  · unfold Database.Distinct
    decide
  · intro h
    have hlink : childOf (runAll (storeAndMove ["a"])).data .root ⟨"a"⟩ = some (.ofNat 2) := by decide
    have hentry := h.linked hlink
    revert hentry
    decide

end Small

end ArborDb
