import ArborDb.Db.PathCaches
import ArborDb.Db.Seals

/-!
# Handles on one database

A process reaches the database through handles. A handle carries the principal it was made for, and
so does every clone of it, every table opened through it and every transaction begun on such a
table. What a call may do is decided at its entry point, from the principal it carries. The engine
lets one write transaction be open at a time; a call that needs one waits.
-/

namespace ArborDb

/-- A write transaction that is open. -/
structure OpenTxn where
  env : Env
  names : Names
  state : TxState

/-- The committed state, the handles and tables in use, and the open write transaction. -/
structure Process where
  db : Db
  handles : SortedMap Nat Principal
  tables : SortedMap Nat (Str × Principal)
  writer : Option OpenTxn

/-- The calls of a table that change its indexes. -/
inductive IndexCall where
  | createIndex (d : IndexDef)
  | createIndexes (ds : List IndexDef)
  | ensureIndex (d : IndexDef)
  | ensureIndexes (ds : List IndexDef)
  | deleteIndex (name : Str)
  | deleteIndexes (names : List Str)

/-- The state after calls that each commit, up to the first that fails. -/
def untilError : List (Db → AdbResult Db) → Db → Db
  | [], db => db
  | f :: fs, db =>
    match f db with
    | .ok db => untilError fs db
    | .error _ => db

theorem untilError_eq {fs : List (Db → AdbResult Db)} {db : Db}
    (h : ∀ f ∈ fs, ∀ db', f db = .ok db' → db' = db) : untilError fs db = db := by
  induction fs with
  | nil => rfl
  | cons f fs ih =>
    rw [untilError]
    split
    · rename_i db' hf
      rw [h f (List.mem_cons_self ..) db' hf]
      exact ih fun g hg => h g (List.mem_cons_of_mem _ hg)
    · rfl

theorem untilError_data {fs : List (Db → AdbResult Db)}
    (h : ∀ f ∈ fs, ∀ db db', f db = .ok db' → ∀ table, (db'.tx table).data = (db.tx table).data) (db : Db)
    (table : Str) : ((untilError fs db).tx table).data = (db.tx table).data := by
  induction fs generalizing db with
  | nil => rfl
  | cons f fs ih =>
    rw [untilError]
    split
    · rename_i db' hf
      rw [ih (fun g hg => h g (List.mem_cons_of_mem _ hg)) db']
      exact h f (List.mem_cons_self ..) db db' hf table
    · rfl

section Model

variable [Externals]

/-- The state after a call. A back-fill looks at no principal. -/
def IndexCall.apply (e : Env) (db : Db) : IndexCall → Db
  | .createIndex d => untilError [fun db => db.createIndex e d] db
  | .createIndexes ds => untilError (ds.map fun d db => db.createIndex e d) db
  | .ensureIndex d => untilError [fun db => db.ensureIndex e d] db
  | .ensureIndexes ds => untilError (ds.map fun d db => db.ensureIndex e d) db
  | .deleteIndex name => untilError [fun db => (db.deleteIndex e.table name).map Prod.fst] db
  | .deleteIndexes names =>
    untilError (names.map fun name db => (db.deleteIndex e.table name).map Prod.fst) db

/-- A public call on a handle `h`, on a table `t`, or on the open write transaction. -/
inductive PublicCall where
  | clone (h h' : Nat)
  /-- Authenticates, with the session that the password opens. -/
  | withAuthentication (h h' : Nat) (session : Session)
  | withPubkey (h h' : Nat)
  | openTable (h t : Nat) (name : Str)
  /-- A read, a listing, or a flush of access times. -/
  | observe (h : Nat)
  | observeTable (t : Nat)
  | changePassword (h h' : Nat) (e : Env) (p : Primitives) (w : Wrapping) (password : Str)
      (key seed : Bytes) (listed : List Str)
  | admin (h : Nat) (e : Env) (p : Primitives) (op : Admin)
  | index (t : Nat) (e : Env) (call : IndexCall)
  | write (t : Nat) (e : Env) (names : Names) (buffering : Bool)
  | mutate (step : OpStep)
  | commit
  | drop

namespace Process

variable (s : Process)

/-- A name that a user's table may have. -/
def validName (name : Str) : Bool := name.text.toList.head?.any (· ≠ '$')

/-- The effect of administration through a handle. -/
def administer (principal : Principal) (e : Env) (p : Primitives) (op : Admin) : Option Process :=
  match adminCreds principal with
  | .error _ => some s
  | .ok _ =>
    if s.writer.isSome ∨ e.principal ≠ principal then none
    else match op.exec e p s.db with
      | .ok db => some { s with db := db }
      | .error _ => some s

/-- The effect of a call; a call that fails leaves the process as it was. There is none if the call
has to wait, or refers to nothing. -/
def step : PublicCall → Option Process
  | .clone h h' => do
    let principal ← s.handles.get h
    return { s with handles := s.handles.insert h' principal }
  | .withAuthentication h h' session => do
    match ← s.handles.get h with
    | .unrestricted => return s
    | _ => return { s with handles := s.handles.insert h' (.user session) }
  | .withPubkey h h' => do
    match ← s.handles.get h with
    | .guest => return { s with handles := s.handles.insert h' .guest }
    | _ => return s
  | .openTable h t name => do
    let principal ← s.handles.get h
    return if validName name then { s with tables := s.tables.insert t (name, principal) } else s
  | .observe h => do
    let _ ← s.handles.get h
    return s
  | .observeTable t => do
    let _ ← s.tables.get t
    return s
  | .changePassword h h' e p w password key seed listed => do
    match ← s.handles.get h with
    | .guest => return s
    | .unrestricted =>
      if s.writer.isSome then none
      else match s.db.promoteToMaster e.crypto p key seed w password listed with
        | .ok (db, session) =>
          return { s with db := db, handles := s.handles.insert h' (.user session) }
        | .error _ => return s
    | .user session =>
      if s.writer.isSome ∨ e.principal ≠ .user session then none
      else match (Admin.changePassword password w).exec e p s.db with
        | .ok db => return { s with db := db, handles := s.handles.insert h' (.user session) }
        | .error _ => return s
  | .admin h e p op => do
    let principal ← s.handles.get h
    s.administer principal e p op
  | .index t e call => do
    let (name, _) ← s.tables.get t
    if s.writer.isSome then none
    else return { s with db := call.apply (e.on name) s.db }
  | .write t e names buffering => do
    let (name, principal) ← s.tables.get t
    match principal with
    | .guest => return s
    | _ =>
      if s.writer.isSome ∨ e.principal ≠ principal ∨ e.table ≠ name then none
      else return { s with writer := some ⟨e, names, (s.db.tx name).begin buffering⟩ }
  | .mutate step => do
    let txn ← s.writer
    return { s with writer := some { txn with state := (step.exec txn.env txn.names txn.state).2 } }
  | .commit => do
    let txn ← s.writer
    return { s with
      db := s.db.put txn.env.table (ArborDb.commit.run txn.env txn.state).2
      writer := none }
  | .drop => do
    let _ ← s.writer
    return { s with writer := none }

def run (s : Process) : List PublicCall → Option Process
  | [] => some s
  | call :: calls => (s.step call).bind fun s => run s calls

/-- A condition on every call of a run and the process in which it is made. -/
def Along (P : Process → PublicCall → Prop) (s : Process) : List PublicCall → Prop
  | [] => True
  | call :: calls => P s call ∧ ∀ s', s.step call = some s' → Along P s' calls

end Process

/-- The principal a call is made for. -/
def PublicCall.actor (s : Process) : PublicCall → Option Principal
  | .clone h _ | .withAuthentication h _ _ | .withPubkey h _ | .openTable h _ _ | .observe h
  | .changePassword h _ _ _ _ _ _ _ _ | .admin h _ _ _ => s.handles.get h
  | .observeTable t | .index t _ _ | .write t _ _ _ => (s.tables.get t).map Prod.snd
  | .mutate _ | .commit | .drop => s.writer.map fun txn => txn.env.principal

/-! ## What index calls leave alone -/

theorem Db.ensureIndex_data {db db' : Db} {e : Env} {d : IndexDef} (h : db.ensureIndex e d = .ok db')
    (table : Str) : (db'.tx table).data = (db.tx table).data := by
  unfold Db.ensureIndex at h
  split at h
  · cases h
    rfl
  · exact (Db.createIndex_tables h table).1

omit [Externals] in
theorem Db.deleteIndex_fst {db db' : Db} {table name : Str}
    (h : (db.deleteIndex table name).map Prod.fst = .ok db') :
    ∃ found, db.deleteIndex table name = .ok (db', found) := by
  cases hdelete : db.deleteIndex table name with
  | error err =>
    rw [hdelete] at h
    cases h
  | ok x =>
    rw [hdelete] at h
    cases h
    exact ⟨x.2, rfl⟩

theorem IndexCall.data_apply (e : Env) (db : Db) (call : IndexCall) (table : Str) :
    ((call.apply e db).tx table).data = (db.tx table).data := by
  have hcreate : ∀ ds : List IndexDef, ∀ f ∈ ds.map (fun d (db : Db) => db.createIndex e d),
      ∀ db db', f db = .ok db' → ∀ table, (db'.tx table).data = (db.tx table).data := by
    intro ds f hf db db' hrun table
    obtain ⟨d, _, rfl⟩ := List.mem_map.1 hf
    exact (Db.createIndex_tables hrun table).1
  have hensure : ∀ ds : List IndexDef, ∀ f ∈ ds.map (fun d (db : Db) => db.ensureIndex e d),
      ∀ db db', f db = .ok db' → ∀ table, (db'.tx table).data = (db.tx table).data := by
    intro ds f hf db db' hrun table
    obtain ⟨d, _, rfl⟩ := List.mem_map.1 hf
    exact Db.ensureIndex_data hrun table
  have hdelete : ∀ names : List Str,
      ∀ f ∈ names.map (fun name (db : Db) => (db.deleteIndex e.table name).map Prod.fst),
      ∀ db db', f db = .ok db' → ∀ table, (db'.tx table).data = (db.tx table).data := by
    intro names f hf db db' hrun table
    obtain ⟨name, _, rfl⟩ := List.mem_map.1 hf
    obtain ⟨found, hfound⟩ := Db.deleteIndex_fst hrun
    exact (Db.deleteIndex_tables hfound table).1
  cases call with
  | createIndex d => exact untilError_data (hcreate [d]) db table
  | createIndexes ds => exact untilError_data (hcreate ds) db table
  | ensureIndex d => exact untilError_data (hensure [d]) db table
  | ensureIndexes ds => exact untilError_data (hensure ds) db table
  | deleteIndex name => exact untilError_data (hdelete [name]) db table
  | deleteIndexes names => exact untilError_data (hdelete names) db table

/-! ## The guest -/

/-- Only names that the table has are created, and only names that it has not are deleted. -/
def IndexCall.Spares (registry : Registry) (table : Str) : IndexCall → Prop
  | .createIndex d => (registry.lookup table d.name).isSome
  | .createIndexes ds => ∀ d ∈ ds, (registry.lookup table d.name).isSome
  | .ensureIndex d => (registry.lookup table d.name).isSome
  | .ensureIndexes ds => ∀ d ∈ ds, (registry.lookup table d.name).isSome
  | .deleteIndex name => registry.lookup table name = none
  | .deleteIndexes names => ∀ name ∈ names, registry.lookup table name = none

def PublicCall.SparesIndexes (s : Process) : PublicCall → Prop
  | .index t _ call => ∀ name principal, s.tables.get t = some (name, principal) →
      call.Spares s.db.registry name
  | _ => True

theorem Db.createIndex_registered {db db' : Db} {e : Env} {d : IndexDef}
    (hname : (db.registry.lookup e.table d.name).isSome) (h : db.createIndex e d = .ok db') : db' = db := by
  unfold Db.createIndex Registry.create at h
  obtain ⟨entry, hentry⟩ := Option.isSome_iff_exists.1 hname
  rw [hentry] at h
  dsimp only at h
  split at h
  · cases h
    rfl
  · cases h

omit [Externals] in
theorem Db.deleteIndex_unregistered {db db' : Db} {table name : Str}
    (hname : db.registry.lookup table name = none)
    (h : (db.deleteIndex table name).map Prod.fst = .ok db') : db' = db := by
  unfold Db.deleteIndex Registry.delete at h
  rw [hname] at h
  cases h
  rfl

theorem IndexCall.Spares.apply_eq {e : Env} {db : Db} {call : IndexCall}
    (h : call.Spares db.registry e.table) : call.apply e db = db := by
  have hcreate : ∀ ds : List IndexDef, (∀ d ∈ ds, (db.registry.lookup e.table d.name).isSome) →
      ∀ f ∈ ds.map (fun d (db : Db) => db.createIndex e d), ∀ db', f db = .ok db' → db' = db := by
    intro ds hds f hf db' hrun
    obtain ⟨d, hd, rfl⟩ := List.mem_map.1 hf
    exact Db.createIndex_registered (hds d hd) hrun
  have hensure : ∀ ds : List IndexDef, (∀ d ∈ ds, (db.registry.lookup e.table d.name).isSome) →
      ∀ f ∈ ds.map (fun d (db : Db) => db.ensureIndex e d), ∀ db', f db = .ok db' → db' = db := by
    intro ds hds f hf db' hrun
    obtain ⟨d, hd, rfl⟩ := List.mem_map.1 hf
    dsimp only at hrun
    rw [Db.ensureIndex, if_pos (hds d hd)] at hrun
    cases hrun
    rfl
  have hdelete : ∀ names : List Str, (∀ name ∈ names, db.registry.lookup e.table name = none) →
      ∀ f ∈ names.map (fun name (db : Db) => (db.deleteIndex e.table name).map Prod.fst),
      ∀ db', f db = .ok db' → db' = db := by
    intro names hnames f hf db' hrun
    obtain ⟨name, hname, rfl⟩ := List.mem_map.1 hf
    exact Db.deleteIndex_unregistered (hnames name hname) hrun
  cases call with
  | createIndex d => exact untilError_eq (hcreate [d] (List.forall_mem_singleton.2 h))
  | createIndexes ds => exact untilError_eq (hcreate ds h)
  | ensureIndex d => exact untilError_eq (hensure [d] (List.forall_mem_singleton.2 h))
  | ensureIndexes ds => exact untilError_eq (hensure ds h)
  | deleteIndex name => exact untilError_eq (hdelete [name] (List.forall_mem_singleton.2 h))
  | deleteIndexes names => exact untilError_eq (hdelete names h)

theorem PublicCall.guest_step {s s' : Process} {call : PublicCall} (hwriter : s.writer = none)
    (hactor : call.actor s = some .guest) (hspares : call.SparesIndexes s) (hstep : s.step call = some s') :
    s'.db = s.db ∧ s'.writer = none := by
  cases call with
  | clone h h' =>
    rw [Process.step, show s.handles.get h = some .guest from hactor] at hstep
    cases hstep
    exact ⟨rfl, hwriter⟩
  | withAuthentication h h' session =>
    rw [Process.step, show s.handles.get h = some .guest from hactor] at hstep
    cases hstep
    exact ⟨rfl, hwriter⟩
  | withPubkey h h' =>
    rw [Process.step, show s.handles.get h = some .guest from hactor] at hstep
    cases hstep
    exact ⟨rfl, hwriter⟩
  | openTable h t name =>
    rw [Process.step, show s.handles.get h = some .guest from hactor] at hstep
    cases hstep
    split <;> exact ⟨rfl, hwriter⟩
  | observe h =>
    rw [Process.step, show s.handles.get h = some .guest from hactor] at hstep
    cases hstep
    exact ⟨rfl, hwriter⟩
  | observeTable t =>
    obtain ⟨x, htable, _⟩ := Option.map_eq_some_iff.1 hactor
    rw [Process.step, htable] at hstep
    cases hstep
    exact ⟨rfl, hwriter⟩
  | changePassword h h' e p w password key seed listed =>
    rw [Process.step, show s.handles.get h = some .guest from hactor] at hstep
    cases hstep
    exact ⟨rfl, hwriter⟩
  | admin h e p op =>
    rw [Process.step, show s.handles.get h = some .guest from hactor] at hstep
    cases hstep
    exact ⟨rfl, hwriter⟩
  | index t e call =>
    obtain ⟨⟨name, principal⟩, htable, _⟩ := Option.map_eq_some_iff.1 hactor
    rw [Process.step, htable] at hstep
    dsimp only [bind, Option.bind] at hstep
    rw [hwriter] at hstep
    cases hstep
    exact ⟨IndexCall.Spares.apply_eq (e := e.on name) (hspares name principal htable), rfl⟩
  | write t e names buffering =>
    obtain ⟨⟨name, principal⟩, htable, hguest⟩ := Option.map_eq_some_iff.1 hactor
    cases hguest
    rw [Process.step, htable] at hstep
    cases hstep
    exact ⟨rfl, hwriter⟩
  | mutate step =>
    rw [PublicCall.actor, hwriter] at hactor
    cases hactor
  | commit =>
    rw [PublicCall.actor, hwriter] at hactor
    cases hactor
  | drop =>
    rw [PublicCall.actor, hwriter] at hactor
    cases hactor

/-- **When a guest only reads.** Public calls of a guest, made through its handles, their clones and
the tables opened through them, never change the committed state, as long as its index calls create
only names that the table has already and delete only names that it has not. -/
theorem guest_keeps_committed (s s' : Process) (calls : List PublicCall) (hwriter : s.writer = none)
    (hguest : s.Along (fun s call => call.actor s = some .guest) calls)
    (hspares : s.Along (fun s call => call.SparesIndexes s) calls) (hrun : s.run calls = some s') :
    s'.db = s.db := by
  induction calls generalizing s with
  | nil =>
    cases hrun
    rfl
  | cons call calls ih =>
    obtain ⟨mid, hstep, hrun⟩ := Option.bind_eq_some_iff.1 hrun
    obtain ⟨hdb, hwriter⟩ := call.guest_step hwriter hguest.1 hspares.1 hstep
    rw [← hdb]
    exact ih mid hwriter (hguest.2 mid hstep) (hspares.2 mid hstep) hrun

/-! ## After the promotion -/

/-- The transaction that is open on a protected database is an authenticated user's. -/
def Process.Guarded (s : Process) : Prop :=
  s.db.isProtected = true → ∀ txn, s.writer = some txn → ∃ session, txn.env.principal = .user session

/-- No transaction is begun on a protected database through a table of an unrestricted handle. -/
def PublicCall.BeginsAuthenticated (s : Process) : PublicCall → Prop
  | .write t _ _ _ => s.db.isProtected = true → ∀ name, s.tables.get t ≠ some (name, .unrestricted)
  | _ => True

/-- A call that changes a data table of a protected database is an authenticated user's. -/
def PublicCall.WritesAuthenticated (s : Process) (call : PublicCall) : Prop :=
  s.db.isProtected = true → ∀ s', s.step call = some s' →
    (∃ table, (s'.db.tx table).data ≠ (s.db.tx table).data) → ∃ session, call.actor s = some (.user session)

omit [Externals] in
theorem Process.guarded_of_none {s : Process} (h : s.writer = none) : s.Guarded := by
  intro _ txn htxn
  rw [h] at htxn
  cases htxn

omit [Externals] in
theorem Db.promote_data {db : Db} {c : Crypto} {p : Primitives} {key seed : Bytes} {w : Wrapping}
    {password : Str} {listed : List Str} {x : Db × Session}
    (h : db.promoteToMaster c p key seed w password listed = .ok x) (table : Str) :
    (x.1.tx table).data = (db.tx table).data := by
  unfold Db.promoteToMaster at h
  obtain ⟨entry, _, h⟩ := Except.bind_eq_ok.1 h
  obtain ⟨control, _, h⟩ := Except.bind_eq_ok.1 h
  cases h
  exact (@sealTables_spec c key seed listed { db with control := control } table).1

omit [Externals] in
theorem adminCreds_user {principal : Principal} {session : Session}
    (h : adminCreds principal = .ok session) : principal = .user session := by
  unfold adminCreds at h
  split at h
  · split at h
    · cases h
      rfl
    · cases h
  · cases h

/-- A call keeps the open transaction guarded, and writes only for an authenticated user. -/
theorem Process.Guarded.step {s s' : Process} {call : PublicCall} (h : s.Guarded)
    (hbegins : call.BeginsAuthenticated s) (hstep : s.step call = some s') :
    s'.Guarded ∧ (s.db.isProtected = true → (∃ table, (s'.db.tx table).data ≠ (s.db.tx table).data) →
      ∃ session, call.actor s = some (.user session)) := by
  have hquiet : ∀ {s' : Process}, s'.db = s.db → s'.writer = s.writer → s'.Guarded ∧
      (s.db.isProtected = true → (∃ table, (s'.db.tx table).data ≠ (s.db.tx table).data) →
        ∃ session, call.actor s = some (.user session)) := by
    rintro ⟨_, _, _, _⟩ rfl rfl
    exact ⟨h, fun _ ⟨_, hne⟩ => absurd rfl hne⟩
  cases call with
  | clone h h' =>
    obtain ⟨principal, _, hstep⟩ := Option.bind_eq_some_iff.1 hstep
    cases hstep
    exact hquiet rfl rfl
  | withAuthentication h h' session =>
    obtain ⟨principal, _, hstep⟩ := Option.bind_eq_some_iff.1 hstep
    cases principal <;> cases hstep <;> exact hquiet rfl rfl
  | withPubkey h h' =>
    obtain ⟨principal, _, hstep⟩ := Option.bind_eq_some_iff.1 hstep
    cases principal <;> cases hstep <;> exact hquiet rfl rfl
  | openTable h t name =>
    obtain ⟨principal, _, hstep⟩ := Option.bind_eq_some_iff.1 hstep
    cases hstep
    split <;> exact hquiet rfl rfl
  | observe h =>
    obtain ⟨principal, _, hstep⟩ := Option.bind_eq_some_iff.1 hstep
    cases hstep
    exact hquiet rfl rfl
  | observeTable t =>
    obtain ⟨x, _, hstep⟩ := Option.bind_eq_some_iff.1 hstep
    cases hstep
    exact hquiet rfl rfl
  | changePassword h h' e p w password key seed listed =>
    obtain ⟨principal, hprincipal, hstep⟩ := Option.bind_eq_some_iff.1 hstep
    cases principal with
    | guest =>
      cases hstep
      exact hquiet rfl rfl
    | unrestricted =>
      dsimp only at hstep
      split at hstep
      · cases hstep
      · rename_i hwriter
        split at hstep
        · rename_i db session hpromote
          cases hstep
          refine ⟨guarded_of_none (by simpa using hwriter), fun _ ⟨table, hne⟩ => ?_⟩
          exact absurd (Db.promote_data hpromote table) hne
        · cases hstep
          exact hquiet rfl rfl
    | user session =>
      dsimp only at hstep
      split at hstep
      · cases hstep
      · rename_i hfree
        rw [not_or] at hfree
        split at hstep
        · cases hstep
          exact ⟨guarded_of_none (by simpa using hfree.1), fun _ _ => ⟨session, hprincipal⟩⟩
        · cases hstep
          exact hquiet rfl rfl
  | admin h e p op =>
    obtain ⟨principal, hprincipal, hstep⟩ := Option.bind_eq_some_iff.1 hstep
    unfold administer at hstep
    split at hstep
    · cases hstep
      exact hquiet rfl rfl
    · rename_i session hcreds
      split at hstep
      · cases hstep
      · rename_i hfree
        rw [not_or] at hfree
        split at hstep
        · cases hstep
          refine ⟨guarded_of_none (by simpa using hfree.1), fun _ _ => ⟨session, ?_⟩⟩
          rw [← adminCreds_user hcreds]
          exact hprincipal
        · cases hstep
          exact hquiet rfl rfl
  | index t e call =>
    obtain ⟨⟨name, principal⟩, _, hstep⟩ := Option.bind_eq_some_iff.1 hstep
    dsimp only at hstep
    split at hstep
    · cases hstep
    · rename_i hwriter
      cases hstep
      refine ⟨guarded_of_none (by simpa using hwriter), fun _ ⟨table, hne⟩ => ?_⟩
      exact absurd (call.data_apply _ s.db table) hne
  | write t e names buffering =>
    obtain ⟨⟨name, principal⟩, htable, hstep⟩ := Option.bind_eq_some_iff.1 hstep
    have hopen : ∀ principal, s.tables.get t = some (name, principal) →
        (if s.writer.isSome ∨ e.principal ≠ principal ∨ e.table ≠ name then none
          else some { s with writer := some ⟨e, names, (s.db.tx name).begin buffering⟩ }) = some s' →
        principal ≠ .guest → s'.Guarded ∧ s'.db = s.db := by
      intro principal htable hstep hguest
      split at hstep
      · cases hstep
      · rename_i hfree
        rw [not_or, not_or, not_not] at hfree
        cases hstep
        refine ⟨?_, rfl⟩
        rintro hprotected _ ⟨⟩
        cases hprincipal : principal with
        | user session => exact ⟨session, hfree.2.1.trans hprincipal⟩
        | guest => exact absurd hprincipal hguest
        | unrestricted =>
          rw [hprincipal] at htable
          exact absurd htable (hbegins hprotected name)
    have hdone : s'.Guarded ∧ s'.db = s.db := by
      cases principal with
      | guest =>
        cases hstep
        exact ⟨h, rfl⟩
      | unrestricted => exact hopen _ htable hstep (by simp)
      | user session => exact hopen _ htable hstep (by simp)
    refine ⟨hdone.1, fun _ ⟨table, hne⟩ => absurd ?_ hne⟩
    rw [hdone.2]
  | mutate step =>
    obtain ⟨txn, htxn, hstep⟩ := Option.bind_eq_some_iff.1 hstep
    cases hstep
    refine ⟨?_, fun _ ⟨_, hne⟩ => absurd rfl hne⟩
    rintro hprotected _ ⟨⟩
    exact h hprotected txn htxn
  | commit =>
    obtain ⟨txn, htxn, hstep⟩ := Option.bind_eq_some_iff.1 hstep
    cases hstep
    refine ⟨guarded_of_none rfl, fun hprotected _ => ?_⟩
    obtain ⟨session, hsession⟩ := h hprotected txn htxn
    exact ⟨session, Option.map_eq_some_iff.2 ⟨txn, htxn, hsession⟩⟩
  | drop =>
    obtain ⟨txn, _, hstep⟩ := Option.bind_eq_some_iff.1 hstep
    cases hstep
    exact ⟨guarded_of_none rfl, fun _ ⟨_, hne⟩ => absurd rfl hne⟩

/-- **When promotion closes every unauthenticated door.** In every run of public calls from an
unprotected database in which, once it is protected, no transaction is begun through a table of a
handle that is still unrestricted, every later change of a data table is an authenticated user's. -/
theorem promotion_closes_doors (s : Process) (calls : List PublicCall) (hstart : s.db.isProtected = false)
    (hbegins : s.Along (fun s call => call.BeginsAuthenticated s) calls) :
    s.Along (fun s call => call.WritesAuthenticated s) calls := by
  have hguarded : s.Guarded := fun hprotected => by
    rw [hstart] at hprotected
    cases hprotected
  clear hstart
  induction calls generalizing s with
  | nil => trivial
  | cons call calls ih =>
    refine ⟨fun hprotected s' hstep => (hguarded.step hbegins.1 hstep).2 hprotected, fun mid hstep => ?_⟩
    exact ih mid (hbegins.2 mid hstep) (hguarded.step hbegins.1 hstep).1

theorem Process.along_cons {P : Process → PublicCall → Prop} {s mid : Process} {call : PublicCall}
    {calls : List PublicCall} (hstep : s.step call = some mid) (hcall : P s call) (h : mid.Along P calls) :
    s.Along P (call :: calls) := by
  refine ⟨hcall, fun s' hs' => ?_⟩
  cases hstep.symm.trans hs'
  exact h

end Model

/-! ## Small runs -/

section Small

/-- The session of the master of the small database. -/
def masterEnv : Env :=
  { userEnv 0 with principal := .user ⟨masterUid, [masterGid], [7], [8]⟩, writer := nofun, unprotected := nofun }

/-- A handle on the unprotected database. -/
def unrestrictedEnv : Env :=
  { userEnv 0 with principal := .unrestricted, writer := Principal.unrestricted_ne_guest, unprotected := fun _ => rfl }

/-- The process that opened a database through one handle. -/
def Process.opened (db : Db) (principal : Principal) : Process :=
  ⟨db, SortedMap.empty.insert 0 principal, .empty, none⟩

def plainWrapping : Wrapping := ⟨List.replicate 16 0, List.replicate 24 0, rfl, rfl⟩

/-- Promotes the database; handle 1 is the master's. -/
def promoteCall : @PublicCall Reference.externals :=
  letI := Reference.externals
  .changePassword 0 1 unrestrictedEnv plainPrimitives plainWrapping ⟨"pw"⟩ [7] [8] []

/-- A write transaction on table 0 that stores the file `a`. -/
def storeCalls (e : Env) : List (@PublicCall Reference.externals) :=
  letI := Reference.externals
  [.write 0 e ⟨fun _ => none, fun _ => none⟩ true, .mutate ⟨0, [], .call (.store (pathOf ["a"]) [])⟩, .commit]

/-- The small protected database. -/
def promotedDb : Db :=
  letI := Reference.externals
  (((Process.opened .empty .unrestricted).run [promoteCall]).map Process.db).getD .empty

/-- A guest clones its handle, opens a table and tries to write, to administer and to drop an index. -/
theorem guest_keeps_committed_tries : letI := Reference.externals
    promotedDb.isProtected = true ∧
    ∃ s', (Process.opened promotedDb .guest).run [.clone 0 1, .openTable 1 0 ⟨"t"⟩,
        .write 0 masterEnv ⟨fun _ => none, fun _ => none⟩ true,
        .admin 1 masterEnv plainPrimitives (.addGroup ⟨"g"⟩), .index 0 masterEnv (.deleteIndex ⟨"i"⟩)] = some s' ∧
      s'.db = promotedDb := by
  let _ := Reference.externals
  refine ⟨rfl, _, rfl, ?_⟩
  refine guest_keeps_committed (Process.opened promotedDb .guest) _ [.clone 0 1, .openTable 1 0 ⟨"t"⟩,
    .write 0 masterEnv ⟨fun _ => none, fun _ => none⟩ true,
    .admin 1 masterEnv plainPrimitives (.addGroup ⟨"g"⟩), .index 0 masterEnv (.deleteIndex ⟨"i"⟩)] rfl ?_ ?_ rfl
  · iterate 5 refine Process.along_cons rfl rfl ?_
    trivial
  · iterate 4 refine Process.along_cons rfl trivial ?_
    refine Process.along_cons rfl ?_ trivial
    rintro name principal ⟨⟩
    rfl

/-- A guest creates an index, which its handle lets it do. -/
theorem guest_creates_index : letI := Reference.externals
    promotedDb.isProtected = true ∧
    ∃ calls s', (Process.opened promotedDb .guest).Along (fun s call => call.actor s = some .guest) calls ∧
      (Process.opened promotedDb .guest).run calls = some s' ∧ s'.db.registry ≠ promotedDb.registry := by
  let _ := Reference.externals
  refine ⟨rfl, [.openTable 0 0 ⟨"t"⟩, .index 0 masterEnv (.createIndex ⟨⟨"i"⟩, ⟨"a"⟩, [], false⟩)], _, ?_, rfl,
    by decide⟩
  iterate 2 refine Process.along_cons rfl rfl ?_
  trivial

/-- The master's own handle writes after the promotion. -/
theorem promotion_closes_doors_master : letI := Reference.externals
    (Process.opened .empty .unrestricted).db.isProtected = false ∧
    ((Process.opened .empty .unrestricted).run ([promoteCall, .openTable 1 0 ⟨"t"⟩] ++ storeCalls masterEnv)).isSome ∧
    (Process.opened .empty .unrestricted).Along (fun s call => call.WritesAuthenticated s)
      ([promoteCall, .openTable 1 0 ⟨"t"⟩] ++ storeCalls masterEnv) := by
  let _ := Reference.externals
  refine ⟨rfl, rfl, promotion_closes_doors (Process.opened .empty .unrestricted) _ rfl ?_⟩
  iterate 2 refine Process.along_cons rfl trivial ?_
  refine Process.along_cons rfl ?_ ?_
  · rintro _ name ⟨⟩
  iterate 2 refine Process.along_cons rfl trivial ?_
  trivial

/-- A table opened before the promotion is written after it, without a session. -/
theorem promotion_leaves_door : letI := Reference.externals
    ¬ (Process.opened .empty .unrestricted).Along (fun s call => call.WritesAuthenticated s)
      ([.openTable 0 0 ⟨"t"⟩, promoteCall] ++ storeCalls unrestrictedEnv) := by
  let _ := Reference.externals
  intro h
  have hcommit := ((((h.2 _ rfl).2 _ rfl).2 _ rfl).2 _ rfl).1
  obtain ⟨session, hactor⟩ := hcommit rfl _ rfl ⟨⟨"t"⟩, by decide⟩
  cases hactor

end Small

end ArborDb
