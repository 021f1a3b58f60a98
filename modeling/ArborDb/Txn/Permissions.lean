import ArborDb.Txn.Write

/-!
# Changing owners and access-control lists

The calls that a build with permissions adds to the write transaction. Both tags of an a-node bind
its list, so a change of the list seals the a-node again: over its buffered edit if it has one,
else over the entry of the table. An a-node without either is sealed when the buffer is flushed.
-/

namespace ArborDb

/-- The users and groups by name. -/
structure Names where
  uidOf : Str → Option Id32
  gidOf : Str → Option Id32

/-! ## Lists -/

/-- Replaces an a-node's list. -/
def writeAcl (akey : AKey) (acl : Acl) : TxM Unit :=
  modify (fun _ s => { s with inodes := s.inodes.setAcl akey acl }) fun _ _ => rfl

/-- The inodes after an a-node's tags are computed again over its list. -/
def Env.reseal (e : Env) (s : TxState) (akey : AKey) : InodeTable :=
  match e.principal with
  | .user session =>
    match ((s.buffer.fileGet akey).map Entry.file).or (s.data.get akey) with
    | none => s.inodes
    | some entry =>
      let acl := ((s.inodes.readAcl akey).map Acl.encode).getD []
      let mac := macValue e.crypto session.key e.table akey entry.toBytes acl
      let sig := signValue e.crypto session.signSeed e.table akey entry.toBytes acl
      (s.inodes.sealMac akey mac).sealSig akey sig
  | _ => s.inodes

/-- Seals an a-node again after a change of its list. -/
def resealIntegrity (akey : AKey) : TxM Unit :=
  modify (fun e s => { s with inodes := e.reseal s akey }) fun _ _ => rfl

/-- The a-node at a path and its list, verified: where a change of the list begins. -/
def aclTarget (e : Env) (s : TxState) (path : APath) : AdbResult (AKey × Acl) := do
  match ← resolve e s path with
  | none => throw (.valueNotFound path)
  | some akey =>
    if akey = .root then throw (.permissionDenied "the root ACL cannot be changed")
    else
      let _ ← readVerified e s akey
      match s.inodes.readAcl akey with
      | none => throw (.cannotAccess "this a-node has no ACL")
      | some acl => return (akey, acl)

/-- Changes the owner of the a-node at a path. -/
def chownInto (path : APath) (newUid : Id32) : TxM Unit := do
  let (akey, acl) ← inspect (aclTarget · · path)
  inspect fun e _ => authorizeChown e.principal acl
  writeAcl akey (acl.setOwnerUid newUid)
  resealIntegrity akey

/-- Changes the list of the a-node at a path. -/
def setAclInto (path : APath) (apply : Acl → Acl) : TxM Unit := do
  let (akey, acl) ← inspect (aclTarget · · path)
  inspect fun e _ => authorize e.principal akey (some acl) .modify
  writeAcl akey (apply acl)
  resealIntegrity akey

/-! ## The calls -/

def requireUid (names : Names) (owner : Str) : AdbResult Id32 :=
  match names.uidOf owner with
  | some uid => .ok uid
  | none => .error (.cannotAccess ("no user named '" ++ owner.text ++ "'"))

def requireGid (names : Names) (group : Str) : AdbResult Id32 :=
  match names.gidOf group with
  | some gid => .ok gid
  | none => .error (.cannotAccess ("no group named '" ++ group.text ++ "'"))

/-- Gives the a-node at a path to another user. -/
def chown (names : Names) (path : APath) (owner : Str) : TxM Unit := do
  let uid ← inspect fun _ _ => requireUid names owner
  chownInto path uid

/-- Grants a grade to a class on the a-node at a path. -/
def setAcl (names : Names) (path : APath) (cls : AclClass) (rights : Rights) : TxM Unit :=
  match cls with
  | .user => setAclInto path fun acl => acl.setOwnerRights rights
  | .other => setAclInto path fun acl => acl.setOtherRights rights
  | .group name => do
    let gid ← inspect fun _ _ => requireGid names name
    setAclInto path fun acl => acl.setGroupRights gid rights

/-- Adds the a-node at a path to a group. -/
def addGroup (names : Names) (path : APath) (group : Str) : TxM Unit := do
  let gid ← inspect fun _ _ => requireGid names group
  setAclInto path fun acl => acl.addGroup gid

/-- Removes the a-node at a path from a group. -/
def delGroup (names : Names) (path : APath) (group : Str) : TxM Unit := do
  let gid ← inspect fun _ _ => requireGid names group
  setAclInto path fun acl => acl.removeGroup gid

section Runs

variable [Externals]

/-- A mutating call of a write transaction on a protected database. -/
inductive Op where
  | call (c : Call)
  | chown (path : APath) (owner : Str)
  | setAcl (path : APath) (cls : AclClass) (rights : Rights)
  | addGroup (path : APath) (group : Str)
  | delGroup (path : APath) (group : Str)

/-- The program of a call. -/
def Op.prog (names : Names) (indexes : List IndexEntry) : Op → TxM Unit
  | .call c => c.prog indexes
  | .chown path owner => ArborDb.chown names path owner
  | .setAcl path cls rights => ArborDb.setAcl names path cls rights
  | .addGroup path group => ArborDb.addGroup names path group
  | .delGroup path group => ArborDb.delGroup names path group

/-- One call: when it is made, and the indexes registered then. -/
structure OpStep where
  now : Int
  indexes : List IndexEntry
  op : Op

/-- A write transaction on a protected database: its identity, the names it resolves, whether it
starts buffering, and its calls in order. -/
structure OpTxn where
  env : Env
  names : Names
  buffering : Bool
  steps : List OpStep

/-- A call's outcome and the state after it. -/
def OpStep.exec (e : Env) (names : Names) (s : TxState) (step : OpStep) : AdbResult Unit × TxState :=
  (step.op.prog names step.indexes).run { e with now := step.now } s

/-- The state after some calls of a transaction, whichever of them succeed. -/
def OpTxn.after (txn : OpTxn) (s : TxState) (steps : List OpStep) : TxState :=
  steps.foldl (fun s step => (step.exec txn.env txn.names s).2) (s.begin txn.buffering)

/-- The tables a transaction commits. -/
def OpTxn.run (s : TxState) (txn : OpTxn) : TxState :=
  (commit.run txn.env (txn.after s txn.steps)).2

/-- The tables after some transactions. -/
def runOps (s : TxState) (txns : List OpTxn) : TxState := txns.foldl OpTxn.run s

theorem OpTxn.after_append (txn : OpTxn) (s : TxState) (done : List OpStep) (step : OpStep) :
    txn.after s (done ++ [step]) = (step.exec txn.env txn.names (txn.after s done)).2 := by
  unfold OpTxn.after
  rw [List.foldl_append]
  rfl

theorem runOps_append (s : TxState) (txns : List OpTxn) (txn : OpTxn) :
    runOps s (txns ++ [txn]) = txn.run (runOps s txns) := by
  unfold runOps
  rw [List.foldl_append]
  rfl

theorem OpStep.drawn_le (e : Env) (names : Names) (s : TxState) (step : OpStep) :
    s.drawn ≤ (step.exec e names s).2.drawn :=
  (step.op.prog names step.indexes).drawn_le _ s

theorem OpTxn.drawn_le (s : TxState) (txn : OpTxn) : s.drawn ≤ (txn.run s).drawn := by
  have hsteps : s.drawn ≤ (txn.after s txn.steps).drawn :=
    foldl_drawn_le (OpStep.drawn_le txn.env txn.names) txn.steps (s.begin txn.buffering)
  exact hsteps.trans (commit.drawn_le txn.env _)

/-- No step of a run draws more keys than the run. -/
theorem drawn_le_runOps (s : TxState) {txns before after : List OpTxn} {txn : OpTxn}
    {done rest : List OpStep} {step : OpStep} (htxns : txns = before ++ txn :: after)
    (hsteps : txn.steps = done ++ step :: rest) :
    (step.exec txn.env txn.names (txn.after (runOps s before) done)).2.drawn ≤
      (runOps s txns).drawn := by
  have hstep : (step.exec txn.env txn.names (txn.after (runOps s before) done)).2.drawn ≤
      (txn.after (runOps s before) txn.steps).drawn := by
    unfold OpTxn.after
    rw [hsteps, List.foldl_append]
    exact foldl_drawn_le (OpStep.drawn_le txn.env txn.names) rest _
  have htxn : (txn.run (runOps s before)).drawn ≤ (runOps s txns).drawn := by
    unfold runOps
    rw [htxns, List.foldl_append]
    exact foldl_drawn_le OpTxn.drawn_le after _
  exact (hstep.trans (commit.drawn_le txn.env _)).trans htxn

end Runs

/-! ## A small database -/

/-- A protected database whose keys are the numbers from one on, opened by a user. Its tags are the
messages themselves behind the key. -/
def userEnv (uid : Id32) : Env where
  build := .permissions
  table := ⟨"t"⟩
  principal := .user ⟨uid, [], [7], [8]⟩
  now := 0
  gen i := .ofNat (i + 1)
  crypto := ⟨fun key message => key ++ message, id, fun seed message => seed ++ message⟩
  writer := nofun
  unprotected h := absurd rfl h

end ArborDb
