import ArborDb.Db.Database
import ArborDb.Perm.Roster

/-!
# Runs of the permission store

A run begins with the promotion, which opens the session of the master. It goes on with logins, with
administration through the sessions opened so far, and with write transactions. A call that fails
leaves everything as it was.
-/

namespace ArborDb

/-- A protected database, the sessions opened on it, and what the run did: the password that each
user was given last, the ids that were issued, in order, and the number of creations. -/
structure Realm where
  db : Db
  sessions : List Session
  password : Id32 → Option Str
  uids : List Id32
  gids : List Id32
  created : Nat

inductive RealmCall [Externals] where
  | login (user password : Str)
  | admin (session : Nat) (now : Int) (gen : Nat → AKey) (op : Admin)
  | write (txn : OpTxn)

/-- The environment of administration through a session. -/
def Session.env (c : Crypto) (now : Int) (gen : Nat → AKey) (s : Session) : Env :=
  ⟨.permissions, ⟨""⟩, .user s, now, gen, c, Principal.user_ne_guest s, fun h => absurd rfl h⟩

/-- The passwords after a call that succeeds. -/
def Admin.password (s : Session) (next : Id32) (password : Id32 → Option Str) :
    Admin → Id32 → Option Str
  | .addUser _ pw _ _ => Function.update password next (some pw)
  | .changePassword pw _ => Function.update password s.uid (some pw)
  | _ => password

/-- Whether a call creates a user or a group. -/
def Admin.creates : Admin → Bool
  | .addUser _ _ _ _ | .addGroup _ => true
  | _ => false

/-- The ids that a store has and an earlier one has not. -/
def issued (old new : List Id32) : List Id32 := new.filter (· ∉ old)

def Control.uids (control : Control) : List Id32 := control.loadUsers.users.map UserRecord.uid

def Control.gids (control : Control) : List Id32 := control.loadGroups.groups.map GroupRecord.gid

namespace Realm

/-- The realm that a promotion makes. -/
def promoted (db : Db) (session : Session) (password : Str) : Realm where
  db := db
  sessions := [session]
  password := Function.update (fun _ => none) session.uid (some password)
  uids := db.control.uids
  gids := db.control.gids
  created := 0

section Model

variable [Externals] (c : Crypto) (p : KeyWrap)

def step (realm : Realm) : RealmCall → Realm
  | .login user password =>
    match realm.db.control.authenticate c p user password with
    | .ok session => { realm with sessions := realm.sessions ++ [session] }
    | .error _ => realm
  | .admin i now gen op =>
    match realm.sessions[i]? with
    | none => realm
    | some s =>
      match op.exec (s.env c now gen) p.toPrimitives realm.db with
      | .ok db =>
        { db := db
          sessions := realm.sessions
          password := op.password s realm.db.control.loadUsers.nextUid realm.password
          uids := realm.uids ++ issued realm.db.control.uids db.control.uids
          gids := realm.gids ++ issued realm.db.control.gids db.control.gids
          created := realm.created + op.creates.toNat }
      | .error _ => realm
  | .write txn => { realm with db := realm.db.write txn }

def run (realm : Realm) (calls : List RealmCall) : Realm := calls.foldl (step c p) realm

end Model

end Realm

/-! ## Passwords -/

/-- What the encryption behind a password does: it opens what it wrapped, and a wrapping opens to
nothing else. -/
structure KeyWrap.Authentic (p : KeyWrap) : Prop where
  opens : ∀ password w secret wrapped, secret.length = 64 →
    p.wrapKey password w secret = .ok wrapped → p.unwrapKey password w wrapped = .ok secret
  only : ∀ password password' w secret secret' wrapped, secret.length = 64 →
    p.wrapKey password w secret = .ok wrapped → p.unwrapKey password' w wrapped = .ok secret' →
      secret' = secret

section Secrets

variable {p : KeyWrap} {key seed : Bytes} {w : Wrapping} {entry : KeyringEntry} {password : Str}

theorem wrapSecrets_ok (h : wrapSecrets p.toPrimitives w password key seed = .ok entry) :
    entry.toWrapping = w ∧ p.wrapKey password w (key ++ seed) = .ok entry.wrapped := by
  obtain ⟨wrapped, hwrapped, h⟩ := Except.bind_eq_ok.1 h
  cases h
  exact ⟨rfl, hwrapped⟩

theorem wrapSecrets_self (h : wrapSecrets p.toPrimitives w password key seed = .ok entry) :
    wrapSecrets p.toPrimitives entry.toWrapping password key seed = .ok entry := by
  rw [(wrapSecrets_ok h).1]
  exact h

variable (hkey : key.length = 32) (hseed : seed.length = 32)
include hkey hseed

theorem splitSecrets_append : splitSecrets (key ++ seed) = .ok (key, seed) := by
  have hlength : (key ++ seed).length = 64 := by
    rw [List.length_append, hkey, hseed]
  unfold splitSecrets
  rw [if_neg (fun h => h hlength), List.take_left' hkey, List.drop_left' hkey]

variable (hp : p.Authentic)
include hp

theorem unwrapSecrets_wrapped (h : wrapSecrets p.toPrimitives entry.toWrapping password key seed = .ok entry) :
    unwrapSecrets p password entry = .ok (key, seed) := by
  unfold unwrapSecrets
  rw [hp.opens _ _ _ _ (by rw [List.length_append, hkey, hseed]) (wrapSecrets_ok h).2]
  exact splitSecrets_append hkey hseed

/-- Whatever password opens a wrapping, it opens to the secrets that were wrapped. -/
theorem unwrapSecrets_only {other : Str} {secrets : Bytes × Bytes}
    (h : wrapSecrets p.toPrimitives entry.toWrapping password key seed = .ok entry)
    (hopen : unwrapSecrets p other entry = .ok secrets) : secrets = (key, seed) := by
  obtain ⟨plain, hplain, hopen⟩ := Except.bind_eq_ok.1 hopen
  have hsame := hp.only _ _ _ _ _ _ (by rw [List.length_append, hkey, hseed]) (wrapSecrets_ok h).2 hplain
  rw [hsame, splitSecrets_append hkey hseed] at hopen
  cases hopen
  rfl

end Secrets

/-! ## One call -/

theorem Db.reapAll_control {e : Env} {uid : Id32} {listed : List Str} {db db' : Db}
    (h : Db.reapAll e uid listed db = .ok db') : db'.control = db.control := by
  induction listed generalizing db with
  | nil =>
    cases h
    rfl
  | cons table tables ih =>
    obtain ⟨mid, hmid, h⟩ := Except.bind_eq_ok.1 h
    rw [ih h]
    unfold Db.reapOwnedIn at hmid
    split at hmid
    · cases hmid
      rfl
    · cases hmid

theorem Keyed.of_same {p : KeyWrap} {key seed : Bytes} {password : Id32 → Option Str} {u u' : Users}
    (h : Keyed p key seed password u) (hsame : SameKeyrings u u') : Keyed p key seed password u' := by
  intro user huser hguest
  obtain ⟨old, hold, huid, hkeyring⟩ := hsame user huser
  rw [← huid, ← hkeyring]
  exact h old hold (huid ▸ hguest)

section Step

variable {c : Crypto} {p : KeyWrap} {key seed : Bytes} {password : Id32 → Option Str} {db db' : Db}

theorem Keyed.add {u : Users} (user : UserRecord) {entry : KeyringEntry} {pw : Str}
    (h : Keyed p key seed password u) (hroster : UserRoster u) (huid : user.uid = u.nextUid)
    (hkeyring : user.keyring = some entry)
    (hwrap : wrapSecrets p.toPrimitives entry.toWrapping pw key seed = .ok entry) :
    Keyed p key seed (Function.update password u.nextUid (some pw)) ⟨u.nextUid + 1, u.users ++ [user]⟩ := by
  intro other hother hguest
  rcases List.mem_append.1 hother with hold | hnew
  · have hne : other.uid ≠ u.nextUid := by
      intro heq
      exact absurd (hroster.bound other hold) (heq ▸ Nat.lt_irrefl _)
    rw [Function.update_of_ne hne]
    exact h other hold hguest
  · rw [List.mem_singleton.1 hnew, huid, Function.update_self]
    exact ⟨entry, pw, hkeyring, rfl, hwrap⟩

theorem Keyed.change {u u' : Users} {uid : Id32} {entry : KeyringEntry} {pw : Str}
    (h : Keyed p key seed password u)
    (husers : u'.users = u.users.map fun user =>
      if user.uid = uid then { user with keyring := some entry } else user)
    (hwrap : wrapSecrets p.toPrimitives entry.toWrapping pw key seed = .ok entry) :
    Keyed p key seed (Function.update password uid (some pw)) u' := by
  intro user huser hguest
  rw [husers] at huser
  obtain ⟨old, hold, rfl⟩ := List.mem_map.1 huser
  by_cases hsame : old.uid = uid
  · rw [if_pos hsame]
    exact ⟨entry, pw, rfl, by rw [hsame, Function.update_self], hwrap⟩
  · rw [if_neg hsame] at hguest ⊢
    rw [Function.update_of_ne hsame]
    exact h old hold hguest

/-- What a call of administration does to the store, through a session that holds the secrets. -/
theorem Admin.exec_store {s : Session} {now : Int} {gen : Nat → AKey} {op : Admin}
    (hroster : Roster db.control.loadUsers db.control.loadGroups)
    (hverified : db.control.verifyControl c key = .ok ())
    (hkeyed : Keyed p key seed password db.control.loadUsers)
    (hkey : s.key = key) (hseed : s.signSeed = seed) (huid : s.uid ≠ guestUid)
    (hnext : op.creates = true → db.control.loadUsers.nextUid.val + 1 < 2 ^ 32 ∧
      db.control.loadGroups.nextGid.val + 1 < 2 ^ 32)
    (h : op.exec (s.env c now gen) p.toPrimitives db = .ok db') :
    StoreStep c key op.creates db.control db'.control ∧
      Keyed p key seed (op.password s db.control.loadUsers.nextUid password) db'.control.loadUsers := by
  have hsession : ∀ {f : Session → AdbResult Db}, adminCreds (s.env c now gen).principal >>= f = .ok db' →
      f s = .ok db' := by
    intro f hf
    obtain ⟨s', hs', hf⟩ := Except.bind_eq_ok.1 hf
    unfold adminCreds at hs'
    dsimp only [Session.env] at hs'
    split at hs'
    · cases hs'
      exact hf
    · cases hs'
  have hstore : ∀ {result : AdbResult Control}, (do
      let control ← result
      return { db with control := control }) = Except.ok db' → result = .ok db'.control := by
    intro result hresult
    obtain ⟨control, hcontrol, hresult⟩ := Except.bind_eq_ok.1 hresult
    cases hresult
    exact hcontrol
  have hkept : ∀ {creates : Bool}, StoreStep c key creates db.control db'.control ∧
      SameKeyrings db.control.loadUsers db'.control.loadUsers →
      StoreStep c key creates db.control db'.control ∧ Keyed p key seed password db'.control.loadUsers :=
    fun h => ⟨h.1, hkeyed.of_same h.2⟩
  subst hkey hseed
  cases op with
  | addUser name pw w createGroup =>
    obtain ⟨entry, hentry, h⟩ := Except.bind_eq_ok.1 (hsession h)
    obtain ⟨hstep, gids, husers⟩ :=
      Control.addUser_step hroster (hnext rfl).1 (hnext rfl).2 (hstore h)
    refine ⟨hstep, ?_⟩
    have hadd := hkeyed.add ⟨name, _, false, gids, some entry⟩ hroster.users rfl rfl (wrapSecrets_self hentry)
    intro user huser
    exact hadd user (husers ▸ huser)
  | addGroup name => exact hkept (Control.addGroup_step hroster (hnext rfl).2 (hstore (hsession h)))
  | renameUser old new => exact hkept (Control.renameUser_step hroster (hstore (hsession h)))
  | renameGroup old new => exact hkept (Control.renameGroup_step hroster (hstore (hsession h)))
  | assign user group => exact hkept (Control.assign_step hroster hverified (hstore (hsession h)))
  | unassign user group => exact hkept (Control.unassign_step hroster hverified (hstore (hsession h)))
  | changePassword pw w =>
    obtain ⟨entry, hentry, h⟩ := Except.bind_eq_ok.1 h
    obtain ⟨hstep, husers⟩ := Control.changeUserPassword_step hroster huid (hstore h)
    exact ⟨hstep, hkeyed.change husers (wrapSecrets_self hentry)⟩
  | removeGroup name =>
    obtain ⟨⟨gid, control⟩, hremove, h⟩ := Except.bind_eq_ok.1 (hsession h)
    cases h
    exact hkept (Control.removeGroup_step hroster hremove)
  | removeUser name before listed =>
    obtain ⟨user, _, h⟩ := Except.bind_eq_ok.1 (hsession h)
    split at h
    · cases h
    · rename_i hprotected
      obtain ⟨mid, hreap, h⟩ := Except.bind_eq_ok.1 h
      cases h
      rw [Db.reapAll_control hreap] at *
      exact hkept (Control.forgetUser_step hroster (by simpa using hprotected))

end Step

/-! ## Runs -/

/-- What holds of a realm at every point of its run. -/
structure Realm.Inv (c : Crypto) (p : KeyWrap) (key seed : Bytes) (realm : Realm) : Prop where
  roster : Roster realm.db.control.loadUsers realm.db.control.loadGroups
  verified : realm.db.control.verifyControl c key = .ok ()
  keyed : Keyed p key seed realm.password realm.db.control.loadUsers
  sessions : ∀ s ∈ realm.sessions, s.key = key ∧ s.signSeed = seed ∧ s.uid ≠ guestUid
  uids : realm.uids.Nodup ∧ realm.db.control.uids ⊆ realm.uids ∧
    ∀ id ∈ realm.uids, id.val < realm.db.control.loadUsers.nextUid.val
  gids : realm.gids.Nodup ∧ realm.db.control.gids ⊆ realm.gids ∧
    ∀ id ∈ realm.gids, id.val < realm.db.control.loadGroups.nextGid.val
  nextUid : realm.db.control.loadUsers.nextUid.val ≤ 2 + realm.created
  nextGid : realm.db.control.loadGroups.nextGid.val ≤ 2 + realm.created

/-- Ids that are all below the next one stay without a repetition. -/
theorem Grows.issued {creates : Bool} {log old new : List Id32} {next next' : Id32}
    (h : Grows creates old new next next') (hnew : new.Nodup)
    (hlog : log.Nodup ∧ old ⊆ log ∧ ∀ id ∈ log, id.val < next.val) :
    (log ++ ArborDb.issued old new).Nodup ∧ new ⊆ log ++ ArborDb.issued old new ∧
      ∀ id ∈ log ++ ArborDb.issued old new, id.val < next'.val := by
  obtain ⟨hnodup, hsub, hbound⟩ := hlog
  have hfresh : ∀ id ∈ ArborDb.issued old new, id = next ∧ next.val < next'.val := by
    intro id hid
    obtain ⟨hmem, hnot⟩ := List.mem_filter.1 hid
    exact (h.mem id hmem).resolve_left (of_decide_eq_true hnot)
  refine ⟨?_, ?_, ?_⟩
  · refine List.nodup_append.2 ⟨hnodup, hnew.filter _, ?_⟩
    rintro id hold _ hid rfl
    have hlt := hbound id hold
    rw [(hfresh id hid).1] at hlt
    exact absurd hlt (Nat.lt_irrefl _)
  · intro id hid
    by_cases hold : id ∈ old
    · exact List.mem_append_left _ (hsub hold)
    · exact List.mem_append_right _ (List.mem_filter.2 ⟨hid, decide_eq_true hold⟩)
  · intro id hid
    rcases List.mem_append.1 hid with hold | hid
    · exact (hbound id hold).trans_le h.le
    · obtain ⟨rfl, hlt⟩ := hfresh id hid
      exact hlt

namespace Realm

section Invariant

variable [Externals] {c : Crypto} {p : KeyWrap} {key seed : Bytes} {realm : Realm}

theorem created_le_step (realm : Realm) (call : RealmCall) : realm.created ≤ (realm.step c p call).created := by
  unfold step
  cases call with
  | login user password =>
    dsimp only
    split <;> exact Nat.le_refl _
  | admin i now gen op =>
    dsimp only
    split
    · exact Nat.le_refl _
    · split
      · exact Nat.le_add_right ..
      · exact Nat.le_refl _
  | write txn => exact Nat.le_refl _

theorem created_le_run (realm : Realm) (calls : List RealmCall) :
    realm.created ≤ (realm.run c p calls).created := by
  induction calls generalizing realm with
  | nil => exact Nat.le_refl _
  | cons call calls ih => exact (created_le_step realm call).trans (ih _)

omit [Externals] in
/-- A login opens a session with the secrets of the database. -/
theorem authenticate_session (hp : p.Authentic) (hkey : key.length = 32) (hseed : seed.length = 32)
    (h : realm.Inv c p key seed) {user password : Str} {s : Session}
    (hrun : realm.db.control.authenticate c p user password = .ok s) :
    s.key = key ∧ s.signSeed = seed ∧ s.uid ≠ guestUid := by
  unfold Control.authenticate at hrun
  split at hrun
  · cases hrun
  · rename_i record hrecord
    split at hrun
    · cases hrun
    · rename_i entry hentry
      obtain ⟨⟨key', seed'⟩, hopen, hrun⟩ := Except.bind_eq_ok.1 hrun
      obtain ⟨_, _, hrun⟩ := Except.bind_eq_ok.1 hrun
      cases hrun
      have hmem := (Users.mem_of_named hrecord).1
      have hguest : record.uid ≠ guestUid := by
        intro hguest
        rw [(h.roster.users.guest_eq hmem hguest).2.2.2] at hentry
        cases hentry
      obtain ⟨entry', pw, hentry', -, hwrap⟩ := h.keyed record hmem hguest
      cases hentry.symm.trans hentry'
      cases unwrapSecrets_only hkey hseed hp hwrap hopen
      exact ⟨rfl, rfl, hguest⟩

/-- One call keeps the invariant. -/
theorem Inv.step (hp : p.Authentic) (hkey : key.length = 32) (hseed : seed.length = 32)
    (h : realm.Inv c p key seed) (call : RealmCall)
    (hcreated : (realm.step c p call).created < 2 ^ 32 - 2) : (realm.step c p call).Inv c p key seed := by
  unfold Realm.step at hcreated ⊢
  cases call with
  | login user password =>
    dsimp only
    split
    · rename_i s hs
      refine { h with sessions := ?_ }
      intro s' hs'
      rcases List.mem_append.1 hs' with hold | hnew
      · exact h.sessions s' hold
      · rw [List.mem_singleton.1 hnew]
        exact authenticate_session hp hkey hseed h hs
    · exact h
  | admin i now gen op =>
    dsimp only at hcreated ⊢
    split at hcreated
    · exact h
    · rename_i s hs
      split at hcreated
      · rename_i db hdb
        obtain ⟨hskey, hsseed, hsuid⟩ := h.sessions s (List.mem_of_getElem? hs)
        have hroom : op.creates = true → realm.db.control.loadUsers.nextUid.val + 1 < 2 ^ 32 ∧
            realm.db.control.loadGroups.nextGid.val + 1 < 2 ^ 32 := by
          intro hcreates
          dsimp only at hcreated
          rw [hcreates, Bool.toNat_true] at hcreated
          have hu := h.nextUid
          have hg := h.nextGid
          omega
        obtain ⟨hstep, hkeyed⟩ := Admin.exec_store h.roster h.verified h.keyed hskey hsseed hsuid hroom hdb
        refine ⟨hstep.roster, hstep.verified, hkeyed, h.sessions, ?_, ?_, ?_, ?_⟩
        · exact hstep.uids.issued hstep.roster.users.uids h.uids
        · exact hstep.gids.issued hstep.roster.groups.gids h.gids
        · have hsucc := hstep.uids.succ
          have hu := h.nextUid
          dsimp only
          omega
        · have hsucc := hstep.gids.succ
          have hg := h.nextGid
          dsimp only
          omega
      · exact h
  | write txn => exact { h with }

theorem Inv.run (hp : p.Authentic) (hkey : key.length = 32) (hseed : seed.length = 32) {calls : List RealmCall}
    (h : realm.Inv c p key seed) (hcreated : (realm.run c p calls).created < 2 ^ 32 - 2) :
    (realm.run c p calls).Inv c p key seed := by
  induction calls generalizing realm with
  | nil => exact h
  | cons call calls ih =>
    refine ih (h.step hp hkey hseed call ?_) hcreated
    exact Nat.lt_of_le_of_lt (created_le_run _ _) hcreated

omit [Externals] in
theorem sealTables_control {listed : List Str} (db : Db) :
    (listed.foldl (fun db table => db.sealTable c key seed table) db).control = db.control := by
  induction listed generalizing db with
  | nil => rfl
  | cons table tables ih => exact ih _

omit [Externals] in
/-- The invariant holds after a promotion. -/
theorem Inv.promoted {before db : Db} {session : Session} {w : Wrapping} {password : Str} {listed : List Str}
    (h : before.promoteToMaster c p.toPrimitives key seed w password listed = .ok (db, session)) :
    (Realm.promoted db session password).Inv c p key seed := by
  obtain ⟨entry, hentry, h⟩ := Except.bind_eq_ok.1 h
  obtain ⟨control, hcontrol, h⟩ := Except.bind_eq_ok.1 h
  obtain ⟨hdb, rfl⟩ := Prod.mk.inj (Except.ok.inj h)
  have hsame : db.control = control := by
    rw [← hdb]
    exact sealTables_control _
  subst hsame
  obtain ⟨husers, hgroups, hverified⟩ := Control.promote_ok hcontrol
  have hroster : Roster db.control.loadUsers db.control.loadGroups := by
    rw [husers, hgroups]
    exact promoted_roster entry
  refine ⟨hroster, hverified, ?_, ?_, ⟨hroster.users.uids, fun _ h => h, ?_⟩,
    ⟨hroster.groups.gids, fun _ h => h, ?_⟩, ?_, ?_⟩
  · intro user huser hguest
    change user ∈ db.control.loadUsers.users at huser
    rw [husers] at huser
    rcases List.mem_pair.1 huser with rfl | rfl
    · refine ⟨entry, password, rfl, ?_, wrapSecrets_self hentry⟩
      change Function.update (fun _ => none) masterUid (some password) masterUid = some password
      rw [Function.update_self]
    · exact absurd rfl hguest
  · intro s hs
    rw [List.mem_singleton.1 hs]
    exact ⟨rfl, rfl, show masterUid ≠ guestUid by decide⟩
  · intro id hid
    obtain ⟨user, huser, rfl⟩ := List.mem_map.1 hid
    exact hroster.users.bound user huser
  · intro id hid
    obtain ⟨group, hgroup, rfl⟩ := List.mem_map.1 hid
    exact hroster.groups.bound group hgroup
  · change db.control.loadUsers.nextUid.val ≤ 2
    rw [husers]
    exact Nat.le_refl 2
  · change db.control.loadGroups.nextGid.val ≤ 2
    rw [hgroups]
    exact Nat.le_refl 2

end Invariant

/-- What a user of the permission store relies on: its lists are consistent, the built-in names and
ids stay, the tag verifies, every password that is set opens the secrets of the database, and no id
is issued twice. -/
structure Sound (c : Crypto) (p : KeyWrap) (key seed : Bytes) (realm : Realm) : Prop where
  roster : Roster realm.db.control.loadUsers realm.db.control.loadGroups
  verified : realm.db.control.verifyControl c key = .ok ()
  opens : ∀ user ∈ realm.db.control.loadUsers.users, user.uid ≠ guestUid → ∃ entry password,
    user.keyring = some entry ∧ realm.password user.uid = some password ∧
      unwrapSecrets p password entry = .ok (key, seed)
  uids : realm.uids.Nodup ∧ realm.db.control.uids ⊆ realm.uids
  gids : realm.gids.Nodup ∧ realm.db.control.gids ⊆ realm.gids

theorem run_sound [Externals] (c : Crypto) (p : KeyWrap) (hp : p.Authentic) (before db : Db) (session : Session)
    (key seed : Bytes) (hkey : key.length = 32) (hseed : seed.length = 32) (w : Wrapping) (password : Str)
    (listed : List Str)
    (hpromote : before.promoteToMaster c p.toPrimitives key seed w password listed = .ok (db, session))
    (calls : List RealmCall) (hcreated : ((promoted db session password).run c p calls).created < 2 ^ 32 - 2) :
    ((promoted db session password).run c p calls).Sound c p key seed := by
  have h := (Inv.promoted hpromote).run hp hkey hseed hcreated
  refine ⟨h.roster, h.verified, ?_, ⟨h.uids.1, h.uids.2.1⟩, h.gids.1, h.gids.2.1⟩
  intro user huser hguest
  obtain ⟨entry, pw, hentry, hpw, hwrap⟩ := h.keyed user huser hguest
  exact ⟨entry, pw, hentry, hpw, unwrapSecrets_wrapped hkey hseed hp hwrap⟩

/-- A wrapping that appends the password and opens under it only. -/
def taggedWrap : KeyWrap where
  publicKey := fun seed => seed
  wrapKey := fun password _ secret => .ok (secret ++ password.bytes)
  unwrapKey := fun password _ wrapped =>
    if wrapped.drop 64 = password.bytes then .ok (wrapped.take 64) else .error .authenticationFailed

theorem taggedWrap_authentic : taggedWrap.Authentic where
  opens := by
    rintro password w secret wrapped hlength ⟨⟩
    unfold taggedWrap
    dsimp only
    rw [List.drop_left' hlength, List.take_left' hlength, if_pos rfl]
  only := by
    rintro password password' w secret secret' wrapped hlength ⟨⟩ hopen
    unfold taggedWrap at hopen
    dsimp only at hopen
    split at hopen
    · cases hopen
      exact List.take_left' hlength
    · cases hopen

/-- The master adds two users, one with a group, and cannot add the first again. The first logs in,
changes her password and is removed. -/
def someCalls [Externals] (w : Wrapping) : List RealmCall :=
  let gen : Nat → AKey := fun i => .ofNat (i + 1)
  [.admin 0 0 gen (.addUser ⟨"ann"⟩ ⟨"pa"⟩ w true), .admin 0 0 gen (.addUser ⟨"ann"⟩ ⟨"pb"⟩ w false),
    .admin 0 0 gen (.addUser ⟨"bob"⟩ ⟨"pb"⟩ w false), .login ⟨"ann"⟩ ⟨"pa"⟩,
    .admin 1 0 gen (.changePassword ⟨"pc"⟩ w), .admin 0 0 gen (.assign ⟨"bob"⟩ ⟨"ann"⟩),
    .admin 0 0 gen (.removeUser ⟨"ann"⟩ ⟨some ⟨3, [⟨⟨"ann"⟩, 2, false, [], none⟩]⟩, none, none, none, none, []⟩ []),
    .admin 0 0 gen (.addGroup ⟨"g"⟩)]

theorem run_sound_some : letI := Reference.externals
    let w : Wrapping := ⟨List.replicate 16 0, List.replicate 24 0, rfl, rfl⟩
    ∃ db session, Db.empty.promoteToMaster (userEnv 0).crypto taggedWrap.toPrimitives (List.replicate 32 7)
        (List.replicate 32 8) w ⟨"pw"⟩ [] = .ok (db, session) ∧
      ((promoted db session ⟨"pw"⟩).run (userEnv 0).crypto taggedWrap (someCalls w)).created = 3 ∧
      ((promoted db session ⟨"pw"⟩).run (userEnv 0).crypto taggedWrap (someCalls w)).Sound (userEnv 0).crypto
        taggedWrap (List.replicate 32 7) (List.replicate 32 8) := by
  let _ := Reference.externals
  refine ⟨_, _, rfl, by decide +kernel, ?_⟩
  exact run_sound _ _ taggedWrap_authentic Db.empty _ _ _ _ rfl rfl _ ⟨"pw"⟩ [] rfl _ (by decide +kernel)

end Realm

end ArborDb
