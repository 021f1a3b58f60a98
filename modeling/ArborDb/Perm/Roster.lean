import ArborDb.Lib.Except
import ArborDb.Perm.Store
import Mathlib.Data.List.Nodup

/-!
# What every permission store keeps

Names and ids of users and of groups are unique and below their counters, the built-in ones keep
theirs, the guest has no group and no password, and every membership is of a group that exists. Each
operation of the store edits one list or both and keeps all of this; a user's wrapped secrets open
under the password that was set last.
-/

namespace ArborDb

/-! ## Authentication -/

/-- The primitives behind a password, with the one that undoes a wrapping. -/
structure KeyWrap extends Primitives where
  unwrapKey : Str → Wrapping → Bytes → AdbResult Bytes

/-- Splits the unwrapped secrets into the integrity key and the signing seed. -/
def splitSecrets (plaintext : Bytes) : AdbResult (Bytes × Bytes) :=
  if plaintext.length ≠ 64 then .error (.corrupt "the wrapped secrets have the wrong length")
  else .ok (plaintext.take 32, plaintext.drop 32)

/-- The secrets that a keyring entry opens to under a password. -/
def unwrapSecrets (p : KeyWrap) (password : Str) (entry : KeyringEntry) : AdbResult (Bytes × Bytes) := do
  let secret ← p.unwrapKey password entry.toWrapping entry.wrapped
  splitSecrets secret

namespace Control

variable (c : Crypto) (key : Bytes) (control : Control)

/-- Verifies the store against the integrity key. -/
def verifyControl : AdbResult Unit :=
  let expected := macControl c key (control.epoch.getD 0) ((control.users.map Users.encode).getD [])
    ((control.groups.map Groups.encode).getD []) (control.pubkey.getD [])
  if control.controlMac = some expected then .ok ()
  else .error (.tampered "the permission store failed its integrity check")

/-- The session that a name and a password open. -/
def authenticate (p : KeyWrap) (user password : Str) : AdbResult Session :=
  match control.loadUsers.named user with
  | none => .error .authenticationFailed
  | some record =>
    match record.keyring with
    | none => .error .authenticationFailed
    | some entry => do
      let (key, seed) ← unwrapSecrets p password entry
      control.verifyControl c key
      return ⟨record.uid, record.gids, key, seed⟩

/-- A store that was just sealed verifies. -/
theorem verifyControl_sealControl : (control.sealControl c key).verifyControl c key = .ok () := if_pos rfl

@[simp] theorem loadUsers_sealControl : (control.sealControl c key).loadUsers = control.loadUsers := rfl

@[simp] theorem loadGroups_sealControl : (control.sealControl c key).loadGroups = control.loadGroups := rfl

end Control

/-! ## Users and groups -/

/-- The users of a store. -/
structure UserRoster (u : Users) : Prop where
  names : (u.users.map UserRecord.name).Nodup
  uids : (u.users.map UserRecord.uid).Nodup
  master : ∃ user ∈ u.users, user.name = masterUser ∧ user.uid = masterUid
  guest : ∃ user ∈ u.users, user.name = guestUser ∧ user.uid = guestUid ∧ user.frozen = true ∧
    user.gids = [] ∧ user.keyring = none
  bound : ∀ user ∈ u.users, user.uid.val < u.nextUid.val

/-- The groups of a store. -/
structure GroupRoster (g : Groups) : Prop where
  names : (g.groups.map GroupRecord.name).Nodup
  gids : (g.groups.map GroupRecord.gid).Nodup
  master : ⟨masterGroup, masterGid⟩ ∈ g.groups
  super : ⟨superGroup, superGid⟩ ∈ g.groups
  bound : ∀ group ∈ g.groups, group.gid.val < g.nextGid.val

/-- Every membership is of a group that exists. -/
def Members (u : Users) (g : Groups) : Prop :=
  ∀ user ∈ u.users, ∀ gid ∈ user.gids, ∃ group ∈ g.groups, group.gid = gid

structure Roster (u : Users) (g : Groups) : Prop where
  users : UserRoster u
  groups : GroupRoster g
  members : Members u g

/-- Every user but the guest has secrets wrapped under the password that was set last. -/
def Keyed (p : KeyWrap) (key seed : Bytes) (password : Id32 → Option Str) (u : Users) : Prop :=
  ∀ user ∈ u.users, user.uid ≠ guestUid → ∃ entry pw, user.keyring = some entry ∧
    password user.uid = some pw ∧ wrapSecrets p.toPrimitives entry.toWrapping pw key seed = .ok entry

/-! ## Editing one record -/

theorem editFirst_eq_map {α β : Type} [DecidableEq β] {g : α → β} {b : β} {f : α → α} {l : List α}
    (h : (l.map g).Nodup) :
    editFirst (fun a => g a = b) f l = l.map fun a => if g a = b then f a else a := by
  induction l with
  | nil => rfl
  | cons a l ih =>
    rw [List.map_cons, List.nodup_cons] at h
    rw [editFirst, List.map_cons]
    split
    · rename_i ha
      have hrest : l.map (fun a => if g a = b then f a else a) = l := by
        refine (List.map_congr_left fun x hx => if_neg ?_).trans (List.map_id l)
        rintro rfl
        exact h.1 (of_decide_eq_true ha ▸ List.mem_map_of_mem hx)
      rw [hrest, if_pos (of_decide_eq_true ha)]
    · rename_i ha
      rw [ih h.2, if_neg (by simpa using ha)]

theorem Users.mem_of_named {u : Users} {name : Str} {user : UserRecord} (h : u.named name = some user) :
    user ∈ u.users ∧ user.name = name :=
  ⟨List.mem_of_find?_eq_some h, by simpa using List.find?_some h⟩

theorem Groups.mem_of_named {g : Groups} {name : Str} {group : GroupRecord}
    (h : g.named name = some group) : group ∈ g.groups ∧ group.name = name :=
  ⟨List.mem_of_find?_eq_some h, by simpa using List.find?_some h⟩

theorem requireUser_ok {u : Users} {name : Str} {user : UserRecord} (h : requireUser u name = .ok user) :
    user ∈ u.users ∧ user.name = name := by
  unfold requireUser at h
  split at h
  · cases h
    exact Users.mem_of_named ‹_›
  · cases h

theorem requireGroup_ok {g : Groups} {name : Str} {group : GroupRecord}
    (h : requireGroup g name = .ok group) : group ∈ g.groups ∧ group.name = name := by
  unfold requireGroup at h
  split at h
  · cases h
    exact Groups.mem_of_named ‹_›
  · cases h

theorem requireNoUser_ok {u : Users} {name : Str} {x : Unit} (h : requireNoUser u name = .ok x) :
    ∀ user ∈ u.users, user.name ≠ name := by
  unfold requireNoUser at h
  split at h
  · cases h
  · rename_i hnone
    intro user huser hname
    refine hnone (Option.isSome_iff_exists.2 ?_)
    exact Option.isSome_iff_exists.1 (List.find?_isSome.2 ⟨user, huser, by simpa using hname⟩)

theorem requireNoGroup_ok {g : Groups} {name : Str} {x : Unit} (h : requireNoGroup g name = .ok x) :
    ∀ group ∈ g.groups, group.name ≠ name := by
  unfold requireNoGroup at h
  split at h
  · cases h
  · rename_i hnone
    intro group hgroup hname
    refine hnone (Option.isSome_iff_exists.2 ?_)
    exact Option.isSome_iff_exists.1 (List.find?_isSome.2 ⟨group, hgroup, by simpa using hname⟩)

/-! ## Operations on the users -/

section UserOps

variable {u : Users} {g : Groups}

theorem UserRoster.eq_of_uid (h : UserRoster u) {a b : UserRecord} (ha : a ∈ u.users) (hb : b ∈ u.users)
    (hab : a.uid = b.uid) : a = b :=
  List.inj_on_of_nodup_map h.uids ha hb hab

theorem UserRoster.guest_eq (h : UserRoster u) {user : UserRecord} (huser : user ∈ u.users)
    (huid : user.uid = guestUid) :
    user.name = guestUser ∧ user.frozen = true ∧ user.gids = [] ∧ user.keyring = none := by
  obtain ⟨guest, hguest, hname, hguid, hrest⟩ := h.guest
  cases h.eq_of_uid huser hguest (huid.trans hguid.symm)
  exact ⟨hname, hrest⟩

/-- Records that keep their ids, where the built-in users keep what makes them so. -/
theorem UserRoster.map (h : UserRoster u) {f : UserRecord → UserRecord} (huid : ∀ user, (f user).uid = user.uid)
    (hnames : ((u.users.map f).map UserRecord.name).Nodup)
    (hname : ∀ user ∈ u.users, isProtectedUser user.uid = true → (f user).name = user.name)
    (hguest : ∀ user ∈ u.users, user.uid = guestUid →
      (f user).frozen = user.frozen ∧ (f user).gids = user.gids ∧ (f user).keyring = user.keyring) :
    UserRoster { u with users := u.users.map f } where
  names := hnames
  uids := by
    rw [List.map_map, show UserRecord.uid ∘ f = UserRecord.uid from funext huid]
    exact h.uids
  master := by
    obtain ⟨user, huser, hn, hu⟩ := h.master
    refine ⟨f user, List.mem_map_of_mem huser, ?_, (huid user).trans hu⟩
    rw [hname user huser (by rw [hu]; rfl), hn]
  guest := by
    obtain ⟨user, huser, hn, hu, hfrozen, hgids, hkeyring⟩ := h.guest
    obtain ⟨hf, hg, hk⟩ := hguest user huser hu
    refine ⟨f user, List.mem_map_of_mem huser, ?_, (huid user).trans hu, hf.trans hfrozen, hg.trans hgids,
      hk.trans hkeyring⟩
    rw [hname user huser (by rw [hu]; rfl), hn]
  bound := by
    intro user huser
    obtain ⟨user', huser', rfl⟩ := List.mem_map.1 huser
    rw [huid]
    exact h.bound user' huser'

/-- Records that keep their names. -/
theorem UserRoster.map_same (h : UserRoster u) {f : UserRecord → UserRecord}
    (huid : ∀ user, (f user).uid = user.uid) (hname : ∀ user, (f user).name = user.name)
    (hguest : ∀ user ∈ u.users, user.uid = guestUid →
      (f user).frozen = user.frozen ∧ (f user).gids = user.gids ∧ (f user).keyring = user.keyring) :
    UserRoster { u with users := u.users.map f } := by
  refine h.map huid ?_ (fun user _ _ => hname user) hguest
  rw [List.map_map, show UserRecord.name ∘ f = UserRecord.name from funext hname]
  exact h.names

theorem UserRoster.add (h : UserRoster u) {user : UserRecord} (hname : ∀ other ∈ u.users, other.name ≠ user.name)
    (huid : user.uid = u.nextUid) (hnext : u.nextUid.val + 1 < 2 ^ 32) :
    UserRoster ⟨u.nextUid + 1, u.users ++ [user]⟩ := by
  have hsucc : (u.nextUid + 1).val = u.nextUid.val + 1 := by
    rw [Fin.val_add_one_of_lt' hnext]
  refine ⟨?_, ?_, ?_, ?_, ?_⟩
  · rw [List.map_append]
    refine List.nodup_append.2 ⟨h.names, List.nodup_singleton _, ?_⟩
    rintro _ hold _ hnew rfl
    obtain ⟨other, hother, hsame⟩ := List.mem_map.1 hold
    exact hname other hother (hsame.trans (List.mem_singleton.1 hnew))
  · rw [List.map_append]
    refine List.nodup_append.2 ⟨h.uids, List.nodup_singleton _, ?_⟩
    rintro _ hold _ hnew rfl
    obtain ⟨other, hother, hsame⟩ := List.mem_map.1 hold
    have hlt := h.bound other hother
    rw [hsame, List.mem_singleton.1 hnew, huid] at hlt
    exact absurd hlt (Nat.lt_irrefl _)
  · obtain ⟨master, hmaster, hrest⟩ := h.master
    exact ⟨master, List.mem_append_left _ hmaster, hrest⟩
  · obtain ⟨guest, hguest, hrest⟩ := h.guest
    exact ⟨guest, List.mem_append_left _ hguest, hrest⟩
  · intro other hother
    change other.uid.val < (u.nextUid + 1).val
    rw [hsucc]
    rcases List.mem_append.1 hother with hold | hnew
    · exact (h.bound other hold).trans (Nat.lt_succ_self _)
    · rw [List.mem_singleton.1 hnew, huid]
      exact Nat.lt_succ_self _

theorem UserRoster.remove (h : UserRoster u) {uid : Id32} (huid : isProtectedUser uid = false) :
    UserRoster { u with users := u.users.filter (·.uid ≠ uid) } := by
  have hmaster : masterUid ≠ uid := by
    rintro rfl
    cases huid
  have hguest : guestUid ≠ uid := by
    rintro rfl
    cases huid
  refine ⟨?_, ?_, ?_, ?_, fun user huser => h.bound user (List.mem_filter.1 huser).1⟩
  · exact h.names.sublist (List.Sublist.map _ List.filter_sublist)
  · exact h.uids.sublist (List.Sublist.map _ List.filter_sublist)
  · obtain ⟨master, hmem, hname, hu⟩ := h.master
    exact ⟨master, List.mem_filter.2 ⟨hmem, by simpa [hu] using hmaster⟩, hname, hu⟩
  · obtain ⟨guest, hmem, hname, hu, hrest⟩ := h.guest
    exact ⟨guest, List.mem_filter.2 ⟨hmem, by simpa [hu] using hguest⟩, hname, hu, hrest⟩

end UserOps

/-! ## Operations on the groups -/

section GroupOps

variable {u : Users} {g : Groups}

theorem GroupRoster.add (h : GroupRoster g) {group : GroupRecord}
    (hname : ∀ other ∈ g.groups, other.name ≠ group.name) (hgid : group.gid = g.nextGid)
    (hnext : g.nextGid.val + 1 < 2 ^ 32) : GroupRoster ⟨g.nextGid + 1, g.groups ++ [group]⟩ := by
  have hsucc : (g.nextGid + 1).val = g.nextGid.val + 1 := by
    rw [Fin.val_add_one_of_lt' hnext]
  refine ⟨?_, ?_, List.mem_append_left _ h.master, List.mem_append_left _ h.super, ?_⟩
  · rw [List.map_append]
    refine List.nodup_append.2 ⟨h.names, List.nodup_singleton _, ?_⟩
    rintro _ hold _ hnew rfl
    obtain ⟨other, hother, hsame⟩ := List.mem_map.1 hold
    exact hname other hother (hsame.trans (List.mem_singleton.1 hnew))
  · rw [List.map_append]
    refine List.nodup_append.2 ⟨h.gids, List.nodup_singleton _, ?_⟩
    rintro _ hold _ hnew rfl
    obtain ⟨other, hother, hsame⟩ := List.mem_map.1 hold
    have hlt := h.bound other hother
    rw [hsame, List.mem_singleton.1 hnew, hgid] at hlt
    exact absurd hlt (Nat.lt_irrefl _)
  · intro other hother
    change other.gid.val < (g.nextGid + 1).val
    rw [hsucc]
    rcases List.mem_append.1 hother with hold | hnew
    · exact (h.bound other hold).trans (Nat.lt_succ_self _)
    · rw [List.mem_singleton.1 hnew, hgid]
      exact Nat.lt_succ_self _

theorem GroupRoster.remove (h : GroupRoster g) {gid : Id32} (hgid : isProtectedGroup gid = false) :
    GroupRoster { g with groups := g.groups.filter (·.gid ≠ gid) } := by
  have hmaster : masterGid ≠ gid := by
    rintro rfl
    cases hgid
  have hsuper : superGid ≠ gid := by
    rintro rfl
    cases hgid
  refine ⟨?_, ?_, ?_, ?_, fun group hgroup => h.bound group (List.mem_filter.1 hgroup).1⟩
  · exact h.names.sublist (List.Sublist.map _ List.filter_sublist)
  · exact h.gids.sublist (List.Sublist.map _ List.filter_sublist)
  · exact List.mem_filter.2 ⟨h.master, by simpa using hmaster⟩
  · exact List.mem_filter.2 ⟨h.super, by simpa using hsuper⟩

end GroupOps

/-! ## The operations of the store -/

/-- The ids of a list after one step: old ones, or the one that was next if the step creates. -/
structure Grows (creates : Bool) (old new : List Id32) (next next' : Id32) : Prop where
  mem : ∀ id ∈ new, id ∈ old ∨ id = next ∧ next.val < next'.val
  le : next.val ≤ next'.val
  succ : next'.val ≤ next.val + creates.toNat

theorem Grows.of_subset {creates : Bool} {old new : List Id32} {next : Id32} (h : ∀ id ∈ new, id ∈ old) :
    Grows creates old new next next := ⟨fun id hid => .inl (h id hid), Nat.le_refl _, Nat.le_add_right ..⟩

theorem Grows.append {old : List Id32} {next : Id32} (hnext : next.val + 1 < 2 ^ 32) :
    Grows true old (old ++ [next]) next (next + 1) := by
  have hsucc : (next + 1).val = next.val + 1 := by
    rw [Fin.val_add_one_of_lt' hnext]
  refine ⟨fun id hid => ?_, by omega, Nat.le_of_eq hsucc⟩
  rcases List.mem_append.1 hid with hold | hnew
  · exact .inl hold
  · exact .inr ⟨List.mem_singleton.1 hnew, by omega⟩

/-- What one operation does to a store. -/
structure StoreStep (c : Crypto) (key : Bytes) (creates : Bool) (control control' : Control) : Prop where
  roster : Roster control'.loadUsers control'.loadGroups
  verified : control'.verifyControl c key = .ok ()
  uids : Grows creates (control.loadUsers.users.map UserRecord.uid) (control'.loadUsers.users.map UserRecord.uid)
    control.loadUsers.nextUid control'.loadUsers.nextUid
  gids : Grows creates (control.loadGroups.groups.map GroupRecord.gid)
    (control'.loadGroups.groups.map GroupRecord.gid) control.loadGroups.nextGid control'.loadGroups.nextGid

/-- The keyrings of a store are those of another. -/
def SameKeyrings (u u' : Users) : Prop :=
  ∀ user ∈ u'.users, ∃ old ∈ u.users, old.uid = user.uid ∧ old.keyring = user.keyring

namespace Control

variable {c : Crypto} {key : Bytes} {control control' : Control}
  (h : Roster control.loadUsers control.loadGroups)
include h

theorem changeUserPassword_step {uid : Id32} {entry : KeyringEntry} (huid : uid ≠ guestUid)
    (hrun : control.changeUserPassword c key uid entry = .ok control') :
    StoreStep c key false control control' ∧ control'.loadUsers.users =
      control.loadUsers.users.map fun user =>
        if user.uid = uid then { user with keyring := some entry } else user := by
  unfold changeUserPassword at hrun
  dsimp only at hrun
  split at hrun
  · cases hrun
    rw [editFirst_eq_map h.users.uids]
    have huids : ∀ user : UserRecord,
        (if user.uid = uid then { user with keyring := some entry } else user).uid = user.uid := by
      intro user
      split <;> rfl
    refine ⟨⟨⟨?_, h.groups, ?_⟩, verifyControl_sealControl _ _ _, .of_subset ?_, .of_subset fun _ h => h⟩, rfl⟩
    · refine h.users.map_same huids (fun user => by split <;> rfl) fun user _ hguest => ?_
      rw [if_neg fun heq => huid (heq.symm.trans hguest)]
      exact ⟨rfl, rfl, rfl⟩
    · intro user huser gid hgid
      obtain ⟨old, hold, rfl⟩ := List.mem_map.1 huser
      refine h.members old hold gid ?_
      split at hgid <;> exact hgid
    · intro id hid
      obtain ⟨user, huser, rfl⟩ := List.mem_map.1 hid
      obtain ⟨old, hold, rfl⟩ := List.mem_map.1 huser
      rw [huids]
      exact List.mem_map_of_mem hold
  · cases hrun

/-- An edit of users that changes names and groups only. -/
theorem storeUsers_step {f : UserRecord → UserRecord} (huid : ∀ user, (f user).uid = user.uid)
    (hkeyring : ∀ user, (f user).keyring = user.keyring)
    (hroster : UserRoster { control.loadUsers with users := control.loadUsers.users.map f })
    (hmembers : ∀ user ∈ control.loadUsers.users, ∀ gid ∈ (f user).gids,
      ∃ group ∈ control.loadGroups.groups, group.gid = gid) :
    let stored := (control.storeUsers { control.loadUsers with users := control.loadUsers.users.map f })
    StoreStep c key false control (stored.sealControl c key) ∧
      SameKeyrings control.loadUsers (stored.sealControl c key).loadUsers := by
  refine ⟨⟨⟨hroster, h.groups, ?_⟩, verifyControl_sealControl _ _ _, .of_subset ?_, .of_subset fun _ h => h⟩, ?_⟩
  · intro user huser
    obtain ⟨old, hold, rfl⟩ := List.mem_map.1 huser
    exact hmembers old hold
  · intro id hid
    obtain ⟨user, huser, rfl⟩ := List.mem_map.1 hid
    obtain ⟨old, hold, rfl⟩ := List.mem_map.1 huser
    rw [huid]
    exact List.mem_map_of_mem hold
  · intro user huser
    obtain ⟨old, hold, rfl⟩ := List.mem_map.1 huser
    exact ⟨old, hold, (huid old).symm, (hkeyring old).symm⟩

theorem renameUser_step {old new : Str} (hrun : control.renameUser c key old new = .ok control') :
    StoreStep c key false control control' ∧ SameKeyrings control.loadUsers control'.loadUsers := by
  unfold renameUser at hrun
  obtain ⟨_, hfree, hrun⟩ := Except.bind_eq_ok.1 hrun
  obtain ⟨user, huser, hrun⟩ := Except.bind_eq_ok.1 hrun
  split at hrun
  · cases hrun
  · rename_i hprotected
    cases hrun
    rw [Users.edit, editFirst_eq_map h.users.names]
    have hnames := requireNoUser_ok hfree
    obtain ⟨hmem, hname⟩ := requireUser_ok huser
    refine storeUsers_step h (fun user => by split <;> rfl) (fun user => by split <;> rfl) ?_ ?_
    · refine h.users.map (fun user => by split <;> rfl) ?_ ?_ ?_
      · rw [List.map_map]
        refine (List.nodup_map_iff_inj_on ?_).2 ?_
        · exact h.users.uids.of_map _
        · intro a ha b hb hab
          simp only [Function.comp_apply] at hab
          by_cases hao : a.name = old
          · by_cases hbo : b.name = old
            · exact List.inj_on_of_nodup_map h.users.names ha hb (hao.trans hbo.symm)
            · rw [if_pos hao, if_neg hbo] at hab
              exact absurd hab.symm (hnames b hb)
          · by_cases hbo : b.name = old
            · rw [if_neg hao, if_pos hbo] at hab
              exact absurd hab (hnames a ha)
            · rw [if_neg hao, if_neg hbo] at hab
              exact List.inj_on_of_nodup_map h.users.names ha hb hab
      · intro other hother hbuiltin
        rw [if_neg]
        intro heq
        cases List.inj_on_of_nodup_map h.users.names hmem hother (hname.trans heq.symm)
        exact hprotected hbuiltin
      · intro other _ _
        split <;> exact ⟨rfl, rfl, rfl⟩
    · intro other hother gid hgid
      refine h.members other hother gid ?_
      split at hgid <;> exact hgid

/-- An operation that stores nothing. -/
theorem refl_step (hverified : control.verifyControl c key = .ok ()) :
    StoreStep c key false control control ∧ SameKeyrings control.loadUsers control.loadUsers :=
  ⟨⟨h, hverified, .of_subset fun _ h => h, .of_subset fun _ h => h⟩, fun user huser => ⟨user, huser, rfl, rfl⟩⟩

theorem assign_step (hverified : control.verifyControl c key = .ok ()) {user group : Str}
    (hrun : control.assign c key user group = .ok control') :
    StoreStep c key false control control' ∧ SameKeyrings control.loadUsers control'.loadUsers := by
  unfold assign at hrun
  obtain ⟨found, hfound, hrun⟩ := Except.bind_eq_ok.1 hrun
  obtain ⟨record, hrecord, hrun⟩ := Except.bind_eq_ok.1 hrun
  obtain ⟨hgroup, -⟩ := requireGroup_ok hfound
  obtain ⟨hmem, hname⟩ := requireUser_ok hrecord
  split at hrun
  · cases hrun
  · rename_i hfrozen
    split at hrun
    · cases hrun
      exact refl_step h hverified
    · cases hrun
      rw [Users.edit, editFirst_eq_map h.users.names]
      refine storeUsers_step h (fun user => by split <;> rfl) (fun user => by split <;> rfl) ?_ ?_
      · refine h.users.map_same (fun user => by split <;> rfl) (fun user => by split <;> rfl) ?_
        intro other hother hguest
        rw [if_neg]
        · exact ⟨rfl, rfl, rfl⟩
        · intro heq
          cases List.inj_on_of_nodup_map h.users.names hmem hother (hname.trans heq.symm)
          exact hfrozen (h.users.guest_eq hother hguest).2.1
      · intro other hother gid hgid
        split at hgid
        · rcases List.mem_append.1 hgid with hold | hnew
          · exact h.members other hother gid hold
          · exact ⟨found, hgroup, (List.mem_singleton.1 hnew).symm⟩
        · exact h.members other hother gid hgid

theorem unassign_step (hverified : control.verifyControl c key = .ok ()) {user group : Str}
    (hrun : control.unassign c key user group = .ok control') :
    StoreStep c key false control control' ∧ SameKeyrings control.loadUsers control'.loadUsers := by
  unfold unassign at hrun
  obtain ⟨found, hfound, hrun⟩ := Except.bind_eq_ok.1 hrun
  obtain ⟨record, hrecord, hrun⟩ := Except.bind_eq_ok.1 hrun
  split at hrun
  · cases hrun
    rw [Users.edit, editFirst_eq_map h.users.names]
    refine storeUsers_step h (fun user => by split <;> rfl) (fun user => by split <;> rfl) ?_ ?_
    · refine h.users.map_same (fun user => by split <;> rfl) (fun user => by split <;> rfl) ?_
      intro other hother hguest
      split
      · exact ⟨rfl, by simp [(h.users.guest_eq hother hguest).2.2.1], rfl⟩
      · exact ⟨rfl, rfl, rfl⟩
    · intro other hother gid hgid
      refine h.members other hother gid ?_
      split at hgid
      · exact (List.mem_filter.1 hgid).1
      · exact hgid
  · cases hrun
    exact refl_step h hverified

/-- An edit of the groups that keeps every id that a user has. -/
theorem storeGroups_step {creates : Bool} {g : Groups} (hroster : GroupRoster g)
    (hmembers : Members control.loadUsers g)
    (hgids : Grows creates (control.loadGroups.groups.map GroupRecord.gid) (g.groups.map GroupRecord.gid)
      control.loadGroups.nextGid g.nextGid) :
    let stored := (control.storeGroups g).sealControl c key
    StoreStep c key creates control stored ∧ SameKeyrings control.loadUsers stored.loadUsers :=
  ⟨⟨⟨h.users, hroster, hmembers⟩, verifyControl_sealControl _ _ _, .of_subset fun _ h => h, hgids⟩,
    fun user huser => ⟨user, huser, rfl, rfl⟩⟩

theorem addGroup_step (hnext : control.loadGroups.nextGid.val + 1 < 2 ^ 32) {name : Str}
    (hrun : control.addGroup c key name = .ok control') :
    StoreStep c key true control control' ∧ SameKeyrings control.loadUsers control'.loadUsers := by
  unfold addGroup at hrun
  obtain ⟨_, hfree, hrun⟩ := Except.bind_eq_ok.1 hrun
  cases hrun
  refine storeGroups_step h (h.groups.add (requireNoGroup_ok hfree) rfl hnext) ?_ ?_
  · intro user huser gid hgid
    obtain ⟨group, hgroup, hsame⟩ := h.members user huser gid hgid
    exact ⟨group, List.mem_append_left _ hgroup, hsame⟩
  · rw [List.map_append]
    exact .append hnext

theorem renameGroup_step {old new : Str} (hrun : control.renameGroup c key old new = .ok control') :
    StoreStep c key false control control' ∧ SameKeyrings control.loadUsers control'.loadUsers := by
  unfold renameGroup at hrun
  obtain ⟨_, hfree, hrun⟩ := Except.bind_eq_ok.1 hrun
  obtain ⟨group, hgroup, hrun⟩ := Except.bind_eq_ok.1 hrun
  split at hrun
  · cases hrun
  · rename_i hprotected
    cases hrun
    rw [editFirst_eq_map h.groups.names]
    have hnames := requireNoGroup_ok hfree
    obtain ⟨hmem, hname⟩ := requireGroup_ok hgroup
    have hgid : ∀ x : GroupRecord, (if x.name = old then { x with name := new } else x).gid = x.gid := by
      intro x
      split <;> rfl
    have hbuiltin : ∀ x ∈ control.loadGroups.groups, isProtectedGroup x.gid = true → x.name ≠ old := by
      rintro x hx hx' heq
      cases List.inj_on_of_nodup_map h.groups.names hmem hx (hname.trans heq.symm)
      exact hprotected hx'
    have hsame : (control.loadGroups.groups.map fun x =>
        if x.name = old then { x with name := new } else x).map GroupRecord.gid =
          control.loadGroups.groups.map GroupRecord.gid := by
      rw [List.map_map]
      exact List.map_congr_left fun x _ => hgid x
    refine storeGroups_step h ⟨?_, ?_, ?_, ?_, ?_⟩ ?_ ?_
    · rw [List.map_map]
      refine (List.nodup_map_iff_inj_on (h.groups.gids.of_map _)).2 ?_
      intro a ha b hb hab
      simp only [Function.comp_apply] at hab
      by_cases hao : a.name = old
      · by_cases hbo : b.name = old
        · exact List.inj_on_of_nodup_map h.groups.names ha hb (hao.trans hbo.symm)
        · rw [if_pos hao, if_neg hbo] at hab
          exact absurd hab.symm (hnames b hb)
      · by_cases hbo : b.name = old
        · rw [if_neg hao, if_pos hbo] at hab
          exact absurd hab (hnames a ha)
        · rw [if_neg hao, if_neg hbo] at hab
          exact List.inj_on_of_nodup_map h.groups.names ha hb hab
    · rw [hsame]
      exact h.groups.gids
    · exact List.mem_map.2 ⟨_, h.groups.master, if_neg (hbuiltin _ h.groups.master rfl)⟩
    · exact List.mem_map.2 ⟨_, h.groups.super, if_neg (hbuiltin _ h.groups.super rfl)⟩
    · intro x hx
      obtain ⟨x', hx', rfl⟩ := List.mem_map.1 hx
      rw [hgid]
      exact h.groups.bound x' hx'
    · intro user huser gid hg
      obtain ⟨x, hx, hxgid⟩ := h.members user huser gid hg
      exact ⟨_, List.mem_map_of_mem hx, (hgid x).trans hxgid⟩
    · rw [hsame]
      exact .of_subset fun _ h => h

theorem removeGroup_step {name : Str} {gid : Id32} (hrun : control.removeGroup c key name = .ok (gid, control')) :
    StoreStep c key false control control' ∧ SameKeyrings control.loadUsers control'.loadUsers := by
  unfold removeGroup at hrun
  obtain ⟨group, hgroup, hrun⟩ := Except.bind_eq_ok.1 hrun
  split at hrun
  · cases hrun
  · rename_i hprotected
    cases hrun
    refine ⟨⟨⟨?_, h.groups.remove (by simpa using hprotected), ?_⟩, verifyControl_sealControl _ _ _,
      .of_subset ?_, .of_subset ?_⟩, ?_⟩
    · refine h.users.map_same (fun _ => rfl) (fun _ => rfl) fun other hother hguest => ?_
      exact ⟨rfl, by simp [(h.users.guest_eq hother hguest).2.2.1], rfl⟩
    · intro user huser gid hgid
      obtain ⟨old, hold, rfl⟩ := List.mem_map.1 huser
      obtain ⟨hmem, hne⟩ := List.mem_filter.1 hgid
      obtain ⟨x, hx, rfl⟩ := h.members old hold gid hmem
      exact ⟨x, List.mem_filter.2 ⟨hx, hne⟩, rfl⟩
    · intro id hid
      obtain ⟨user, huser, rfl⟩ := List.mem_map.1 hid
      obtain ⟨old, hold, rfl⟩ := List.mem_map.1 huser
      exact List.mem_map.2 ⟨old, hold, rfl⟩
    · intro id hid
      obtain ⟨x, hx, rfl⟩ := List.mem_map.1 hid
      exact List.mem_map_of_mem (List.mem_filter.1 hx).1
    · intro user huser
      obtain ⟨old, hold, rfl⟩ := List.mem_map.1 huser
      exact ⟨old, hold, rfl, rfl⟩

theorem forgetUser_step {uid : Id32} (huid : isProtectedUser uid = false) :
    StoreStep c key false control (control.forgetUser c key uid) ∧
      SameKeyrings control.loadUsers (control.forgetUser c key uid).loadUsers := by
  refine ⟨⟨⟨h.users.remove huid, h.groups, ?_⟩, verifyControl_sealControl _ _ _, .of_subset ?_,
    .of_subset fun _ h => h⟩, ?_⟩
  · intro user huser
    exact h.members user (List.mem_filter.1 huser).1
  · intro id hid
    obtain ⟨user, huser, rfl⟩ := List.mem_map.1 hid
    exact List.mem_map_of_mem (List.mem_filter.1 huser).1
  · intro user huser
    exact ⟨user, (List.mem_filter.1 huser).1, rfl, rfl⟩

theorem addUser_step (hnext : control.loadUsers.nextUid.val + 1 < 2 ^ 32)
    (hnextGid : control.loadGroups.nextGid.val + 1 < 2 ^ 32) {name : Str} {entry : KeyringEntry}
    {createGroup : Bool} (hrun : control.addUser c key name entry createGroup = .ok control') :
    StoreStep c key true control control' ∧ ∃ gids, control'.loadUsers.users =
      control.loadUsers.users ++ [⟨name, control.loadUsers.nextUid, false, gids, some entry⟩] := by
  unfold addUser at hrun
  obtain ⟨_, hfree, hrun⟩ := Except.bind_eq_ok.1 hrun
  have hname := requireNoUser_ok hfree
  have huids : ∀ gids, Grows true (control.loadUsers.users.map UserRecord.uid)
      (List.map UserRecord.uid (control.loadUsers.users ++
        [⟨name, control.loadUsers.nextUid, false, gids, some entry⟩]))
      control.loadUsers.nextUid (control.loadUsers.nextUid + 1) := by
    intro gids
    rw [List.map_append]
    exact .append hnext
  split at hrun
  · obtain ⟨_, hfreeGroup, hrun⟩ := Except.bind_eq_ok.1 hrun
    cases hrun
    refine ⟨⟨⟨h.users.add hname rfl hnext, h.groups.add (requireNoGroup_ok hfreeGroup) rfl hnextGid, ?_⟩,
      verifyControl_sealControl _ _ _, huids _, ?_⟩, _, rfl⟩
    · intro user huser gid hgid
      rcases List.mem_append.1 huser with hold | hnew
      · obtain ⟨group, hgroup, hsame⟩ := h.members user hold gid hgid
        exact ⟨group, List.mem_append_left _ hgroup, hsame⟩
      · rw [List.mem_singleton.1 hnew] at hgid
        exact ⟨_, List.mem_append_right _ (List.mem_singleton.2 rfl), (List.mem_singleton.1 hgid).symm⟩
    · change Grows true _ ((control.loadGroups.groups ++ [_]).map GroupRecord.gid) _ _
      rw [List.map_append]
      exact .append hnextGid
  · cases hrun
    refine ⟨⟨⟨h.users.add hname rfl hnext, h.groups, ?_⟩, verifyControl_sealControl _ _ _, huids _,
      .of_subset fun _ h => h⟩, _, rfl⟩
    intro user huser gid hgid
    rcases List.mem_append.1 huser with hold | hnew
    · exact h.members user hold gid hgid
    · rw [List.mem_singleton.1 hnew] at hgid
      cases hgid

end Control

/-! ## The store of a promotion -/

def promotedUsers (entry : KeyringEntry) : Users :=
  ⟨2, [⟨masterUser, masterUid, false, [masterGid], some entry⟩, ⟨guestUser, guestUid, true, [], none⟩]⟩

def promotedGroups : Groups := ⟨2, [⟨masterGroup, masterGid⟩, ⟨superGroup, superGid⟩]⟩

theorem Control.promote_ok {c : Crypto} {key seed : Bytes} {p : Primitives} {control control' : Control}
    {entry : KeyringEntry} (h : control.promote c key p seed entry = .ok control') :
    control'.loadUsers = promotedUsers entry ∧ control'.loadGroups = promotedGroups ∧
      control'.verifyControl c key = .ok () := by
  unfold Control.promote at h
  split at h
  · cases h
  · cases h
    refine ⟨?_, ?_, verifyControl_sealControl ..⟩
    · rw [loadUsers_sealControl]
      unfold Control.require
      split <;> rfl
    · rw [loadGroups_sealControl]
      unfold Control.require
      split <;> rfl

theorem promoted_roster (entry : KeyringEntry) : Roster (promotedUsers entry) promotedGroups where
  users := {
    names := show [masterUser, guestUser].Nodup by decide
    uids := show [masterUid, guestUid].Nodup by decide
    master := ⟨_, List.mem_cons_self .., rfl, rfl⟩
    guest := ⟨_, List.mem_cons_of_mem _ (List.mem_cons_self ..), rfl, rfl, rfl, rfl, rfl⟩
    bound := by
      intro user huser
      rcases List.mem_pair.1 huser with rfl | rfl
      · exact show masterUid.val < 2 by decide
      · exact show guestUid.val < 2 by decide }
  groups := by constructor <;> decide
  members := by
    intro user huser gid hgid
    rcases List.mem_pair.1 huser with rfl | rfl
    · exact ⟨_, List.mem_cons_self .., (List.mem_singleton.1 hgid).symm⟩
    · cases hgid

end ArborDb
