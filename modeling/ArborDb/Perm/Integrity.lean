import ArborDb.Perm.Store

/-!
# The messages under the tags

A tag is computed over a stream of bytes: a domain byte, words of a fixed width and fields that are
preceded by their length. The stream identifies what was absorbed, and a value's stream is no control
stream.
-/

namespace ArborDb

/-- A slice, whose length is a `usize`. -/
def Sized (bytes : Bytes) : Prop := bytes.length < 2 ^ 64

/-- What a value tag binds. -/
structure ValueMessage where
  table : Str
  akey : AKey
  blob : Bytes
  acl : Bytes
  table_sized : Sized table.bytes
  blob_sized : Sized blob
  acl_sized : Sized acl

/-- What the control tag binds. -/
structure ControlMessage where
  epoch : UInt64
  users : Bytes
  groups : Bytes
  pubkey : Bytes
  users_sized : Sized users
  groups_sized : Sized groups
  pubkey_sized : Sized pubkey

/-- The bytes the control tag is computed over. -/
def absorbControl (epoch : UInt64) (users groups pubkey : Bytes) : Bytes :=
  Bytes.be 1 2 ++ Bytes.be 8 epoch.toNat ++ field users ++ field groups ++ field pubkey

theorem macControl_eq (c : Crypto) (key : Bytes) (epoch : UInt64) (users groups pubkey : Bytes) :
    macControl c key epoch users groups pubkey = c.keyedHash key (absorbControl epoch users groups pubkey) := rfl

def ValueMessage.stream (m : ValueMessage) : Bytes := absorbValue m.table m.akey m.blob m.acl

def ControlMessage.stream (m : ControlMessage) : Bytes := absorbControl m.epoch m.users m.groups m.pubkey

/-! ## Framing -/

/-- A field at the front of a stream is told apart from what follows it. -/
theorem field_append_inj {a b u v : Bytes} (ha : Sized a) (hb : Sized b) (h : field a ++ u = field b ++ v) :
    a = b ∧ u = v := by
  simp only [field, List.append_assoc] at h
  obtain ⟨hlen, hrest⟩ := List.append_inj h (by simp)
  have hlength : a.length = b.length := Bytes.be_inj (w := 8) ha hb hlen
  exact List.append_inj hrest hlength

/-- A field that ends a stream. -/
theorem field_inj {a b : Bytes} (ha : Sized a) (hb : Sized b) (h : field a = field b) : a = b := by
  rw [← List.append_nil (field a), ← List.append_nil (field b)] at h
  exact (field_append_inj ha hb h).1

theorem ValueMessage.stream_injective : Function.Injective stream := by
  rintro ⟨table, akey, blob, acl, htable, hblob, hacl⟩ ⟨table', akey', blob', acl', htable', hblob', hacl'⟩ h
  simp only [stream, absorbValue, List.append_assoc] at h
  have hfields := List.append_cancel_left h
  obtain ⟨htables, hfields⟩ := field_append_inj htable htable' hfields
  obtain ⟨hkeys, hfields⟩ := List.append_inj hfields (by simp)
  obtain ⟨hblobs, hfields⟩ := field_append_inj hblob hblob' hfields
  have hacls := field_inj hacl hacl' hfields
  obtain rfl := Str.bytes_inj htables
  obtain rfl := AKey.intoBytes_inj hkeys
  obtain rfl := hblobs
  obtain rfl := hacls
  rfl

theorem ControlMessage.stream_injective : Function.Injective stream := by
  rintro ⟨epoch, users, groups, pubkey, husers, hgroups, hpubkey⟩
    ⟨epoch', users', groups', pubkey', husers', hgroups', hpubkey'⟩ h
  simp only [stream, absorbControl, List.append_assoc] at h
  have hfields := List.append_cancel_left h
  obtain ⟨hepochs, hfields⟩ := List.append_inj hfields (by simp)
  obtain ⟨hlists, hfields⟩ := field_append_inj husers husers' hfields
  obtain ⟨hlists', hfields⟩ := field_append_inj hgroups hgroups' hfields
  have hkeys := field_inj hpubkey hpubkey' hfields
  have hnat : epoch.toNat = epoch'.toNat := Bytes.be_inj (w := 8) epoch.toNat_lt epoch'.toNat_lt hepochs
  obtain rfl := UInt64.toNat_inj.1 hnat
  obtain rfl := hlists
  obtain rfl := hlists'
  obtain rfl := hkeys
  rfl

/-- **The bytes under a tag identify the message**, among the values, among the states of the control
plane, and between the two. -/
theorem integrity_streams_identify :
    Function.Injective ValueMessage.stream ∧ Function.Injective ControlMessage.stream ∧
      ∀ (m : ValueMessage) (m' : ControlMessage), m.stream ≠ m'.stream := by
  refine ⟨ValueMessage.stream_injective, ControlMessage.stream_injective, ?_⟩
  intro m m' h
  simp only [ValueMessage.stream, ControlMessage.stream, absorbValue, absorbControl, List.append_assoc] at h
  obtain ⟨hdomain, -⟩ := List.append_inj h (by simp)
  exact absurd hdomain (by decide)

end ArborDb
