import ArborDb.Error
import Mathlib.Order.Fin.Basic

/-!
# Arbor-node keys

An `AKey` is the stable identity of an arbor-node: a 128-bit number, stored big-endian.
-/

namespace ArborDb

/-- The key of a file or a directory. -/
def AKey := Fin (2 ^ 128)

namespace AKey

instance : LinearOrder AKey := inferInstanceAs (LinearOrder (Fin (2 ^ 128)))

/-- The fixed key of a table's root directory. -/
def root : AKey := ⟨0, by decide⟩

/-- The key with the number `n`. -/
def ofNat (n : Nat) : AKey := ⟨n % 2 ^ 128, Nat.mod_lt _ (by decide)⟩

/-- The raw 16-byte representation. -/
def intoBytes (k : AKey) : Bytes := Bytes.be 16 k.val

def fromBytes (bytes : Bytes) : AKey := ofNat (Bytes.ofBe bytes)

/-- Rebuilds a key from a byte string that may have any length. -/
def tryFromBytes (bytes : Bytes) : AdbResult AKey :=
  if bytes.length ≠ 16 then .error (.badKey "bytes with length different from 16")
  else .ok (fromBytes bytes)

@[simp] theorem length_intoBytes (k : AKey) : k.intoBytes.length = 16 := Bytes.length_be 16 k.val

@[simp] theorem fromBytes_intoBytes (k : AKey) : fromBytes k.intoBytes = k := by
  have hlt : k.val < 256 ^ 16 := k.isLt
  unfold fromBytes intoBytes ofNat
  apply Fin.ext
  rw [Bytes.ofBe_be_of_lt hlt]
  exact Nat.mod_eq_of_lt k.isLt

@[simp] theorem tryFromBytes_intoBytes (k : AKey) : tryFromBytes k.intoBytes = .ok k := by
  unfold tryFromBytes
  rw [if_neg (by simp), fromBytes_intoBytes]

theorem intoBytes_inj {a b : AKey} (h : a.intoBytes = b.intoBytes) : a = b := by
  rw [← fromBytes_intoBytes a, h, fromBytes_intoBytes]

/-- Keys are ordered as their bytes are. -/
theorem intoBytes_below {a b : AKey} (h : a < b) : Bytes.Below a.intoBytes b.intoBytes :=
  Bytes.be_below b.isLt h

end AKey

end ArborDb
