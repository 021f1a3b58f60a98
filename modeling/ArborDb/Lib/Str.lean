import ArborDb.Lib.Bytes

/-!
# Text ordered by its UTF-8 bytes

`Str` is a Unicode string compared as the byte string of its UTF-8 form. The bytes determine the
text (`Str.bytes_inj`) and decoding them gives it back (`Str.fromUtf8_bytes`).
-/

/-- A string, ordered by its UTF-8 bytes. -/
structure Str where
  text : String
  deriving DecidableEq

namespace Str

/-- The UTF-8 bytes. -/
def bytes (s : Str) : Bytes := s.text.toByteArray.data.toList

/-- The text a byte string spells, if it is valid UTF-8. -/
def fromUtf8 (b : Bytes) : Option Str := (String.fromUTF8? ⟨b.toArray⟩).map Str.mk

theorem bytes_inj {a b : Str} (h : a.bytes = b.bytes) : a = b := by
  obtain ⟨a⟩ := a
  obtain ⟨b⟩ := b
  have hdata : a.toByteArray.data = b.toByteArray.data := by simpa [bytes] using h
  have harr : a.toByteArray = b.toByteArray := by
    cases ha : a.toByteArray
    cases hb : b.toByteArray
    simp_all
  exact congrArg Str.mk (String.toByteArray_inj.1 harr)

theorem fromUtf8_bytes (s : Str) : fromUtf8 s.bytes = some s := by
  obtain ⟨s⟩ := s
  have h : (⟨(Str.bytes ⟨s⟩).toArray⟩ : ByteArray) = s.toByteArray := by simp [bytes]
  simp [fromUtf8, String.fromUTF8?, h, String.fromUTF8, s.isValidUTF8]

instance : LinearOrder Str where
  le a b := a.bytes ≤ b.bytes
  lt a b := a.bytes < b.bytes
  le_refl a := le_refl a.bytes
  le_trans a b c := le_trans (a := a.bytes) (b := b.bytes) (c := c.bytes)
  lt_iff_le_not_ge a b := lt_iff_le_not_ge (a := a.bytes) (b := b.bytes)
  le_antisymm a b hab hba := bytes_inj (le_antisymm hab hba)
  le_total a b := le_total a.bytes b.bytes
  toDecidableLE a b := inferInstanceAs (Decidable (a.bytes ≤ b.bytes))
  toDecidableLT a b := inferInstanceAs (Decidable (a.bytes < b.bytes))
  toDecidableEq := inferInstance

theorem lt_iff {a b : Str} : a < b ↔ a.bytes < b.bytes := Iff.rfl

end Str
