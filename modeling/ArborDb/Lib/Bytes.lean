import Mathlib.Data.List.Lex
import Mathlib.Tactic.Ring
import Mathlib.Tactic.Linarith

/-!
# Byte strings: lexicographic order, big-endian words, order codes

A byte string is a `List UInt8`, compared lexicographically. `Below a b` says that `a` comes before
`b` at a byte where the two *differ*: it is the lexicographic order without the prefix case, so it
survives any continuation of either side (`Below.append`) and is reversed by complementing every
byte (`Below.compl`). An encoding that maps `<` to `Below` is an *order code* (`OrderCode`); it is
monotone, injective and prefix-free at once, and order codes concatenate.
-/

/-- A string of bytes. -/
abbrev Bytes := List UInt8

instance linearOrderUInt8 : LinearOrder UInt8 where
  le_refl := UInt8.le_refl
  le_trans _ _ _ := UInt8.le_trans
  lt_iff_le_not_ge a b := by simp only [UInt8.lt_iff_toNat_lt, UInt8.le_iff_toNat_le]; omega
  le_antisymm _ _ := UInt8.le_antisymm
  le_total := UInt8.le_total
  toDecidableLE := inferInstance
  toDecidableEq := inferInstance
  toDecidableLT := inferInstance

namespace Bytes

/-! ## Strict difference -/

/-- `a` is below `b` at a byte where they differ. -/
inductive Below : Bytes → Bytes → Prop
  | head {x y : UInt8} {a b : Bytes} : x < y → Below (x :: a) (y :: b)
  | tail {x : UInt8} {a b : Bytes} : Below a b → Below (x :: a) (x :: b)

namespace Below

theorem lt {a b : Bytes} (h : Below a b) : a < b := by
  induction h with
  | head hxy => exact List.cons_lt_cons_iff.2 (.inl hxy)
  | tail _ ih => exact List.cons_lt_cons_iff.2 (.inr ⟨rfl, ih⟩)

theorem ne {a b : Bytes} (h : Below a b) : a ≠ b := ne_of_lt h.lt

/-- What follows a difference cannot undo it. -/
theorem append {a b : Bytes} (h : Below a b) (u v : Bytes) : Below (a ++ u) (b ++ v) := by
  induction h with
  | head hxy => exact .head hxy
  | tail _ ih => exact .tail ih

theorem prepend {a b : Bytes} (p : Bytes) (h : Below a b) : Below (p ++ a) (p ++ b) := by
  induction p with
  | nil => exact h
  | cons x p ih => exact .tail ih

theorem prefix_free {a b : Bytes} (h : Below a b) : ¬ a <+: b ∧ ¬ b <+: a := by
  constructor
  · rintro ⟨t, rfl⟩
    exact absurd (h.append t []).lt (by simp)
  · rintro ⟨t, rfl⟩
    exact absurd (h.append [] t).lt (by simp)

/-- Complementing every byte reverses a difference. -/
theorem compl {a b : Bytes} (h : Below a b) : Below (b.map (~~~ ·)) (a.map (~~~ ·)) := by
  induction h with
  | @head x y a b hxy =>
    refine .head ?_
    have := x.toNat_lt
    have := y.toNat_lt
    rw [UInt8.lt_iff_toNat_lt] at hxy ⊢
    simp only [UInt8.toNat_not, UInt8.size]
    omega
  | tail _ ih => exact .tail ih

theorem cons_iff {x : UInt8} {a b : Bytes} : Below (x :: a) (x :: b) ↔ Below a b := by
  refine ⟨fun h => ?_, .tail⟩
  cases h with
  | head hxx => exact absurd hxx (lt_irrefl x)
  | tail h => exact h

end Below

/-- Two strings of one length that compare `<` differ at some byte. -/
theorem below_of_lt_of_length {a b : Bytes} (hl : a.length = b.length) (h : a < b) : Below a b := by
  induction a generalizing b with
  | nil =>
    cases b with
    | nil => exact absurd h (lt_irrefl _)
    | cons y b => simp at hl
  | cons x a ih =>
    cases b with
    | nil => simp at hl
    | cons y b =>
      rcases List.cons_lt_cons_iff.1 h with hxy | ⟨rfl, hab⟩
      · exact .head hxy
      · exact .tail (ih (by simpa using hl) hab)

/-- Neither string is a prefix of the other. -/
def Incomparable (a b : Bytes) : Prop := ¬ a <+: b ∧ ¬ b <+: a

theorem Below.incomparable {a b : Bytes} (h : Below a b) : Incomparable a b := h.prefix_free

namespace Incomparable

theorem symm {a b : Bytes} (h : Incomparable a b) : Incomparable b a := ⟨h.2, h.1⟩

theorem ne {a b : Bytes} (h : Incomparable a b) : a ≠ b := by
  rintro rfl
  exact h.1 List.prefix_rfl

/-- Of two strings that differ at a byte the smaller one lies below. -/
theorem below_of_lt {a b : Bytes} (h : Incomparable a b) (hlt : a < b) : Below a b := by
  induction a generalizing b with
  | nil => exact absurd List.nil_prefix h.1
  | cons x a ih =>
    cases b with
    | nil => exact absurd hlt (List.not_lt_nil _)
    | cons y b =>
      rcases List.cons_lt_cons_iff.1 hlt with hxy | ⟨rfl, hrest⟩
      · exact .head hxy
      · exact .tail (ih ⟨fun hp => h.1 (List.cons_prefix_cons.2 ⟨rfl, hp⟩),
          fun hp => h.2 (List.cons_prefix_cons.2 ⟨rfl, hp⟩)⟩ hrest)

/-- What follows a difference does not decide. -/
theorem lt_of_append {a b : Bytes} (h : Incomparable a b) {u v : Bytes} (hlt : a ++ u < b ++ v) : a < b := by
  rcases lt_trichotomy a b with hab | rfl | hba
  · exact hab
  · exact absurd List.prefix_rfl h.1
  · have hbelow := (h.symm.below_of_lt hba).append v u
    exact absurd hbelow.lt (not_lt_of_gt hlt)

/-- Strings that part ways stay apart, whatever follows. -/
theorem append {a b : Bytes} (h : Incomparable a b) (u v : Bytes) :
    Incomparable (a ++ u) (b ++ v) := by
  have hor : ∀ {c d u v : Bytes}, c ++ u <+: d ++ v → c <+: d ∨ d <+: c := by
    intro c d u v hp
    exact List.prefix_or_prefix_of_prefix ((List.prefix_append c u).trans hp)
      (List.prefix_append d v)
  constructor
  · intro hp
    exact (hor hp).elim h.1 h.2
  · intro hp
    exact (hor hp).elim h.2 h.1

theorem prepend {a b : Bytes} (p : Bytes) (h : Incomparable a b) : Incomparable (p ++ a) (p ++ b) :=
  ⟨fun hp => h.1 ((List.prefix_append_right_inj p).1 hp),
    fun hp => h.2 ((List.prefix_append_right_inj p).1 hp)⟩

theorem compl {a b : Bytes} (h : Incomparable a b) :
    Incomparable (a.map (~~~ ·)) (b.map (~~~ ·)) := by
  have hinv : ∀ c : Bytes, (c.map (~~~ ·)).map (~~~ ·) = c := by
    intro c
    simp [Function.comp_def]
  constructor
  · intro hp
    have hq := hp.map (~~~ ·)
    rw [hinv, hinv] at hq
    exact h.1 hq
  · intro hp
    have hq := hp.map (~~~ ·)
    rw [hinv, hinv] at hq
    exact h.2 hq

end Incomparable

/-! ## Order codes -/

section OrderCode
variable {α : Type*} [LinearOrder α]

/-- An encoding that turns the order of its arguments into a byte difference. -/
def OrderCode (e : α → Bytes) : Prop := ∀ ⦃a b : α⦄, a < b → Below (e a) (e b)

variable {e : α → Bytes} (h : OrderCode e)

include h in
theorem OrderCode.lt_iff {a b : α} : e a < e b ↔ a < b := by
  refine ⟨fun hlt => ?_, fun hab => (h hab).lt⟩
  rcases lt_trichotomy a b with hab | rfl | hba
  · exact hab
  · exact absurd hlt (lt_irrefl _)
  · exact absurd (h hba).lt (not_lt_of_gt hlt)

include h in
theorem OrderCode.incomparable {a b : α} (hab : a ≠ b) : Incomparable (e a) (e b) := by
  rcases lt_or_gt_of_ne hab with hlt | hgt
  · exact (h hlt).incomparable
  · exact (h hgt).incomparable.symm

/-- Codes that differ at a byte in the order of two values, and agree on equal ones, compare, also
when complemented, exactly as the values do. -/
theorem exact_of_below {x y : α} {a b : Bytes} (hlt : x < y → Below a b) (hgt : y < x → Below b a)
    (heq : x = y → a = b) :
    (a < b ↔ x < y) ∧ (a = b ↔ x = y) ∧ (x ≠ y → Incomparable a b) ∧
    (b.map (~~~ ·) < a.map (~~~ ·) ↔ x < y) := by
  rcases lt_trichotomy x y with h | h | h
  · have hb := hlt h
    exact ⟨iff_of_true hb.lt h, iff_of_false hb.ne h.ne, fun _ => hb.incomparable,
      iff_of_true hb.compl.lt h⟩
  · rw [heq h]
    exact ⟨iff_of_false (lt_irrefl _) h.not_lt, iff_of_true rfl h, fun hne => absurd h hne,
      iff_of_false (lt_irrefl _) h.not_lt⟩
  · have hb := hgt h
    exact ⟨iff_of_false hb.lt.not_gt h.not_gt, iff_of_false hb.ne.symm h.ne',
      fun _ => hb.incomparable.symm, iff_of_false hb.compl.lt.not_gt h.not_gt⟩

end OrderCode

/-! ## Big-endian words -/

/-- The low `w` bytes of `n`, most significant first. -/
def be : Nat → Nat → Bytes
  | 0, _ => []
  | w + 1, n => UInt8.ofNat (n / 256 ^ w) :: be w n

/-- The number a big-endian byte string denotes. -/
def ofBe : Bytes → Nat
  | [] => 0
  | b :: bs => b.toNat * 256 ^ bs.length + ofBe bs

@[simp] theorem length_be (w n : Nat) : (be w n).length = w := by
  induction w with
  | zero => rfl
  | succ w ih => simp [be, ih]

theorem ofBe_be (w n : Nat) : ofBe (be w n) = n % 256 ^ w := by
  induction w with
  | zero => simp [be, ofBe, Nat.mod_one]
  | succ w ih =>
    have h : n % 256 ^ (w + 1) = n % 256 ^ w + 256 ^ w * (n / 256 ^ w % 256) := by
      rw [pow_succ, Nat.mod_mul]
    rw [be, ofBe, ih, length_be, UInt8.toNat_ofNat', h]
    ring

theorem ofBe_be_of_lt {w n : Nat} (h : n < 256 ^ w) : ofBe (be w n) = n := by
  rw [ofBe_be, Nat.mod_eq_of_lt h]

theorem ofBe_lt (b : Bytes) : ofBe b < 256 ^ b.length := by
  induction b with
  | nil => simp [ofBe]
  | cons x b ih =>
    have hx := x.toNat_lt
    rw [ofBe, List.length_cons, pow_succ]
    calc x.toNat * 256 ^ b.length + ofBe b
        < x.toNat * 256 ^ b.length + 256 ^ b.length := by omega
      _ = (x.toNat + 1) * 256 ^ b.length := by ring
      _ ≤ 256 * 256 ^ b.length := Nat.mul_le_mul_right _ (by omega)
      _ = 256 ^ b.length * 256 := by ring

/-- A shared leading part does not change which of two words is smaller. -/
theorem be_mod (w n : Nat) : be w (n % 256 ^ w) = be w n := by
  suffices h : ∀ v, w ≤ v → be w (n % 256 ^ v) = be w n from h w le_rfl
  induction w with
  | zero => intro v _; rfl
  | succ w ih =>
    intro v hv
    rw [be, be, ih v (by omega)]
    congr 1
    apply UInt8.toNat_inj.1
    rw [UInt8.toNat_ofNat', UInt8.toNat_ofNat']
    obtain ⟨k, rfl⟩ : ∃ k, v = w + 1 + k := ⟨v - (w + 1), by omega⟩
    have : n % 256 ^ (w + 1 + k) / 256 ^ w = n / 256 ^ w % 256 ^ (1 + k) := by
      rw [add_assoc, pow_add, Nat.mod_mul_right_div_self]
    rw [this, pow_add, pow_one]
    exact Nat.mod_mul_right_mod _ 256 _

theorem be_ofBe (b : Bytes) : be b.length (ofBe b) = b := by
  induction b with
  | nil => rfl
  | cons x b ih =>
    have hb := ofBe_lt b
    have hpos : 0 < 256 ^ b.length := by positivity
    rw [List.length_cons, be, ofBe]
    congr 1
    · apply UInt8.toNat_inj.1
      rw [UInt8.toNat_ofNat', Nat.add_comm, Nat.add_mul_div_right _ _ hpos, Nat.div_eq_of_lt hb,
        Nat.zero_add, Nat.mod_eq_of_lt x.toNat_lt]
    · rw [← be_mod, Nat.add_comm, Nat.add_mul_mod_self_right, be_mod, ih]

/-- **Big-endian words of one width compare as the numbers they hold.** -/
theorem be_below {w m n : Nat} (hn : n < 256 ^ w) (h : m < n) : Below (be w m) (be w n) := by
  induction w generalizing m n with
  | zero => simp at hn; omega
  | succ w ih =>
    rw [be, be]
    have hpos : 0 < 256 ^ w := by positivity
    have hq : n / 256 ^ w < 256 := by
      rw [Nat.div_lt_iff_lt_mul hpos]; rw [pow_succ] at hn; linarith
    have hmn : m / 256 ^ w ≤ n / 256 ^ w := Nat.div_le_div_right h.le
    rcases Nat.lt_or_eq_of_le hmn with hlt | heq
    · refine .head ?_
      rw [UInt8.lt_iff_toNat_lt, UInt8.toNat_ofNat', UInt8.toNat_ofNat', Nat.mod_eq_of_lt hq,
        Nat.mod_eq_of_lt (by omega)]
      exact hlt
    · rw [heq]
      refine .tail ?_
      rw [← be_mod w m, ← be_mod w n]
      refine ih (Nat.mod_lt _ hpos) ?_
      have h1 := Nat.div_add_mod m (256 ^ w)
      have h2 := Nat.div_add_mod n (256 ^ w)
      rw [heq] at h1
      omega

theorem be_inj {w m n : Nat} (hm : m < 256 ^ w) (hn : n < 256 ^ w) (h : be w m = be w n) :
    m = n := by
  rw [← ofBe_be_of_lt hm, ← ofBe_be_of_lt hn, h]

/-! ## Scans of a prefix -/

/-- What follows a common start decides. -/
theorem append_lt_append_iff (p : Bytes) {a b : Bytes} : p ++ a < p ++ b ↔ a < b := by
  induction p with
  | nil => rfl
  | cons x p ih => rw [List.cons_append, List.cons_append, List.cons_lt_cons_self, ih]

/-- A string between a prefix and one that continues it continues it too. -/
theorem prefix_of_between {p a b : Bytes} (hpa : ¬ a < p) (hab : a ≤ b) (hpb : p <+: b) : p <+: a := by
  induction p generalizing a b with
  | nil => exact List.nil_prefix
  | cons x p ih =>
    obtain ⟨t, rfl⟩ := hpb
    have hba := not_lt.2 hab
    cases a with
    | nil => exact absurd (List.nil_lt_cons x p) hpa
    | cons y a =>
      rw [List.cons_append] at hba
      have hxy : x = y := by
        rcases lt_trichotomy x y with h | h | h
        · exact absurd (List.cons_lt_cons_iff.2 (.inl h)) hba
        · exact h
        · exact absurd (List.cons_lt_cons_iff.2 (.inl h)) hpa
      subst hxy
      have htail : ¬ a < p := fun h => hpa (List.cons_lt_cons_iff.2 (.inr ⟨rfl, h⟩))
      have hrest : a ≤ p ++ t := not_lt.1 fun h => hba (List.cons_lt_cons_iff.2 (.inr ⟨rfl, h⟩))
      exact List.cons_prefix_cons.2 ⟨rfl, ih htail hrest (List.prefix_append p t)⟩

theorem not_lt_of_start {p a : Bytes} (h : p <+: a) : ¬ a < p := by
  obtain ⟨t, rfl⟩ := h
  induction p with
  | nil => exact List.not_lt_nil _
  | cons x p ih =>
    intro hlt
    rcases List.cons_lt_cons_iff.1 hlt with h | ⟨-, h⟩
    · exact lt_irrefl x h
    · exact ih h

variable {α : Type} {l : List (Bytes × α)} {kv : Bytes × α}

theorem mem_takeWhile_start (hs : (l.map Prod.fst).Pairwise (· < ·)) {lower : Bytes}
    (hl : ∀ a ∈ l, ¬ a.1 < lower) :
    kv ∈ l.takeWhile (fun kv => lower.isPrefixOf kv.1) ↔ kv ∈ l ∧ lower <+: kv.1 := by
  induction l with
  | nil => simp
  | cons a l ih =>
    obtain ⟨hhead, hs⟩ := List.pairwise_cons.1 hs
    rw [List.takeWhile_cons]
    split
    · rename_i ha
      rw [List.mem_cons, List.mem_cons, ih hs fun b hb => hl b (List.mem_cons_of_mem _ hb)]
      constructor
      · rintro (rfl | ⟨hkv, hp⟩)
        · exact ⟨.inl rfl, List.isPrefixOf_iff_prefix.1 ha⟩
        · exact ⟨.inr hkv, hp⟩
      · rintro ⟨rfl | hkv, hp⟩
        · exact .inl rfl
        · exact .inr ⟨hkv, hp⟩
    · rename_i ha
      rw [List.isPrefixOf_iff_prefix] at ha
      constructor
      · intro h
        cases h
      · rintro ⟨hkv, hp⟩
        rcases List.mem_cons.1 hkv with rfl | hkv
        · exact absurd hp ha
        · have hlt := hhead kv.1 (List.mem_map_of_mem hkv)
          exact absurd (prefix_of_between (hl a List.mem_cons_self) hlt.le hp) ha

/-- In an ascending list, the members with a prefix are those from its lower bound on, until the first
one without it. -/
theorem mem_scan (hs : (l.map Prod.fst).Pairwise (· < ·)) (lower : Bytes) :
    kv ∈ (l.dropWhile fun kv => kv.1 < lower).takeWhile (fun kv => lower.isPrefixOf kv.1) ↔
      kv ∈ l ∧ lower <+: kv.1 := by
  induction l with
  | nil => simp
  | cons a l ih =>
    rw [List.dropWhile_cons]
    split
    · rename_i ha
      rw [ih (List.pairwise_cons.1 hs).2, List.mem_cons]
      constructor
      · rintro ⟨hkv, hp⟩
        exact ⟨.inr hkv, hp⟩
      · rintro ⟨rfl | hkv, hp⟩
        · exact absurd (of_decide_eq_true ha) (not_lt_of_start hp)
        · exact ⟨hkv, hp⟩
    · rename_i ha
      have hlow : ¬ a.1 < lower := fun h => ha (decide_eq_true h)
      refine mem_takeWhile_start hs fun b hb => ?_
      rcases List.mem_cons.1 hb with rfl | hb
      · exact hlow
      · have hlt := (List.pairwise_cons.1 hs).1 b.1 (List.mem_map_of_mem hb)
        exact fun h => hlow (hlt.trans h)

end Bytes
