import ArborDb.Error

/-!
# Byte writers and readers

The low-level layer under every codec: big-endian words and length-prefixed runs, a forward-only
`Reader` over a buffer, and bounded random-access reads of a blob. `Reads p b a` says that the
reading program `p` consumes exactly the bytes `b` and yields `a`; it composes along `>>=`, so a
decoder is verified one field at a time.
-/

namespace ArborDb

/-! ## Writers -/

/-- A `u32`, big-endian. -/
def putU32 (n : Nat) : Bytes := Bytes.be 4 n

/-- A length-prefixed byte run. -/
def putBytes (b : Bytes) : Bytes := putU32 b.length ++ b

@[simp] theorem length_putU32 (n : Nat) : (putU32 n).length = 4 := Bytes.length_be 4 n

@[simp] theorem length_putBytes (b : Bytes) : (putBytes b).length = b.length + 4 := by
  simp [putBytes, Nat.add_comm]

/-! ## The forward reader -/

/-- A forward-only cursor over a byte buffer. -/
structure Reader where
  buf : Bytes
  pos : Nat
  deriving DecidableEq

/-- A program reading from a cursor. -/
abbrev ReadM (α : Type) := StateT Reader (Except AdbError) α

namespace Reader

def new (buf : Bytes) : Reader := ⟨buf, 0⟩

/-- Consumes and returns the next `n` bytes, erroring if fewer remain. -/
def take (n : Nat) : ReadM Bytes := fun r =>
  if r.pos + n ≤ r.buf.length then
    .ok ((r.buf.drop r.pos).take n, { r with pos := r.pos + n })
  else
    .error (.corrupt "unexpected end of buffer while decoding")

/-- Reads a big-endian word of `w` bytes. -/
def word (w : Nat) : ReadM Nat := do
  let b ← take w
  return Bytes.ofBe b

def u8 : ReadM Nat := word 1

def u32 : ReadM Nat := word 4

/-- Reads a fixed-size array of `n` bytes. -/
def array (n : Nat) : ReadM { b : Bytes // b.length = n } := fun r =>
  if h : r.pos + n ≤ r.buf.length then
    .ok (⟨(r.buf.drop r.pos).take n, by rw [List.length_take, List.length_drop]; omega⟩,
      { r with pos := r.pos + n })
  else
    .error (.corrupt "unexpected end of buffer while decoding")

/-- Reads a length-prefixed byte run. -/
def bytes : ReadM Bytes := do
  let n ← u32
  take n

/-- Runs a reading program a number of times. -/
def times {α : Type} (p : ReadM α) : Nat → ReadM (List α)
  | 0 => pure []
  | n + 1 => do
    let a ← p
    let more ← times p n
    return a :: more

/-- What is left to read. -/
def rest (r : Reader) : Bytes := r.buf.drop r.pos

end Reader

/-- `p` consumes exactly `b`, whatever follows, and yields `a`. -/
def Reads {α : Type} (p : ReadM α) (b : Bytes) (a : α) : Prop :=
  ∀ (r : Reader) (tail : Bytes), r.pos ≤ r.buf.length → r.rest = b ++ tail →
    p r = .ok (a, { r with pos := r.pos + b.length })

namespace Reads

theorem pure {α : Type} (a : α) : Reads (pure a) [] a := by
  intro r tail _ _
  rfl

/-- Reading `b` off the front leaves the reader at what follows it. -/
theorem run_bind {α β : Type} {p : ReadM α} {b tail : Bytes} {a : α} (hp : Reads p b a)
    (f : α → ReadM β) {r : Reader} (hpos : r.pos ≤ r.buf.length) (hr : r.rest = b ++ tail) :
    (p >>= f) r = f a { r with pos := r.pos + b.length } ∧ r.pos + b.length ≤ r.buf.length ∧
      Reader.rest { r with pos := r.pos + b.length } = tail := by
  have hlen : b.length + tail.length = r.buf.length - r.pos := by
    rw [← List.length_append, ← hr, Reader.rest, List.length_drop]
  have hrun : (p >>= f) r = f a { r with pos := r.pos + b.length } := by
    show (p r >>= fun x => f x.1 x.2) = _
    rw [hp r tail hpos hr]
    rfl
  have hrest : Reader.rest { r with pos := r.pos + b.length } = tail := by
    unfold Reader.rest at hr ⊢
    rw [← List.drop_drop, hr, List.drop_left]
  exact ⟨hrun, by omega, hrest⟩

theorem bind {α β : Type} {p : ReadM α} {f : α → ReadM β} {b b' : Bytes} {a : α} {c : β}
    (hp : Reads p b a) (hf : Reads (f a) b' c) : Reads (p >>= f) (b ++ b') c := by
  intro r tail hpos hr
  obtain ⟨hrun, hpos', hrest⟩ := hp.run_bind f hpos (hr.trans (List.append_assoc ..))
  rw [hrun, hf _ tail hpos' hrest, List.length_append, Nat.add_assoc]

/-- The continuation reads nothing more. -/
theorem bind_nil {α β : Type} {p : ReadM α} {f : α → ReadM β} {b : Bytes} {a : α} {c : β}
    (hp : Reads p b a) (hf : Reads (f a) [] c) : Reads (p >>= f) b c := by
  have h := hp.bind hf
  rwa [List.append_nil] at h

/-- The first program reads nothing. -/
theorem nil_bind {α β : Type} {p : ReadM α} {f : α → ReadM β} {b : Bytes} {a : α} {c : β}
    (hp : Reads p [] a) (hf : Reads (f a) b c) : Reads (p >>= f) b c := by
  have h := hp.bind hf
  rwa [List.nil_append] at h

/-- Reading something and converting it. -/
theorem map {α β : Type} {p : ReadM α} {f : α → β} {b : Bytes} {a : α} (hp : Reads p b a) :
    Reads (p >>= fun x => Pure.pure (f x)) b (f a) := by
  exact hp.bind_nil (Reads.pure (f a))

theorem take {n : Nat} {b : Bytes} (h : b.length = n) : Reads (Reader.take n) b b := by
  intro r tail hpos hr
  have hlen : b.length + tail.length = r.buf.length - r.pos := by
    rw [← List.length_append, ← hr, Reader.rest, List.length_drop]
  unfold Reader.take
  rw [if_pos (by omega), ← h]
  have : r.buf.drop r.pos = b ++ tail := hr
  rw [this, List.take_left]

theorem array {n : Nat} (b : { b : Bytes // b.length = n }) : Reads (Reader.array n) b.1 b := by
  obtain ⟨b, rfl⟩ := b
  intro r tail hpos hr
  have hlen : b.length + tail.length = r.buf.length - r.pos := by
    rw [← List.length_append, ← hr, Reader.rest, List.length_drop]
  have hdrop : r.buf.drop r.pos = b ++ tail := hr
  unfold Reader.array
  rw [dif_pos (by omega)]
  simp only [hdrop, List.take_left]

theorem word {w n : Nat} (h : n < 256 ^ w) : Reads (Reader.word w) (Bytes.be w n) n := by
  have := (Reads.take (Bytes.length_be w n)).map (f := Bytes.ofBe)
  rwa [Bytes.ofBe_be_of_lt h] at this

theorem u32 {n : Nat} (h : n < 2 ^ 32) : Reads Reader.u32 (putU32 n) n := word h

theorem bytes {b : Bytes} (h : b.length < 2 ^ 32) : Reads Reader.bytes (putBytes b) b :=
  (Reads.u32 h).bind (Reads.take rfl)

/-- Reading a buffer from its start to its end. -/
theorem run_new {α : Type} {p : ReadM α} {b : Bytes} {a : α} (h : Reads p b a) :
    p (Reader.new b) = .ok (a, ⟨b, b.length⟩) := by
  have hrest : (Reader.new b).rest = b ++ [] := (List.append_nil b).symm
  rw [h (Reader.new b) [] (Nat.zero_le _) hrest]
  simp [Reader.new]

/-- Reading a list of things, one after the other. -/
theorem times {α β : Type} {p : ReadM β} {f : α → Bytes} {g : α → β} {l : List α}
    (h : ∀ a ∈ l, Reads p (f a) (g a)) : Reads (Reader.times p l.length) (l.flatMap f) (l.map g) := by
  induction l with
  | nil => exact Reads.pure []
  | cons a l ih =>
    have hrest := ih fun b hb => h b (List.mem_cons_of_mem _ hb)
    exact (h a List.mem_cons_self).bind (hrest.map (f := (g a :: ·)))

end Reads

/-- Whatever `p` gives satisfies `Q`. -/
def Gives {α : Type} (p : ReadM α) (Q : α → Prop) : Prop := ∀ r a r', p r = .ok (a, r') → Q a

namespace Gives

variable {α β : Type} {p : ReadM α} {P : α → Prop} {Q : β → Prop}

theorem trivial (p : ReadM α) : Gives p fun _ => True := fun _ _ _ _ => True.intro

theorem pure {a : α} (h : P a) : Gives (Pure.pure a) P := by
  intro r b r' hrun
  cases hrun
  exact h

theorem bind {f : α → ReadM β} (hp : Gives p P) (hf : ∀ a, P a → Gives (f a) Q) : Gives (p >>= f) Q := by
  intro r b r' hrun
  change (p r >>= fun x => f x.1 x.2) = _ at hrun
  cases hr : p r with
  | error e =>
    rw [hr] at hrun
    cases hrun
  | ok x =>
    rw [hr] at hrun
    exact hf x.1 (hp r x.1 x.2 hr) x.2 b r' hrun

/-- Nothing is asked of what `p` gives. -/
theorem after {f : α → ReadM β} (hf : ∀ a, Gives (f a) Q) : Gives (p >>= f) Q :=
  (trivial p).bind fun a _ => hf a

theorem times (hp : Gives p P) (n : Nat) : Gives (Reader.times p n) fun l => ∀ a ∈ l, P a := by
  induction n with
  | zero => exact pure (List.forall_mem_nil P)
  | succ n ih => exact hp.bind fun a ha => ih.bind fun l hl => pure (List.forall_mem_cons.2 ⟨ha, hl⟩)

theorem take (n : Nat) : Gives (Reader.take n) fun b => b.length = n := by
  intro r b r' hrun
  unfold Reader.take at hrun
  split at hrun
  · cases hrun
    rw [List.length_take, List.length_drop]
    omega
  · cases hrun

theorem word (w : Nat) : Gives (Reader.word w) (· < 256 ^ w) := by
  refine Gives.bind (take w) ?_
  rintro b rfl
  exact pure (Bytes.ofBe_lt b)

theorem bytes : Gives Reader.bytes fun b => b.length < 2 ^ 32 := by
  refine Gives.bind (word 4) ?_
  intro n hn r b r' hrun
  rw [take n r b r' hrun]
  exact hn

end Gives

/-! ## Random-access reads -/

/-- Borrows `len` bytes of `blob` at `off`. -/
def slice (blob : Bytes) (off len : Nat) : AdbResult Bytes :=
  if off + len ≤ blob.length then .ok ((blob.drop off).take len)
  else .error (.corrupt "blob is truncated")

/-- Reads a single byte at `off`. -/
def readU8 (blob : Bytes) (off : Nat) : AdbResult Nat :=
  (slice blob off 1).map Bytes.ofBe

/-- Reads a big-endian `u32` at `off`. -/
def readU32 (blob : Bytes) (off : Nat) : AdbResult Nat :=
  (slice blob off 4).map Bytes.ofBe

theorem slice_append (pre b post : Bytes) :
    slice (pre ++ b ++ post) pre.length b.length = .ok b := by
  unfold slice
  rw [if_pos (by simp), List.append_assoc, List.drop_left, List.take_left]

theorem slice_mono {blob b : Bytes} {off len : Nat} (h : slice blob off len = .ok b)
    (post : Bytes) : slice (blob ++ post) off len = .ok b := by
  unfold slice at h ⊢
  split at h
  · rename_i hle
    rw [if_pos (by simp; omega), List.drop_append_of_le_length (by omega),
      List.take_append_of_le_length (by rw [List.length_drop]; omega)]
    exact h
  · cases h

theorem slice_length {blob b : Bytes} {off len : Nat} (h : slice blob off len = .ok b) :
    b.length = len := by
  unfold slice at h
  split at h
  · rename_i hle
    obtain rfl := Except.ok.inj h
    rw [List.length_take, List.length_drop]
    omega
  · cases h

theorem map_slice_mono {α : Type} {f : Bytes → α} {blob : Bytes} {off len : Nat} {a : α}
    (h : (slice blob off len).map f = .ok a) (post : Bytes) :
    (slice (blob ++ post) off len).map f = .ok a := by
  cases hs : slice blob off len with
  | error e => rw [hs] at h; cases h
  | ok b => rw [slice_mono hs post, ← hs]; exact h

theorem readU8_mono {blob : Bytes} {off n : Nat} (h : readU8 blob off = .ok n) (post : Bytes) :
    readU8 (blob ++ post) off = .ok n := map_slice_mono h post

theorem readU32_mono {blob : Bytes} {off n : Nat} (h : readU32 blob off = .ok n) (post : Bytes) :
    readU32 (blob ++ post) off = .ok n := map_slice_mono h post

theorem readU8_append {n : Nat} (hn : n < 2 ^ 8) (pre post : Bytes) :
    readU8 (pre ++ Bytes.be 1 n ++ post) pre.length = .ok n := by
  have h := slice_append pre (Bytes.be 1 n) post
  rw [Bytes.length_be] at h
  rw [readU8, h, Except.map, Bytes.ofBe_be_of_lt hn]

theorem readU32_append {n : Nat} (hn : n < 2 ^ 32) (pre post : Bytes) :
    readU32 (pre ++ putU32 n ++ post) pre.length = .ok n := by
  have h := slice_append pre (putU32 n) post
  rw [length_putU32] at h
  rw [readU32, h, Except.map, putU32, Bytes.ofBe_be_of_lt hn]

theorem readU8_lt {blob : Bytes} {off n : Nat} (h : readU8 blob off = .ok n) :
    off < blob.length := by
  unfold readU8 slice at h
  split at h
  · omega
  · cases h

end ArborDb
