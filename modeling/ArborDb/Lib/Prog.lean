import Mathlib.Data.List.Basic

/-!
# Stateful programs that may fail

A `Prog ρ σ ε α` reads an environment `ρ`, changes a state `σ`, and returns an `α` or fails with an
`ε`. A failure keeps the changes made before it. The state counts the fresh names drawn so far, and
no program lowers the count: the bound is a field of the program, so a bound on the last count of a
run bounds every count before it.

`Triple` is the logic of one run: a postcondition speaks about the outcome, failures included, and
the state reached. The parameter `n` is a bound on the names drawn by the whole run.
-/

/-- States that count the fresh names drawn so far. -/
class Supply (σ : Type) where
  drawn : σ → Nat

open Supply (drawn)

/-- A program over states `σ`. -/
structure Prog (ρ σ ε : Type) [Supply σ] (α : Type) where
  run : ρ → σ → Except ε α × σ
  drawn_le : ∀ r s, drawn s ≤ drawn (run r s).2

namespace Prog

variable {ρ σ ε α β : Type} [Supply σ]

/-- What follows an outcome: the next program, or the same failure. -/
def next (r : ρ) (f : α → Prog ρ σ ε β) : Except ε α × σ → Except ε β × σ
  | (.ok a, s) => (f a).run r s
  | (.error e, s) => (.error e, s)

theorem drawn_le_next (r : ρ) (f : α → Prog ρ σ ε β) (x : Except ε α × σ) :
    drawn x.2 ≤ drawn (next r f x).2 := by
  obtain ⟨_ | a, s⟩ := x
  · exact Nat.le_refl _
  · exact (f a).drawn_le r s

instance : Monad (Prog ρ σ ε) where
  pure a := ⟨fun _ s => (.ok a, s), fun _ _ => Nat.le_refl _⟩
  bind m f := ⟨fun r s => next r f (m.run r s),
    fun r s => Nat.le_trans (m.drawn_le r s) (drawn_le_next r f _)⟩

/-- Fails, leaving the state as it is. -/
def fail (e : ε) : Prog ρ σ ε α := ⟨fun _ s => (.error e, s), fun _ _ => Nat.le_refl _⟩

/-- A read: the state does not change. -/
def inspect (f : ρ → σ → Except ε α) : Prog ρ σ ε α :=
  ⟨fun r s => (f r s, s), fun _ _ => Nat.le_refl _⟩

/-- A write that cannot fail and draws no name. -/
def modify (f : ρ → σ → σ) (h : ∀ r s, drawn (f r s) = drawn s) : Prog ρ σ ε Unit :=
  ⟨fun r s => (.ok (), f r s), fun r s => Nat.le_of_eq (h r s).symm⟩

/-- Runs the body for each element in turn. -/
def forEach (body : α → Prog ρ σ ε Unit) : List α → Prog ρ σ ε Unit
  | [] => pure ()
  | a :: l => do
    body a
    forEach body l

/-! ## Execution -/

@[simp] theorem run_pure (a : α) (r : ρ) (s : σ) :
    (pure a : Prog ρ σ ε α).run r s = (.ok a, s) := rfl

@[simp] theorem run_fail (e : ε) (r : ρ) (s : σ) :
    (fail e : Prog ρ σ ε α).run r s = (.error e, s) := rfl

@[simp] theorem run_inspect (f : ρ → σ → Except ε α) (r : ρ) (s : σ) :
    (inspect f).run r s = (f r s, s) := rfl

@[simp] theorem run_modify (f : ρ → σ → σ) (h : ∀ r s, drawn (f r s) = drawn s) (r : ρ) (s : σ) :
    (modify f h : Prog ρ σ ε Unit).run r s = (.ok (), f r s) := rfl

theorem run_bind (m : Prog ρ σ ε α) (f : α → Prog ρ σ ε β) (r : ρ) (s : σ) :
    (m >>= f).run r s = next r f (m.run r s) := rfl

@[simp] theorem next_ok (f : α → Prog ρ σ ε β) (r : ρ) (a : α) (s : σ) :
    next r f (.ok a, s) = (f a).run r s := rfl

@[simp] theorem next_error (f : α → Prog ρ σ ε β) (r : ρ) (e : ε) (s : σ) :
    next r f (.error e, s) = (.error e, s) := rfl

/-! ## What a program keeps -/

/-- The program changes nothing that `f` tells about the state. -/
def Keeps (f : σ → β) (m : Prog ρ σ ε α) : Prop := ∀ r s, f (m.run r s).2 = f s

namespace Keeps

variable {γ : Type} {f : σ → γ}

theorem pure (a : α) : Keeps f (Pure.pure a : Prog ρ σ ε α) := fun _ _ => rfl

theorem fail (e : ε) : Keeps f (Prog.fail e : Prog ρ σ ε α) := fun _ _ => rfl

theorem inspect (g : ρ → σ → Except ε α) : Keeps f (Prog.inspect g) := fun _ _ => rfl

theorem bind {m : Prog ρ σ ε α} {g : α → Prog ρ σ ε β} (hm : Keeps f m)
    (hg : ∀ a, Keeps f (g a)) : Keeps f (m >>= g) := by
  intro r s
  have hfirst := hm r s
  rw [run_bind]
  generalize m.run r s = out at hfirst ⊢
  obtain ⟨x, s'⟩ := out
  cases x with
  | error e => exact hfirst
  | ok a => exact (hg a r s').trans hfirst

theorem forEach {body : α → Prog ρ σ ε Unit} (h : ∀ a, Keeps f (body a)) (l : List α) :
    Keeps f (Prog.forEach body l) := by
  induction l with
  | nil => exact pure ()
  | cons a l ih => exact bind (h a) fun _ => ih

end Keeps

/-! ## What a program maintains -/

/-- Every run from a state with `I` that draws no name past `n` ends in one, whether it returns or
fails. -/
def Maintains (r : ρ) (n : Nat) (I : σ → Prop) (m : Prog ρ σ ε α) : Prop :=
  ∀ s, I s → drawn (m.run r s).2 ≤ n → I (m.run r s).2

namespace Maintains

variable {r : ρ} {n : Nat} {I : σ → Prop}

theorem pure (a : α) : Maintains r n I (Pure.pure a : Prog ρ σ ε α) := fun _ h _ => h

theorem fail (e : ε) : Maintains r n I (Prog.fail e : Prog ρ σ ε α) := fun _ h _ => h

theorem modify {f : ρ → σ → σ} {hf : ∀ r s, drawn (f r s) = drawn s} (h : ∀ s, I s → I (f r s)) :
    Maintains r n I (Prog.modify f hf : Prog ρ σ ε Unit) := fun s hs _ => h s hs

theorem bind {m : Prog ρ σ ε α} {f : α → Prog ρ σ ε β} (hm : Maintains r n I m)
    (hf : ∀ a, Maintains r n I (f a)) : Maintains r n I (m >>= f) := by
  intro s hs hn
  have hmid := hm s hs (Nat.le_trans (drawn_le_next r f _) hn)
  rw [run_bind] at hn ⊢
  generalize m.run r s = out at hmid hn ⊢
  obtain ⟨x, s'⟩ := out
  cases x with
  | error e => exact hmid
  | ok a => exact hf a s' hmid hn

/-- A read: what follows may use what it answered. -/
theorem inspect {g : ρ → σ → Except ε β} {f : β → Prog ρ σ ε α}
    (h : ∀ s b, I s → g r s = .ok b → Maintains r n I (f b)) :
    Maintains r n I (Prog.inspect g >>= f) := by
  intro s hs hn
  rw [run_bind, run_inspect] at hn ⊢
  cases hg : g r s with
  | error e => exact hs
  | ok b =>
    rw [hg] at hn
    exact h s b hs hg s hs hn

/-- A read whose answer does not matter. -/
theorem guard {g : ρ → σ → Except ε β} {f : β → Prog ρ σ ε α} (h : ∀ b, Maintains r n I (f b)) :
    Maintains r n I (Prog.inspect g >>= f) := inspect fun _ b _ _ => h b

theorem forEach {body : α → Prog ρ σ ε Unit} {l : List α} (h : ∀ a ∈ l, Maintains r n I (body a)) :
    Maintains r n I (Prog.forEach body l) := by
  induction l with
  | nil => exact pure ()
  | cons a l ih =>
    exact bind (h a List.mem_cons_self) fun _ => ih fun b hb => h b (List.mem_cons_of_mem a hb)

/-- Two assertions are maintained together. -/
theorem and {I' : σ → Prop} {m : Prog ρ σ ε α} (h : Maintains r n I m) (h' : Maintains r n I' m) :
    Maintains r n (fun s => I s ∧ I' s) m :=
  fun s hs hn => ⟨h s hs.1 hn, h' s hs.2 hn⟩

/-- No program takes a drawn name back. -/
theorem drawn_le (d : Nat) (m : Prog ρ σ ε α) : Maintains r n (fun s => d ≤ drawn s) m :=
  fun s hs _ => Nat.le_trans hs (m.drawn_le r s)

end Maintains

/-! ## Triples -/

/-- What an outcome has to meet: `Q` on a return, `E` on a failure. -/
def Meets (Q : α → σ → Prop) (E : ε → σ → Prop) : Except ε α × σ → Prop
  | (.ok a, s) => Q a s
  | (.error e, s) => E e s

/-- Every run from a state with `P` that draws no name past `n` returns with `Q` or fails with
`E`. -/
def Triple (r : ρ) (n : Nat) (P : σ → Prop) (m : Prog ρ σ ε α) (Q : α → σ → Prop)
    (E : ε → σ → Prop) : Prop :=
  ∀ s, P s → drawn (m.run r s).2 ≤ n → Meets Q E (m.run r s)

namespace Triple

variable {r : ρ} {n : Nat} {P : σ → Prop} {Q : α → σ → Prop} {E : ε → σ → Prop}
  {m : Prog ρ σ ε α}

theorem pure {a : α} (h : ∀ s, P s → Q a s) : Triple r n P (Pure.pure a) Q E :=
  fun s hs _ => h s hs

theorem fail {e : ε} (h : ∀ s, P s → E e s) : Triple r n P (Prog.fail e) Q E :=
  fun s hs _ => h s hs

theorem modify {f : ρ → σ → σ} {hf : ∀ r s, drawn (f r s) = drawn s} {Q : Unit → σ → Prop}
    (h : ∀ s, P s → drawn s ≤ n → Q () (f r s)) : Triple r n P (Prog.modify f hf) Q E := by
  intro s hs hn
  rw [run_modify, hf] at hn
  exact h s hs hn

theorem consequence {P' : σ → Prop} {Q' : α → σ → Prop} {E' : ε → σ → Prop}
    (h : Triple r n P' m Q' E') (hpre : ∀ s, P s → P' s) (hpost : ∀ a s, Q' a s → Q a s)
    (herr : ∀ e s, E' e s → E e s) : Triple r n P m Q E := by
  intro s hs hn
  have hrun := h s (hpre s hs) hn
  generalize m.run r s = out at hrun ⊢
  obtain ⟨x, s'⟩ := out
  cases x with
  | error e => exact herr e s' hrun
  | ok a => exact hpost a s' hrun

theorem pre {P' : σ → Prop} (h : Triple r n P' m Q E) (hpre : ∀ s, P s → P' s) :
    Triple r n P m Q E := fun s hs => h s (hpre s hs)

theorem post {Q' : α → σ → Prop} (h : Triple r n P m Q' E) (hpost : ∀ a s, Q' a s → Q a s) :
    Triple r n P m Q E := h.consequence (fun _ hs => hs) hpost fun _ _ hs => hs

/-- Two triples of one program hold together. -/
theorem and {Q' : α → σ → Prop} {E' : ε → σ → Prop} (h : Triple r n P m Q E)
    (h' : Triple r n P m Q' E') : Triple r n P m (fun a s => Q a s ∧ Q' a s) E := by
  intro s hs hn
  have hrun := h s hs hn
  have hrun' := h' s hs hn
  generalize m.run r s = out at hrun hrun' ⊢
  obtain ⟨x, s'⟩ := out
  cases x with
  | error e => exact hrun
  | ok a => exact ⟨hrun, hrun'⟩

/-- A fact that does not depend on the state may be used from the precondition. -/
theorem of_pre {p : Prop} (hp : ∀ s, P s → p) (h : p → Triple r n P m Q E) :
    Triple r n P m Q E := fun s hs hn => h (hp s hs) s hs hn

/-- The first program's postcondition is the second one's precondition. -/
theorem bind {f : β → Prog ρ σ ε α} {m : Prog ρ σ ε β} {R : β → σ → Prop}
    (hm : Triple r n P m R E) (hf : ∀ b, Triple r n (R b) (f b) Q E) :
    Triple r n P (m >>= f) Q E := by
  intro s hs hn
  have hmid := hm s hs (Nat.le_trans (drawn_le_next r f _) hn)
  rw [run_bind] at hn ⊢
  generalize m.run r s = out at hmid hn ⊢
  obtain ⟨x, s'⟩ := out
  cases x with
  | error e => exact hmid
  | ok b => exact hf b s' hmid hn

/-- A result that is dropped does not matter to the state. -/
theorem of_dropped {m : Prog ρ σ ε β} {a : α} {R : σ → Prop}
    (h : Triple r n P (m >>= fun _ => Pure.pure a) (fun _ => R) E) : Triple r n P m (fun _ => R) E := by
  intro s hs hn
  have hrun := h s hs
  rw [run_bind] at hrun
  generalize m.run r s = out at hrun hn ⊢
  obtain ⟨x, s'⟩ := out
  cases x with
  | error e => exact hrun hn
  | ok b => exact hrun hn

/-- What holds of the state reached, whatever the outcome. -/
theorem of_run {R : σ → Prop} (h : ∀ s, P s → R (m.run r s).2) :
    Triple r n P m (fun _ => R) (fun _ => R) := by
  intro s hs _
  have hrun := h s hs
  generalize m.run r s = out at hrun ⊢
  obtain ⟨x, s'⟩ := out
  cases x with
  | error e => exact hrun
  | ok a => exact hrun

/-- A program that is run from each state of an assertion. -/
theorem of_states (h : ∀ s₀, P s₀ → Triple r n (· = s₀) m Q E) : Triple r n P m Q E :=
  fun s hs hn => h s hs s rfl hn

/-- A read before a program. -/
theorem inspect {g : ρ → σ → Except ε β} {f : β → Prog ρ σ ε α}
    (herr : ∀ e s, P s → g r s = .error e → E e s)
    (hok : ∀ b, Triple r n (fun s => P s ∧ g r s = .ok b) (f b) Q E) :
    Triple r n P (Prog.inspect g >>= f) Q E := by
  intro s hs hn
  rw [run_bind, run_inspect] at hn ⊢
  cases hg : g r s with
  | error e => exact herr e s hs hg
  | ok b =>
    rw [hg] at hn
    exact hok b s ⟨hs, hg⟩ hn

/-- A read whose answer the precondition gives. -/
theorem inspect_known {g : ρ → σ → Except ε β} {f : β → Prog ρ σ ε α} (b : β)
    (hg : ∀ s, P s → g r s = .ok b) (hf : Triple r n P (f b) Q E) :
    Triple r n P (Prog.inspect g >>= f) Q E := by
  intro s hs hn
  rw [run_bind, run_inspect, hg s hs] at hn ⊢
  exact hf s hs hn

/-- A read at a known state. -/
theorem inspect_at {s₀ : σ} {g : ρ → σ → Except ε β} {f : β → Prog ρ σ ε α}
    (herr : ∀ e, g r s₀ = .error e → E e s₀)
    (hok : ∀ b, g r s₀ = .ok b → Triple r n (· = s₀) (f b) Q E) :
    Triple r n (· = s₀) (Prog.inspect g >>= f) Q E := by
  rintro s rfl hn
  rw [run_bind, run_inspect] at hn ⊢
  cases hg : g r s with
  | error e => exact herr e hg
  | ok b =>
    rw [hg] at hn
    exact hok b hg s rfl hn

/-- A check: a read that answers nothing but may fail. -/
theorem guard {g : ρ → σ → Except ε β} {f : β → Prog ρ σ ε α} (herr : ∀ e s, P s → E e s)
    (hf : ∀ b, Triple r n P (f b) Q E) : Triple r n P (Prog.inspect g >>= f) Q E :=
  inspect (fun e s hs _ => herr e s hs) fun b => (hf b).pre fun _ h => h.1

/-- A loop: `I` speaks about the elements done so far. -/
theorem forEach {body : α → Prog ρ σ ε Unit} {l : List α} (I : List α → σ → Prop)
    (hbody : ∀ done a rest, l = done ++ a :: rest →
      Triple r n (I done) (body a) (fun _ => I (done ++ [a])) E) :
    Triple r n (I []) (Prog.forEach body l) (fun _ => I l) E := by
  suffices h : ∀ done rest, l = done ++ rest →
      Triple r n (I done) (Prog.forEach body rest) (fun _ => I l) E from h [] l rfl
  intro done rest
  induction rest generalizing done with
  | nil =>
    intro hl
    rw [List.append_nil] at hl
    exact Triple.pure (hl ▸ fun _ hs => hs)
  | cons a rest ih =>
    intro hl
    refine Triple.bind (hbody done a rest hl) ?_
    intro _
    exact ih (done ++ [a]) (by rw [hl, List.append_assoc]; rfl)

/-- A loop that keeps an assertion. -/
theorem forEach_keeps {body : α → Prog ρ σ ε Unit} {l : List α} {I : σ → Prop}
    (hbody : ∀ a ∈ l, Triple r n I (body a) (fun _ => I) E) :
    Triple r n I (Prog.forEach body l) (fun _ => I) E :=
  Triple.forEach (fun _ => I) fun done a rest hl => hbody a (by simp [hl])

/-- What a run that returns reaches. -/
theorem returned (h : Triple r n P m Q E) {s : σ} (hs : P s) (hn : drawn (m.run r s).2 ≤ n) {a : α}
    (ha : (m.run r s).1 = .ok a) : Q a (m.run r s).2 := by
  have hrun := h s hs hn
  generalize m.run r s = out at hrun ha ⊢
  obtain ⟨x, s'⟩ := out
  cases ha
  exact hrun

/-- What a run that fails reaches. -/
theorem failed (h : Triple r n P m Q E) {s : σ} (hs : P s) (hn : drawn (m.run r s).2 ≤ n) {e : ε}
    (he : (m.run r s).1 = .error e) : E e (m.run r s).2 := by
  have hrun := h s hs hn
  generalize m.run r s = out at hrun he ⊢
  obtain ⟨x, s'⟩ := out
  cases he
  exact hrun

/-- What a run reaches, whatever the outcome. -/
theorem reached {R : σ → Prop} (h : Triple r n P m (fun _ => R) (fun _ => R)) {s : σ} (hs : P s)
    (hn : drawn (m.run r s).2 ≤ n) : R (m.run r s).2 := by
  cases hout : (m.run r s).1 with
  | error e => exact h.failed hs hn hout
  | ok a => exact h.returned hs hn hout

/-- Two programs that begin alike run alike if what follows does. -/
theorem bind_congr {f g : β → Prog ρ σ ε α} {m : Prog ρ σ ε β} {Q : β → σ → Prop} (h : Triple r n P m Q E) {s : σ}
    (hs : P s) (hn : drawn (m.run r s).2 ≤ n) (hfg : ∀ b t, Q b t → drawn t ≤ n → (f b).run r t = (g b).run r t) :
    (m >>= f).run r s = (m >>= g).run r s := by
  have hmeets := h s hs hn
  rw [run_bind, run_bind]
  generalize m.run r s = out at hmeets hn ⊢
  obtain ⟨x, t⟩ := out
  cases x with
  | error e => rfl
  | ok b => exact hfg b t hmeets hn

/-- What does not depend on the run holds after it. -/
theorem const {q : Prop} (h : q) : Triple r n P m (fun _ _ => q) (fun _ _ => True) := by
  intro s _ _
  generalize m.run r s = out
  obtain ⟨x, s'⟩ := out
  cases x with
  | error e => trivial
  | ok a => exact h

/-- A triple that keeps an assertion. -/
theorem maintains {I : σ → Prop} (h : Triple r n I m (fun _ => I) (fun _ => I)) :
    Maintains r n I m := by
  intro s hs hn
  have hrun := h s hs hn
  generalize m.run r s = out at hrun ⊢
  obtain ⟨x, s'⟩ := out
  cases x with
  | error e => exact hrun
  | ok a => exact hrun

end Triple

/-- A maintained assertion as a triple. -/
theorem Maintains.triple {r : ρ} {n : Nat} {I : σ → Prop} {m : Prog ρ σ ε α}
    (h : Maintains r n I m) : Triple r n I m (fun _ => I) (fun _ _ => True) := by
  intro s hs hn
  have hrun := h s hs hn
  generalize m.run r s = out at hrun ⊢
  obtain ⟨x, s'⟩ := out
  cases x with
  | error e => trivial
  | ok a => exact hrun

/-- A triple of a program that maintains an assertion. -/
theorem Triple.and_maintains {r : ρ} {n : Nat} {P I : σ → Prop} {m : Prog ρ σ ε α}
    {Q : α → σ → Prop} {E : ε → σ → Prop} (h : Triple r n P m Q E) (hm : Maintains r n I m)
    (hpre : ∀ s, P s → I s) : Triple r n P m (fun a s => Q a s ∧ I s) E := by
  intro s hs hn
  have hrun := h s hs hn
  have hI := hm s (hpre s hs) hn
  generalize m.run r s = out at hrun hI ⊢
  obtain ⟨x, s'⟩ := out
  cases x with
  | error e => exact hrun
  | ok a => exact ⟨hrun, hI⟩

/-! ## Two runs -/

/-- Whenever the program succeeds from `s'`, drawing no name past `n`, it succeeds from a related
`s` with the same answer, and the states reached are related again. -/
def Mirrors (r : ρ) (n : Nat) (P : σ → σ → Prop) (m : Prog ρ σ ε α) (R : σ → σ → Prop) : Prop :=
  ∀ s s' a, P s s' → drawn (m.run r s').2 ≤ n → (m.run r s').1 = .ok a →
    (m.run r s).1 = .ok a ∧ R (m.run r s).2 (m.run r s').2

namespace Mirrors

variable {r : ρ} {n : Nat} {P Q R : σ → σ → Prop}

theorem pure {a : α} (h : ∀ s s', P s s' → R s s') :
    Mirrors r n P (Pure.pure a : Prog ρ σ ε α) R := fun s s' _ hs _ ha => ⟨ha, h s s' hs⟩

theorem fail {e : ε} : Mirrors r n P (Prog.fail e : Prog ρ σ ε α) R := by
  intro s s' a _ _ ha
  cases ha

theorem modify {f : ρ → σ → σ} {hf : ∀ r s, drawn (f r s) = drawn s}
    (h : ∀ s s', P s s' → R (f r s) (f r s')) : Mirrors r n P (Prog.modify f hf : Prog ρ σ ε Unit) R :=
  fun s s' _ hs _ ha => ⟨ha, h s s' hs⟩

theorem pre {P' : σ → σ → Prop} {m : Prog ρ σ ε α} (h : Mirrors r n P' m R)
    (hpre : ∀ s s', P s s' → P' s s') : Mirrors r n P m R := fun s s' a hs => h s s' a (hpre s s' hs)

theorem bind {m : Prog ρ σ ε α} {f : α → Prog ρ σ ε β} (hm : Mirrors r n P m Q)
    (hf : ∀ a, Mirrors r n Q (f a) R) : Mirrors r n P (m >>= f) R := by
  intro s s' b hs hn hb
  have hmid := fun a => hm s s' a hs (Nat.le_trans (drawn_le_next r f _) hn)
  rw [run_bind] at hn hb ⊢
  rw [run_bind]
  generalize m.run r s' = out' at hmid hn hb ⊢
  generalize m.run r s = out at hmid ⊢
  obtain ⟨x', t'⟩ := out'
  obtain ⟨x, t⟩ := out
  cases x' with
  | error e => cases hb
  | ok a =>
    obtain ⟨hx, ht⟩ := hmid a rfl
    cases (hx : x = .ok a)
    exact hf a t t' b ht hn hb

/-- A read: the one in the other state may be told from the success of what follows. -/
theorem inspect {g : ρ → σ → Except ε β} {f : β → Prog ρ σ ε α}
    (h : ∀ s s' b a, P s s' → g r s' = .ok b → ((f b).run r s').1 = .ok a →
      g r s = .ok b ∧ Mirrors r n P (f b) R) : Mirrors r n P (Prog.inspect g >>= f) R := by
  intro s s' a hs hn ha
  rw [run_bind, run_inspect] at hn ha ⊢
  rw [run_bind, run_inspect]
  cases hg : g r s' with
  | error e =>
    rw [hg] at ha
    cases ha
  | ok b =>
    rw [hg, next_ok] at hn ha
    obtain ⟨hread, hf⟩ := h s s' b a hs hg ha
    rw [hread, next_ok, next_ok]
    exact hf s s' a hs hn ha

/-- A read whose answer is kept: what follows starts from the states that gave it. -/
theorem inspect_kept {g : ρ → σ → Except ε β} {f : β → Prog ρ σ ε α}
    (hg : ∀ s s' b a, P s s' → g r s' = .ok b → ((f b).run r s').1 = .ok a → g r s = .ok b)
    (hf : ∀ b, Mirrors r n (fun s s' => P s s' ∧ g r s' = .ok b) (f b) R) :
    Mirrors r n P (Prog.inspect g >>= f) R := by
  intro s s' a hs hn ha
  rw [run_bind, run_inspect] at hn ha ⊢
  rw [run_bind, run_inspect]
  cases hb : g r s' with
  | error e =>
    rw [hb] at ha
    cases ha
  | ok b =>
    rw [hb, next_ok] at hn ha
    rw [hg s s' b a hs hb ha, next_ok, next_ok]
    exact hf b s s' a ⟨hs, hb⟩ hn ha

/-- A read that answers alike in both states. -/
theorem read {g : ρ → σ → Except ε β} {f : β → Prog ρ σ ε α}
    (hg : ∀ s s' b, P s s' → g r s' = .ok b → g r s = .ok b)
    (hf : ∀ b, Mirrors r n P (f b) R) : Mirrors r n P (Prog.inspect g >>= f) R :=
  inspect fun s s' b _ hs hb _ => ⟨hg s s' b hs hb, hf b⟩

theorem forEach {body : α → Prog ρ σ ε Unit} {l : List α}
    (h : ∀ a ∈ l, Mirrors r n P (body a) P) : Mirrors r n P (Prog.forEach body l) P := by
  induction l with
  | nil => exact pure fun _ _ hs => hs
  | cons a l ih =>
    exact bind (h a List.mem_cons_self) fun _ => ih fun b hb => h b (List.mem_cons_of_mem a hb)

/-- A successful run begins with a successful run of its first program. -/
theorem bind_ok {m : Prog ρ σ ε β} {f : β → Prog ρ σ ε α} {s : σ} {a : α}
    (h : ((m >>= f).run r s).1 = .ok a) : ∃ b, (m.run r s).1 = .ok b := by
  rw [run_bind] at h
  generalize m.run r s = out at h ⊢
  obtain ⟨x, t⟩ := out
  cases x with
  | error e => cases h
  | ok b => exact ⟨b, rfl⟩

theorem inspect_ok {g : ρ → σ → Except ε β} {f : β → Prog ρ σ ε α} {s : σ} {a : α}
    (h : ((Prog.inspect g >>= f).run r s).1 = .ok a) : ∃ b, g r s = .ok b := bind_ok h

end Mirrors

end Prog
