import Mathlib.Control.Monad.Basic

/-!
# Programs that consult shared state

A `Consult Q A α` asks questions `q : Q` one at a time; each is answered, with an `A q`, by a state
that it shares with others and that may change between two questions. Writes are questions too,
with nothing of interest as the answer.

A `Contract` says which questions may be asked and how they are answered. `Yields C p R` says that
under any answers that keep the contract the program keeps it too, and that its result satisfies
`R`. As it quantifies over every answer, it survives whatever others do between the questions.
-/

/-- A program that asks one question after another. -/
inductive Consult (Q : Type) (A : Q → Type) (α : Type) where
  | done (a : α)
  | ask (q : Q) (next : A q → Consult Q A α)

namespace Consult

variable {Q : Type} {A : Q → Type} {α β ε : Type}

def bind (p : Consult Q A α) (f : α → Consult Q A β) : Consult Q A β :=
  match p with
  | done a => f a
  | ask q next => ask q fun a => bind (next a) f

instance : Monad (Consult Q A) where
  pure := done
  bind := bind

/-- The program that asks one question, and may fail for other reasons. -/
def consult (q : Q) : ExceptT ε (Consult Q A) (A q) := ExceptT.mk (ask q fun a => done (.ok a))

/-- What a program may ask, and how it is answered. -/
structure Contract (Q : Type) (A : Q → Type) where
  pre : Q → Prop
  post : (q : Q) → A q → Prop

/-- Under answers that keep the contract, the program keeps it and its result satisfies `R`. -/
def Sound (C : Contract Q A) (R : α → Prop) : Consult Q A α → Prop
  | done a => R a
  | ask q next => C.pre q ∧ ∀ a, C.post q a → Sound C R (next a)

/-- The same, of a program that may fail. -/
def Yields (C : Contract Q A) (p : ExceptT ε (Consult Q A) α) (R : Except ε α → Prop) : Prop :=
  Sound C R p.run

namespace Sound

variable {C : Contract Q A}

theorem bind {R : β → Prop} {p : Consult Q A α} {f : α → Consult Q A β}
    (h : Sound C (fun a => Sound C R (f a)) p) : Sound C R (p.bind f) := by
  induction p with
  | done a => exact h
  | ask q next ih => exact ⟨h.1, fun a ha => ih a (h.2 a ha)⟩

theorem mono {R S : α → Prop} {p : Consult Q A α} (h : Sound C R p) (hRS : ∀ a, R a → S a) :
    Sound C S p := by
  induction p with
  | done a => exact hRS a h
  | ask q next ih => exact ⟨h.1, fun a ha => ih a (h.2 a ha)⟩

end Sound

namespace Yields

variable {C : Contract Q A} {R : Except ε α → Prop}

theorem pure {a : α} (h : R (.ok a)) : Yields C (Pure.pure a : ExceptT ε (Consult Q A) α) R := h

theorem throw {e : ε} (h : R (.error e)) :
    Yields C (MonadExcept.throw e : ExceptT ε (Consult Q A) α) R := h

/-- A computation that asks nothing. -/
theorem lift {x : Except ε α} (h : R x) : Yields C (liftM x : ExceptT ε (Consult Q A) α) R := h

theorem bind {p : ExceptT ε (Consult Q A) β} {f : β → ExceptT ε (Consult Q A) α}
    {S : Except ε β → Prop} (hp : Yields C p S) (hok : ∀ b, S (.ok b) → Yields C (f b) R)
    (herr : ∀ e, S (.error e) → R (.error e)) : Yields C (p >>= f) R := by
  refine Sound.bind (hp.mono ?_)
  rintro (e | b) hb
  · exact herr e hb
  · exact hok b hb

/-- A program that computes what an `Except` program computes. -/
theorem bind_eq {p : ExceptT ε (Consult Q A) β} {f : β → ExceptT ε (Consult Q A) α}
    {x : Except ε β} {g : β → Except ε α} (hp : Yields C p (· = x))
    (hf : ∀ b, x = .ok b → Yields C (f b) (· = g b)) : Yields C (p >>= f) (· = x >>= g) := by
  refine Yields.bind hp (fun b hb => ?_) fun e he => ?_
  · rw [← hb]
    exact hf b hb.symm
  · rw [← he]
    rfl

/-- A question, and what follows its answer. -/
theorem ask {q : Q} {f : A q → ExceptT ε (Consult Q A) α} (hpre : C.pre q)
    (h : ∀ a, C.post q a → Yields C (f a) R) : Yields C (consult q >>= f) R := ⟨hpre, h⟩

theorem mono {S : Except ε α → Prop} {p : ExceptT ε (Consult Q A) α} (h : Yields C p R)
    (hRS : ∀ x, R x → S x) : Yields C p S := Sound.mono h hRS

end Yields

end Consult
