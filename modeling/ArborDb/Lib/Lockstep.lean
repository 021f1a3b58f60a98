import ArborDb.Lib.Prog

/-!
# Two runs of one program

`Lockstep` is the logic of two runs of a program from different states. The runs have the same outcome, be it
a result or a failure, and the states they reach are related. A read has to answer the same in related states;
what follows may use what it answered. The parameter `n` bounds the names drawn by the first run.
-/

namespace Prog

open Supply (drawn)

variable {ρ σ ε α β : Type} [Supply σ]

/-- Two runs from states related by `R` agree: both return the same with `Q` or fail the same with `E`. -/
def Lockstep (r : ρ) (n : Nat) (R : σ → σ → Prop) (m : Prog ρ σ ε α) (Q : α → σ → σ → Prop)
    (E : ε → σ → σ → Prop) : Prop :=
  ∀ s s', R s s' → drawn (m.run r s).2 ≤ n → (m.run r s').1 = (m.run r s).1 ∧
    Meets (fun a t => Q a t (m.run r s').2) (fun err t => E err t (m.run r s').2) (m.run r s)

namespace Lockstep

variable {r : ρ} {n : Nat} {R : σ → σ → Prop} {Q : α → σ → σ → Prop} {E : ε → σ → σ → Prop} {m : Prog ρ σ ε α}

theorem pure {a : α} (h : ∀ s s', R s s' → Q a s s') : Lockstep r n R (Pure.pure a) Q E :=
  fun s s' hs _ => ⟨rfl, h s s' hs⟩

theorem fail {err : ε} (h : ∀ s s', R s s' → E err s s') : Lockstep r n R (Prog.fail err) Q E :=
  fun s s' hs _ => ⟨rfl, h s s' hs⟩

theorem modify {f : ρ → σ → σ} {hf : ∀ r s, drawn (f r s) = drawn s} {Q : Unit → σ → σ → Prop}
    (h : ∀ s s', R s s' → Q () (f r s) (f r s')) : Lockstep r n R (Prog.modify f hf) Q E :=
  fun s s' hs _ => ⟨rfl, h s s' hs⟩

theorem pre {S : σ → σ → Prop} (h : Lockstep r n S m Q E) (hpre : ∀ s s', R s s' → S s s') :
    Lockstep r n R m Q E := fun s s' hs => h s s' (hpre s s' hs)

theorem post {Q' : α → σ → σ → Prop} (h : Lockstep r n R m Q' E) (hpost : ∀ a s s', Q' a s s' → Q a s s') :
    Lockstep r n R m Q E := by
  intro s s' hs hn
  obtain ⟨hsame, hrun⟩ := h s s' hs hn
  refine ⟨hsame, ?_⟩
  generalize m.run r s = out at hrun ⊢
  obtain ⟨x, t⟩ := out
  cases x with
  | error err => exact hrun
  | ok a => exact hpost a t _ hrun

/-- A fact that does not depend on the states may be used from the precondition. -/
theorem of_pre {p : Prop} (hp : ∀ s s', R s s' → p) (h : p → Lockstep r n R m Q E) : Lockstep r n R m Q E :=
  fun s s' hs => h (hp s s' hs) s s' hs

/-- What is not known of the states may be fixed. -/
theorem of_exists {γ : Type} {R : γ → σ → σ → Prop} (h : ∀ c, Lockstep r n (R c) m Q E) :
    Lockstep r n (fun s s' => ∃ c, R c s s') m Q E := by
  rintro s s' ⟨c, hs⟩
  exact h c s s' hs

/-- The first program's postcondition is the second one's precondition. -/
theorem bind {f : β → Prog ρ σ ε α} {m : Prog ρ σ ε β} {S : β → σ → σ → Prop} (hm : Lockstep r n R m S E)
    (hf : ∀ b, Lockstep r n (S b) (f b) Q E) : Lockstep r n R (m >>= f) Q E := by
  intro s s' hs hn
  obtain ⟨hsame, hmid⟩ := hm s s' hs (Nat.le_trans (drawn_le_next r f _) hn)
  rw [run_bind, run_bind] at *
  generalize m.run r s = out at hsame hmid hn ⊢
  generalize m.run r s' = out' at hsame hmid ⊢
  obtain ⟨x, t⟩ := out
  obtain ⟨x', t'⟩ := out'
  obtain rfl : x' = x := hsame
  cases x' with
  | error err => exact ⟨rfl, hmid⟩
  | ok b => exact hf b t t' hmid hn

/-- A read that answers the same. -/
theorem inspect {g : ρ → σ → Except ε β} {f : β → Prog ρ σ ε α} (hsame : ∀ s s', R s s' → g r s' = g r s)
    (herr : ∀ err s s', R s s' → E err s s')
    (hf : ∀ b, (∃ s s', R s s' ∧ g r s = .ok b) → Lockstep r n R (f b) Q E) :
    Lockstep r n R (Prog.inspect g >>= f) Q E := by
  intro s s' hs hn
  rw [run_bind, run_bind, run_inspect, run_inspect, hsame s s' hs] at *
  cases hg : g r s with
  | error err => exact ⟨rfl, herr err s s' hs⟩
  | ok b =>
    rw [hg] at hn
    exact hf b ⟨s, s', hs, hg⟩ s s' hs hn

/-- A read whose answer does not matter. -/
theorem guard {g : ρ → σ → Except ε β} {f : β → Prog ρ σ ε α} (hsame : ∀ s s', R s s' → g r s' = g r s)
    (herr : ∀ err s s', R s s' → E err s s') (hf : ∀ b, Lockstep r n R (f b) Q E) :
    Lockstep r n R (Prog.inspect g >>= f) Q E := inspect hsame herr fun b _ => hf b

/-- A read whose answers differ in nothing that matters to what follows. -/
theorem inspect_upTo {g : ρ → σ → Except ε β} {f : β → Prog ρ σ ε α} (blunt : β → β) (hblunt : ∀ b, f (blunt b) = f b)
    (hsame : ∀ s s', R s s' → (g r s').map blunt = (g r s).map blunt) (herr : ∀ err s s', R s s' → E err s s')
    (hf : ∀ b, (∃ s s', R s s' ∧ g r s = .ok b) → Lockstep r n R (f b) Q E) :
    Lockstep r n R (Prog.inspect g >>= f) Q E := by
  intro s s' hs hn
  have hanswer := hsame s s' hs
  rw [run_bind, run_bind, run_inspect, run_inspect] at *
  cases hg : g r s with
  | error err =>
    rw [hg] at hanswer
    cases hg' : g r s' with
    | error err' =>
      rw [hg'] at hanswer
      obtain rfl := Except.error.inj hanswer
      exact ⟨rfl, herr err' s s' hs⟩
    | ok b' =>
      rw [hg'] at hanswer
      cases hanswer
  | ok b =>
    rw [hg] at hanswer hn
    cases hg' : g r s' with
    | error err' =>
      rw [hg'] at hanswer
      cases hanswer
    | ok b' =>
      rw [hg'] at hanswer
      have hrest : f b' = f b := by
        rw [← hblunt b', ← hblunt b, Except.ok.inj hanswer]
      rw [next_ok, next_ok, hrest]
      exact hf b ⟨s, s', hs, hg⟩ s s' hs hn

/-- A read whose answer the precondition gives. -/
theorem inspect_known {g : ρ → σ → Except ε β} {f : β → Prog ρ σ ε α} (b : β)
    (hg : ∀ s s', R s s' → g r s = .ok b ∧ g r s' = .ok b) (hf : Lockstep r n R (f b) Q E) :
    Lockstep r n R (Prog.inspect g >>= f) Q E := by
  intro s s' hs hn
  rw [run_bind, run_bind, run_inspect, run_inspect, (hg s s' hs).1, (hg s s' hs).2] at *
  exact hf s s' hs hn

/-- What one run guarantees, the first of the two does. -/
theorem with_triple {Q' : α → σ → Prop} {E' : ε → σ → Prop} (h : Lockstep r n R m Q E)
    (htriple : ∀ s s', R s s' → Triple r n (· = s) m Q' E') :
    Lockstep r n R m (fun a s s' => Q a s s' ∧ Q' a s) E := by
  intro s s' hs hn
  obtain ⟨hsame, hrun⟩ := h s s' hs hn
  have hone := htriple s s' hs s rfl hn
  refine ⟨hsame, ?_⟩
  generalize m.run r s = out at hrun hone ⊢
  obtain ⟨x, t⟩ := out
  cases x with
  | error err => exact hrun
  | ok a => exact ⟨hrun, hone⟩

/-- A loop whose body keeps the relation. -/
theorem forEach {body : α → Prog ρ σ ε Unit} {l : List α}
    (h : ∀ a ∈ l, Lockstep r n R (body a) (fun _ => R) E) :
    Lockstep r n R (Prog.forEach body l) (fun _ => R) E := by
  induction l with
  | nil => exact pure fun _ _ hs => hs
  | cons a l ih => exact bind (h a List.mem_cons_self) fun _ => ih fun b hb => h b (List.mem_cons_of_mem a hb)

end Lockstep

end Prog
