import ArborDb.Lib.Except

/-!
# Writers that append to a buffer

A writer takes a buffer and returns a result with the buffer, longer by what it wrote. `Emits limit P f Q`
says that `f` never fails, that its result and what it appends depend on the length of the buffer alone,
and that where `P` holds of the buffer before, `Q` holds of the buffer after and of the result, as long as
the buffer stays below the limit.
-/

variable {ε : Type} {γ α β : Type} {limit : Nat}

/-- The writer appends, and takes `P` to `Q`. -/
def Emits (limit : Nat) (P : List γ → Prop) (f : List γ → Except ε (α × List γ)) (Q : List γ → α → Prop) : Prop :=
  ∀ n, ∃ a out, ∀ buf, buf.length = n → f buf = .ok (a, buf ++ out) ∧
    (P buf → (buf ++ out).length < limit → Q (buf ++ out) a)

namespace Emits

variable {P F : List γ → Prop} {f : List γ → Except ε (α × List γ)} {Q Q' : List γ → α → Prop}

theorem pure {a : α} (h : ∀ buf, P buf → Q buf a) : Emits limit P (fun buf => (.ok (a, buf) : Except ε _)) Q := by
  intro n
  refine ⟨a, [], ?_⟩
  intro buf _
  rw [List.append_nil]
  exact ⟨rfl, fun hbuf _ => h buf hbuf⟩

/-- One writer after another. -/
theorem bind {g : α × List γ → Except ε (β × List γ)} {R : List γ → β → Prop} (hf : Emits limit P f Q)
    (hg : ∀ a, Emits limit (fun buf => Q buf a) (fun buf => g (a, buf)) R) :
    Emits limit P (fun buf => f buf >>= g) R := by
  intro n
  obtain ⟨a, out, hout⟩ := hf n
  obtain ⟨b, out', hout'⟩ := hg a (n + out.length)
  refine ⟨b, out ++ out', ?_⟩
  intro buf hbuf
  obtain ⟨hfirst, hQ⟩ := hout buf hbuf
  obtain ⟨hsecond, hR⟩ := hout' (buf ++ out) (by rw [List.length_append, hbuf])
  rw [← List.append_assoc]
  refine ⟨?_, ?_⟩
  · simp only [hfirst, Except.ok_bind, hsecond]
  · intro hP hlimit
    apply hR (hQ hP _) hlimit
    rw [List.length_append] at hlimit
    omega

theorem map {g : α → β} {R : List γ → β → Prop} (hf : Emits limit P f Q) (h : ∀ buf a, Q buf a → R buf (g a)) :
    Emits limit P (fun buf => f buf >>= fun x => (.ok (g x.1, x.2) : Except ε _)) R := by
  apply hf.bind
  intro a
  exact pure fun buf hQ => h buf a hQ

theorem imp (hf : Emits limit P f Q) (h : ∀ buf a, Q buf a → Q' buf a) : Emits limit P f Q' := by
  intro n
  obtain ⟨a, out, hout⟩ := hf n
  refine ⟨a, out, ?_⟩
  intro buf hbuf
  obtain ⟨hrun, hQ⟩ := hout buf hbuf
  exact ⟨hrun, fun hP hlimit => h _ a (hQ hP hlimit)⟩

theorem weaken {P' : List γ → Prop} (hf : Emits limit P f Q) (h : ∀ buf, P' buf → P buf) : Emits limit P' f Q := by
  intro n
  obtain ⟨a, out, hout⟩ := hf n
  refine ⟨a, out, ?_⟩
  intro buf hbuf
  obtain ⟨hrun, hQ⟩ := hout buf hbuf
  exact ⟨hrun, fun hP hlimit => hQ (h buf hP) hlimit⟩

/-- What a longer buffer keeps, a writer keeps. -/
theorem frame (hf : Emits limit P f Q) (hF : ∀ buf out, F buf → F (buf ++ out)) :
    Emits limit (fun buf => P buf ∧ F buf) f fun buf a => Q buf a ∧ F buf := by
  intro n
  obtain ⟨a, out, hout⟩ := hf n
  refine ⟨a, out, ?_⟩
  intro buf hbuf
  obtain ⟨hrun, hQ⟩ := hout buf hbuf
  exact ⟨hrun, fun hP hlimit => ⟨hQ hP.1 hlimit, hF buf out hP.2⟩⟩

end Emits
