import Mathlib
import Autonomizer.Total

/-! Programs that write code: from a state of the writer and one of the machine, that the
program ends and what it has written runs. -/
namespace Autonomizer.Emission
open Total

structure Writer (β ι σ : Type) where
  code : β → List ι
  run : ι → σ → Option σ

section
variable {β ι σ α γ : Type} (w : Writer β ι σ)

def Writer.runs : List ι → σ → Option σ
  | [],s => some s
  | i :: rest,s => (w.run i s).bind (runs rest)

theorem runsAppend (first rest : List ι) (s : σ) :
    w.runs (first ++ rest) s = (w.runs first s).bind (w.runs rest) := by
  induction first generalizing s with
  | nil => rfl
  | cons i first ih =>
    show (w.run i s).bind (w.runs (first ++ rest)) = _
    rw [funext ih,← Option.bind_assoc]
    rfl

/- From b and s the program ends in c, and what it has written since runs from s to t. -/
structure Emitted (p : StateT β Option α) (b : β) (s : σ) (a : α) (c : β) (t : σ) : Prop where
  built : p b = some (a,c)
  ran : ∃ new, w.code c = w.code b ++ new ∧ w.runs new s = some t

def Emits (P : β → σ → Prop) (p : StateT β Option α) (Q : α → β → σ → Prop) : Prop :=
  ∀ b s, P b s → ∃ a c t, Emitted w p b s a c t ∧ Q a c t

variable {w} {P R : β → σ → Prop} {Q : α → β → σ → Prop} {p : StateT β Option α}
  {f : α → StateT β Option γ} {T : γ → β → σ → Prop}

theorem emittedBind {b c d : β} {s t u : σ} {a : α} {e : γ} (first : Emitted w p b s a c t)
    (next : Emitted w (f a) c t e d u) : Emitted w (p >>= f) b s e d u := by
  obtain ⟨built,new,wrote,ran⟩ := first
  obtain ⟨built',new',wrote',ran'⟩ := next
  refine ⟨?_,new ++ new',?_,?_⟩
  · show (p b).bind _ = _
    rw [built]
    exact built'
  · rw [wrote',wrote,List.append_assoc]
  · rw [runsAppend,ran]
    exact ran'

theorem emitsMono (emits : Emits w P p Q) {Q' : α → β → σ → Prop} (before : ∀ b s, R b s → P b s)
    (after : ∀ a c t, Q a c t → Q' a c t) : Emits w R p Q' := by
  intro b s here
  obtain ⟨a,c,t,emitted,there⟩ := emits b s (before b s here)
  exact ⟨a,c,t,emitted,after a c t there⟩

theorem emitsBind (first : Emits w P p Q) (next : ∀ a, Emits w (Q a) (f a) T) : Emits w P (p >>= f) T := by
  intro b s before
  obtain ⟨a,c,t,emitted,there⟩ := first b s before
  obtain ⟨e,d,u,emitted',last⟩ := next a c t there
  exact ⟨e,d,u,emittedBind emitted emitted',last⟩

theorem emitsPure {a : α} (here : ∀ b s, P b s → Q a b s) : Emits w P (pure a) Q := by
  intro b s before
  exact ⟨a,b,s,⟨rfl,[],(List.append_nil _).symm,rfl⟩,here b s before⟩

theorem emitsRead {K : α → Prop} (reads : ∀ b s, P b s → ∃ a, p b = some (a,b) ∧ K a ∧ Q a b s)
    (next : ∀ a, K a → Emits w (Q a) (f a) T) : Emits w P (p >>= f) T := by
  intro b s before
  obtain ⟨a,built,has,there⟩ := reads b s before
  obtain ⟨e,d,u,emitted,last⟩ := next a has b s there
  exact ⟨e,d,u,emittedBind ⟨built,[],(List.append_nil _).symm,rfl⟩ emitted,last⟩

theorem emitsWrite {g : β → β} {i : ι} (more : ∀ b, w.code (g b) = w.code b ++ [i])
    (next : ∀ b s, P b s → ∃ t, w.run i s = some t ∧ R (g b) t) : Emits w P (modify g) (fun _ => R) := by
  intro b s before
  obtain ⟨t,ran,after⟩ := next b s before
  refine ⟨(),g b,t,⟨rfl,[i],more b,?_⟩,after⟩
  show (w.run i s).bind some = some t
  rw [ran]
  rfl

end

end Autonomizer.Emission
