import Mathlib

/-! Runs of a partial step function. Every step of a run satisfies a predicate on
the state before it and the action taken, so that an assumption about a kind of
step is an assumption about the run. -/
namespace Autonomizer.Trace

section
variable {σ α : Type} (step : σ → α → Option σ) (allowed : σ → α → Prop)

inductive Run : σ → List α → σ → Prop where
  | done (s) : Run s [] s
  | act {s a next rest last} (ok : allowed s a) (taken : step s a = some next)
      (tail : Run next rest last) : Run s (a :: rest) last

variable {step allowed}

theorem runKeeps (Inv : σ → Prop)
    (keeps : ∀ {s a next}, allowed s a → Inv s → step s a = some next → Inv next)
    {s acts last} (run : Run step allowed s acts last) (start : Inv s) : Inv last := by
  induction run with
  | done _ => exact start
  | act ok taken _ ih => exact ih (keeps ok start taken)

theorem runKeepsAmong (Inv : σ → Prop) {kind : α → Prop}
    (keeps : ∀ {s a next}, allowed s a → kind a → Inv s → step s a = some next → Inv next)
    {s acts last} (run : Run step allowed s acts last) (among : ∀ a ∈ acts, kind a)
    (start : Inv s) : Inv last := by
  induction run with
  | done _ => exact start
  | act ok taken _ ih =>
    exact ih (fun b member => among b (List.mem_cons_of_mem _ member))
      (keeps ok (among _ List.mem_cons_self) start taken)

theorem runAppend {s mid last first second} (run : Run step allowed s first mid)
    (more : Run step allowed mid second last) : Run step allowed s (first ++ second) last := by
  induction run with
  | done _ => exact more
  | act ok taken _ ih => exact .act ok taken (ih more)

def stepsChecked (step : σ → α → Option σ) (check : σ → α → Bool) (s : σ) (acts : List α) : Option σ :=
  acts.foldlM (fun s a => if check s a then step s a else none) s

theorem runChecked {check : σ → α → Bool} (ok : ∀ s a, check s a = true → allowed s a)
    {s acts last} (all : stepsChecked step check s acts = some last) : Run step allowed s acts last := by
  induction acts generalizing s with
  | nil => cases all; exact .done _
  | cons a rest ih =>
    rw [stepsChecked,List.foldlM_cons] at all
    obtain ⟨next,taken,tail⟩ := Option.bind_eq_some_iff.mp all
    split at taken
    · exact .act (ok s a (by assumption)) taken (ih tail)
    · cases taken

theorem runOne {s a next} (ok : allowed s a) (taken : step s a = some next) :
    Run step allowed s [a] next := .act ok taken (.done _)

end

end Autonomizer.Trace
