import Mathlib
import Autonomizer.Outcome

/-! One program run in two states. The second run returns what the first returns and
leaves the states related, by rules for the parts the program is made of. -/
namespace Autonomizer.TwoStates
open Outcome Process

section
variable {ο ρ ε φ α β σ : Type} {handle : ο → σ → ρ × σ}

theorem execReturned {p : Prog ο ρ ε β} {f : β → Prog ο ρ ε α} {s mid : σ} {b : β}
    (first : p.exec handle s = (.ok b,mid)) : (p >>= f).exec handle s = (f b).exec handle mid := by
  induction p generalizing s with
  | ret c => cases first; rfl
  | stop e => cases first
  | call op next ih => exact ih _ first

theorem execStopped {p : Prog ο ρ ε β} {f : β → Prog ο ρ ε α} {s mid : σ} {e : ε}
    (first : p.exec handle s = (.error e,mid)) : (p >>= f).exec handle s = (.error e,mid) := by
  induction p generalizing s with
  | ret c => cases first
  | stop e => cases first; rfl
  | call op next ih => exact ih _ first

theorem execPerform {op : ο} {f : ρ → Prog ο ρ ε α} (s : σ) :
    (perform op >>= f).exec handle s = (f (handle op s).1).exec handle (handle op s).2 := rfl

theorem execBind {p : Prog ο ρ ε β} {f : β → Prog ο ρ ε α} {s t : σ} {a : α}
    (ran : (p >>= f).exec handle s = (.ok a,t)) :
    ∃ b mid, p.exec handle s = (.ok b,mid) ∧ (f b).exec handle mid = (.ok a,t) := by
  rcases outcome : p.exec handle s with ⟨e | b,mid⟩
  · rw [execStopped outcome] at ran
    cases ran
  · rw [execReturned outcome] at ran
    exact ⟨b,mid,rfl,ran⟩

theorem execAttempt (p : Prog ο ρ ε α) (s : σ) :
    (p.attempt : Prog ο ρ φ (Except ε α)).exec handle s =
      (.ok (p.exec handle s).1,(p.exec handle s).2) := by
  induction p generalizing s with
  | ret a => rfl
  | stop e => rfl
  | call op next ih => exact ih (handle op s).1 (handle op s).2

theorem execRan {p : Prog ο ρ ε α} {s t : σ} {a : α} (ran : p.exec handle s = (.ok a,t)) :
    ∃ log, Ran p log a := by
  induction p generalizing s with
  | ret b => cases ran; exact ⟨[],.ret a⟩
  | stop e => cases ran
  | call op next ih =>
    obtain ⟨log,rest⟩ := ih _ ran
    exact ⟨(op,(handle op s).1) :: log,.call _ rest⟩

def performed (handle : ο → σ → ρ × σ) : Prog ο ρ ε α → σ → List ο
  | .ret _,_ => []
  | .stop _,_ => []
  | .call op next,s => op :: performed handle (next (handle op s).1) (handle op s).2

theorem onlyAny (p : Prog ο ρ ε α) : Only (fun _ => True) p := by
  induction p with
  | ret a => trivial
  | stop e => trivial
  | call op next ih => exact ⟨trivial,ih⟩

def Keeps (handle : ο → σ → ρ × σ) (I : σ → Prop) (p : Prog ο ρ ε α) : Prop :=
  ∀ s, I s → I (p.exec handle s).2

section
variable {I : σ → Prop} {p : Prog ο ρ ε β}

theorem keepsPure (a : α) : Keeps handle I (pure a : Prog ο ρ ε α) := fun _ holds => holds

theorem keepsStop (e : ε) : Keeps handle I (.stop e : Prog ο ρ ε α) := fun _ holds => holds

theorem keepsBind {f : β → Prog ο ρ ε α} (first : Keeps handle I p)
    (second : ∀ b, Keeps handle I (f b)) : Keeps handle I (p >>= f) := by
  intro s holds
  have after := first s holds
  rcases outcome : p.exec handle s with ⟨e | b,mid⟩
  · rw [execStopped outcome]
    rw [outcome] at after
    exact after
  · rw [execReturned outcome]
    rw [outcome] at after
    exact second b mid after

theorem keepsOnly {good : ο → Prop} (only : Only good p)
    (keeps : ∀ op s, good op → I s → I (handle op s).2) : Keeps handle I p := by
  induction p with
  | ret a => exact keepsPure a
  | stop e => exact keepsStop e
  | call op next ih => exact fun s holds => ih _ (only.2 _) _ (keeps op s only.1 holds)

end

/- From states that R relates, p returns in the second what it returns in the first, and
leaves them related by Q. -/
def Follows (handle : ο → σ → ρ × σ) (R : σ → σ → Prop) (p : Prog ο ρ ε α)
    (Q : α → σ → σ → Prop) : Prop :=
  ∀ s t a s', R s t → p.exec handle s = (.ok a,s') →
    ∃ t', p.exec handle t = (.ok a,t') ∧ Q a s' t'

section
variable {R : σ → σ → Prop} {p : Prog ο ρ ε β} {Q : β → σ → σ → Prop} {S : α → σ → σ → Prop}

theorem followsPure {a : α} (holds : ∀ s t, R s t → S a s t) :
    Follows handle R (pure a : Prog ο ρ ε α) S := by
  intro s t b s' related ran
  cases ran
  exact ⟨t,rfl,holds s t related⟩

theorem followsStop (e : ε) : Follows handle R (.stop e : Prog ο ρ ε α) S := by
  intro s t b s' related ran
  cases ran

theorem followsBind {f : β → Prog ο ρ ε α} (first : Follows handle R p Q)
    (second : ∀ b, Follows handle (Q b) (f b) S) : Follows handle R (p >>= f) S := by
  intro s t a s' related ran
  obtain ⟨b,mid,early,late⟩ := execBind ran
  obtain ⟨mid',early',between⟩ := first s t b mid related early
  obtain ⟨t',late',after⟩ := second b mid mid' a s' between late
  exact ⟨t',by rw [execReturned early',late'],after⟩

theorem followsWeaken {R' : σ → σ → Prop} {Q' : β → σ → σ → Prop} (follows : Follows handle R p Q)
    (before : ∀ s t, R' s t → R s t) (after : ∀ b s t, Q b s t → Q' b s t) :
    Follows handle R' p Q' := by
  intro s t b s' related ran
  obtain ⟨t',also,holds⟩ := follows s t b s' (before s t related) ran
  exact ⟨t',also,after b s' t' holds⟩

theorem followsSame {good : ο → Prop} (only : Only good p)
    (same : ∀ op s t, good op → R s t →
      (handle op s).1 = (handle op t).1 ∧ R (handle op s).2 (handle op t).2) :
    Follows handle R p (fun _ => R) := by
  induction p with
  | ret b => exact followsPure fun s t related => related
  | stop e => exact followsStop e
  | call op next ih =>
    intro s t b s' related ran
    obtain ⟨reply,after⟩ := same op s t only.1 related
    obtain ⟨t',also,holds⟩ := ih _ (only.2 _) _ _ b s' after ran
    exact ⟨t',by rw [Prog.exec,← reply]; exact also,holds⟩

theorem followsAttempt {Q : Unit → σ → σ → Prop}
    (after : ∀ s t, R s t → Q () (p.exec handle s).2 (p.exec handle t).2) :
    Follows handle R (p.attempt >>= fun _ => (pure () : Prog ο ρ φ Unit)) Q := by
  intro s t u s' related ran
  rw [execReturned (execAttempt p s)] at ran
  cases ran
  exact ⟨_,execReturned (execAttempt p t),after s t related⟩

theorem followsApart {good : ο → Prop} {P : σ → σ → Prop} (only : Only good p)
    (follows : Follows handle R p Q) (holds : ∀ s t, R s t → P s t)
    (first : ∀ op s t, good op → P s t → P (handle op s).2 t)
    (second : ∀ op s t, good op → P s t → P s (handle op t).2) :
    Follows handle R p (fun b s t => Q b s t ∧ P s t) := by
  intro s t b s' related ran
  obtain ⟨t',also,after⟩ := follows s t b s' related ran
  have left : Keeps handle (fun x => P x t) p := keepsOnly only (fun op x ok => first op x t ok)
  have here : P s' t := by
    have kept := left s (holds s t related)
    rwa [ran] at kept
  have right : Keeps handle (P s') p := keepsOnly only (fun op x ok => second op s' x ok)
  have there := right t here
  rw [also] at there
  exact ⟨t',also,after,there⟩

theorem followsKeeping {P : σ → σ → Prop} (follows : Follows handle R p Q)
    (holds : ∀ s t, R s t → P s t) (first : ∀ op s t, P s t → P (handle op s).2 t)
    (second : ∀ op s t, P s t → P s (handle op t).2) :
    Follows handle R p (fun b s t => Q b s t ∧ P s t) :=
  followsApart (onlyAny p) follows holds (fun op s t _ => first op s t)
    (fun op s t _ => second op s t)

theorem followsReturned {P : β → Prop} (follows : Follows handle R p Q)
    (returns : ∀ log b, Ran p log b → P b) : Follows handle R p (fun b s t => Q b s t ∧ P b) := by
  intro s t b s' related ran
  obtain ⟨t',also,after⟩ := follows s t b s' related ran
  obtain ⟨log,ends⟩ := execRan ran
  exact ⟨t',also,after,returns log b ends⟩

end

end

end Autonomizer.TwoStates
