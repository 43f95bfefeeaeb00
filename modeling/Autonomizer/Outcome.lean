import Mathlib
import Autonomizer.Process

/-! What a program that returns has called, and with what result, whatever it was told. -/
namespace Autonomizer.Outcome
open Process

inductive Ran {ο ρ ε α : Type} : Prog ο ρ ε α → Log ο ρ → α → Prop where
  | ret (a : α) : Ran (.ret a) [] a
  | call {op : ο} {next : ρ → Prog ο ρ ε α} {log : Log ο ρ} {a : α} (r : ρ) (rest : Ran (next r) log a) :
      Ran (.call op next) ((op,r) :: log) a

section
variable {ο ρ ε α β : Type}

@[simp] theorem ranPure {a b : α} {log : Log ο ρ} :
    Ran (pure a : Prog ο ρ ε α) log b ↔ log = [] ∧ b = a := by
  constructor
  · intro ran
    cases ran
    exact ⟨rfl,rfl⟩
  · rintro ⟨rfl,rfl⟩
    exact .ret b

@[simp] theorem ranStop {e : ε} {log : Log ο ρ} {b : α} :
    Ran (.stop e : Prog ο ρ ε α) log b ↔ False := ⟨nofun,False.elim⟩

@[simp] theorem ranPerform {op : ο} {log : Log ο ρ} {r : ρ} :
    Ran (perform op : Prog ο ρ ε ρ) log r ↔ log = [(op,r)] := by
  constructor
  · intro ran
    obtain _ | ⟨r,rest⟩ := ran
    cases rest
    rfl
  · rintro rfl
    exact .call r (.ret r)

theorem ranBind {p : Prog ο ρ ε β} {f : β → Prog ο ρ ε α} {log : Log ο ρ} {a : α} :
    Ran (p >>= f) log a ↔ ∃ early b late, Ran p early b ∧ Ran (f b) late a ∧ log = early ++ late := by
  induction p generalizing log with
  | ret b =>
    constructor
    · exact fun ran => ⟨[],b,log,.ret b,ran,rfl⟩
    · rintro ⟨early,c,late,ran,rest,rfl⟩
      cases ran
      exact rest
  | stop e =>
    constructor
    · exact fun ran => (ranStop.mp ran).elim
    · rintro ⟨early,b,late,ran,-⟩
      exact (ranStop.mp ran).elim
  | call op next ih =>
    constructor
    · intro ran
      obtain _ | ⟨r,rest⟩ := ran
      obtain ⟨early,b,late,first,second,rfl⟩ := (ih r).mp rest
      exact ⟨(op,r) :: early,b,late,.call r first,second,rfl⟩
    · rintro ⟨early,b,late,first,second,rfl⟩
      obtain _ | ⟨r,first⟩ := first
      exact .call r ((ih r).mpr ⟨_,b,late,first,second,rfl⟩)

theorem ranOnly {good : ο → Prop} {p : Prog ο ρ ε α} {log : Log ο ρ} {a : α} (only : Only good p)
    (ran : Ran p log a) : ∀ e ∈ log, good e.1 := by
  induction ran with
  | ret a => exact nofun
  | call r rest ih =>
    intro e inside
    rcases List.mem_cons.mp inside with rfl | inside
    · exact only.1
    · exact ih (only.2 r) e inside

theorem meetsRan {c : Contract ο ρ} {log : Log ο ρ} {p : Prog ο ρ ε α} {Q : Log ο ρ → α → Prop}
    {E : Log ο ρ → ε → Prop} (meets : Meets c log p Q E) :
    Meets c log p (fun l a => Q l a ∧ ∃ own, l = log ++ own ∧ Ran p own a) E := by
  induction p generalizing log with
  | ret a => exact ⟨meets,[],(List.append_nil log).symm,.ret a⟩
  | stop e => exact meets
  | call op next ih =>
    obtain ⟨called,rest⟩ := meets
    refine ⟨called,fun r reply => meetsReturns (ih r (rest r reply)) ?_⟩
    intro l a ⟨holds,own,same,ran⟩
    exact ⟨holds,(op,r) :: own,by rw [same,List.append_assoc]; rfl,.call r ran⟩

theorem meetsAfter {c : Contract ο ρ} {log : Log ο ρ} {p : Prog ο ρ ε α} {Q R : Log ο ρ → α → Prop}
    {E : Log ο ρ → ε → Prop} (meets : Meets c log p Q E)
    (after : ∀ own a, Ran p own a → Q (log ++ own) a → R (log ++ own) a) : Meets c log p R E := by
  refine meetsReturns (meetsRan meets) ?_
  rintro l a ⟨holds,own,rfl,ran⟩
  exact after own a ran holds

theorem execRan {σ : Type} {handle : ο → σ → ρ × σ} {p : Prog ο ρ ε α} {s : σ} {a : α}
    (done : (p.exec handle s).1 = .ok a) : ∃ log, Ran p log a := by
  induction p generalizing s with
  | ret b =>
    cases done
    exact ⟨[],.ret a⟩
  | stop e => cases done
  | call op next ih =>
    obtain ⟨log,rest⟩ := ih _ done
    exact ⟨_,.call _ rest⟩

end

end Autonomizer.Outcome
