import Mathlib
import Autonomizer.Trace

/-! Programs that call atomic operations of a shared state, and any number of them
run against one another. A contract says what a program may call after what it has
seen and which replies it relies on; the rule runMeets trades the contracts of all
processes for an invariant of the whole system. -/
namespace Autonomizer.Process
open Trace

inductive Prog (ο ρ ε α : Type) where
  | ret (a : α)
  | stop (e : ε)
  | call (op : ο) (next : ρ → Prog ο ρ ε α)

section
variable {ο ρ ε φ α β σ ι : Type}

namespace Prog

def bind : Prog ο ρ ε α → (α → Prog ο ρ ε β) → Prog ο ρ ε β
  | .ret a,f => f a
  | .stop e,_ => .stop e
  | .call op next,f => .call op (fun r => (next r).bind f)

instance : Monad (Prog ο ρ ε) where
  pure := .ret
  bind := bind

@[simp] theorem retBind (a : α) (f : α → Prog ο ρ ε β) : (Prog.ret a >>= f) = f a := rfl

@[simp] theorem pureBind (a : α) (f : α → Prog ο ρ ε β) :
    ((Pure.pure a : Prog ο ρ ε α) >>= f) = f a := rfl

@[simp] theorem stopBind (e : ε) (f : α → Prog ο ρ ε β) : (Prog.stop e >>= f) = .stop e := rfl

@[simp] theorem callBind (op : ο) (next : ρ → Prog ο ρ ε α) (f : α → Prog ο ρ ε β) :
    (Prog.call op next >>= f) = .call op (fun r => next r >>= f) := rfl

def attempt : Prog ο ρ ε α → Prog ο ρ φ (Except ε α)
  | .ret a => .ret (.ok a)
  | .stop e => .ret (.error e)
  | .call op next => .call op (fun r => (next r).attempt)

def returned : Prog ο ρ ε α → Bool
  | .ret _ => true
  | _ => false

def exec (handle : ο → σ → ρ × σ) : Prog ο ρ ε α → σ → Except ε α × σ
  | .ret a,s => (.ok a,s)
  | .stop e,s => (.error e,s)
  | .call op next,s => (next (handle op s).1).exec handle (handle op s).2

end Prog

@[simp] theorem execPure (handle : ο → σ → ρ × σ) (a : α) (s : σ) :
    (pure a : Prog ο ρ ε α).exec handle s = (.ok a,s) := rfl

def perform (op : ο) : Prog ο ρ ε ρ := .call op .ret

abbrev Log (ο ρ : Type) := List (ο × ρ)

structure Contract (ο ρ : Type) where
  calls : Log ο ρ → ο → Prop
  replies : Log ο ρ → ο → ρ → Prop

/- After log, p keeps the contract, returns only with Q and stops only with E. -/
def Meets (c : Contract ο ρ) : Log ο ρ → Prog ο ρ ε α → (Log ο ρ → α → Prop) →
    (Log ο ρ → ε → Prop) → Prop
  | log,.ret a,Q,_ => Q log a
  | log,.stop e,_,E => E log e
  | log,.call op next,Q,E => c.calls log op ∧
      ∀ r, c.replies log op r → Meets c (log ++ [(op,r)]) (next r) Q E

section
variable {c : Contract ο ρ} {log : Log ο ρ} {Q : Log ο ρ → α → Prop} {E : Log ο ρ → ε → Prop}

@[simp] theorem meetsRet {a : α} : Meets c log (.ret a) Q E ↔ Q log a := Iff.rfl

@[simp] theorem meetsPure {a : α} : Meets c log (pure a : Prog ο ρ ε α) Q E ↔ Q log a := Iff.rfl

@[simp] theorem meetsStop {e : ε} : Meets c log (.stop e) Q E ↔ E log e := Iff.rfl

theorem meetsCall {op : ο} {next : ρ → Prog ο ρ ε α} : Meets c log (.call op next) Q E ↔
    c.calls log op ∧ ∀ r, c.replies log op r → Meets c (log ++ [(op,r)]) (next r) Q E := Iff.rfl

theorem meetsMono {p : Prog ο ρ ε α} {Q' : Log ο ρ → α → Prop} {E' : Log ο ρ → ε → Prop}
    (meets : Meets c log p Q E) (returns : ∀ l a, Q l a → Q' l a) (stops : ∀ l e, E l e → E' l e) :
    Meets c log p Q' E' := by
  induction p generalizing log with
  | ret a => exact returns log a meets
  | stop e => exact stops log e meets
  | call op next ih =>
    obtain ⟨called,rest⟩ := meets
    exact ⟨called,fun r reply => ih r (rest r reply)⟩

theorem meetsReturns {p : Prog ο ρ ε α} {Q' : Log ο ρ → α → Prop} (meets : Meets c log p Q E)
    (returns : ∀ l a, Q l a → Q' l a) : Meets c log p Q' E :=
  meetsMono meets returns (fun _ _ h => h)

theorem meetsAnd {p : Prog ο ρ ε α} {R : Log ο ρ → α → Prop} {F : Log ο ρ → ε → Prop}
    (left : Meets c log p Q E) (right : Meets c log p R F) :
    Meets c log p (fun l a => Q l a ∧ R l a) (fun l e => E l e ∧ F l e) := by
  induction p generalizing log with
  | ret a => exact ⟨left,right⟩
  | stop e => exact ⟨left,right⟩
  | call op next ih => exact ⟨left.1,fun r reply => ih r (left.2 r reply) (right.2 r reply)⟩

@[simp] theorem meetsBind {p : Prog ο ρ ε β} {f : β → Prog ο ρ ε α} : Meets c log (p >>= f) Q E ↔
    Meets c log p (fun l b => Meets c l (f b) Q E) E := by
  induction p generalizing log with
  | ret b => exact Iff.rfl
  | stop e => exact Iff.rfl
  | call op next ih =>
    simp only [Prog.callBind,meetsCall]
    exact and_congr_right fun _ => forall_congr' fun r => imp_congr_right fun _ => ih r

@[simp] theorem meetsPerform {op : ο} {Q : Log ο ρ → ρ → Prop} :
    Meets c log (perform op) Q E ↔ c.calls log op ∧ ∀ r, c.replies log op r → Q (log ++ [(op,r)]) r :=
  Iff.rfl

@[simp] theorem meetsAttempt {p : Prog ο ρ φ α} {Q : Log ο ρ → Except φ α → Prop} :
    Meets c log p.attempt Q E ↔
      Meets c log p (fun l a => Q l (.ok a)) (fun l e => Q l (.error e)) := by
  induction p generalizing log with
  | ret a => exact Iff.rfl
  | stop e => exact Iff.rfl
  | call op next ih =>
    simp only [Prog.attempt,meetsCall]
    exact and_congr_right fun _ => forall_congr' fun r => imp_congr_right fun _ => ih r

end

def Contract.both (c d : Contract ο ρ) : Contract ο ρ where
  calls log op := c.calls log op ∧ d.calls log op
  replies log op r := c.replies log op r ∧ d.replies log op r

theorem meetsBoth {c d : Contract ο ρ} {log : Log ο ρ} {p : Prog ο ρ ε α} {Q R : Log ο ρ → α → Prop}
    {E F : Log ο ρ → ε → Prop} (left : Meets c log p Q E) (right : Meets d log p R F) :
    Meets (c.both d) log p (fun l a => Q l a ∧ R l a) (fun l e => E l e ∧ F l e) := by
  induction p generalizing log with
  | ret a => exact ⟨left,right⟩
  | stop e => exact ⟨left,right⟩
  | call op next ih =>
    exact ⟨⟨left.1,right.1⟩,fun r reply => ih r (left.2 r reply.1) (right.2 r reply.2)⟩

def Only (good : ο → Prop) : Prog ο ρ ε α → Prop
  | .ret _ => True
  | .stop _ => True
  | .call op next => good op ∧ ∀ r, Only good (next r)

section
variable {good : ο → Prop}

@[simp] theorem onlyPure (a : α) : Only good (pure a : Prog ο ρ ε α) ↔ True := Iff.rfl

@[simp] theorem onlyStop (e : ε) : Only good (.stop e : Prog ο ρ ε α) ↔ True := Iff.rfl

@[simp] theorem onlyPerform (op : ο) : Only good (perform op : Prog ο ρ ε ρ) ↔ good op :=
  ⟨fun h => h.1,fun h => ⟨h,fun _ => trivial⟩⟩

theorem onlyBind {p : Prog ο ρ ε β} {f : β → Prog ο ρ ε α} (first : Only good p)
    (second : ∀ b, Only good (f b)) : Only good (p >>= f) := by
  induction p with
  | ret b => exact second b
  | stop e => trivial
  | call op next ih => exact ⟨first.1,fun r => ih r (first.2 r)⟩

theorem onlyMono {p : Prog ο ρ ε α} {better : ο → Prop} (only : Only good p)
    (weaker : ∀ op, good op → better op) : Only better p := by
  induction p with
  | ret a => trivial
  | stop e => trivial
  | call op next ih => exact ⟨weaker op only.1,fun r => ih r (only.2 r)⟩

theorem onlyAttempt {p : Prog ο ρ ε α} (only : Only good p) :
    Only good (p.attempt : Prog ο ρ φ (Except ε α)) := by
  induction p with
  | ret a => trivial
  | stop e => trivial
  | call op next ih => exact ⟨only.1,fun r => ih r (only.2 r)⟩

def Since (good : ο → Prop) (log later : Log ο ρ) : Prop :=
  ∃ more, later = log ++ more ∧ ∀ e ∈ more, good e.1

theorem sinceSelf (log : Log ο ρ) : Since good log log :=
  ⟨[],(List.append_nil log).symm,fun _ inside => absurd inside List.not_mem_nil⟩

theorem sinceCall {op : ο} (ok : good op) (log : Log ο ρ) (r : ρ) :
    Since good log (log ++ [(op,r)]) :=
  ⟨[(op,r)],rfl,fun _ inside => List.mem_singleton.mp inside ▸ ok⟩

theorem sinceTrans {a b c : Log ο ρ} (first : Since good a b) (second : Since good b c) :
    Since good a c := by
  obtain ⟨more,rfl,early⟩ := first
  obtain ⟨later,rfl,late⟩ := second
  refine ⟨more ++ later,List.append_assoc ..,fun e inside => ?_⟩
  rcases List.mem_append.mp inside with inside | inside
  · exact early e inside
  · exact late e inside

theorem sinceMono {better : ο → Prop} {a b : Log ο ρ} (since : Since good a b)
    (weaker : ∀ op, good op → better op) : Since better a b := by
  obtain ⟨more,rfl,early⟩ := since
  exact ⟨more,rfl,fun e inside => weaker _ (early e inside)⟩

theorem onlySince {c : Contract ο ρ} {p : Prog ο ρ ε α} (only : Only good p)
    (calls : ∀ log op, good op → c.calls log op) (log : Log ο ρ) :
    Meets c log p (fun l _ => Since good log l) (fun l _ => Since good log l) := by
  induction p generalizing log with
  | ret a => exact sinceSelf log
  | stop e => exact sinceSelf log
  | call op next ih =>
    refine ⟨calls log op only.1,fun r _ => ?_⟩
    have one : Since good log (log ++ [(op,r)]) := sinceCall only.1 log r
    exact meetsMono (ih r (only.2 r) _) (fun l _ more => sinceTrans one more)
      (fun l _ more => sinceTrans one more)

end

structure System (ι σ ο ρ ε : Type) where
  shared : σ
  procs : ι → Prog ο ρ ε Unit
  past : ι → Log ο ρ

def start (shared : σ) (progs : ι → Prog ο ρ ε Unit) : System ι σ ο ρ ε :=
  ⟨shared,progs,fun _ => []⟩

variable [DecidableEq ι] (handle : ο → σ → ρ × σ)

def System.step (s : System ι σ ο ρ ε) (i : ι) : Option (System ι σ ο ρ ε) :=
  match s.procs i with
  | .call op next =>
      let reply := handle op s.shared
      some ⟨reply.2,Function.update s.procs i (next reply.1),
        Function.update s.past i (s.past i ++ [(op,reply.1)])⟩
  | _ => none

variable {handle}

theorem stepCalls {s t : System ι σ ο ρ ε} {i : ι} (taken : s.step handle i = some t) :
    ∃ op next, s.procs i = .call op next ∧ t.shared = (handle op s.shared).2 ∧
      t.procs = Function.update s.procs i (next (handle op s.shared).1) ∧
      t.past = Function.update s.past i (s.past i ++ [(op,(handle op s.shared).1)]) := by
  unfold System.step at taken
  split at taken <;> try contradiction
  rename_i op next called
  cases taken
  exact ⟨op,next,called,rfl,rfl,rfl⟩

def AllMeet (c : ι → Contract ο ρ) (Q : ι → Log ο ρ → Prop) (E : ι → Log ο ρ → ε → Prop)
    (s : System ι σ ο ρ ε) : Prop :=
  ∀ i, Meets (c i) (s.past i) (s.procs i) (fun l _ => Q i l) (E i)

variable {allowed : System ι σ ο ρ ε → ι → Prop} {c : ι → Contract ο ρ}
  {Q : ι → Log ο ρ → Prop} {E : ι → Log ο ρ → ε → Prop}

/- A call that is within its contract must get a reply the contract relies on and
leave the invariant true; then both hold in every state of every allowed run. -/
theorem runMeets (Inv : System ι σ ο ρ ε → Prop)
    (keeps : ∀ s i op t, allowed s i → Inv s → AllMeet c Q E s → (∃ next, s.procs i = .call op next) →
      (c i).calls (s.past i) op → t.shared = (handle op s.shared).2 →
      t.past = Function.update s.past i (s.past i ++ [(op,(handle op s.shared).1)]) →
      (c i).replies (s.past i) op (handle op s.shared).1 ∧ Inv t)
    {s t : System ι σ ο ρ ε} {schedule : List ι}
    (run : Run (System.step handle) allowed s schedule t) (inv : Inv s) (meets : AllMeet c Q E s) :
    Inv t ∧ AllMeet c Q E t := by
  refine runKeeps (fun s => Inv s ∧ AllMeet c Q E s) ?_ run ⟨inv,meets⟩
  intro s i t ok ⟨inv,meets⟩ taken
  obtain ⟨op,next,called,shared,procs,past⟩ := stepCalls taken
  have here := meets i
  rw [called] at here
  obtain ⟨calls,rest⟩ := here
  obtain ⟨reply,kept⟩ := keeps s i op t ok inv meets ⟨next,called⟩ calls shared past
  refine ⟨kept,fun j => ?_⟩
  by_cases same : j = i
  · subst same
    rw [procs,past]
    simpa using rest _ reply
  · rw [procs,past]
    simpa [same] using meets j

theorem idleRun {shared : σ} {progs : ι → Prog ο ρ ε Unit} {t : System ι σ ο ρ ε} {schedule : List ι}
    {i : ι} (idle : progs i = .ret ())
    (run : Run (System.step handle) allowed (start shared progs) schedule t) : t.past i = [] := by
  refine (runKeeps (fun s => s.procs i = .ret () ∧ s.past i = []) ?_ run ⟨idle,rfl⟩).2
  intro s j t _ ⟨returned,quiet⟩ taken
  obtain ⟨op,next,called,_,procs,past⟩ := stepCalls taken
  have other : i ≠ j := fun same => by rw [← same,returned] at called; cases called
  rw [procs,past,Function.update_of_ne other,Function.update_of_ne other]
  exact ⟨returned,quiet⟩

end

end Autonomizer.Process
