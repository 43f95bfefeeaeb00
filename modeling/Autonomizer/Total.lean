import Mathlib

/-! Programs on a state that stop for good where an assertion fails: that one ends, and in
what state. -/
namespace Autonomizer.Total

section
variable {σ α β : Type}

/- The program passes its assertions and ends so. -/
def Ends (p : StateT σ Option α) (s : σ) (Q : α → σ → Prop) : Prop :=
  ∃ a t, p s = some (a,t) ∧ Q a t

/- A failed assertion. -/
def halt : StateT σ Option α := fun _ => none

def assert (c : Prop) [Decidable c] : StateT σ Option Unit := if c then pure () else halt

variable {p : StateT σ Option α} {f : α → StateT σ Option β} {s : σ} {Q R : α → σ → Prop}

theorem endsPure {a : α} (here : Q a s) : Ends (pure a) s Q := ⟨a,s,rfl,here⟩

theorem endsBind {P : β → σ → Prop} (first : Ends p s Q)
    (next : ∀ a t, Q a t → Ends (f a) t P) : Ends (p >>= f) s P := by
  obtain ⟨a,t,ran,here⟩ := first
  obtain ⟨b,u,rest,there⟩ := next a t here
  refine ⟨b,u,?_,there⟩
  show (p s).bind _ = _
  rw [ran]
  exact rest

theorem endsPureBind {P : β → σ → Prop} {a : α} (next : Ends (f a) s P) : Ends (pure a >>= f) s P := next

theorem endsMono (ends : Ends p s Q) (weaker : ∀ a t, Q a t → R a t) : Ends p s R := by
  obtain ⟨a,t,ran,here⟩ := ends
  exact ⟨a,t,ran,weaker a t here⟩

theorem endsGetBind {P : β → σ → Prop} {f : σ → StateT σ Option β} (next : Ends (f s) s P) :
    Ends (get >>= f) s P := next

theorem endsModify {g : σ → σ} {P : Unit → σ → Prop} (here : P () (g s)) :
    Ends (modify g : StateT σ Option Unit) s P := ⟨(),g s,rfl,here⟩

theorem endsModifyBind {P : β → σ → Prop} {g : σ → σ} {f : Unit → StateT σ Option β}
    (next : Ends (f ()) (g s) P) : Ends (modify g >>= f) s P := next

theorem endsAssertBind {P : β → σ → Prop} {c : Prop} [Decidable c] {f : Unit → StateT σ Option β} (holds : c)
    (next : Ends (f ()) s P) : Ends (assert c >>= f) s P := by
  rw [assert,if_pos holds]
  exact next

theorem endsIte {c : Prop} [Decidable c] {q : StateT σ Option α} (yes : c → Ends p s Q) (no : ¬ c → Ends q s Q) :
    Ends (if c then p else q) s Q := by
  by_cases here : c
  · rw [if_pos here]
    exact yes here
  · rw [if_neg here]
    exact no here

end

section
variable {σ τ ε α : Type} {step : ε → StateT σ Option α} {flat : ε → τ → α × τ} {fits : ε → Prop}
  {R : τ → σ → Prop}

def runAll (step : ε → StateT σ Option α) : List ε → StateT σ Option (List α)
  | [] => pure []
  | e :: rest => do
    let answer ← step e
    let answers ← runAll step rest
    pure (answer :: answers)

def runFlat (flat : ε → τ → α × τ) : List ε → τ → List α × τ
  | [],f => ([],f)
  | e :: rest,f => ((flat e f).1 :: (runFlat flat rest (flat e f).2).1,(runFlat flat rest (flat e f).2).2)

theorem refines (one : ∀ e f s, fits e → R f s → Ends (step e) s (fun a t => a = (flat e f).1 ∧ R (flat e f).2 t))
    {events : List ε} (all : ∀ e ∈ events, fits e) {f : τ} {s : σ} (start : R f s) :
    Ends (runAll step events) s (fun answers t =>
      answers = (runFlat flat events f).1 ∧ R (runFlat flat events f).2 t) := by
  induction events generalizing f s with
  | nil => exact endsPure ⟨rfl,start⟩
  | cons e rest ih =>
    unfold runAll
    refine endsBind (one e f s (all e List.mem_cons_self) start) ?_
    intro answer t ⟨here,after⟩
    refine endsBind (ih (fun e inside => all e (List.mem_cons_of_mem _ inside)) after) ?_
    intro answers u ⟨there,last⟩
    refine endsPure ⟨?_,last⟩
    rw [here,there]
    rfl

end

end Autonomizer.Total
