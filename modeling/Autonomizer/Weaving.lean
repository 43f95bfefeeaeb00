import Mathlib
import Autonomizer.Total

/-! Programs that weave instructions of their own into a given code: what they write, and that
it runs as the code does where what they weave in leaves the code alone. -/
namespace Autonomizer.Weaving
open Total

/- The code, its instructions in their order, with own ones anywhere between them. -/
inductive Woven {ι κ : Type} (Own : κ → Prop) (copy : ι → κ) : List ι → List κ → Prop where
  | nil : Woven Own copy [] []
  | own {code out i} (alone : Own i) (rest : Woven Own copy code out) : Woven Own copy code (i :: out)
  | copied {code out i} (rest : Woven Own copy code out) : Woven Own copy (i :: code) (copy i :: out)

section
variable {ι κ : Type} {Own : κ → Prop} {copy : ι → κ}

theorem wovenAppend {code code' : List ι} {out out' : List κ} (first : Woven Own copy code out)
    (rest : Woven Own copy code' out') : Woven Own copy (code ++ code') (out ++ out') := by
  induction first with
  | nil => exact rest
  | own alone _ ih => exact .own alone ih
  | copied _ ih => exact .copied ih

end

section
variable {ι κ σ τ ε : Type}

def runCode (run : ι → σ → Option (Option ε × σ)) : List ι → σ → Option (Option ε × σ)
  | [],s => some (none,s)
  | i :: rest,s =>
    match run i s with
    | none => none
    | some (some e,t) => some (some e,t)
    | some (none,t) => runCode run rest t

section
variable {run : ι → σ → Option (Option ε × σ)} {i : ι} {rest : List ι} {s t : σ}

theorem runLeaves {e : ε} (here : run i s = some (some e,t)) : runCode run (i :: rest) s = some (some e,t) := by
  rw [runCode,here]

theorem runGoesOn (here : run i s = some (none,t)) : runCode run (i :: rest) s = runCode run rest t := by
  rw [runCode,here]

end

variable {Own : κ → Prop} {copy : ι → κ} {Fits : ι → Prop} {R : σ → τ → Prop}
  {run : ι → σ → Option (Option ε × σ)} {run' : κ → τ → Option (Option ε × τ)}

/- The second run stops short, which it may where P is true, or it ends as the first does. -/
def Ends (P : Prop) (R : σ → τ → Prop) (first : Option (Option ε × σ)) (second : Option (Option ε × τ)) : Prop :=
  second = none ∧ P ∨ ∃ e u v, first = some (e,u) ∧ second = some (e,v) ∧ R u v

theorem wovenRuns {P : Prop}
    (alone : ∀ i s t, Own i → R s t → run' i t = none ∧ P ∨ ∃ u, run' i t = some (none,u) ∧ R s u)
    (both : ∀ i s t, Fits i → R s t →
      ∃ e u v, run i s = some (e,u) ∧ run' (copy i) t = some (e,v) ∧ R u v)
    {code : List ι} {out : List κ} (woven : Woven Own copy code out) (fits : ∀ i ∈ code, Fits i)
    {s : σ} {t : τ} (related : R s t) : Ends P R (runCode run code s) (runCode run' out t) := by
  induction woven generalizing s t with
  | nil => exact .inr ⟨none,s,t,rfl,rfl,related⟩
  | own own _ ih =>
    rcases alone _ s t own related with ⟨stopped,may⟩ | ⟨u,ran,after⟩
    · exact .inl ⟨by rw [runCode,stopped],may⟩
    · rw [runGoesOn ran]
      exact ih fits after
  | copied _ ih =>
    obtain ⟨e,u,v,ran,ran',after⟩ := both _ s t (fits _ List.mem_cons_self) related
    cases e with
    | some e => exact .inr ⟨some e,u,v,runLeaves ran,runLeaves ran',after⟩
    | none =>
      rw [runGoesOn ran,runGoesOn ran']
      exact ih (fun i inside => fits i (List.mem_cons_of_mem _ inside)) after

end

/- A program that keeps an invariant of its state, and what it has written when it ends. -/
def Weaves {ι κ β α : Type} (Own : κ → Prop) (copy : ι → κ) (code : β → List κ) (Inv : β → Prop) (orig : List ι)
    (p : StateT β Option α) (Q : α → Prop) : Prop :=
  ∀ b a c, Inv b → p b = some (a,c) → Inv c ∧ Q a ∧ ∃ new, code c = code b ++ new ∧ Woven Own copy orig new

section
variable {ι κ β α γ : Type} {Own : κ → Prop} {copy : ι → κ} {code : β → List κ} {Inv : β → Prop}
  {orig orig' : List ι} {p : StateT β Option α} {f : α → StateT β Option γ} {Q Q' : α → Prop} {T : γ → Prop}

theorem weavesMono (weaves : Weaves Own copy code Inv orig p Q) (weaker : ∀ a, Q a → Q' a) :
    Weaves Own copy code Inv orig p Q' := by
  intro b a c kept ran
  obtain ⟨kept,here,wrote⟩ := weaves b a c kept ran
  exact ⟨kept,weaker a here,wrote⟩

theorem weavesBind (first : Weaves Own copy code Inv orig p Q)
    (next : ∀ a, Q a → Weaves Own copy code Inv orig' (f a) T) :
    Weaves Own copy code Inv (orig ++ orig') (p >>= f) T := by
  intro b e d kept ran
  obtain ⟨⟨a,c⟩,ran,rest⟩ := Option.bind_eq_some_iff.mp (ran : (p b).bind _ = some (e,d))
  obtain ⟨kept,here,new,wrote,woven⟩ := first b a c kept ran
  obtain ⟨kept,there,new',wrote',woven'⟩ := next a here c e d kept rest
  refine ⟨kept,there,new ++ new',?_,wovenAppend woven woven'⟩
  rw [wrote',wrote,List.append_assoc]

theorem weavesOwn (first : Weaves Own copy code Inv [] p Q)
    (next : ∀ a, Q a → Weaves Own copy code Inv orig (f a) T) : Weaves Own copy code Inv orig (p >>= f) T :=
  weavesBind first next

theorem weavesThen (first : Weaves Own copy code Inv orig p Q)
    (next : ∀ a, Q a → Weaves Own copy code Inv [] (f a) T) : Weaves Own copy code Inv orig (p >>= f) T := by
  have both := weavesBind first next
  rwa [List.append_nil] at both

theorem weavesPure {a : α} (here : Q a) : Weaves Own copy code Inv [] (pure a) Q := by
  intro b a' c kept ran
  cases ran
  exact ⟨kept,here,[],(List.append_nil _).symm,.nil⟩

theorem weavesHalt : Weaves Own copy code Inv orig (halt : StateT β Option α) Q := by
  intro b a c _ ran
  cases ran

theorem weavesGet : Weaves Own copy code Inv [] (get : StateT β Option β) Inv := by
  intro b a c kept ran
  cases ran
  exact ⟨kept,kept,[],(List.append_nil _).symm,.nil⟩

theorem weavesAssert {P : Prop} [Decidable P] : Weaves Own copy code Inv [] (assert P : StateT β Option Unit)
    (fun _ => P) := by
  unfold assert
  split
  · exact weavesPure ‹P›
  · exact weavesHalt

theorem weavesModify {g : β → β} (kept : ∀ b, Inv b → Inv (g b)) (same : ∀ b, code (g b) = code b) :
    Weaves Own copy code Inv [] (modify g : StateT β Option Unit) (fun _ => True) := by
  intro b a c before ran
  cases ran
  exact ⟨kept b before,trivial,[],by rw [same,List.append_nil],.nil⟩

theorem weavesWrite {g : β → β} {i : κ} (kept : ∀ b, Inv b → Inv (g b)) (more : ∀ b, code (g b) = code b ++ [i])
    (woven : Woven Own copy orig [i]) :
    Weaves Own copy code Inv orig (modify g : StateT β Option Unit) (fun _ => True) := by
  intro b a c before ran
  cases ran
  exact ⟨kept b before,trivial,[i],more b,woven⟩

end

end Autonomizer.Weaving
