import Mathlib

/-! A table filled from pairs, one after another, that refuses a second value for a
key. It is complete exactly when the pairs are a partial function, and then it is
that function, in whatever order the pairs came. -/
namespace Autonomizer.Collect

section
variable {κ ν : Type} [DecidableEq κ] [DecidableEq ν]

def add (table : κ → Option ν) (k : κ) (v : ν) : Option (κ → Option ν) :=
  match table k with
  | none => some (Function.update table k (some v))
  | some old => if old = v then some table else none

def collect (table : κ → Option ν) (pairs : List (κ × ν)) : Option (κ → Option ν) :=
  pairs.foldlM (fun t p => add t p.1 p.2) table

theorem addSome {table next : κ → Option ν} {k v} (added : add table k v = some next) (x y) :
    next x = some y ↔ table x = some y ∨ (k = x ∧ v = y) := by
  unfold add at added
  split at added
  · rename_i free
    cases added
    by_cases same : x = k
    · subst same; simp [free]
    · simp [same,Ne.symm same]
  · rename_i old found
    split at added <;> try contradiction
    rename_i equal
    cases added
    constructor
    · exact .inl
    · rintro (kept | ⟨rfl,rfl⟩)
      · exact kept
      · rw [found,equal]

theorem addNone {table : κ → Option ν} {k v} (refused : add table k v = none) :
    ∃ old, table k = some old ∧ old ≠ v := by
  unfold add at refused
  split at refused
  · cases refused
  · rename_i old found
    split at refused <;> try contradiction
    exact ⟨old,found,by assumption⟩

theorem collectSome {table last : κ → Option ν} {pairs} (collected : collect table pairs = some last)
    (x y) : last x = some y ↔ table x = some y ∨ (x,y) ∈ pairs := by
  induction pairs generalizing table with
  | nil => cases collected; simp
  | cons p rest ih =>
    rw [collect,List.foldlM_cons] at collected
    obtain ⟨next,added,tail⟩ := Option.bind_eq_some_iff.mp collected
    rw [ih tail,addSome added,List.mem_cons,Prod.ext_iff]
    simp only [eq_comm (a := x),eq_comm (a := y),or_assoc]

def Functional (pairs : List (κ × ν)) : Prop :=
  ∀ k v w, (k,v) ∈ pairs → (k,w) ∈ pairs → v = w

def Agrees (table : κ → Option ν) (pairs : List (κ × ν)) : Prop :=
  Functional pairs ∧ ∀ k v w, table k = some v → (k,w) ∈ pairs → v = w

theorem collectIff (table : κ → Option ν) (pairs) :
    (collect table pairs).isSome ↔ Agrees table pairs := by
  induction pairs generalizing table with
  | nil => simp [collect,Agrees,Functional]
  | cons p rest ih =>
    obtain ⟨k,v⟩ := p
    cases added : add table k v with
    | none =>
      obtain ⟨old,found,other⟩ := addNone added
      have failed : collect table ((k,v) :: rest) = none := by
        simp [collect,added]
      rw [failed]
      constructor
      · intro h; cases h
      · intro agrees
        exact absurd (agrees.2 k old v found List.mem_cons_self) other
    | some next =>
      have step : collect table ((k,v) :: rest) = collect next rest := by
        simp [collect,added]
      have entry := addSome added
      rw [step,ih]
      constructor
      · intro ⟨functional,agrees⟩
        have fresh : ∀ w, (k,w) ∈ rest → v = w := fun w inside =>
          agrees k v w ((entry k v).mpr (.inr ⟨rfl,rfl⟩)) inside
        refine ⟨?_,?_⟩
        · intro a x y left right
          rcases List.mem_cons.mp left with same | left
          · cases same
            rcases List.mem_cons.mp right with same | right
            · cases same; rfl
            · exact fresh y right
          · rcases List.mem_cons.mp right with same | right
            · cases same; exact (fresh x left).symm
            · exact functional a x y left right
        · intro a x y found inside
          rcases List.mem_cons.mp inside with same | inside
          · cases same
            have kept := (entry k x).mpr (.inl found)
            have put := (entry k v).mpr (.inr ⟨rfl,rfl⟩)
            rw [kept] at put
            exact Option.some.inj put
          · exact agrees a x y ((entry a x).mpr (.inl found)) inside
      · intro ⟨functional,agrees⟩
        refine ⟨fun a x y left right => functional a x y (List.mem_cons_of_mem _ left)
          (List.mem_cons_of_mem _ right),?_⟩
        intro a x y found inside
        rcases (entry a x).mp found with old | ⟨rfl,rfl⟩
        · exact agrees a x y old (List.mem_cons_of_mem _ inside)
        · exact functional k v y List.mem_cons_self (List.mem_cons_of_mem _ inside)

theorem collectAppend (table : κ → Option ν) (first second) :
    collect table (first ++ second) = (collect table first).bind (fun t => collect t second) := by
  simp [collect,List.foldlM_append,bind]

end

end Autonomizer.Collect
