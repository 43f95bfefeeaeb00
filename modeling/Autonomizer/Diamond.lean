import Mathlib

/-! Relations with the one-step diamond property. One finished run determines
every other run: same length, same end. -/
namespace Autonomizer.Diamond

section
variable {α : Type} {step : α → α → Prop}

inductive Steps (step : α → α → Prop) : Nat → α → α → Prop where
  | refl (x : α) : Steps step 0 x x
  | head {n x y z} (first : step x y) (rest : Steps step n y z) : Steps step (n+1) x z

def Final (step : α → α → Prop) (x : α) : Prop := ∀ y, ¬ step x y

def Joins (step : α → α → Prop) : Prop :=
  ∀ x y z, step x y → step x z → y = z ∨ ∃ w, step y w ∧ step z w

theorem stepsAppend {n m x y z} (left : Steps step n x y) (right : Steps step m y z) :
    Steps step (n+m) x z := by
  induction left with
  | refl => simpa using right
  | @head n _ _ _ first rest ih =>
    have whole := Steps.head first (ih right)
    rwa [Nat.add_right_comm] at whole

theorem anyFirstStep (joins : Joins step) {n x y z} (path : Steps step (n+1) x z)
    (final : Final step z) (first : step x y) : Steps step n y z := by
  induction n generalizing x y with
  | zero =>
    cases path with
    | head took rest =>
      cases rest
      rcases joins _ _ _ first took with same | ⟨w,_,more⟩
      · subst same; exact .refl _
      · exact absurd more (final w)
  | succ n ih =>
    cases path with
    | head took rest =>
      rcases joins _ _ _ first took with same | ⟨w,left,right⟩
      · subst same; exact rest
      · exact .head left (ih rest right)

/- Every run from x is at most as long as the finished one, and whatever it has
reached can be continued to the same end in exactly the remaining steps. -/
def Settles (step : α → α → Prop) (x final : α) : Prop :=
  Final step final ∧ ∃ n, Steps step n x final ∧
    ∀ m y, Steps step m x y → m ≤ n ∧ Steps step (n-m) y final

theorem settles (joins : Joins step) {n x final} (path : Steps step n x final)
    (stuck : Final step final) : Settles step x final := by
  refine ⟨stuck,n,path,?_⟩
  intro m y other
  induction other generalizing n with
  | refl => exact ⟨Nat.zero_le _,by simpa using path⟩
  | @head m x y z first rest ih =>
    cases n with
    | zero =>
      cases path
      exact absurd first (stuck _)
    | succ n =>
      obtain ⟨bound,path⟩ := ih (anyFirstStep joins path stuck first)
      exact ⟨by omega,by rwa [Nat.add_sub_add_right]⟩

end
end Autonomizer.Diamond
