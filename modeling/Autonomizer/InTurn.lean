import Mathlib
import Autonomizer.DataFiles

/-! Production runs whose children are taken one after another, in any order: the
store file is there once the directory of its model is, and every model file is that of
a single model. -/
namespace Autonomizer.InTurn
open Data DataFiles FileIO FileSystem Footprint Format PINNHelper Process
open Shared SingleModel StoreFile Template Trace

/- A child runs while each of the others has not begun or has returned. -/
def inTurn (s : Children) (k : Nat) : Prop :=
  ∀ j, j ≠ k → s.past j = [] ∨ (s.procs j).returned

/- What is known of a run in turn: whoever opened the directory of the model found one. -/
structure Known (fs : FS) (m : Text) (n : Nat) (s : Children) : Prop where
  tracked : Tracked fs (fun k => childFoot m (placeOf n k) (k = 0)) s
  opened : ∀ k, (.opensDir [piDir,m],.ok) ∈ s.past k → s.shared [piDir,m] = some .dir

section
variable {fs : FS} {m modPath : Text} {loads stores : List Text} {n v : Nat}
  {before after : Nat → List ProgIntel.Call} {s t : Children} {k : Nat} {op : Op}

theorem stepKnown (known : Known fs m n s)
    (allowed : (childFoot m (placeOf n k) (k = 0)).allows op)
    (shared : t.shared = (handle op s.shared).2)
    (past : t.past = Function.update s.past k (s.past k ++ [(op,(handle op s.shared).1)])) :
    Known fs m n t := by
  have grows : Grows s.shared t.shared := shared ▸ handleGrows op s.shared
  refine ⟨stepTracked known.tracked allowed shared past,fun j inside => ?_⟩
  rw [pastAfter past] at inside
  split at inside
  · rcases List.mem_append.mp inside with old | new
    · exact grows.dir _ (known.opened k old)
    · obtain ⟨rfl,ok⟩ := Prod.mk.inj (List.mem_singleton.mp new)
      exact grows.dir _ (opensDirIff.mp ok.symm)
  · exact grows.dir _ (known.opened j inside)

/- What a child has done at its end, and that there are no children past the last. -/
def EndedInTurn (m modPath : Text) (loads stores : List Text) (n v : Nat)
    (before after : Nat → List ProgIntel.Call) (k : Nat) (log : Log Op Reply) : Prop :=
  ChildEnded m modPath loads stores n v before after True k log ∧ (n + v ≤ k → log = [])

theorem endsInTurn (some_ : 1 ≤ n) (one : ∀ k < n + v, OneNetwork (before k) (after k)) (k : Nat) :
    Meets (bothRules m (placeOf n k) (k = 0) True) []
      (networkRun m modPath loads stores n v before after k)
      (fun l _ => EndedInTurn m modPath loads stores n v before after k l) (fun _ _ => True) := by
  have whole : Meets (bothRules m (placeOf n k) (k = 0) True) []
      (networkRun m modPath loads stores n v before after k)
      (fun l _ => ChildEnded m modPath loads stores n v before after True k l) (fun _ _ => True) :=
    childEnds some_ one True k
  by_cases below : k < n + v
  · exact meetsReturns whole (fun l _ ended => ⟨ended,fun past => absurd below (by omega)⟩)
  · rw [networkRun,production,if_neg below] at whole ⊢
    exact ⟨whole,fun _ => rfl⟩

theorem storeThere (fresh : Fresh m fs) (turn : inTurn s k) (known : Known fs m n s)
    (met : AllMeet (fun k => bothRules m (placeOf n k) (k = 0) True)
      (EndedInTurn m modPath loads stores n v before after) (fun _ _ _ => True) s)
    (saw : Saw m (s.past k)) (settled : Settled m (s.past k)) :
    (s.shared (storePath m .one)).isSome := by
  have made (j : Nat) (created : (.create (storePath m .one),.ok) ∈ s.past j) :
      (s.shared (storePath m .one)).isSome := by
    have file := known.tracked.made j _ created
    cases found : s.shared (storePath m .one) with
    | none => rw [found] at file; cases file
    | some node => rfl
  rcases saw with opened | created
  · have dir := known.opened k opened
    rcases known.tracked.origin _ (by rw [dir]; rfl) with old | ⟨j,e,inside,target⟩
    · rw [fresh.model []] at old
      cases old
    · by_cases self : j = k
      · subst self
        exact made j (settled ⟨e,inside,target⟩)
      · -- another child made the directory, and is done
        rcases turn j self with none_ | returned
        · rw [none_] at inside
          cases inside
        · have ended := met j
          cases last : s.procs j with
          | ret a =>
            rw [last] at ended
            obtain ⟨ended,outside⟩ := ended
            have below : j < n + v := by
              by_contra past
              rw [outside (by omega)] at inside
              cases inside
            exact made j ((ended.leaves below).settled trivial ⟨e,inside,target⟩)
          | stop e => rw [last] at returned; cases returned
          | call op next => rw [last] at returned; cases returned
  · exact made k created

theorem runInTurn (some_ : 1 ≤ n) (one : ∀ k < n + v, OneNetwork (before k) (after k))
    (fresh : Fresh m fs) {schedule : List Nat}
    (run : Run (System.step handle) inTurn
      (start fs (networkRun m modPath loads stores n v before after)) schedule t)
    (done : ∀ k < n + v, (t.procs k).returned) :
    Finished m modPath loads stores n v before after True t := by
  have whole : Known fs m n t ∧ AllMeet (fun k => bothRules m (placeOf n k) (k = 0) True)
      (EndedInTurn m modPath loads stores n v before after) (fun _ _ _ => True) t := by
    refine runMeets (Known fs m n) ?_ run ?_ (fun k => endsInTurn some_ one k)
    · intro s k op t turn known met _ calls shared past
      refine ⟨⟨childReplies known.tracked (fresh.model []) (fun h => absurd h id) op,?_⟩,
        stepKnown known calls.1.1 shared past⟩
      intro _ same saw settled
      subst same
      simp only [handle,storeThere fresh turn known met saw settled,if_true]
    · exact ⟨startTracked fs _ _,fun _ inside => absurd inside List.not_mem_nil⟩
  refine finished fresh whole.1.tracked (fun k => ?_) done (fun k outside => idleRun ?_ run)
  · exact meetsReturns (whole.2 k) (fun l _ ended => ended.1)
  · rw [networkRun,production,if_neg (by omega)]
    rfl

theorem aloneInTurn {schedule : List Nat} (alone : ∀ j, j ≠ 0 → s.procs j = .ret ())
    (run : Run (System.step handle) (fun _ _ => True) s schedule t) :
    Run (System.step handle) inTurn s schedule t := by
  induction run with
  | done s => exact .done s
  | @act s i next rest last ok taken tail ih =>
    obtain ⟨op,more,called,_,procs,_⟩ := stepCalls taken
    have only : i = 0 := by
      by_contra other
      rw [alone i other] at called
      cases called
    subst only
    have turn : inTurn s 0 := fun j other => .inr (by rw [alone j other]; rfl)
    refine .act turn taken (ih fun j other => ?_)
    rw [procs,Function.update_of_ne other]
    exact alone j other

theorem clearInTurn (end_ : Finished m modPath loads stores n v before after True t) :
    ∀ k < n + v, NoLoadFiles m (t.past k) := by
  intro k below
  have leaves := end_.leaves k below
  by_cases first : k = 0
  · obtain ⟨_,_,_,_,_,_,_,_,clear⟩ := leaves.first first
    exact clear (.inl trivial)
  · exact leaves.others first

theorem walkPerm (end_ : Finished m modPath loads stores n v before after True t)
    (written : ∀ k < n, (fileText (t.shared (dataFile m (piTrainDir,k)))).isSome) {files : List Path}
    (walk : Walk t.shared [piDir,m,piTrainDir] files) :
    files.Perm ((List.range n).map fun k => dataFile m (piTrainDir,k)) := by
  have all := trainWalk end_ (clearInTurn end_) written
  refine (List.perm_ext_iff_of_nodup walk.once all.once).mpr (fun path => ?_)
  rw [walk.below,all.below]

end

end Autonomizer.InTurn
