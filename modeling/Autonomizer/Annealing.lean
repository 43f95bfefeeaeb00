import Mathlib
import Autonomizer.Minibatch

/-! epsilon of a TFNNReinf over any sequence of calls of train, in rational arithmetic.
A call that raises has assigned nothing, or epsilon and replayMem. -/
namespace Autonomizer.Annealing
open Minibatch TFNNReinf

/- A value that falls by step while it is above floor, from count steps above floor on. -/
section Descent
variable {α : Type} [Ring α] [LinearOrder α] [IsStrictOrderedRing α] {floor step : α}

def fall (floor step x : α) : α := if floor < x then x - step else x

theorem fallNext (positive : 0 < step) (n : Nat) :
    fall floor step (floor + n * step) = floor + (n - 1 : ℕ) * step := by
  cases n with
  | zero => simp [fall]
  | succ n =>
    have above : floor < floor + (n + 1 : ℕ) * step := by
      have some_ : (0 : α) < (n + 1 : ℕ) := Nat.cast_pos.mpr (Nat.succ_pos n)
      exact lt_add_of_pos_right floor (mul_pos some_ positive)
    rw [fall,if_pos above,Nat.add_sub_cancel,Nat.cast_succ,add_mul,one_mul,← add_assoc,
      add_sub_cancel_right]

theorem descentFalls (positive : 0 < step) {m n : Nat} (less : m ≤ n) :
    floor + m * step ≤ floor + n * step := by
  have more : (m : α) ≤ n := Nat.cast_le.mpr less
  exact add_le_add_right (mul_le_mul_of_nonneg_right more positive.le) floor

theorem descentFloor (positive : 0 < step) (n : Nat) : floor ≤ floor + n * step :=
  le_add_of_nonneg_right (mul_nonneg (Nat.cast_nonneg n) positive.le)

end Descent

section Code
variable {α : Type} [Zero α] [One α] [Add α] [Sub α] [Mul α] [Div α] [OfScientific α] [LE α]
  [DecidableLE α]

def annealed (conf : TFNNReinfConf α) : α :=
  if ¬ conf.epsilon ≤ FEPS ∧ OBSERVE < conf.loop then
    conf.epsilon - (IEPS - FEPS) / EXPLORE * 10.0 else conf.epsilon

inductive After (outNmemb : Nat) (conf : TFNNReinfConf α) (c : Call α) : TFNNReinfConf α → Prop where
  | returned {next out} (ok : train outNmemb conf c = .ok (next,out)) : After outNmemb conf c next
  | raisedEarly : After outNmemb conf c conf
  | raisedLate {curState} (started : conf.prevState ≠ []) (running : conf.terminal = false)
      (appended : appendFrames c.state conf.prevState = .ok curState) :
      After outNmemb conf c { conf with
        epsilon := annealed conf
        replayMem := remember conf.replayMem
          ⟨conf.prevState,conf.prevAct,c.reward,curState,c.term⟩ }

/- An object after init, called without end; calls that raise are among them. -/
structure Session (α : Type) [Zero α] [One α] [Add α] [Sub α] [Mul α] [Div α] [OfScientific α]
    [LE α] [DecidableLE α] where
  outNmemb : Nat
  calls : Nat → Call α
  confs : Nat → TFNNReinfConf α
  init : confs 0 = TFNNReinfConf.new IEPS
  step : ∀ i, After outNmemb (confs i) (calls i) (confs (i + 1))

def Ordinary (s : Session α) (i : Nat) : Prop :=
  (s.confs i).prevState ≠ [] ∧ (s.confs i).terminal = false ∧
    ∃ out, train s.outNmemb (s.confs i) (s.calls i) = .ok (s.confs (i + 1),out)

/- The object after k calls when one that raises leaves it as it was. -/
def confAfter (outNmemb : Nat) (calls : Nat → Call α) : Nat → TFNNReinfConf α
  | 0 => TFNNReinfConf.new IEPS
  | k + 1 =>
      match train outNmemb (confAfter outNmemb calls k) (calls k) with
      | .ok (next,_) => next
      | .error _ => confAfter outNmemb calls k

def Session.ofCalls (outNmemb : Nat) (calls : Nat → Call α) : Session α where
  outNmemb := outNmemb
  calls := calls
  confs := confAfter outNmemb calls
  init := rfl
  step i := by
    rw [confAfter]
    split
    · next ok => exact .returned ok
    · exact .raisedEarly

theorem ofCallsRun {outNmemb : Nat} {calls : Nat → Call α} {k : Nat} {conf : TFNNReinfConf α}
    {acts : List (List α)} (ok : runTrain outNmemb IEPS calls k = .ok (conf,acts)) :
    (Session.ofCalls outNmemb calls).confs k = conf := by
  induction k generalizing conf acts with
  | zero => cases ok; rfl
  | succ k ih =>
    obtain ⟨before,acted,next,out,ran,trained,same⟩ := runStep ok
    obtain ⟨rfl,rfl⟩ := Prod.mk.inj same
    have here : confAfter outNmemb calls k = before := ih ran
    change confAfter outNmemb calls (k + 1) = conf
    rw [confAfter,here,trained]

omit [Zero α] [One α] in
theorem learnEpsilon {conf next : TFNNReinfConf α} {c : Call α} {curState : List (Frame α)}
    {fed : Option (Feed α)} (ok : learn conf c curState = .ok (next,fed)) :
    next.epsilon = annealed conf := by
  simp only [learn] at ok
  split at ok
  · simp only [bind,Except.bind] at ok
    split at ok <;> try contradiction
    split at ok <;> try contradiction
    cases ok
    rfl
  · cases ok
    rfl

theorem trainEpsilon {outNmemb : Nat} {conf next : TFNNReinfConf α} {c : Call α} {out : Returned α}
    (ok : train outNmemb conf c = .ok (next,out)) :
    ((conf.prevState ≠ [] ∧ conf.terminal = false) ∧ next.epsilon = annealed conf) ∨
      (¬ (conf.prevState ≠ [] ∧ conf.terminal = false) ∧ next.epsilon = conf.epsilon) := by
  simp only [train] at ok
  split at ok
  · rename_i fresh
    simp only [bind,Except.bind] at ok
    split at ok <;> try contradiction
    cases ok
    exact .inr ⟨fun ordinary => ordinary.1 (List.length_eq_zero_iff.mp fresh),rfl⟩
  · rename_i started
    split at ok
    · rename_i ended
      cases ok
      exact .inr ⟨fun ordinary => Bool.false_ne_true (ordinary.2.symm.trans ended),rfl⟩
    · rename_i running
      simp only [bind,Except.bind] at ok
      split at ok <;> try contradiction
      split at ok <;> try contradiction
      split at ok <;> try contradiction
      rename_i pair learned
      have new := learnEpsilon learned
      cases ok
      exact .inl ⟨⟨fun none_ => started (List.length_eq_zero_iff.mpr none_),by simpa using running⟩,new⟩

theorem afterEpsilon {outNmemb : Nat} {conf next : TFNNReinfConf α} {c : Call α}
    (after : After outNmemb conf c next) :
    next.epsilon = annealed conf ∨ next.epsilon = conf.epsilon := by
  cases after with
  | returned ok => exact (trainEpsilon ok).imp And.right And.right
  | raisedEarly => exact .inr rfl
  | raisedLate started running appended => exact .inl rfl

end Code

def annealStep : ℚ := (IEPS - FEPS) / EXPLORE * 10.0

theorem stepPositive : 0 < annealStep := by norm_num [annealStep,IEPS,FEPS,EXPLORE]

theorem wholeSteps : (FEPS : ℚ) + (200000 : ℕ) * annealStep = IEPS := by
  norm_num [annealStep,IEPS,FEPS,EXPLORE]

theorem annealedFalls {conf : TFNNReinfConf ℚ} (exploring : OBSERVE < conf.loop) :
    annealed conf = fall FEPS annealStep conf.epsilon := by
  simp only [annealed,fall,not_le,exploring,and_true]
  rfl

theorem annealedObserves {conf : TFNNReinfConf ℚ} (observing : conf.loop ≤ OBSERVE) :
    annealed conf = conf.epsilon := if_neg (fun h => absurd h.2 (not_lt.mpr observing))

theorem stepDescends {outNmemb n : Nat} {conf next : TFNNReinfConf ℚ} {c : Call ℚ}
    (after : After outNmemb conf c next) (here : conf.epsilon = FEPS + n * annealStep) :
    ∃ m ≤ n, next.epsilon = FEPS + m * annealStep := by
  rcases afterEpsilon after with new | old
  · by_cases exploring : OBSERVE < conf.loop
    · refine ⟨n - 1,Nat.sub_le n 1,?_⟩
      rw [new,annealedFalls exploring,here,fallNext stepPositive]
    · exact ⟨n,le_rfl,by rw [new,annealedObserves (not_lt.mp exploring),here]⟩
  · exact ⟨n,le_rfl,old.trans here⟩

theorem epsilonWhole (s : Session ℚ) (k : Nat) :
    ∃ n ≤ (200000 : ℕ), (s.confs k).epsilon = FEPS + n * annealStep := by
  induction k with
  | zero => exact ⟨200000,le_rfl,by rw [s.init,wholeSteps,TFNNReinfConf.new]⟩
  | succ k ih =>
    obtain ⟨n,most,here⟩ := ih
    obtain ⟨m,less,next⟩ := stepDescends (s.step k) here
    exact ⟨m,less.trans most,next⟩

theorem exploringFalls {s : Session ℚ} {k : Nat} (ordinary : Ordinary s k)
    (exploring : OBSERVE < (s.confs k).loop) :
    (s.confs (k + 1)).epsilon = fall FEPS annealStep (s.confs k).epsilon := by
  obtain ⟨started,running,out,ok⟩ := ordinary
  rcases trainEpsilon ok with ⟨_,new⟩ | ⟨other,_⟩
  · rw [new,annealedFalls exploring]
  · exact absurd ⟨started,running⟩ other

theorem stepsGone (s : Session ℚ) (k : Nat) {calls : Finset ℕ}
    (each : ∀ i ∈ calls, i < k ∧ Ordinary s i ∧ OBSERVE < (s.confs i).loop) :
    ∃ n ≤ 200000 - calls.card, (s.confs k).epsilon = FEPS + n * annealStep := by
  induction k generalizing calls with
  | zero =>
    have none_ : calls = ∅ := Finset.eq_empty_of_forall_notMem fun i inside => Nat.not_lt_zero i (each i inside).1
    subst none_
    exact ⟨200000,le_rfl,by rw [s.init,wholeSteps,TFNNReinfConf.new]⟩
  | succ k ih =>
    have before : ∀ i ∈ calls.erase k, i < k ∧ Ordinary s i ∧ OBSERVE < (s.confs i).loop := by
      intro i inside
      obtain ⟨other,inside⟩ := Finset.mem_erase.mp inside
      exact ⟨lt_of_le_of_ne (Nat.lt_succ_iff.mp (each i inside).1) other,(each i inside).2⟩
    obtain ⟨n,most,here⟩ := ih before
    by_cases last : k ∈ calls
    · refine ⟨n - 1,?_,?_⟩
      · rw [Finset.card_erase_of_mem last] at most
        have some_ := Finset.card_pos.mpr ⟨k,last⟩
        omega
      · rw [exploringFalls (each k last).2.1 (each k last).2.2,here,fallNext stepPositive]
    · rw [Finset.erase_eq_of_notMem last] at most
      obtain ⟨m,less,next⟩ := stepDescends (s.step k) here
      exact ⟨m,less.trans most,next⟩

structure InRange (s : Session ℚ) (k : Nat) : Prop where
  falls : (s.confs (k + 1)).epsilon ≤ (s.confs k).epsilon
  observes : (s.confs k).loop ≤ OBSERVE → (s.confs (k + 1)).epsilon = (s.confs k).epsilon
  least : FEPS ≤ (s.confs k).epsilon
  most : (s.confs k).epsilon ≤ IEPS
  -- once it stays as it is while exploring, it is the final value
  ends : Ordinary s k → OBSERVE < (s.confs k).loop →
    (s.confs (k + 1)).epsilon = (s.confs k).epsilon → (s.confs k).epsilon = FEPS
  -- each ordinary call takes off a step until the final value is reached
  anneals : Ordinary s k → OBSERVE < (s.confs k).loop →
    (s.confs (k + 1)).epsilon = fall FEPS annealStep (s.confs k).epsilon
  -- which 200000 of them do
  reached : ∀ calls : Finset ℕ, (∀ i ∈ calls, i < k ∧ Ordinary s i ∧ OBSERVE < (s.confs i).loop) →
    200000 ≤ calls.card → (s.confs k).epsilon = FEPS

/- For every sequence of calls after init. -/
theorem epsilonInRange (s : Session ℚ) (k : Nat) : InRange s k := by
  obtain ⟨n,most,here⟩ := epsilonWhole s k
  refine ⟨?_,fun observing => ?_,?_,?_,fun ordinary exploring same => ?_,exploringFalls,
    fun calls each enough => ?_⟩
  · obtain ⟨m,less,next⟩ := stepDescends (s.step k) here
    rw [next,here]
    exact descentFalls stepPositive less
  · rcases afterEpsilon (s.step k) with new | old
    · rw [new,annealedObserves observing]
    · exact old
  · rw [here]
    exact descentFloor stepPositive n
  · rw [here,← wholeSteps]
    exact descentFalls stepPositive most
  · have new := exploringFalls ordinary exploring
    rw [same,fall] at new
    split at new
    · have none_ : annealStep = 0 := by linarith only [new]
      exact absurd none_ (ne_of_gt stepPositive)
    · next low =>
      refine le_antisymm (not_lt.mp low) ?_
      rw [here]
      exact descentFloor stepPositive n
  · obtain ⟨left,most,here⟩ := stepsGone s k each
    have none_ : left = 0 := by omega
    rw [here,none_,Nat.cast_zero,zero_mul,add_zero]

def steady : Session ℚ := Session.ofCalls 1 fun _ => plain false

theorem steadyRuns (k : Nat) : ∃ acts, runTrain 1 IEPS (fun _ => plain false) k = .ok (steady.confs k,acts) := by
  have runs : ∃ conf acts, runTrain 1 (IEPS : ℚ) (fun _ => plain false) k = .ok (conf,acts) := by
    refine plainRuns IEPS fun i _ past _ => ?_
    have all : inside (fun _ => false) i = i := by simp [inside]
    rw [all]
    unfold OBSERVE at past
    unfold BATCHSIZE
    omega
  obtain ⟨conf,acts,ran⟩ := runs
  have same : steady.confs k = conf := ofCallsRun ran
  exact ⟨acts,same ▸ ran⟩

theorem steadyOrdinary {k : Nat} (some_ : 0 < k) : Ordinary steady k ∧ (steady.confs k).loop = k := by
  obtain ⟨acts,ran⟩ := steadyRuns k
  have follows := runFollows ran
  refine ⟨⟨?_,follows.terminal some_,?_⟩,runLoop ran⟩
  · rw [follows.state some_]
    intro none_
    have four := stackedFour (fun _ => plain (α := ℚ) false) (k - 1)
    rw [none_] at four
    cases four
  · obtain ⟨_,after⟩ := steadyRuns (k + 1)
    obtain ⟨before,_,next,out,early,trained,same⟩ := runStep after
    cases ran.symm.trans early
    cases same
    exact ⟨out,trained⟩

/- The first step is taken off by call 3001, and the last by call 203000. -/
theorem steadyAnneals : (steady.confs 3001).epsilon = IEPS ∧
    (steady.confs 3002).epsilon = IEPS - annealStep ∧ (steady.confs 203001).epsilon = FEPS := by
  have late (i : Nat) (past : 3000 < i) : OBSERVE < (steady.confs i).loop := by
    rw [(steadyOrdinary (Nat.zero_lt_of_lt past)).2]
    exact past
  have observing (k : Nat) (early : k ≤ 3001) : (steady.confs k).epsilon = IEPS := by
    induction k with
    | zero => rw [steady.init,TFNNReinfConf.new]
    | succ k ih =>
      refine ((epsilonInRange steady k).observes ?_).trans (ih (by omega))
      rcases Nat.eq_zero_or_pos k with rfl | some_
      · rw [steady.init]
        exact Nat.zero_le _
      · rw [(steadyOrdinary some_).2]
        unfold OBSERVE
        omega
  have first := (epsilonInRange steady 3001).anneals (steadyOrdinary (by decide)).1 (late 3001 (by decide))
  have above : (FEPS : ℚ) < IEPS := by norm_num [FEPS,IEPS]
  rw [observing 3001 le_rfl,fall,if_pos above] at first
  refine ⟨observing 3001 le_rfl,first,(epsilonInRange steady 203001).reached (Finset.Ico 3001 203001) ?_ ?_⟩
  · intro i inside
    obtain ⟨least,most⟩ := Finset.mem_Ico.mp inside
    exact ⟨most,(steadyOrdinary (by omega)).1,late i (by omega)⟩
  · rw [Nat.card_Ico]

end Autonomizer.Annealing
