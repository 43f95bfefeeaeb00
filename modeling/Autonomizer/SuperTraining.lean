import Mathlib

/-! TFNNSuper.train of PINNHelper.py over any losses. The costs of the parameters after
each iteration are an input; numbers are of any type with the operations the code uses. -/
namespace Autonomizer.SuperTraining

inductive PyError where
  -- a local variable is read before it is assigned
  | unboundLocalError
  deriving DecidableEq, Repr

/- The members that train reads; of the data only whether they are None. -/
structure TFNNSuper (α : Type) where
  verbose : Bool
  trainData : Bool
  validData : Bool
  epoch : Int
  trainStopThd : α
  validStopThd : α
  trainRestartThd : α
  validRestartThd : α
  trainSaveThd : α
  validSaveThd : α
  saveThdStep : α

structure Losses (α : Type) where
  trainLoss : α
  validLoss : α
  deriving DecidableEq

/- Where train is: before sess.run(init), at the top of an iteration, or after the loop. -/
inductive Pc where
  | restart
  | iteration (i : Nat)
  | done
  deriving DecidableEq, Repr

/- inits counts the calls of sess.run(init); the losses are locals of train. -/
structure State (α : Type) where
  pc : Pc
  inits : Nat
  trainLoss : Option α
  validLoss : Option α
  validSaveThd : α
  deriving DecidableEq

structure Acts where
  saved : Bool
  restarted : Bool
  stopped : Bool
  deriving DecidableEq, Repr

def noActs : Acts := ⟨false,false,false⟩

section Code
variable {α : Type}

/- The object that init(op) of a model file makes. -/
def TFNNSuper.new [OfScientific α] (op : String) : TFNNSuper α where
  verbose := true
  trainData := op = "train"
  validData := op = "train"
  epoch := 100000
  trainStopThd := 0.05
  validStopThd := 0.05
  trainRestartThd := 1.5
  validRestartThd := 1.5
  trainSaveThd := 1.5
  validSaveThd := 1.5
  saveThdStep := 0.1

variable [LT α] [DecidableLT α] [Sub α]

/- validLoss > self.validRestartThd or trainLoss > self.trainRestartThd. -/
def LossRestarts (o : TFNNSuper α) (l : Losses α) : Prop :=
  o.validRestartThd < l.validLoss ∨ o.trainRestartThd < l.trainLoss

def Restarts (o : TFNNSuper α) (i : Nat) (l : Losses α) : Prop := LossRestarts o l ∨ 100000 < i

def Saves (o : TFNNSuper α) (validSaveThd : α) (l : Losses α) : Prop :=
  (o.validData = false ∧ l.trainLoss < o.trainSaveThd) ∨
    (o.validData = true ∧ l.validLoss < validSaveThd ∧ l.trainLoss < o.trainSaveThd)

def Stops (o : TFNNSuper α) (l : Losses α) : Prop :=
  l.trainLoss < o.trainStopThd ∧
    (o.validData = false ∨ (o.validData = true ∧ l.validLoss < o.validStopThd))

instance (o : TFNNSuper α) (i : Nat) (l : Losses α) : Decidable (Restarts o i l) := by
  unfold Restarts LossRestarts; infer_instance

instance (o : TFNNSuper α) (thd : α) (l : Losses α) : Decidable (Saves o thd l) := by
  unfold Saves; infer_instance

instance (o : TFNNSuper α) (l : Losses α) : Decidable (Stops o l) := by
  unfold Stops; infer_instance

/- The locals after the part under i % 100 == 0, which ends with a print of both. -/
def evaluate (o : TFNNSuper α) (l : Losses α) (s : State α) (i : Nat) :
    Except PyError (Losses α) := do
  let refresh := i % 100 = 0 ∧ o.verbose
  let trainLoss := if refresh then some l.trainLoss else s.trainLoss
  let validLoss := if refresh ∧ o.validData then some l.validLoss else s.validLoss
  match trainLoss,validLoss with
  | some trainLoss,some validLoss => return ⟨trainLoss,validLoss⟩
  | _,_ => throw .unboundLocalError

def iteration (o : TFNNSuper α) (loss : Nat → Nat → Losses α) (s : State α) (i : Nat) :
    Except PyError (State α × Acts) := do
  let l ← evaluate o (loss s.inits i) s i
  let s := { s with trainLoss := some l.trainLoss, validLoss := some l.validLoss }
  if Restarts o i l then return ({ s with pc := .restart },⟨false,true,false⟩)
  let saved := decide (Saves o s.validSaveThd l)
  let s := { s with validSaveThd := if saved then s.validSaveThd - o.saveThdStep else s.validSaveThd }
  if Stops o l then return ({ s with pc := .done },⟨saved,false,true⟩)
  return ({ s with pc := .iteration (i + 1) },⟨saved,false,false⟩)

/- A for loop that comes to its end is restarted as well. -/
def step (o : TFNNSuper α) (loss : Nat → Nat → Losses α) (s : State α) :
    Except PyError (State α × Acts) :=
  match s.pc with
  | .restart => .ok ({ s with pc := .iteration 0, inits := s.inits + 1 },noActs)
  | .iteration i =>
      if (i : Int) < o.epoch then iteration o loss s i else .ok ({ s with pc := .restart },noActs)
  | .done => .ok (s,noActs)

/- train on losses given for each restart and iteration; without training data it raises
before its loop. -/
inductive Reaches (o : TFNNSuper α) (loss : Nat → Nat → Losses α) : State α → Prop where
  | start (data : o.trainData = true) : Reaches o loss ⟨.restart,0,none,none,o.validSaveThd⟩
  | step {s t acts} (reached : Reaches o loss s) (taken : step o loss s = .ok (t,acts)) :
      Reaches o loss t

structure Current (o : TFNNSuper α) (loss : Nat → Nat → Losses α) (s : State α) (i : Nat)
    (acts : Acts) : Prop where
  saved : acts.saved = true → Saves o s.validSaveThd (loss s.inits i)
  restarted : acts.restarted = true → Restarts o i (loss s.inits i)
  stopped : acts.stopped = true → Stops o (loss s.inits i)

def ActsOnCurrent (o : TFNNSuper α) (loss : Nat → Nat → Losses α) : Prop :=
  ∀ s i t acts, Reaches o loss s → s.pc = .iteration i → step o loss s = .ok (t,acts) →
    Current o loss s i acts

/- An iteration between two evaluations passes the save test if the last one evaluated
does. -/
def StillSaves (o : TFNNSuper α) (loss : Nat → Nat → Losses α) : Prop :=
  ∀ s i, Reaches o loss s → s.pc = .iteration i → (i : Int) < o.epoch → i % 100 ≠ 0 → i ≤ 100000 →
    Saves o s.validSaveThd (loss s.inits (i - i % 100)) → Saves o s.validSaveThd (loss s.inits i)

inductive Outcome (o : TFNNSuper α) (s : State α) (i : Nat) (l : Losses α) (t : State α) :
    Acts → Prop where
  | restarted (restarts : Restarts o i l) (pc : t.pc = .restart) : Outcome o s i l t ⟨false,true,false⟩
  | stopped {saved : Bool} (stays : ¬ Restarts o i l) (saves : saved = true ↔ Saves o s.validSaveThd l)
      (stops : Stops o l) (pc : t.pc = .done) : Outcome o s i l t ⟨saved,false,true⟩
  | goesOn {saved : Bool} (stays : ¬ Restarts o i l) (saves : saved = true ↔ Saves o s.validSaveThd l)
      (trains : ¬ Stops o l) (pc : t.pc = .iteration (i + 1)) : Outcome o s i l t ⟨saved,false,false⟩

variable {o : TFNNSuper α} {loss : Nat → Nat → Losses α} {s t : State α} {i : Nat} {acts : Acts}

theorem iterationOutcome (done : iteration o loss s i = .ok (t,acts)) :
    ∃ l, evaluate o (loss s.inits i) s i = .ok l ∧ t.inits = s.inits ∧
      t.trainLoss = some l.trainLoss ∧ t.validLoss = some l.validLoss ∧ Outcome o s i l t acts := by
  simp only [iteration,bind,Except.bind] at done
  split at done <;> try contradiction
  next l got =>
  refine ⟨l,got,?_⟩
  split at done
  · next restarts =>
    cases done
    exact ⟨rfl,rfl,rfl,.restarted restarts rfl⟩
  · next stays =>
    split at done
    · next stops =>
      cases done
      exact ⟨rfl,rfl,rfl,.stopped stays decide_eq_true_iff stops rfl⟩
    · next trains =>
      cases done
      exact ⟨rfl,rfl,rfl,.goesOn stays decide_eq_true_iff trains rfl⟩

omit [LT α] [DecidableLT α] [Sub α] in
theorem evaluateFresh {l got : Losses α} (refresh : i % 100 = 0) (verbose : o.verbose = true)
    (valid : o.validData = true) (done : evaluate o l s i = .ok got) : got = l := by
  simp only [evaluate,refresh,verbose,valid,and_self,if_true] at done
  cases done
  rfl

omit [LT α] [DecidableLT α] [Sub α] in
theorem evaluateKept {l : Losses α} (between : i % 100 ≠ 0) : evaluate o l s i =
    match s.trainLoss,s.validLoss with
    | some trainLoss,some validLoss => .ok ⟨trainLoss,validLoss⟩
    | _,_ => .error .unboundLocalError := by
  simp only [evaluate,between,false_and,if_false]
  rfl

/- The locals hold the last losses that were evaluated, and these neither restart nor
stop the training. -/
structure Stored (o : TFNNSuper α) (loss : Nat → Nat → Losses α) (s : State α) : Prop where
  evaluated : s.validLoss ≠ none → o.verbose = true ∧ o.validData = true
  kept : ∀ i, s.pc = .iteration i → i % 100 ≠ 0 →
    s.trainLoss = some (loss s.inits (i - i % 100)).trainLoss ∧
    s.validLoss = some (loss s.inits (i - i % 100)).validLoss ∧
    ¬ LossRestarts o (loss s.inits (i - i % 100)) ∧ ¬ Stops o (loss s.inits (i - i % 100))

omit [DecidableLT α] [Sub α] in
theorem storedLooksAt (stored : Stored o loss s) (here : s.pc = .iteration i) {l : Losses α}
    (done : evaluate o (loss s.inits i) s i = .ok l) :
    (o.verbose = true ∧ o.validData = true) ∧ l = loss s.inits (i - i % 100) := by
  by_cases refresh : i % 100 = 0
  · have data : o.verbose = true ∧ o.validData = true := by
      by_contra missing
      have none_ : s.validLoss = none := by
        by_contra some_
        exact missing (stored.evaluated some_)
      have old : ¬ ((i % 100 = 0 ∧ o.verbose = true) ∧ o.validData = true) :=
        fun both => missing ⟨both.1.2,both.2⟩
      simp only [evaluate,if_neg old,none_] at done
      split at done
      · next same => cases same
      · cases done
    exact ⟨data,by rw [refresh,Nat.sub_zero]; exact evaluateFresh refresh data.1 data.2 done⟩
  · obtain ⟨train,valid,_,_⟩ := stored.kept i here refresh
    rw [evaluateKept refresh,train,valid] at done
    cases done
    exact ⟨stored.evaluated (by rw [valid]; exact Option.some_ne_none _),rfl⟩

theorem stepStored (stored : Stored o loss s) (taken : step o loss s = .ok (t,acts)) :
    Stored o loss t := by
  unfold step at taken
  cases here : s.pc with
  | restart =>
    rw [here] at taken
    cases taken
    refine ⟨stored.evaluated,fun i pc between => ?_⟩
    cases pc
    exact absurd rfl between
  | done =>
    rw [here] at taken
    cases taken
    exact stored
  | iteration i =>
    rw [here] at taken
    dsimp only at taken
    split at taken
    · obtain ⟨l,got,inits,train,valid,outcome⟩ := iterationOutcome taken
      obtain ⟨data,same⟩ := storedLooksAt stored here got
      refine ⟨fun _ => data,fun j pc between => ?_⟩
      cases outcome with
      | restarted restarts there => rw [there] at pc; cases pc
      | stopped stays saves stops there => rw [there] at pc; cases pc
      | goesOn stays saves trains there =>
        rw [there] at pc
        cases pc
        -- the next iteration is in the same hundred
        have base : i + 1 - (i + 1) % 100 = i - i % 100 := by omega
        rw [base,inits,← same]
        exact ⟨train,valid,fun restarts => stays (.inl restarts),trains⟩
    · cases taken
      refine ⟨stored.evaluated,fun j pc => ?_⟩
      cases pc

theorem reachesStored (reached : Reaches o loss s) : Stored o loss s := by
  induction reached with
  | start data =>
    refine ⟨fun some_ => absurd rfl some_,fun i pc => ?_⟩
    cases pc
  | step _ taken ih => exact stepStored ih taken

/- Between two evaluations the losses looked at are those of the last one: they do not
restart or stop the training, and save a model if they pass the save test. -/
theorem betweenOutcome (reached : Reaches o loss s) (here : s.pc = .iteration i)
    (below : (i : Int) < o.epoch) (between : i % 100 ≠ 0) (early : i ≤ 100000) :
    ∃ t saved, step o loss s = .ok (t,⟨saved,false,false⟩) ∧
      (saved = true ↔ Saves o s.validSaveThd (loss s.inits (i - i % 100))) := by
  obtain ⟨train,valid,stays,trains⟩ := (reachesStored reached).kept i here between
  have looks : evaluate o (loss s.inits i) s i = .ok (loss s.inits (i - i % 100)) := by
    rw [evaluateKept between,train,valid]
  have stays : ¬ Restarts o i (loss s.inits (i - i % 100)) := by
    rintro (restarts | late)
    · exact stays restarts
    · omega
  let saved := decide (Saves o s.validSaveThd (loss s.inits (i - i % 100)))
  have taken : step o loss s = .ok ({ s with
      pc := .iteration (i + 1)
      trainLoss := some (loss s.inits (i - i % 100)).trainLoss
      validLoss := some (loss s.inits (i - i % 100)).validLoss
      validSaveThd := if saved then s.validSaveThd - o.saveThdStep else s.validSaveThd },
      ⟨saved,false,false⟩) := by
    simp only [step,here,if_pos below,iteration,looks,bind,Except.bind,if_neg stays,if_neg trains]
    rfl
  exact ⟨_,saved,taken,decide_eq_true_iff⟩

/- For all losses, thresholds and restarts: every save, restart and stop is on current
losses exactly when the save test between two evaluations still holds. -/
theorem currentIffStillSaves : ActsOnCurrent o loss ↔ StillSaves o loss := by
  constructor
  · intro current s i reached here below between early saves
    obtain ⟨t,saved,taken,same⟩ := betweenOutcome reached here below between early
    exact (current s i t _ reached here taken).saved (same.mpr saves)
  · intro still s i t acts reached here taken
    unfold step at taken
    rw [here] at taken
    dsimp only at taken
    split at taken
    · next below =>
      obtain ⟨l,got,_,_,_,outcome⟩ := iterationOutcome taken
      have stored := reachesStored reached
      obtain ⟨_,same⟩ := storedLooksAt stored here got
      by_cases refresh : i % 100 = 0
      · rw [refresh,Nat.sub_zero] at same
        subst same
        cases outcome with
        | restarted restarts _ => exact ⟨by simp,fun _ => restarts,by simp⟩
        | stopped _ saves stops _ => exact ⟨saves.mp,by simp,fun _ => stops⟩
        | goesOn _ saves _ _ => exact ⟨saves.mp,by simp,by simp⟩
      · obtain ⟨_,_,calm,trains⟩ := stored.kept i here refresh
        have later (stays : ¬ Restarts o i l) (saves : Saves o s.validSaveThd l) :
            Saves o s.validSaveThd (loss s.inits i) := by
          have early : i ≤ 100000 := not_lt.mp (fun late => stays (.inr late))
          exact still s i reached here below refresh early (same ▸ saves)
        rw [← same] at calm trains
        cases outcome with
        | restarted restarts _ => exact ⟨by simp,fun _ => .inr (restarts.resolve_left calm),by simp⟩
        | stopped _ _ stops _ => exact absurd stops trains
        | goesOn stays saves _ _ => exact ⟨fun saved => later stays (saves.mp saved),by simp,by simp⟩
    · cases taken
      exact ⟨by simp [noActs],by simp [noActs],by simp [noActs]⟩

end Code

/- Losses of 1 after the first iteration and of 1.45 after every other. -/
def rising : Nat → Nat → Losses ℚ := fun _ i => if i = 0 then ⟨1,1⟩ else ⟨1.45,1.45⟩

/- With the default thresholds a model whose loss is 1.45 is saved under the threshold 1.4. -/
theorem staleSave : ¬ ∀ (o : TFNNSuper ℚ) (loss : Nat → Nat → Losses ℚ), ActsOnCurrent o loss := by
  intro all
  let o : TFNNSuper ℚ := TFNNSuper.new "train"
  have first : step o rising ⟨.restart,0,none,none,o.validSaveThd⟩ =
      .ok (⟨.iteration 0,1,none,none,1.5⟩,noActs) := rfl
  have second : step o rising ⟨.iteration 0,1,none,none,1.5⟩ =
      .ok (⟨.iteration 1,1,some 1,some 1,1.5 - 0.1⟩,⟨true,false,false⟩) := by decide +kernel
  have third : step o rising ⟨.iteration 1,1,some 1,some 1,1.5 - 0.1⟩ =
      .ok (⟨.iteration 2,1,some 1,some 1,1.5 - 0.1 - 0.1⟩,⟨true,false,false⟩) := by decide +kernel
  have start : Reaches o rising ⟨.restart,0,none,none,o.validSaveThd⟩ := .start rfl
  have reached := (start.step first).step second
  have saves := (all o rising _ 1 _ _ reached rfl third).saved rfl
  exact absurd saves (by decide +kernel)

end Autonomizer.SuperTraining
