import Mathlib
import Autonomizer.Declared
import Autonomizer.Inputs
import Autonomizer.Trace

/-! PIContext::sprodInit: two loops that fork a child for each argument vector, ten at a
time, and wait for all of them. A fork succeeds, and a child runs main and exits with 0. -/
namespace Autonomizer.SprodInit
open Data DataFiles Declared FileIO FileSystem Format Inputs LastWins Outcome PIInc ProgIntel SingleModel Trace

/- What a child has from the fork: its arguments and the positions of the iterators. -/
structure Child where
  mainArgv : List Text
  itTrainArgs : Nat
  itValidArgs : Nat
  deriving DecidableEq, Repr

/- A child that has not been waited for. -/
structure Proc where
  child : Child
  exited : Bool
  deriving DecidableEq, Repr

/- The loop over the training data, the one over the validation data, and its end. -/
inductive Phase where
  | train | valid | finished
  deriving DecidableEq, Repr

/- The test of the outer loop, that of the loop that forks, and the call of wait. -/
inductive Pc where
  | outer
  | inner (i : Nat)
  | waiting
  deriving DecidableEq, Repr

/- forked has every child so far. -/
structure State where
  phase : Phase
  pc : Pc
  itTrainArgs : Nat
  itValidArgs : Nat
  procs : List Proc
  forked : List Child

def start : State := ⟨.train,.outer,0,0,[],[]⟩

def State.atEnd (s : State) (args : ArgVectors) : Bool :=
  match s.phase with
  | .train => s.itTrainArgs = args.trainArgs.length
  | .valid => s.itValidArgs = args.validArgs.length
  | .finished => true

/- The child that fork() makes, with a copy of the iterators. -/
def State.child (s : State) (args : ArgVectors) : Child :=
  ⟨match s.phase with
    | .train => args.trainArgs.getD s.itTrainArgs []
    | _ => args.validArgs.getD s.itValidArgs [],s.itTrainArgs,s.itValidArgs⟩

/- fork(), i++ and the iterator's ++. -/
def State.fork (s : State) (args : ArgVectors) (i : Nat) : State :=
  { s with
    pc := .inner (i + 1)
    itTrainArgs := if s.phase = .train then s.itTrainArgs + 1 else s.itTrainArgs
    itValidArgs := if s.phase = .train then s.itValidArgs else s.itValidArgs + 1
    procs := s.procs ++ [⟨s.child args,false⟩]
    forked := s.forked ++ [s.child args] }

def State.after (s : State) : Phase :=
  match s.phase with
  | .train => .valid
  | _ => .finished

/- The parent goes on, wait returns the j-th of its children, or that child exits. -/
inductive Event where
  | parent
  | wait (j : Nat)
  | exits (j : Nat)
  deriving DecidableEq, Repr

def step (args : ArgVectors) (s : State) : Event → Option State
  | .parent =>
      if s.phase = .finished then none
      else match s.pc with
      | .outer =>
          if s.atEnd args then some { s with phase := s.after } else some { s with pc := .inner 0 }
      | .inner i =>
          if !s.atEnd args && i < 10 then some (s.fork args i) else some { s with pc := .waiting }
      -- ECHILD
      | .waiting => if s.procs = [] then some { s with pc := .outer } else none
  | .wait j =>
      match s.pc,s.procs[j]? with
      | .waiting,some ⟨_,true⟩ => some { s with procs := s.procs.eraseIdx j }
      | _,_ => none
  | .exits j =>
      match s.procs[j]? with
      | some ⟨child,false⟩ => some { s with procs := s.procs.set j ⟨child,true⟩ }
      | _ => none

def State.alive (s : State) : Nat := s.procs.countP (fun p => !p.exited)

def Child.context (c : Child) (modPath : Text) (args : ArgVectors) : PIContext :=
  { childContext modPath args.trainArgs.length args.validArgs.length 0 with
    trainIt := c.itTrainArgs, validIt := c.itValidArgs }

def OneChild (forked : List Child) (test : Child → Prop) (c : Child) : Prop :=
  ∃ j : Nat, forked[j]? = some c ∧ ∀ (i : Nat) d, forked[i]? = some d → (test d ↔ i = j)

def WritesAt (c : Child) (args : ArgVectors) (place : Text × Nat) : Prop :=
  ∀ modPath script log last, Ran (calls (c.context modPath args) script) log last →
    dataPlace last = some place

/- Every input has one child, and the first training input alone is at the begin. -/
structure Covered (args : ArgVectors) (forked : List Child) : Prop where
  count : forked.length = args.trainArgs.length + args.validArgs.length
  train : ∀ k vs, args.trainArgs[k]? = some vs → ∃ c, c.mainArgv = vs ∧ c.itTrainArgs = k ∧
    OneChild forked (fun d => d.itTrainArgs = k) c ∧ WritesAt c args (piTrainDir,k)
  valid : ∀ k vs, args.validArgs[k]? = some vs → ∃ c, c.mainArgv = vs ∧
    OneChild forked (fun d => d.itTrainArgs = args.trainArgs.length ∧ d.itValidArgs = k) c ∧
    WritesAt c args (piValidDir,k)
  first : ∃ c, OneChild forked (fun d => d.itTrainArgs = 0) c ∧ WritesAt c args (piTrainDir,0)
  contexts : ∀ modPath, forked.map (fun c => c.context modPath args) =
    (List.range (args.trainArgs.length + args.validArgs.length)).map
      (childContext modPath args.trainArgs.length args.validArgs.length)

def childAt (args : ArgVectors) (k : Nat) : Child :=
  ⟨(args.trainArgs ++ args.validArgs).getD k [],min k args.trainArgs.length,k - args.trainArgs.length⟩

/- Where the iterators are, the children so far, and how many of them are there. -/
structure Inv (args : ArgVectors) (s : State) : Prop where
  train : s.itTrainArgs ≤ args.trainArgs.length
  valid : s.itValidArgs ≤ args.validArgs.length
  later : s.phase ≠ .train → s.itTrainArgs = args.trainArgs.length
  before : s.phase = .train → s.itValidArgs = 0
  end_ : s.phase = .finished → s.itValidArgs = args.validArgs.length ∧ s.pc = .outer
  forked : s.forked = (List.range (s.itTrainArgs + s.itValidArgs)).map (childAt args)
  procs : s.procs.length ≤ match s.pc with | .outer => 0 | .inner i => i | .waiting => 10
  batch : ∀ i, s.pc = .inner i → i ≤ 10 ∧ (i = 0 → s.atEnd args = false)

section
variable {args : ArgVectors} {s next : State}

theorem startInv : Inv args start where
  train := Nat.zero_le _
  valid := Nat.zero_le _
  later := fun other => absurd rfl other
  before := fun _ => rfl
  end_ := nofun
  forked := rfl
  procs := le_rfl
  batch := nofun

theorem nextChild (inv : Inv args s) (more : s.atEnd args = false) :
    s.child args = childAt args (s.itTrainArgs + s.itValidArgs) := by
  cases phase : s.phase with
  | train =>
    simp only [State.atEnd,phase,decide_eq_false_iff_not] at more
    have inside : s.itTrainArgs < args.trainArgs.length := lt_of_le_of_ne inv.train more
    have zero := inv.before phase
    have left : min s.itTrainArgs args.trainArgs.length = s.itTrainArgs := by omega
    have none_ : s.itTrainArgs - args.trainArgs.length = 0 := by omega
    simp only [State.child,childAt,phase,zero,Nat.add_zero,left,none_,List.getD_append _ _ _ _ inside]
  | valid =>
    have all := inv.later (by rw [phase]; nofun)
    have left : min (s.itTrainArgs + s.itValidArgs) args.trainArgs.length = s.itTrainArgs := by omega
    have rest : s.itTrainArgs + s.itValidArgs - args.trainArgs.length = s.itValidArgs := by omega
    have past : args.trainArgs.length ≤ s.itTrainArgs + s.itValidArgs := by omega
    simp only [State.child,childAt,phase,left,List.getD_append_right _ _ _ _ past,rest]
  | finished =>
    simp only [State.atEnd,phase,Bool.true_eq_false] at more

theorem forkInv {i : Nat} (inv : Inv args s) (more : s.atEnd args = false) (few : i < 10)
    (here : s.pc = .inner i) : Inv args (s.fork args i) := by
  have procs := inv.procs
  rw [here] at procs
  have grown : (s.procs ++ [(⟨s.child args,false⟩ : Proc)]).length ≤ i + 1 := by
    rw [List.length_append]
    exact Nat.succ_le_succ procs
  have forked : s.forked ++ [s.child args] =
      (List.range (s.itTrainArgs + s.itValidArgs + 1)).map (childAt args) := by
    rw [inv.forked,nextChild inv more,List.range_succ,List.map_append]
    rfl
  by_cases phase : s.phase = .train
  · simp only [State.atEnd,phase,decide_eq_false_iff_not] at more
    refine ⟨?_,?_,fun other => absurd phase other,fun _ => ?_,fun end_ => ?_,?_,grown,?_⟩
    · simp only [State.fork,if_pos phase]
      exact lt_of_le_of_ne inv.train more
    · simp only [State.fork,if_pos phase]
      exact inv.valid
    · simp only [State.fork,if_pos phase]
      exact inv.before phase
    · exact absurd (phase.symm.trans end_) nofun
    · simp only [State.fork,if_pos phase,forked]
      rw [Nat.add_right_comm]
    · intro j same
      cases same
      exact ⟨few,nofun⟩
  · have last : s.phase = .valid := by
      cases end_ : s.phase with
      | train => exact absurd end_ phase
      | valid => rfl
      | finished =>
        simp only [State.atEnd,end_,Bool.true_eq_false] at more
    simp only [State.atEnd,last,decide_eq_false_iff_not] at more
    refine ⟨?_,?_,fun _ => ?_,fun first => absurd first phase,fun end_ => ?_,?_,grown,?_⟩
    · simp only [State.fork,if_neg phase]
      exact inv.train
    · simp only [State.fork,if_neg phase]
      exact lt_of_le_of_ne inv.valid more
    · simp only [State.fork,if_neg phase]
      exact inv.later phase
    · exact absurd (last.symm.trans end_) nofun
    · simp only [State.fork,if_neg phase,forked]
      rw [Nat.add_assoc]
    · intro j same
      cases same
      exact ⟨few,nofun⟩

theorem nextPhaseInv (inv : Inv args s) (end_ : s.atEnd args = true) (going : s.phase ≠ .finished)
    (here : s.pc = .outer) : Inv args { s with phase := s.after } := by
  cases phase : s.phase with
  | train =>
    simp only [State.atEnd,phase,decide_eq_true_eq] at end_
    have procs := inv.procs
    simp only [State.after,phase]
    exact ⟨inv.train,inv.valid,fun _ => end_,nofun,nofun,inv.forked,procs,fun i same =>
      absurd (here.symm.trans same) nofun⟩
  | valid =>
    simp only [State.atEnd,phase,decide_eq_true_eq] at end_
    have procs := inv.procs
    have all := inv.later (by rw [phase]; nofun)
    simp only [State.after,phase]
    exact ⟨inv.train,inv.valid,fun _ => all,nofun,fun _ => ⟨end_,here⟩,inv.forked,procs,fun i same =>
      absurd (here.symm.trans same) nofun⟩
  | finished => exact absurd phase going

theorem parentInv (inv : Inv args s) (taken : step args s .parent = some next) : Inv args next := by
  simp only [step] at taken
  split at taken <;> try contradiction
  next going =>
  have unfinished {pc : Pc} : s.phase = .finished → s.itValidArgs = args.validArgs.length ∧ pc = .outer :=
    fun end_ => absurd end_ going
  split at taken
  · next here =>
    have procs := inv.procs
    rw [here] at procs
    split at taken <;> cases taken
    · next end_ => exact nextPhaseInv inv end_ going here
    · next more =>
      refine ⟨inv.train,inv.valid,inv.later,inv.before,unfinished,inv.forked,procs,fun i same => ?_⟩
      cases same
      exact ⟨Nat.zero_le _,fun _ => Bool.eq_false_iff.mpr more⟩
  · next i here =>
    have procs := inv.procs
    rw [here] at procs
    split at taken <;> cases taken
    · next more =>
      simp only [Bool.and_eq_true,Bool.not_eq_true',decide_eq_true_eq] at more
      exact forkInv inv more.1 more.2 here
    · exact ⟨inv.train,inv.valid,inv.later,inv.before,unfinished,inv.forked,
        procs.trans (inv.batch i here).1,nofun⟩
  · next here =>
    split at taken <;> cases taken
    next none_ =>
    exact ⟨inv.train,inv.valid,inv.later,inv.before,unfinished,inv.forked,
      Nat.le_of_eq (List.length_eq_zero_iff.mpr none_),nofun⟩

theorem procsInv {procs : List Proc} (inv : Inv args s) (fewer : procs.length ≤ s.procs.length) :
    Inv args { s with procs := procs } :=
  ⟨inv.train,inv.valid,inv.later,inv.before,inv.end_,inv.forked,fewer.trans inv.procs,inv.batch⟩

theorem stepInv {e : Event} (inv : Inv args s) (taken : step args s e = some next) :
    Inv args next := by
  cases e with
  | parent => exact parentInv inv taken
  | wait j =>
    simp only [step] at taken
    split at taken <;> cases taken
    exact procsInv inv (List.length_eraseIdx_le ..)
  | exits j =>
    simp only [step] at taken
    split at taken <;> cases taken
    exact procsInv inv (Nat.le_of_eq List.length_set)

/- What is left to do: six steps for each input, and those of the children and the loops. -/
def pcWeight : Pc → Nat
  | .outer => 1
  | .inner 0 => 0
  | .inner (_ + 1) => 3
  | .waiting => 2

def phaseWeight : Phase → Nat
  | .train => 2
  | .valid => 1
  | .finished => 0

def procsWeight (procs : List Proc) : Nat := (procs.map (fun p => if p.exited then 1 else 2)).sum

def State.weight (s : State) (args : ArgVectors) : Nat :=
  6 * ((args.trainArgs.length - s.itTrainArgs) + (args.validArgs.length - s.itValidArgs)) +
    procsWeight s.procs + pcWeight s.pc + phaseWeight s.phase

theorem procsWeightAppend (first rest : List Proc) :
    procsWeight (first ++ rest) = procsWeight first + procsWeight rest := by
  simp only [procsWeight,List.map_append,List.sum_append]

theorem procsWeightCons (p : Proc) (rest : List Proc) :
    procsWeight (p :: rest) = (if p.exited then 1 else 2) + procsWeight rest := rfl

theorem procSplit {procs : List Proc} {j : Nat} {p : Proc} (found : procs[j]? = some p) :
    procs = procs.take j ++ p :: procs.drop (j + 1) := by
  obtain ⟨inside,rfl⟩ := List.getElem?_eq_some_iff.mp found
  rw [List.getElem_cons_drop,List.take_append_drop]

theorem waitWeight {procs : List Proc} {j : Nat} {child : Child}
    (found : procs[j]? = some ⟨child,true⟩) : procsWeight (procs.eraseIdx j) < procsWeight procs := by
  have whole := congrArg procsWeight (procSplit found)
  rw [procsWeightAppend,procsWeightCons] at whole
  rw [List.eraseIdx_eq_take_drop_succ,procsWeightAppend,whole]
  simp only [if_true]
  omega

theorem exitsWeight {procs : List Proc} {j : Nat} {child : Child}
    (found : procs[j]? = some ⟨child,false⟩) :
    procsWeight (procs.set j ⟨child,true⟩) < procsWeight procs := by
  have whole := congrArg procsWeight (procSplit found)
  rw [procsWeightAppend,procsWeightCons] at whole
  have inside := (List.getElem?_eq_some_iff.mp found).1
  rw [List.set_eq_take_append_cons_drop,if_pos inside,procsWeightAppend,procsWeightCons,whole]
  simp only [if_true,Bool.false_eq_true,if_false]
  omega

theorem forkWeight {i : Nat} (inv : Inv args s) (more : s.atEnd args = false)
    (here : s.pc = .inner i) : (s.fork args i).weight args < s.weight args := by
  have one : procsWeight (s.procs ++ [⟨s.child args,false⟩]) = procsWeight s.procs + 2 := by
    rw [procsWeightAppend]
    rfl
  have train := inv.train
  have valid := inv.valid
  cases phase : s.phase with
  | train =>
    simp only [State.atEnd,phase,decide_eq_false_iff_not] at more
    simp only [State.weight,State.fork,phase,if_true,one,here,pcWeight]
    omega
  | valid =>
    simp only [State.atEnd,phase,decide_eq_false_iff_not] at more
    simp only [State.weight,State.fork,phase,reduceCtorEq,if_false,one,here,pcWeight]
    omega
  | finished => simp only [State.atEnd,phase,Bool.true_eq_false] at more

theorem parentWeight (inv : Inv args s) (taken : step args s .parent = some next) :
    next.weight args < s.weight args := by
  simp only [step] at taken
  split at taken <;> try contradiction
  next going =>
  split at taken
  · next here =>
    split at taken <;> cases taken
    · have later : phaseWeight s.after < phaseWeight s.phase := by
        cases phase : s.phase with
        | finished => exact absurd phase going
        | _ => simp only [State.after,phase]; decide
      simp only [State.weight]
      omega
    · simp only [State.weight,here,pcWeight]
      omega
  · next i here =>
    split at taken <;> cases taken
    · next more =>
      simp only [Bool.and_eq_true,Bool.not_eq_true'] at more
      exact forkWeight inv more.1 here
    · next none_ =>
      -- the first test of a batch is not at the end
      have some_ : i ≠ 0 := fun zero => by
        rw [(inv.batch i here).2 zero,zero] at none_
        exact none_ rfl
      obtain ⟨k,rfl⟩ := Nat.exists_eq_succ_of_ne_zero some_
      simp only [State.weight,here,pcWeight]
      omega
  · next here =>
    split at taken <;> cases taken
    simp only [State.weight,here,pcWeight]
    omega

theorem stepWeight {e : Event} (inv : Inv args s) (taken : step args s e = some next) :
    next.weight args < s.weight args := by
  cases e with
  | parent => exact parentWeight inv taken
  | wait j =>
    simp only [step] at taken
    split at taken <;> cases taken
    next found =>
    simp only [State.weight]
    have := waitWeight found
    omega
  | exits j =>
    simp only [step] at taken
    split at taken <;> cases taken
    next found =>
    simp only [State.weight]
    have := exitsWeight found
    omega

theorem goesOn (going : s.phase ≠ .finished) : ∃ e next, step args s e = some next := by
  cases here : s.pc with
  | outer =>
    refine ⟨.parent,?_⟩
    simp only [step,if_neg going,here]
    split <;> exact ⟨_,rfl⟩
  | inner i =>
    refine ⟨.parent,?_⟩
    simp only [step,if_neg going,here]
    split <;> exact ⟨_,rfl⟩
  | waiting =>
    cases procs : s.procs with
    | nil =>
      refine ⟨.parent,?_⟩
      simp only [step,if_neg going,here,procs,if_true]
      exact ⟨_,rfl⟩
    | cons p rest =>
      obtain ⟨child,exited⟩ := p
      cases exited with
      | false =>
        refine ⟨.exits 0,?_⟩
        simp only [step,procs,List.getElem?_cons_zero]
        exact ⟨_,rfl⟩
      | true =>
        refine ⟨.wait 0,?_⟩
        simp only [step,here,procs,List.getElem?_cons_zero]
        exact ⟨_,rfl⟩

theorem writesAt {k : Nat} (below : k < args.trainArgs.length + args.validArgs.length) :
    WritesAt (childAt args k) args (placeOf args.trainArgs.length k) := by
  intro modPath script log last ran
  rw [callsPlace ran]
  exact childPlace modPath below

theorem coveredAll (some_ : args.trainArgs ≠ []) :
    Covered args ((List.range (args.trainArgs.length + args.validArgs.length)).map (childAt args)) := by
  have positive := List.length_pos_iff.mpr some_
  have one {test : Child → Prop} {j : Nat} (below : j < args.trainArgs.length + args.validArgs.length)
      (only : ∀ i, test (childAt args i) ↔ i = j) : OneChild
        ((List.range (args.trainArgs.length + args.validArgs.length)).map (childAt args)) test
        (childAt args j) := by
    refine ⟨j,?_,fun i d found => ?_⟩
    · rw [List.getElem?_map,List.getElem?_range below]
      rfl
    · rw [List.getElem?_map] at found
      obtain ⟨i',there,rfl⟩ := Option.map_eq_some_iff.mp found
      obtain ⟨inside,rfl⟩ := List.getElem?_eq_some_iff.mp there
      rw [List.getElem_range]
      exact only i
  have train {k : Nat} (inside : k < args.trainArgs.length) :
      WritesAt (childAt args k) args (piTrainDir,k) := by
    have place : placeOf args.trainArgs.length k = (piTrainDir,k) := if_pos inside
    exact place ▸ writesAt (Nat.lt_add_right _ inside)
  refine ⟨?_,fun k vs found => ?_,fun k vs found => ?_,?_,fun modPath => ?_⟩
  · rw [List.length_map,List.length_range]
  · obtain ⟨inside,rfl⟩ := List.getElem?_eq_some_iff.mp found
    refine ⟨childAt args k,?_,Nat.min_eq_left (Nat.le_of_lt inside),
      one (Nat.lt_add_right _ inside) (fun i => ?_),train inside⟩
    · simp only [childAt,List.getD_append _ _ _ _ inside,List.getD_eq_getElem _ _ inside]
    · simp only [childAt]
      omega
  · obtain ⟨inside,rfl⟩ := List.getElem?_eq_some_iff.mp found
    have below : args.trainArgs.length + k < args.trainArgs.length + args.validArgs.length := by omega
    have place : placeOf args.trainArgs.length (args.trainArgs.length + k) = (piValidDir,k) := by
      rw [placeOf,if_neg (by omega),Nat.add_sub_cancel_left]
    refine ⟨childAt args (args.trainArgs.length + k),?_,one below (fun i => ?_),place ▸ writesAt below⟩
    · simp only [childAt,List.getD_append_right _ _ _ _ (Nat.le_add_right ..),Nat.add_sub_cancel_left,
        List.getD_eq_getElem _ _ inside]
    · simp only [childAt]
      omega
  · refine ⟨childAt args 0,one (Nat.lt_add_right _ positive) (fun i => ?_),train positive⟩
    simp only [childAt]
    omega
  · rw [List.map_map]
    rfl

theorem runInv {events : List Event} (run : Run (step args) (fun _ _ => True) start events s) :
    Inv args s := runKeeps (Inv args) (fun _ inv taken => stepInv inv taken) run startInv

theorem runLength {events : List Event} {t : State} (inv : Inv args s)
    (run : Run (step args) (fun _ _ => True) s events t) :
    events.length + t.weight args ≤ s.weight args := by
  induction run with
  | done _ => exact Nat.le_of_eq (Nat.zero_add _)
  | act _ taken _ ih =>
    have less := stepWeight inv taken
    have rest := ih (stepInv inv taken)
    rw [List.length_cons]
    omega

/- In every order of steps the run ends, never with more than ten children alive, and by then
every input has had its one child. -/
theorem everyInputOnce (some_ : args.trainArgs ≠ []) {events : List Event} {t : State}
    (run : Run (step args) (fun _ _ => True) start events t) :
    t.alive ≤ 10 ∧
    events.length ≤ 6 * (args.trainArgs.length + args.validArgs.length) + 3 ∧
    (t.phase ≠ .finished → ∃ e next, step args t e = some next) ∧
    (t.phase = .finished → t.procs = [] ∧ Covered args t.forked) := by
  have inv := runInv run
  refine ⟨List.countP_le_length.trans (inv.procs.trans ?_),?_,goesOn,fun end_ => ?_⟩
  · split
    · exact Nat.zero_le _
    · next i here => exact (inv.batch i here).1
    · exact le_rfl
  · have bound := runLength startInv run
    have whole : start.weight args = 6 * (args.trainArgs.length + args.validArgs.length) + 3 := rfl
    omega
  · obtain ⟨valid,here⟩ := inv.end_ end_
    have train := inv.later (by rw [end_]; nofun)
    have none_ := inv.procs
    rw [here] at none_
    refine ⟨List.length_eq_zero_iff.mp (Nat.le_zero.mp none_),?_⟩
    rw [inv.forked,train,valid]
    exact coveredAll some_

end

/- Twelve training inputs, two more than are forked at a time, and two validation inputs. -/
def twelveInputs : ArgVectors :=
  ⟨(List.range 12).map fun k => [List.replicate k 'a'],[[['v']],[['w']]]⟩

/- n children are forked, all of them exit, and the parent waits for each. -/
def batchOf (n : Nat) : List Event :=
  List.replicate (n + 2) .parent ++ (List.range n).map .exits ++ List.replicate n (.wait 0) ++ [.parent]

theorem twelveInputsCovered : ∃ events t, Run (step twelveInputs) (fun _ _ => True) start events t ∧
    t.phase = .finished ∧ t.procs = [] ∧ Covered twelveInputs t.forked := by
  obtain ⟨t,all,end_⟩ : ∃ t, stepsChecked (step twelveInputs) (fun _ _ => true) start
      (batchOf 10 ++ batchOf 2 ++ [.parent] ++ batchOf 2 ++ [.parent]) = some t ∧
      t.phase = .finished := ⟨_,rfl,rfl⟩
  have run : Run (step twelveInputs) (fun _ _ => True) start _ t := runChecked (fun _ _ _ => trivial) all
  have done := (everyInputOnce (List.cons_ne_nil _ _) run).2.2.2 end_
  exact ⟨_,t,run,end_,done.1,done.2⟩

end Autonomizer.SprodInit
