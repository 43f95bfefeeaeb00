import Mathlib

/-! TFNNReinf.train of PINNHelper.py. Numbers are of any type with the operations the
code uses; what the network, the random module and the callback answer is an input of
each call. -/
namespace Autonomizer.TFNNReinf

inductive PyError where
  | indexError
  | valueError
  deriving DecidableEq, Repr

section
variable {α : Type}

abbrev Frame (α : Type) := List α

/- A tuple of replayMem. -/
structure Transition (α : Type) where
  prevState : List (Frame α)
  prevAct : List α
  reward : α
  curState : List (Frame α)
  term : Bool

structure TFNNReinfConf (α : Type) where
  loop : Nat
  prevState : List (Frame α)
  prevAct : List α
  prevQ : Option (List α)
  terminal : Bool
  epsilon : α
  replayMem : List (Transition α)
  dieCnt : Nat

/- One call of train with the answers it gets: the network's row for curState,
random.random(), random.randint(0,outNmemb-1), the callback set at that time, the
positions random.sample picks, and the network's rows for the minibatch. -/
structure Call (α : Type) where
  state : Frame α
  reward : α
  term : Bool
  qVal : List α
  random : α
  randint : Nat
  randCallback : Option (List α → List α)
  sample : List Nat
  cQ : List (List α)

/- What trainFunc is fed. -/
structure Feed (α : Type) where
  targetQ : List α
  defOut : List (List α)
  defIn : List (List α)

/- The action returned, what the network was trained on, and whether the state was saved. -/
structure Returned (α : Type) where
  act : List α
  fed : Option (Feed α)
  saved : Bool

def OBSERVE : Nat := 3000
def REPLAYSIZE : Nat := 10000
def BATCHSIZE : Nat := 32

section Code
variable [Zero α] [One α] [Add α] [Sub α] [Mul α] [Div α] [OfScientific α] [LE α] [DecidableLE α]

def GAMMA : α := 0.99
def EXPLORE : α := 2000000.0
def FEPS : α := 0.00001
def IEPS : α := 0.6

/- TFNNReinfConf(), before or after init has set epsilon. -/
def TFNNReinfConf.new (epsilon : α) : TFNNReinfConf α :=
  ⟨0,[],[],none,false,epsilon,[],0⟩

def zeros (n : Nat) : List α := List.replicate n 0

/- act[i] = 1. -/
def setOne (act : List α) (i : Nat) : Except PyError (List α) :=
  if i < act.length then .ok (act.set i 1) else .error .indexError

/- np.argmax: the first of the largest, or the first that is not a number. -/
def argmaxFrom (best : α) (at_ i : Nat) : List α → Nat
  | [] => at_
  | x :: rest =>
      if ¬ best ≤ best then at_
      else if ¬ x ≤ best then argmaxFrom x i (i + 1) rest
      else argmaxFrom best at_ (i + 1) rest

def argmax : List α → Except PyError Nat
  | [] => .error .valueError
  | x :: rest => .ok (argmaxFrom x 0 1 rest)

/- np.max. -/
def max_ (xs : List α) : Except PyError α := do
  match xs[← argmax xs]? with
  | some x => .ok x
  | none => .error .indexError

/- np.stack of four copies of state. -/
def stackFour (state : Frame α) : List (Frame α) := List.replicate 4 state

/- np.append([state],prevState[:3],axis=0). -/
def appendFrames (state : Frame α) (prevState : List (Frame α)) : Except PyError (List (Frame α)) :=
  if ∀ frame ∈ prevState.take 3, frame.length = state.length then .ok (state :: prevState.take 3)
  else .error .valueError

def chooseAct (epsilon : α) (c : Call α) (curAct : List α) : Except PyError (List α) := do
  if c.random ≤ epsilon then
    match c.randCallback with
    | none => setOne curAct c.randint
    | some callback => .ok (callback curAct)
  else setOne curAct (← argmax c.qVal)

/- replayMem.append and the popleft that may follow. -/
def remember (replayMem : List (Transition α)) (t : Transition α) : List (Transition α) :=
  if REPLAYSIZE < (replayMem ++ [t]).length then (replayMem ++ [t]).tail else replayMem ++ [t]

/- random.sample raises when there are fewer than BATCHSIZE transitions. -/
def sampleBatch (replayMem : List (Transition α)) (sample : List Nat) :
    Except PyError (List (Transition α)) :=
  if replayMem.length < BATCHSIZE then .error .valueError
  else .ok (sample.filterMap (fun i => replayMem[i]?))

def updateQ (t : Transition α) (row : List α) : Except PyError α :=
  if t.term then .ok t.reward
  else do
    let best ← max_ row
    return t.reward + GAMMA * best

def trainBatch (minibatch : List (Transition α)) (cQ : List (List α)) : Except PyError (Feed α) := do
  let targetQ ← (List.range minibatch.length).mapM fun (i : Nat) =>
    match (minibatch[i]? : Option (Transition α)),(cQ[i]? : Option (List α)) with
    | some t,some row => updateQ t row
    | _,_ => .error .indexError
  return ⟨targetQ,minibatch.map Transition.prevAct,minibatch.map (fun t => t.prevState.flatten)⟩

/- The part of train that follows the choice of curAct in an ordinary call. -/
def learn (conf : TFNNReinfConf α) (c : Call α) (curState : List (Frame α)) :
    Except PyError (TFNNReinfConf α × Option (Feed α)) := do
  let t : Transition α := ⟨conf.prevState,conf.prevAct,c.reward,curState,c.term⟩
  let epsilon := if ¬ conf.epsilon ≤ FEPS ∧ OBSERVE < conf.loop then
    conf.epsilon - (IEPS - FEPS) / EXPLORE * 10.0 else conf.epsilon
  let conf := { conf with epsilon, replayMem := remember conf.replayMem t }
  if OBSERVE < conf.loop then do
    let minibatch ← sampleBatch conf.replayMem c.sample
    let feed ← trainBatch minibatch c.cQ
    return (conf,some feed)
  else return (conf,none)

/- What every call of train ends with; a terminal one is saved to disk as well. -/
def finish (conf : TFNNReinfConf α) (c : Call α) (curAct : List α) (curState : List (Frame α))
    (qVal : Option (List α)) (fed : Option (Feed α)) : TFNNReinfConf α × Returned α :=
  let conf := { conf with
    prevAct := curAct
    prevState := curState
    terminal := c.term
    prevQ := qVal
    loop := conf.loop + 1 }
  (conf,⟨curAct,fed,c.term⟩)

def train (outNmemb : Nat) (conf : TFNNReinfConf α) (c : Call α) :
    Except PyError (TFNNReinfConf α × Returned α) :=
  let curAct : List α := zeros outNmemb
  if conf.prevState.length = 0 then do
    let curAct ← setOne curAct 0
    return finish conf c curAct (stackFour c.state) none none
  else if conf.terminal then
    .ok (finish { conf with dieCnt := conf.dieCnt + 1 } c curAct (stackFour c.state) none none)
  else do
    let curState ← appendFrames c.state conf.prevState
    let curAct ← chooseAct conf.epsilon c curAct
    let (conf,fed) ← learn conf c curState
    return finish conf c curAct curState (some c.qVal) fed

def runTrain (outNmemb : Nat) (epsilon : α) (calls : Nat → Call α) :
    Nat → Except PyError (TFNNReinfConf α × List (List α))
  | 0 => .ok (TFNNReinfConf.new epsilon,[])
  | k + 1 => do
      let (conf,acts) ← runTrain outNmemb epsilon calls k
      let (conf,out) ← train outNmemb conf (calls k)
      return (conf,acts ++ [out.act])

inductive Effect (outNmemb : Nat) (conf : TFNNReinfConf α) (c : Call α) (act : List α)
    (next : TFNNReinfConf α) : Prop where
  | first (fresh : conf.prevState = []) (some_ : 0 < outNmemb) (acted : act = (zeros outNmemb).set 0 1)
      (state : next.prevState = stackFour c.state) (kept : next.replayMem = conf.replayMem)
  | restart (started : conf.prevState ≠ []) (ended : conf.terminal = true)
      (acted : act = zeros outNmemb) (state : next.prevState = stackFour c.state)
      (kept : next.replayMem = conf.replayMem)
  | ordinary (started : conf.prevState ≠ []) (running : conf.terminal = false)
      (acted : chooseAct conf.epsilon c (zeros outNmemb) = .ok act)
      (state : next.prevState = c.state :: conf.prevState.take 3)
      (kept : next.replayMem = remember conf.replayMem
        ⟨conf.prevState,conf.prevAct,c.reward,next.prevState,c.term⟩)

omit [Zero α] [One α] in
theorem learnKeeps {conf next : TFNNReinfConf α} {c : Call α} {curState : List (Frame α)}
    {fed : Option (Feed α)} (ok : learn conf c curState = .ok (next,fed)) :
    next.replayMem = remember conf.replayMem ⟨conf.prevState,conf.prevAct,c.reward,curState,c.term⟩ := by
  simp only [learn] at ok
  split at ok
  · simp only [bind,Except.bind] at ok
    split at ok <;> try contradiction
    split at ok <;> try contradiction
    cases ok
    rfl
  · cases ok
    rfl

theorem trainEffect {outNmemb : Nat} {conf next : TFNNReinfConf α} {c : Call α} {out : Returned α}
    (ok : train outNmemb conf c = .ok (next,out)) :
    next.prevAct = out.act ∧ next.terminal = c.term ∧ Effect outNmemb conf c out.act next := by
  simp only [train] at ok
  split at ok
  · rename_i fresh
    simp only [bind,Except.bind] at ok
    split at ok <;> try contradiction
    rename_i act set_
    simp only [setOne,zeros,List.length_replicate] at set_
    split at set_ <;> try contradiction
    cases set_
    cases ok
    exact ⟨rfl,rfl,.first (List.length_eq_zero_iff.mp fresh) (by assumption) rfl rfl rfl⟩
  · rename_i started
    have started : conf.prevState ≠ [] := fun none => started (List.length_eq_zero_iff.mpr none)
    split at ok
    · cases ok
      exact ⟨rfl,rfl,.restart started (by assumption) rfl rfl rfl⟩
    · rename_i running
      simp only [bind,Except.bind] at ok
      split at ok <;> try contradiction
      rename_i curState appended
      split at ok <;> try contradiction
      rename_i act chosen
      split at ok <;> try contradiction
      rename_i pair learned
      cases ok
      have state : curState = c.state :: conf.prevState.take 3 := by
        unfold appendFrames at appended
        split at appended <;> try contradiction
        exact (Except.ok.inj appended).symm
      have kept := learnKeeps learned
      exact ⟨rfl,rfl,.ordinary started (by simpa using running) chosen state kept⟩

theorem runStep {outNmemb : Nat} {epsilon : α} {calls : Nat → Call α} {k : Nat}
    {last : TFNNReinfConf α × List (List α)}
    (ok : runTrain outNmemb epsilon calls (k + 1) = .ok last) :
    ∃ conf acts next out, runTrain outNmemb epsilon calls k = .ok (conf,acts) ∧
      train outNmemb conf (calls k) = .ok (next,out) ∧ last = (next,acts ++ [out.act]) := by
  simp only [runTrain,bind,Except.bind] at ok
  split at ok <;> try contradiction
  rename_i before ran
  split at ok <;> try contradiction
  rename_i after trained
  cases ok
  exact ⟨before.1,before.2,after.1,after.2,ran,trained,rfl⟩

end Code

def stacked (calls : Nat → Call α) : Nat → List (Frame α)
  | 0 => stackFour (calls 0).state
  | i + 1 => if (calls i).term then stackFour (calls (i + 1)).state
      else (calls (i + 1)).state :: (stacked calls i).take 3

theorem stackedFour (calls : Nat → Call α) (i : Nat) : (stacked calls i).length = 4 := by
  induction i with
  | zero => rfl
  | succ i ih =>
    rw [stacked]
    split
    · rfl
    · simp [ih]

/- Four frames are fed to the network at a time. -/
def setInNmemb (inNmemb : Nat) : Nat := inNmemb * 4

theorem stackedFrames {calls : Nat → Call α} {i inNmemb : Nat}
    (width : ∀ j ≤ i, (calls j).state.length = inNmemb) :
    ∀ frame ∈ stacked calls i, frame.length = inNmemb := by
  have copies : ∀ j ≤ i, ∀ frame ∈ stackFour (calls j).state, frame.length = inNmemb := by
    intro j le frame inside
    rw [List.eq_of_mem_replicate inside]
    exact width j le
  induction i with
  | zero => exact copies 0 (le_refl 0)
  | succ i ih =>
    rw [stacked]
    split
    · exact copies (i + 1) (le_refl _)
    · intro frame inside
      rcases List.mem_cons.mp inside with rfl | older
      · exact width (i + 1) (le_refl _)
      · exact ih (fun j le => width j (by omega)) (fun j le => copies j (by omega)) frame
          (List.mem_of_mem_take older)

theorem stackedWidth {calls : Nat → Call α} {i inNmemb : Nat}
    (width : ∀ j ≤ i, (calls j).state.length = inNmemb) :
    (stacked calls i).flatten.length = setInNmemb inNmemb := by
  have frames := stackedFrames width
  have four := stackedFour calls i
  have lengths : (stacked calls i).map List.length = List.replicate 4 inNmemb :=
    List.eq_replicate_iff.mpr ⟨by rw [List.length_map,four],fun n inside => by
      obtain ⟨frame,member,rfl⟩ := List.mem_map.mp inside
      exact frames frame member⟩
  rw [List.length_flatten,lengths]
  simp [setInNmemb]
  omega

/- The transition from call i to the next, unless an episode ended with call i. -/
def transitionAt (calls : Nat → Call α) (acts : List (List α)) (i : Nat) : Option (Transition α) :=
  if (calls i).term then none
  else some ⟨stacked calls i,acts[i]?.getD [],(calls (i + 1)).reward,stacked calls (i + 1),
    (calls (i + 1)).term⟩

def transitions (calls : Nat → Call α) (acts : List (List α)) (k : Nat) : List (Transition α) :=
  (List.range (k - 1)).filterMap (transitionAt calls acts)

theorem evictOldest {β : Type} (all : List β) (t : β) {n : Nat} (some_ : 0 < n) :
    (if n < (all.rtake n ++ [t]).length then (all.rtake n ++ [t]).tail else all.rtake n ++ [t]) =
      (all ++ [t]).rtake n := by
  obtain ⟨j,rfl⟩ := Nat.exists_eq_succ_of_ne_zero (Nat.ne_of_gt some_)
  have full : (all.rtake (j + 1)).length = min all.length (j + 1) := by
    simp only [List.rtake,List.length_drop]
    omega
  rw [Nat.succ_eq_add_one,List.rtake_concat_succ,List.length_append,full,List.length_singleton]
  split
  · have long : j + 1 ≤ all.length := by omega
    have some_ : all.rtake (j + 1) ≠ [] := by
      intro none
      rw [none,List.length_nil] at full
      omega
    rw [List.tail_append_of_ne_nil some_]
    simp only [List.rtake,List.tail_drop]
    congr 2
    omega
  · have short : all.length ≤ j := by omega
    simp only [List.rtake]
    congr 2
    omega

theorem rememberLast (all : List (Transition α)) (t : Transition α) :
    remember (all.rtake REPLAYSIZE) t = (all ++ [t]).rtake REPLAYSIZE :=
  evictOldest all t (by decide)

structure Follows (calls : Nat → Call α) (k : Nat) (conf : TFNNReinfConf α) (acts : List (List α)) :
    Prop where
  acted : acts.length = k
  state : 0 < k → conf.prevState = stacked calls (k - 1)
  act : 0 < k → acts[k - 1]? = some conf.prevAct
  terminal : 0 < k → conf.terminal = (calls (k - 1)).term
  fresh : k = 0 → conf.prevState = []
  memory : conf.replayMem = (transitions calls acts k).rtake REPLAYSIZE

theorem transitionsSnoc {calls : Nat → Call α} {acts : List (List α)} {act : List α} {k : Nat}
    (some_ : 0 < k) (length : acts.length = k) : transitions calls (acts ++ [act]) (k + 1) =
      transitions calls acts k ++ (transitionAt calls acts (k - 1)).toList := by
  obtain ⟨j,rfl⟩ := Nat.exists_eq_succ_of_ne_zero (Nat.ne_of_gt some_)
  have same : ∀ i ∈ List.range (j + 1),
      transitionAt calls (acts ++ [act]) i = transitionAt calls acts i := by
    intro i inside
    have below := List.mem_range.mp inside
    simp only [transitionAt]
    rw [List.getElem?_append_left (by omega)]
  have drop : transitions calls (acts ++ [act]) (j + 1 + 1) =
      (List.range (j + 1)).filterMap (transitionAt calls acts) := List.filterMap_congr same
  rw [drop,List.range_succ,List.filterMap_append]
  simp only [transitions,Nat.succ_eq_add_one,Nat.add_sub_cancel]
  cases found : transitionAt calls acts j <;> simp [found]

section Runs
variable [Zero α] [One α] [Add α] [Sub α] [Mul α] [Div α] [OfScientific α] [LE α] [DecidableLE α]

theorem stepFollows {outNmemb : Nat} {calls : Nat → Call α} {k : Nat}
    {conf next : TFNNReinfConf α} {acts : List (List α)} {out : Returned α}
    (follows : Follows calls k conf acts) (ok : train outNmemb conf (calls k) = .ok (next,out)) :
    Follows calls (k + 1) next (acts ++ [out.act]) := by
  obtain ⟨act,terminal,effect_⟩ := trainEffect ok
  have last : (acts ++ [out.act])[k + 1 - 1]? = some next.prevAct := by
    rw [act,Nat.add_sub_cancel,← follows.acted]
    simp
  have acted : (acts ++ [out.act]).length = k + 1 := by simp [follows.acted]
  cases effect_ with
  | first fresh some_ acted_ state kept =>
    have zero : k = 0 := by
      by_contra positive
      have before := follows.state (by omega)
      rw [fresh] at before
      have four := stackedFour calls (k - 1)
      rw [← before] at four
      cases four
    subst zero
    refine ⟨acted,fun _ => state,fun _ => last,fun _ => terminal,nofun,?_⟩
    rw [kept,follows.memory]
    simp [transitions]
  | restart started ended acted_ state kept =>
    have positive : 0 < k := Nat.pos_of_ne_zero (fun zero => started (follows.fresh zero))
    have ended : (calls (k - 1)).term = true := by rw [← follows.terminal positive,ended]
    refine ⟨acted,fun _ => ?_,fun _ => last,fun _ => terminal,nofun,?_⟩
    · obtain ⟨j,rfl⟩ := Nat.exists_eq_succ_of_ne_zero (Nat.ne_of_gt positive)
      rw [state]
      simp only [Nat.succ_eq_add_one,Nat.add_sub_cancel] at ended ⊢
      rw [stacked,if_pos ended]
    · rw [kept,follows.memory,transitionsSnoc positive follows.acted,transitionAt,if_pos ended]
      simp
  | ordinary started running acted_ state kept =>
    have positive : 0 < k := Nat.pos_of_ne_zero (fun zero => started (follows.fresh zero))
    have running : (calls (k - 1)).term = false := by rw [← follows.terminal positive,running]
    have before := follows.state positive
    obtain ⟨j,rfl⟩ := Nat.exists_eq_succ_of_ne_zero (Nat.ne_of_gt positive)
    simp only [Nat.succ_eq_add_one,Nat.add_sub_cancel] at running before acted last terminal state kept ⊢
    have now : next.prevState = stacked calls (j + 1) := by
      rw [state,before,stacked,if_neg (by simp [running])]
    have acted_ : acts[j]? = some conf.prevAct := by simpa using follows.act positive
    refine ⟨acted,fun _ => now,fun _ => last,fun _ => terminal,nofun,?_⟩
    rw [kept,follows.memory,rememberLast,transitionsSnoc (Nat.succ_pos j) follows.acted]
    simp [transitionAt,running,now,before,acted_]

theorem runFollows {outNmemb : Nat} {epsilon : α} {calls : Nat → Call α} {k : Nat}
    {conf : TFNNReinfConf α} {acts : List (List α)}
    (ok : runTrain outNmemb epsilon calls k = .ok (conf,acts)) : Follows calls k conf acts := by
  induction k generalizing conf acts with
  | zero =>
    cases ok
    exact ⟨rfl,fun h => absurd h (Nat.lt_irrefl 0),fun h => absurd h (Nat.lt_irrefl 0),
      fun h => absurd h (Nat.lt_irrefl 0),fun _ => rfl,by simp [transitions,TFNNReinfConf.new]⟩
  | succ k ih =>
    obtain ⟨before,acted,next,out,ran,trained,same⟩ := runStep ok
    obtain ⟨rfl,rfl⟩ := Prod.mk.inj same
    exact stepFollows (ih ran) trained

/- After k calls the object holds the stacked state of the last call and, in order, the
last REPLAYSIZE transitions inside episodes; every state in them has four frames. -/
theorem replayHoldsEpisodes {outNmemb : Nat} {epsilon : α} {calls : Nat → Call α} {k : Nat}
    {conf : TFNNReinfConf α} {acts : List (List α)} (some_ : 1 ≤ k)
    (ok : runTrain outNmemb epsilon calls k = .ok (conf,acts)) :
    conf.prevState = stacked calls (k - 1) ∧
      conf.replayMem = (transitions calls acts k).rtake REPLAYSIZE ∧
      ∀ t ∈ conf.replayMem, t.prevState.length = 4 ∧ t.curState.length = 4 ∧
        ∀ inNmemb, (∀ i < k, (calls i).state.length = inNmemb) →
          t.prevState.flatten.length = setInNmemb inNmemb ∧
          t.curState.flatten.length = setInNmemb inNmemb := by
  have follows := runFollows ok
  refine ⟨follows.state some_,follows.memory,fun t inside => ?_⟩
  rw [follows.memory] at inside
  generalize REPLAYSIZE = size at inside
  obtain ⟨i,below,made⟩ := List.mem_filterMap.mp (List.mem_of_mem_drop inside)
  have below := List.mem_range.mp below
  unfold transitionAt at made
  split at made <;> try contradiction
  cases made
  refine ⟨stackedFour calls i,stackedFour calls (i + 1),fun inNmemb width => ?_⟩
  exact ⟨stackedWidth (fun j le => width j (by omega)),stackedWidth (fun j le => width j (by omega))⟩

def OneHot (act : List α) : Prop := ∃ i < act.length, act = (zeros act.length).set i 1

/- The callback, where there is one, sets one entry of the zero vector. -/
def CallbackOneHot (outNmemb : Nat) (calls : Nat → Call α) : Prop :=
  ∀ i callback, (calls i).randCallback = some callback → OneHot (callback (zeros outNmemb))

omit [Add α] [Sub α] [Mul α] [Div α] [OfScientific α] [LE α] [DecidableLE α] in
theorem setOneHot {n i : Nat} {act : List α} (ok : setOne (zeros n : List α) i = .ok act) :
    OneHot act := by
  simp only [setOne,zeros,List.length_replicate] at ok
  split at ok <;> try contradiction
  cases ok
  refine ⟨i,?_,?_⟩ <;> simp only [zeros,List.length_set,List.length_replicate]
  assumption

omit [Add α] [Sub α] [Mul α] [Div α] [OfScientific α] in
theorem chooseOneHot {outNmemb : Nat} {calls : Nat → Call α} {epsilon : α} {i : Nat} {act : List α}
    (callbacks : CallbackOneHot outNmemb calls)
    (ok : chooseAct epsilon (calls i) (zeros outNmemb) = .ok act) : OneHot act := by
  simp only [chooseAct,bind,Except.bind] at ok
  split at ok
  · split at ok
    · exact setOneHot ok
    · cases ok
      exact callbacks i _ (by assumption)
  · split at ok <;> try contradiction
    exact setOneHot ok

theorem stepOneHot {outNmemb : Nat} {calls : Nat → Call α} {k : Nat}
    {conf next : TFNNReinfConf α} {acts : List (List α)} {out : Returned α}
    (callbacks : CallbackOneHot outNmemb calls) (follows : Follows calls k conf acts)
    (ok : train outNmemb conf (calls k) = .ok (next,out)) :
    if 0 < k ∧ (calls (k - 1)).term then out.act = zeros outNmemb else OneHot out.act := by
  obtain ⟨_,_,effect_⟩ := trainEffect ok
  cases effect_ with
  | first fresh some_ acted state kept =>
    have zero : ¬ 0 < k := by
      intro positive
      have before := follows.state positive
      have four := stackedFour calls (k - 1)
      rw [← before,fresh] at four
      cases four
    rw [if_neg (fun h => zero h.1),acted]
    exact setOneHot (n := outNmemb) (i := 0) (if_pos (by simpa [zeros] using some_))
  | restart started ended acted state kept =>
    have positive : 0 < k := Nat.pos_of_ne_zero (fun zero => started (follows.fresh zero))
    rw [if_pos ⟨positive,by rw [← follows.terminal positive,ended]⟩]
    exact acted
  | ordinary started running acted state kept =>
    have positive : 0 < k := Nat.pos_of_ne_zero (fun zero => started (follows.fresh zero))
    rw [if_neg (by rw [← follows.terminal positive,running]; simp)]
    exact chooseOneHot callbacks acted

/- All actions of a run: those returned and those remembered. -/
def AllOneHot (conf : TFNNReinfConf α) (acts : List (List α)) : Prop :=
  (∀ act ∈ acts, OneHot act) ∧ ∀ t ∈ conf.replayMem, OneHot t.prevAct

theorem remembered {outNmemb : Nat} {epsilon : α} {calls : Nat → Call α} {k : Nat}
    {conf : TFNNReinfConf α} {acts : List (List α)}
    (ok : runTrain outNmemb epsilon calls k = .ok (conf,acts)) :
    ∀ t ∈ conf.replayMem, t.prevAct ∈ acts := by
  have follows := runFollows ok
  intro t inside
  rw [follows.memory] at inside
  generalize REPLAYSIZE = size at inside
  obtain ⟨i,below,made⟩ := List.mem_filterMap.mp (List.mem_of_mem_drop inside)
  have below : i < acts.length := by
    have := List.mem_range.mp below
    rw [follows.acted]
    omega
  unfold transitionAt at made
  split at made <;> try contradiction
  cases made
  simp [List.getElem?_eq_getElem below]

/- Whatever the answers, every action is one-hot exactly when no call but the last ends
an episode. -/
theorem oneHotIffNoRestart [NeZero (1 : α)] {outNmemb : Nat} {epsilon : α} {calls : Nat → Call α}
    {k : Nat} {conf : TFNNReinfConf α} {acts : List (List α)}
    (callbacks : CallbackOneHot outNmemb calls)
    (ok : runTrain outNmemb epsilon calls k = .ok (conf,acts)) :
    AllOneHot conf acts ↔ ∀ i, i + 1 < k → (calls i).term = false := by
  have returned : (∀ act ∈ acts, OneHot act) ↔ ∀ i, i + 1 < k → (calls i).term = false := by
    induction k generalizing conf acts with
    | zero =>
      cases ok
      exact ⟨fun _ _ h => by omega,fun _ => nofun⟩
    | succ k ih =>
      obtain ⟨before,acted,next,out,ran,trained,same⟩ := runStep ok
      obtain ⟨rfl,rfl⟩ := Prod.mk.inj same
      have step := stepOneHot callbacks (runFollows ran) trained
      constructor
      · intro all i below
        by_cases earlier : i + 1 < k
        · exact (ih ran).mp (fun act inside => all act (List.mem_append_left _ inside)) i earlier
        · have last : i = k - 1 := by omega
          subst last
          by_contra ended
          rw [if_pos ⟨by omega,by simpa using ended⟩] at step
          obtain ⟨j,inside,one⟩ := all _ (List.mem_append_right _ (List.mem_singleton_self out.act))
          rw [step] at one inside
          simp only [zeros,List.length_replicate] at one inside
          have zero : (List.replicate outNmemb (0 : α))[j]? = some 0 := by
            rw [List.getElem?_replicate,if_pos inside]
          rw [one,List.getElem?_set_self (by simpa using inside)] at zero
          exact one_ne_zero (Option.some.inj zero)
      · intro running act inside
        rcases List.mem_append.mp inside with old | new
        · exact (ih ran).mpr (fun i below => running i (by omega)) act old
        · rw [List.mem_singleton.mp new]
          by_cases positive : 0 < k
          · rw [if_neg (by rw [running (k - 1) (by omega)]; simp)] at step
            exact step
          · rw [if_neg (fun h => positive h.1)] at step
            exact step
  rw [← returned]
  exact ⟨fun all => all.1,fun all => ⟨all,fun t inside => all _ (remembered ok t inside)⟩⟩

end Runs

/- reduce_sum(multiply(nnOut,defOut)) for one row of the loss. -/
def estimateQ [Zero α] [Add α] [Mul α] (nnOut act : List α) : α :=
  (List.zipWith (· * ·) nnOut act).sum

theorem estimateQNone [NonAssocSemiring α] (nnOut : List α) (n : Nat) :
    estimateQ nnOut (zeros n) = 0 := by
  induction nnOut generalizing n with
  | nil => rfl
  | cons q rest ih =>
    cases n with
    | zero => rfl
    | succ n =>
      have more := ih n
      simp only [estimateQ,zeros,List.replicate_succ,List.zipWith_cons_cons,List.sum_cons] at more ⊢
      rw [more,mul_zero,add_zero]

theorem estimateQOneHot [NonAssocSemiring α] {nnOut act : List α} (oneHot : OneHot act)
    (same : nnOut.length = act.length) : ∃ i : Nat, nnOut[i]? = some (estimateQ nnOut act) := by
  obtain ⟨i,inside,one⟩ := oneHot
  refine ⟨i,?_⟩
  rw [one]
  generalize act.length = n at inside same
  clear one act
  induction nnOut generalizing n i with
  | nil => rw [← same] at inside; cases inside
  | cons q rest ih =>
    obtain ⟨n,rfl⟩ := Nat.exists_eq_succ_of_ne_zero (Nat.ne_of_gt (Nat.zero_lt_of_lt inside))
    cases i with
    | zero =>
      have more := estimateQNone rest n
      simp only [estimateQ,zeros,List.replicate_succ,List.set_cons_zero,List.zipWith_cons_cons,
        List.sum_cons] at more ⊢
      rw [more,mul_one,add_zero]
      rfl
    | succ i =>
      have more := ih i n (by omega) (by simpa using same)
      simp only [estimateQ,zeros,List.replicate_succ,List.set_cons_succ,List.zipWith_cons_cons,
        List.sum_cons,List.getElem?_cons_succ] at more ⊢
      rw [more,mul_zero,zero_add]

end

def plainCall (term : Bool) : Call ℚ := ⟨[5],1,term,[7],1,0,none,[],[]⟩

def episodeCall (i : Nat) : Call ℚ := { plainCall (i = 1) with state := [(i : ℚ)] }

theorem replayHoldsTwoEpisodes : ∃ conf acts, runTrain 1 0 episodeCall 4 = .ok (conf,acts) ∧
    conf.prevState = [[3],[2],[2],[2]] ∧
    conf.replayMem.map (fun t => (t.prevState,t.curState,t.term)) =
      [([[0],[0],[0],[0]],[[1],[0],[0],[0]],true),([[2],[2],[2],[2]],[[3],[2],[2],[2]],false)] := by
  obtain ⟨⟨conf,acts⟩,ok⟩ : ∃ last, runTrain 1 0 episodeCall 4 = .ok last := by
    simp [runTrain,train,learn,appendFrames,chooseAct,setOne,argmax,argmaxFrom,episodeCall,plainCall,
      bind,Except.bind,pure,Except.pure,finish,TFNNReinfConf.new,stackFour,OBSERVE,zeros]
  obtain ⟨state,memory,_⟩ := replayHoldsEpisodes (by omega) ok
  refine ⟨conf,acts,ok,?_,?_⟩
  · rw [state]
    simp [stacked,stackFour,episodeCall,plainCall]
  · rw [memory]
    simp [transitions,transitionAt,stacked,stackFour,episodeCall,plainCall,List.rtake,REPLAYSIZE,List.range_succ]

theorem oneHotTwoCalls : ∃ conf acts,
    runTrain 1 0 (fun _ => plainCall false) 2 = .ok (conf,acts) ∧ AllOneHot conf acts := by
  obtain ⟨⟨conf,acts⟩,ok⟩ : ∃ last, runTrain 1 0 (fun _ => plainCall false) 2 = .ok last := ⟨_,rfl⟩
  exact ⟨conf,acts,ok,(oneHotIffNoRestart (fun _ _ set_ => by cases set_) ok).mpr (fun _ _ => rfl)⟩

/- The call after a terminal one acts with the zero vector. -/
theorem restartNotOneHot : ∃ conf acts,
    runTrain 1 0 (fun _ => plainCall true) 2 = .ok (conf,acts) ∧ ¬ AllOneHot conf acts := by
  have ok : runTrain 1 0 (fun _ => plainCall true) 2 = .ok (_,[[1],[0]]) := rfl
  refine ⟨_,_,ok,fun all => ?_⟩
  obtain ⟨i,inside,one⟩ := all.1 [0] (by simp)
  have first : i = 0 := by simpa using inside
  subst first
  exact absurd one (by decide)

end Autonomizer.TFNNReinf
