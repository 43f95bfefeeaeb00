import Mathlib
import Autonomizer.TFNNReinf

/-! The minibatch of TFNNReinf.train: the guard counts calls, while the replay memory
grows only at calls inside an episode. -/
namespace Autonomizer.Minibatch
open TFNNReinf

def inside (term : Nat → Bool) (n : Nat) : Nat := (List.range n).countP (fun i => !term i)

theorem rtakeLength {β : Type} (all : List β) (n : Nat) : (all.rtake n).length = min all.length n := by
  simp only [List.rtake,List.length_drop]
  omega

theorem insideNext {term : Nat → Bool} {n : Nat} (running : term n = false) :
    inside term (n + 1) = inside term n + 1 := by
  simp [inside,List.range_succ,running]

section
variable {α : Type} [Zero α] [One α] [Add α] [Sub α] [Mul α] [Div α] [OfScientific α] [LE α]
  [DecidableLE α]

/- What a call of train passes to random.sample, where it gets there. -/
def sampledFrom (outNmemb : Nat) (conf : TFNNReinfConf α) (c : Call α) :
    Option (List (Transition α)) :=
  if conf.prevState.length = 0 ∨ conf.terminal then none
  else
    match appendFrames c.state conf.prevState,chooseAct conf.epsilon c (zeros outNmemb) with
    | .ok curState,.ok _ =>
        if OBSERVE < conf.loop then
          some (remember conf.replayMem ⟨conf.prevState,conf.prevAct,c.reward,curState,c.term⟩)
        else none
    | _,_ => none

/- Every sample in the first k calls is taken from enough transitions. -/
def SamplesEnough (outNmemb : Nat) (epsilon : α) (calls : Nat → Call α) (k : Nat) : Prop :=
  ∀ i < k, ∀ conf acts mem, runTrain outNmemb epsilon calls i = .ok (conf,acts) →
    sampledFrom outNmemb conf (calls i) = some mem → BATCHSIZE ≤ mem.length

omit [Add α] [Sub α] [Mul α] [Div α] [OfScientific α] in
theorem sampledInv {outNmemb : Nat} {conf : TFNNReinfConf α} {c : Call α}
    {mem : List (Transition α)} (sampled : sampledFrom outNmemb conf c = some mem) :
    conf.prevState ≠ [] ∧ conf.terminal = false ∧ OBSERVE < conf.loop ∧ ∃ curState act,
      appendFrames c.state conf.prevState = .ok curState ∧
      chooseAct conf.epsilon c (zeros outNmemb) = .ok act ∧
      mem = remember conf.replayMem ⟨conf.prevState,conf.prevAct,c.reward,curState,c.term⟩ := by
  unfold sampledFrom at sampled
  split at sampled <;> try contradiction
  next running =>
  split at sampled <;> try contradiction
  next curState act appended chosen =>
  split at sampled <;> try contradiction
  next past =>
  have running := not_or.mp running
  exact ⟨fun none_ => running.1 (by rw [none_]; rfl),by simpa using running.2,past,curState,act,
    appended,chosen,(Option.some.inj sampled).symm⟩

theorem sampledShort {outNmemb : Nat} {conf : TFNNReinfConf α} {c : Call α}
    {mem : List (Transition α)} (sampled : sampledFrom outNmemb conf c = some mem)
    (short : mem.length < BATCHSIZE) : train outNmemb conf c = .error .valueError := by
  obtain ⟨started,running,past,curState,act,appended,chosen,rfl⟩ := sampledInv sampled
  have started : ¬ conf.prevState.length = 0 :=
    fun none_ => started (List.length_eq_zero_iff.mp none_)
  simp only [train,if_neg started,running,Bool.false_eq_true,if_false,appended,chosen,learn,past,
    if_true,sampleBatch,short,bind,Except.bind]

theorem fedSampled {outNmemb : Nat} {conf next : TFNNReinfConf α} {c : Call α} {out : Returned α}
    (ok : train outNmemb conf c = .ok (next,out)) (fed : out.fed.isSome = true) :
    ∃ mem, sampledFrom outNmemb conf c = some mem ∧ BATCHSIZE ≤ mem.length := by
  simp only [train] at ok
  split at ok
  · simp only [bind,Except.bind] at ok
    split at ok <;> try contradiction
    cases ok
    cases fed
  next started =>
  split at ok
  · cases ok
    cases fed
  next running =>
  simp only [bind,Except.bind] at ok
  split at ok <;> try contradiction
  next curState appended =>
  split at ok <;> try contradiction
  next act chosen =>
  split at ok <;> try contradiction
  next pair learned =>
  cases ok
  simp only [learn] at learned
  split at learned
  · next past =>
    simp only [bind,Except.bind] at learned
    split at learned <;> try contradiction
    next minibatch sampled =>
    refine ⟨remember conf.replayMem ⟨conf.prevState,conf.prevAct,c.reward,curState,c.term⟩,?_,?_⟩
    · simp only [sampledFrom,not_or.mpr ⟨started,running⟩,if_false,appended,chosen,past,if_true]
    · unfold sampleBatch at sampled
      split at sampled <;> try contradiction
      next enough => exact Nat.le_of_not_lt enough
  · cases learned
    cases fed

omit [Zero α] [One α] in
theorem learnLoop {conf next : TFNNReinfConf α} {c : Call α} {curState : List (Frame α)}
    {fed : Option (Feed α)} (ok : learn conf c curState = .ok (next,fed)) :
    next.loop = conf.loop := by
  simp only [learn] at ok
  split at ok
  · simp only [bind,Except.bind] at ok
    split at ok <;> try contradiction
    split at ok <;> try contradiction
    cases ok
    rfl
  · cases ok
    rfl

theorem trainLoop {outNmemb : Nat} {conf next : TFNNReinfConf α} {c : Call α} {out : Returned α}
    (ok : train outNmemb conf c = .ok (next,out)) : next.loop = conf.loop + 1 := by
  simp only [train] at ok
  split at ok
  · simp only [bind,Except.bind] at ok
    split at ok <;> try contradiction
    cases ok
    rfl
  · split at ok
    · cases ok
      rfl
    · simp only [bind,Except.bind] at ok
      split at ok <;> try contradiction
      split at ok <;> try contradiction
      split at ok <;> try contradiction
      next pair learned =>
      cases ok
      exact congrArg (· + 1) (learnLoop learned)

theorem runLoop {outNmemb : Nat} {epsilon : α} {calls : Nat → Call α} {k : Nat}
    {conf : TFNNReinfConf α} {acts : List (List α)}
    (ok : runTrain outNmemb epsilon calls k = .ok (conf,acts)) : conf.loop = k := by
  induction k generalizing conf acts with
  | zero =>
    cases ok
    rfl
  | succ k ih =>
    obtain ⟨before,acted,next,out,ran,trained,same⟩ := runStep ok
    cases same
    rw [trainLoop trained,ih ran]

omit [Zero α] [One α] [Add α] [Sub α] [Mul α] [Div α] [OfScientific α] [LE α] [DecidableLE α] in
theorem transitionsCount (calls : Nat → Call α) (acts : List (List α)) (k : Nat) :
    (transitions calls acts k).length = inside (fun i => (calls i).term) (k - 1) := by
  rw [transitions,List.length_filterMap_eq_countP,inside]
  refine List.countP_congr (fun i _ => ?_)
  unfold transitionAt
  split
  · next ended => simp [ended]
  · next running => simp [running]

/- The memory of a call that samples holds one transition for each earlier call that
ended no episode, up to its size. -/
theorem sampledCount {outNmemb : Nat} {epsilon : α} {calls : Nat → Call α} {k : Nat}
    {conf : TFNNReinfConf α} {acts : List (List α)} {mem : List (Transition α)}
    (ok : runTrain outNmemb epsilon calls k = .ok (conf,acts))
    (sampled : sampledFrom outNmemb conf (calls k) = some mem) :
    OBSERVE < k ∧ (calls (k - 1)).term = false ∧
      mem.length = min (inside (fun i => (calls i).term) k) REPLAYSIZE := by
  obtain ⟨started,running,past,curState,act,appended,chosen,rfl⟩ := sampledInv sampled
  have follows := runFollows ok
  rw [runLoop ok] at past
  obtain ⟨j,rfl⟩ := Nat.exists_eq_succ_of_ne_zero (Nat.ne_of_gt (Nat.zero_lt_of_lt past))
  have running : (calls j).term = false := by
    rw [← running,follows.terminal (Nat.succ_pos j)]
    rfl
  refine ⟨past,running,?_⟩
  rw [follows.memory,rememberLast,rtakeLength,List.length_append,transitionsCount,
    List.length_singleton]
  exact congrArg (min · REPLAYSIZE) (insideNext running).symm

/- A call whose answers let it go on: a frame of one number, one value of the network,
and a callback that changes nothing. -/
def plain (term : Bool) : Call α := ⟨[0],0,term,[0],0,0,some id,[],[]⟩

omit [One α] [Add α] [Sub α] [Mul α] [Div α] [OfScientific α] [LE α] [DecidableLE α] in
theorem plainAppends {term : Nat → Bool} {k : Nat} {prevState : List (Frame α)}
    (state : prevState = stacked (fun i => plain (term i)) k) (t : Bool) :
    ∃ curState, appendFrames (plain t : Call α).state prevState = .ok curState := by
  have width : ∀ frame ∈ prevState.take 3, frame.length = (plain t : Call α).state.length := by
    intro frame member
    rw [state] at member
    have whole : ∀ frame ∈ stacked (fun i => (plain (term i) : Call α)) k, frame.length = 1 :=
      stackedFrames (fun _ _ => rfl)
    exact whole frame (List.mem_of_mem_take member)
  exact ⟨_,if_pos width⟩

omit [Add α] [Sub α] [Mul α] [Div α] [OfScientific α] in
theorem plainChooses (epsilon : α) (t : Bool) :
    ∃ act, chooseAct epsilon (plain t) (zeros 1) = .ok act := by
  unfold chooseAct
  split
  · exact ⟨_,rfl⟩
  · exact ⟨[1],rfl⟩

theorem plainSampled {term : Nat → Bool} {k : Nat} {conf : TFNNReinfConf α} {acts : List (List α)}
    (ran : runTrain 1 (0 : α) (fun i => plain (term i)) k = .ok (conf,acts)) (past : OBSERVE < k)
    (running : term (k - 1) = false) :
    ∃ mem, sampledFrom 1 conf (plain (term k)) = some mem := by
  have follows := runFollows ran
  have positive : 0 < k := Nat.zero_lt_of_lt past
  have started : ¬ conf.prevState.length = 0 := by
    rw [follows.state positive,stackedFour]
    exact Nat.succ_ne_zero 3
  have ended : conf.terminal = false := (follows.terminal positive).trans running
  have late : OBSERVE < conf.loop := by rw [runLoop ran]; exact past
  obtain ⟨curState,appended⟩ := plainAppends (follows.state positive) (term k)
  obtain ⟨act,chosen⟩ := plainChooses conf.epsilon (term k)
  exact ⟨_,by simp only [sampledFrom,started,ended,Bool.false_eq_true,or_self,if_false,appended,
    chosen,late,if_true]; rfl⟩

theorem plainRuns (epsilon : α) {term : Nat → Bool} {k : Nat}
    (enough : ∀ i < k, OBSERVE < i → term (i - 1) = false → BATCHSIZE ≤ inside term i) :
    ∃ conf acts, runTrain 1 epsilon (fun i => plain (term i)) k = .ok (conf,acts) := by
  induction k with
  | zero => exact ⟨_,_,rfl⟩
  | succ k ih =>
    obtain ⟨conf,acts,ran⟩ := ih (fun i below => enough i (Nat.lt_succ_of_lt below))
    have follows := runFollows ran
    suffices goes : ∃ next out, train 1 conf (plain (term k)) = .ok (next,out) by
      obtain ⟨next,out,trained⟩ := goes
      exact ⟨next,acts ++ [out.act],by simp only [runTrain,ran,trained,bind,Except.bind]; rfl⟩
    by_cases started : conf.prevState.length = 0
    · exact ⟨_,_,by simp only [train,if_pos started]; rfl⟩
    cases ended : conf.terminal with
    | true => exact ⟨_,_,by simp only [train,if_neg started,ended,if_true]; rfl⟩
    | false =>
      have positive : 0 < k := Nat.pos_of_ne_zero fun zero => started (by
        rw [follows.fresh zero]; rfl)
      obtain ⟨curState,appended⟩ := plainAppends (follows.state positive) (term k)
      obtain ⟨act,chosen⟩ := plainChooses conf.epsilon (term k)
      have learned : ∃ pair, learn conf (plain (term k)) curState = .ok pair := by
        by_cases past : OBSERVE < conf.loop
        · have sampled : sampledFrom 1 conf (plain (term k)) = some (remember conf.replayMem
              ⟨conf.prevState,conf.prevAct,(plain (term k) : Call α).reward,curState,
                (plain (term k) : Call α).term⟩) := by
            simp only [sampledFrom,started,ended,Bool.false_eq_true,or_self,if_false,appended,chosen,
              past,if_true]
          obtain ⟨late,running,count⟩ := sampledCount ran sampled
          have here := enough k (Nat.lt_succ_self k) late running
          have room : ¬ (remember conf.replayMem ⟨conf.prevState,conf.prevAct,
              (plain (term k) : Call α).reward,curState,(plain (term k) : Call α).term⟩).length <
                BATCHSIZE := by
            rw [count]
            exact Nat.not_lt.mpr (Nat.le_min.mpr ⟨here,by decide⟩)
          exact ⟨_,by simp only [learn,past,if_true,sampleBatch,room,if_false,bind,Except.bind]; rfl⟩
        · exact ⟨_,by simp only [learn,past,if_false]; rfl⟩
      obtain ⟨pair,learned⟩ := learned
      exact ⟨_,_,by simp only [train,if_neg started,ended,Bool.false_eq_true,if_false,appended,chosen,
        learned,bind,Except.bind]; rfl⟩

/- Whatever else the calls answer, every sample finds enough transitions exactly when
each call past OBSERVE that may sample comes after enough calls that ended no episode. -/
theorem samplesEnoughIff (term : Nat → Bool) (k : Nat) :
    (∀ outNmemb (epsilon : α) calls, (∀ i, (calls i).term = term i) →
      SamplesEnough outNmemb epsilon calls k) ↔
    ∀ i < k, OBSERVE < i → term (i - 1) = false → BATCHSIZE ≤ inside term i := by
  constructor
  · intro all i
    induction i using Nat.strong_induction_on with
    | _ i ih =>
      intro below past running
      have runs : ∃ conf acts, runTrain 1 (0 : α) (fun i => plain (term i)) i = .ok (conf,acts) :=
        plainRuns 0 (fun j early past running => ih j early (Nat.lt_trans early below) past running)
      obtain ⟨conf,acts,ran⟩ := runs
      obtain ⟨mem,sampled⟩ := plainSampled ran past running
      obtain ⟨_,_,count⟩ := sampledCount ran sampled
      have found := all 1 (0 : α) (fun i => plain (term i)) (fun _ => rfl) i below conf acts mem ran sampled
      rw [count] at found
      exact (Nat.le_min.mp found).1
  · intro enough outNmemb epsilon calls same i below conf acts mem ran sampled
    obtain ⟨past,running,count⟩ := sampledCount ran sampled
    have terms : (fun i => (calls i).term) = term := funext same
    rw [terms] at count
    rw [same] at running
    rw [count]
    exact Nat.le_min.mpr ⟨enough i below past running,by decide⟩

end

/- The first 3001 calls end an episode each. -/
def endings (i : Nat) : Bool := decide (i ≤ 3000)

theorem endingsOne : inside endings 3002 = 1 := by
  have none_ : inside endings 3001 = 0 := by
    refine List.countP_eq_zero.mpr (fun i early => ?_)
    have early := List.mem_range.mp early
    simp only [endings,Bool.not_eq_true,Bool.not_eq_false',decide_eq_true_eq]
    omega
  rw [insideNext rfl,none_]

/- After them one transition is remembered when the first sample is taken. -/
theorem sampledOne : (∃ conf acts, runTrain 1 (0 : ℚ) (fun i => plain (endings i)) 3002 =
      .ok (conf,acts) ∧ train 1 conf (plain (endings 3002)) = .error .valueError) ∧
    ¬ ∀ outNmemb (epsilon : ℚ) calls k, SamplesEnough outNmemb epsilon calls k := by
  have enough : ∀ i < 3002, OBSERVE < i → endings (i - 1) = false → BATCHSIZE ≤ inside endings i := by
    intro i early past running
    have ended : endings (i - 1) = true := by
      simp only [endings,decide_eq_true_eq]
      omega
    rw [ended] at running
    cases running
  have runs : ∃ conf acts, runTrain 1 (0 : ℚ) (fun i => plain (endings i)) 3002 = .ok (conf,acts) :=
    plainRuns 0 enough
  obtain ⟨conf,acts,ran⟩ := runs
  obtain ⟨mem,sampled⟩ := plainSampled ran (by unfold OBSERVE; omega) rfl
  obtain ⟨_,_,count⟩ := sampledCount ran sampled
  have short : mem.length < BATCHSIZE := by
    rw [count]
    have one := endingsOne
    exact Nat.lt_of_le_of_lt (Nat.min_le_left _ _) (by
      change inside endings 3002 < BATCHSIZE
      rw [one]
      decide)
  refine ⟨⟨conf,acts,ran,sampledShort sampled short⟩,fun all => ?_⟩
  have found := all 1 0 (fun i => plain (endings i)) 3003 3002 (Nat.lt_succ_self 3002) conf acts mem
    ran sampled
  exact absurd short (Nat.not_lt.mpr found)

end Autonomizer.Minibatch
