import Mathlib
import Autonomizer.ProgIntel

/-! The two overloads of PIContext::nn and piNN: the names that follow loadNum and
storeNum are read one after another, and there is no argument after the last one. -/
namespace Autonomizer.NNArgs
open Data FileIO FileSystem Format PIInc Process ProgIntel

/- string(va_arg(vl,char * )). -/
def vaArg : List Text → Except Stop (Text × List Text)
  | [] => .error .undefined
  | s :: vl => .ok (s,vl)

/- for (int i=0; i<n; i++) with a push_back of the next argument. -/
def readNames : Nat → List Text → Except Stop (List Text × List Text)
  | 0,vl => .ok ([],vl)
  | n + 1,vl => do
      let (s,vl) ← vaArg vl
      let (names,vl) ← readNames n vl
      return (s :: names,vl)

/- What nn passes to nnInternal. -/
structure Internal where
  modelName : Text
  stg : NNStg
  loadNames : List Text
  storeNames : List Text
  deriving DecidableEq

def Idle (status : Status) : Prop :=
  status ≠ .sprod ∧ status ≠ .rprod ∧ status ≠ .train ∧ status ≠ .test

instance (status : Status) : Decidable (Idle status) := by unfold Idle; infer_instance

section
variable (status : Status) (modelName : Text) (stg : NNStg) (loadNum storeNum : Int)
  (args : List Text)

/- PIContext::nn with its own va_list. -/
def nnVariadic : Except Stop (Option Internal) := do
  if Idle status then return none
  let (loadNames,vl) ← readNames loadNum.toNat args
  -- this loop runs to loadNum as well
  let (storeNames,_) ← readNames loadNum.toNat vl
  return some ⟨modelName,stg,loadNames,storeNames⟩

/- PIContext::nn with its caller's va_list. -/
def nnVaList : Except Stop (Option Internal) := do
  if Idle status then return none
  let (loadNames,vl) ← readNames loadNum.toNat args
  let (storeNames,_) ← readNames storeNum.toNat vl
  return some ⟨modelName,stg,loadNames,storeNames⟩

def piNN : Except Stop (Option Internal) :=
  nnVaList status modelName stg loadNum storeNum args

/- The first loadNum names and the others, unless nn returns at once. -/
def passed : Option Internal :=
  if Idle status then none
  else some ⟨modelName,stg,args.take loadNum.toNat,args.drop loadNum.toNat⟩

structure Agree : Prop where
  variadic : nnVariadic status modelName stg loadNum args = .ok (passed status modelName stg loadNum args)
  vaList : nnVaList status modelName stg loadNum storeNum args =
    .ok (passed status modelName stg loadNum args)

end

theorem readNamesFits {n : Nat} {vl : List Text} (fits : n ≤ vl.length) :
    readNames n vl = .ok (vl.take n,vl.drop n) := by
  induction n generalizing vl with
  | zero => rfl
  | succ n ih =>
    cases vl with
    | nil => exact absurd fits (Nat.not_succ_le_zero n)
    | cons s vl =>
      simp only [readNames,vaArg,bind,Except.bind,ih (Nat.le_of_succ_le_succ fits)]
      rfl

theorem readNamesShort {n : Nat} {vl : List Text} (short : vl.length < n) :
    readNames n vl = .error .undefined := by
  induction n generalizing vl with
  | zero => exact absurd short (Nat.not_lt_zero _)
  | succ n ih =>
    cases vl with
    | nil => rfl
    | cons s vl =>
      simp only [readNames,vaArg,bind,Except.bind,ih (Nat.lt_of_succ_lt_succ short)]

section
variable {status : Status} {modelName : Text} {stg : NNStg} {loadNum storeNum : Int}
  {args : List Text}

theorem vaListPasses (loads : 0 ≤ loadNum) (stores : 0 ≤ storeNum)
    (count : (args.length : Int) = loadNum + storeNum) :
    nnVaList status modelName stg loadNum storeNum args =
      .ok (passed status modelName stg loadNum args) := by
  unfold nnVaList passed
  split
  · rfl
  · have first : loadNum.toNat ≤ args.length := by omega
    have rest : (args.drop loadNum.toNat).length = storeNum.toNat := by
      rw [List.length_drop]
      omega
    simp only [readNamesFits first,readNamesFits rest.ge,bind,Except.bind]
    rw [List.take_of_length_le rest.le]
    rfl

theorem variadicReads (working : ¬ Idle status) (loads : 0 ≤ loadNum) (stores : 0 ≤ storeNum)
    (count : (args.length : Int) = loadNum + storeNum) :
    nnVariadic status modelName stg loadNum args =
      if storeNum < loadNum then .error .undefined
      else .ok (some ⟨modelName,stg,args.take loadNum.toNat,
        (args.drop loadNum.toNat).take loadNum.toNat⟩) := by
  have first : loadNum.toNat ≤ args.length := by omega
  have length : (args.drop loadNum.toNat).length = storeNum.toNat := by
    rw [List.length_drop]
    omega
  unfold nnVariadic
  rw [if_neg working]
  simp only [readNamesFits first,bind,Except.bind]
  by_cases fewer : storeNum < loadNum
  · have short : (args.drop loadNum.toNat).length < loadNum.toNat := by omega
    rw [readNamesShort short,if_pos fewer]
  · have fits : loadNum.toNat ≤ (args.drop loadNum.toNat).length := by omega
    rw [readNamesFits fits,if_neg fewer]
    rfl

/- For every model name, strategy, counts and names: the overloads agree exactly when
there are as many stores as loads, or nn returns at once. -/
theorem overloadsAgreeIff (loads : 1 ≤ loadNum) (stores : 1 ≤ storeNum)
    (count : (args.length : Int) = loadNum + storeNum) :
    Agree status modelName stg loadNum storeNum args ↔ loadNum = storeNum ∨ Idle status := by
  have positive : 0 ≤ loadNum ∧ 0 ≤ storeNum := by omega
  have vaList : nnVaList status modelName stg loadNum storeNum args =
      .ok (passed status modelName stg loadNum args) := vaListPasses positive.1 positive.2 count
  by_cases idle : Idle status
  · refine ⟨fun _ => .inr idle,fun _ => ⟨?_,vaList⟩⟩
    rw [nnVariadic,passed,if_pos idle,if_pos idle]
    rfl
  · have reads := @variadicReads status modelName stg loadNum storeNum args idle positive.1 positive.2
      count
    have length : (args.drop loadNum.toNat).length = storeNum.toNat := by
      rw [List.length_drop]
      omega
    constructor
    · intro agree
      left
      have same := reads.symm.trans agree.variadic
      rw [passed,if_neg idle] at same
      split at same
      · cases same
      · next enough =>
        have names := congrArg Internal.storeNames (Option.some.inj (Except.ok.inj same))
        have stored : ((args.drop loadNum.toNat).take loadNum.toNat).length =
            (args.drop loadNum.toNat).length := congrArg List.length names
        rw [List.length_take] at stored
        omega
    · rintro (same | none_)
      · refine ⟨?_,vaList⟩
        have whole : (args.drop loadNum.toNat).take loadNum.toNat = args.drop loadNum.toNat :=
          List.take_of_length_le (by omega)
        rw [reads,if_neg (by omega),whole,passed,if_neg idle]
      · exact absurd none_ idle

/- piNN with nnInternal of a supervised production run. -/
def runNN (ctx : PIContext) (modelName : Text) (stg : NNStg) (loadNum storeNum : Int)
    (args : List Text) : Steps PIContext := do
  match ← lift (piNN ctx.status modelName stg loadNum storeNum args) with
  | some c => nn ctx c.modelName c.stg c.loadNames c.storeNames
  | none => pure ctx

theorem runNNCall {ctx : PIContext} (status : ctx.status = .sprod) (modelName : Text) (stg : NNStg)
    (loadNames storeNames : List Text) :
    runNN ctx modelName stg loadNames.length storeNames.length (loadNames ++ storeNames) =
      call ctx (.piNN modelName stg loadNames storeNames) := by
  have working : ¬ Idle ctx.status := fun idle => idle.1 status
  have count : ((loadNames ++ storeNames).length : Int) = loadNames.length + storeNames.length := by
    rw [List.length_append,Nat.cast_add]
  have names := @vaListPasses ctx.status modelName stg _ _ _ (Int.natCast_nonneg loadNames.length)
    (Int.natCast_nonneg storeNames.length) count
  rw [passed,if_neg working,Int.toNat_natCast,List.take_left,List.drop_left] at names
  rw [runNN,piNN,names]
  rfl

end

/- One load and one store. -/
theorem oneOfEach : Agree .sprod ['m'] .one 1 1 [['x'],['y']] :=
  (overloadsAgreeIff (by decide) (by decide) rfl).mpr (.inl rfl)

/- With two loads and one store a fourth name is read. -/
theorem twoLoadsOneStore : ¬ ∀ (status : Status) (modelName : Text) (stg : NNStg)
    (loadNum storeNum : Int) (args : List Text), 1 ≤ loadNum → 1 ≤ storeNum →
      (args.length : Int) = loadNum + storeNum →
      Agree status modelName stg loadNum storeNum args := by
  intro all
  have agree := all .sprod ['m'] .one 2 1 [['x'],['y'],['z']] (by decide) (by decide) rfl
  have reads : nnVariadic .sprod ['m'] .one 2 [['x'],['y'],['z']] = .error .undefined := rfl
  cases reads.symm.trans agree.variadic

end Autonomizer.NNArgs
