import Mathlib
import Autonomizer.PIModelManager

/-! runModel of PIModelManager.py: one module is kept loaded, and a call for another
model loads that model's file in its place. What the networks do, and what a call meets
outside the interpreter, is an input. -/
namespace Autonomizer.RunModel
open Format PIModelManager

inductive RunOp where
  | train
  | test
  deriving DecidableEq, Repr

inductive RunError where
  | py (e : PyError)
  | attributeError
  | typeError
  | systemExit
  deriving DecidableEq, Repr

/- A model file: the parameters of its run after op, and its init, train and test. -/
structure Code (ν β ρ : Type) where
  params : Nat
  init : RunOp → β → Except RunError ν
  train : List PyObject → β → ν → ν × Except RunError ρ
  test : List PyObject → β → ν → ν × Except RunError ρ

/- A loaded model file and its global tfNN. -/
structure Module (ν β ρ : Type) where
  code : Code ν β ρ
  tfNN : Option ν

/- loadedMod is kept as its name in sys.modules. -/
structure Interpreter (ν β ρ : Type) where
  modules : Text → Option (Module ν β ρ)
  loadedMod : Option Text
  loadedModDir : Text

structure Call (β : Type) where
  args : List PyObject
  outside : β

/- The module whose run was called, its tfNN before and after, and what was returned. -/
structure Outcome (ν ρ : Type) where
  module : Option Text
  seen : Option ν
  left : Option ν
  result : Except RunError ρ
  deriving DecidableEq

structure Request where
  op : Int
  modelName : Text
  inArgs : List PyObject
  deriving DecidableEq, Repr

def PI_TRAIN : Int := 4
def PI_TEST : Int := 5

/- What runModel takes from its arguments; a slice ends where the arguments end. -/
def request (args : List PyObject) : Except PyError Request := do
  let op ← argInt args 0
  let _ ← arg args 1
  let modelName ← argStr args 2
  let loadDataNum := (← argInt args 3).toNat
  let storeDataNum := (← argInt args 4).toNat
  let loadArgs := (args.drop (5 + loadDataNum)).take loadDataNum
  let storeArgs := args.drop (5 + loadDataNum * 2 + storeDataNum)
  return ⟨op,modelName,loadArgs ++ storeArgs⟩

def modelPathText (modelName : Text) : Text :=
  modelDirText modelName ++ modelName ++ ".py".toList

variable {ν β ρ : Type}

def Interpreter.fresh : Interpreter ν β ρ := ⟨fun _ => none,none,[]⟩

/- imp.load_source: the top level of the file sets tfNN = None. -/
def loadSource (s : Interpreter ν β ρ) (path : Text) (code : Code ν β ρ) : Interpreter ν β ρ :=
  { s with modules := Function.update s.modules path (some ⟨code,none⟩) }

/- The first half of runModel. -/
def loadModel (files : Text → Option (Code ν β ρ)) (s : Interpreter ν β ρ) (modelName : Text) :
    Interpreter ν β ρ :=
  let modelDir := modelDirText modelName
  if s.loadedMod = none ∨ s.loadedModDir ≠ modelDir then
    match files (modelPathText modelName) with
    | some code => { loadSource s (modelPathText modelName) code with
        loadedMod := some (modelPathText modelName)
        loadedModDir := modelDir }
    -- Ensemble
    | none => s
  else s

def Code.run (code : Code ν β ρ) (op : RunOp) (inArgs : List PyObject) (outside : β)
    (tfNN : Option ν) : Option ν × Except RunError ρ :=
  if inArgs.length ≠ code.params then (tfNN,.error .typeError)
  else
    let made : Except RunError ν := match tfNN with
      | some nn => .ok nn
      | none => code.init op outside
    match made with
    | .error e => (none,.error e)
    | .ok nn =>
        let (nn,result) := match op with
          | .train => code.train inArgs outside nn
          | .test => code.test inArgs outside nn
        (some nn,result)

def runOp (op : Int) : Option RunOp :=
  if op = PI_TRAIN then some .train else if op = PI_TEST then some .test else none

/- loadedMod.run(..). -/
def runLoaded (s : Interpreter ν β ρ) (r : Request) (outside : β) :
    Interpreter ν β ρ × Outcome ν ρ :=
  match runOp r.op with
  | none => (s,⟨none,none,none,.error .systemExit⟩)
  | some op =>
      match s.loadedMod.bind (fun path => (s.modules path).map (fun m => (path,m))) with
      | none => (s,⟨none,none,none,.error .attributeError⟩)
      | some (path,m) =>
          let (tfNN,result) := m.code.run op r.inArgs outside m.tfNN
          ({ s with modules := Function.update s.modules path (some { m with tfNN }) },
            ⟨some path,m.tfNN,tfNN,result⟩)

def runModel (files : Text → Option (Code ν β ρ)) (s : Interpreter ν β ρ) (c : Call β) :
    Interpreter ν β ρ × Outcome ν ρ :=
  match request c.args with
  | .error e => (s,⟨none,none,none,.error (.py e)⟩)
  | .ok r => runLoaded (loadModel files s r.modelName) r c.outside

def outcomes (files : Text → Option (Code ν β ρ)) : Interpreter ν β ρ → List (Call β) →
    List (Outcome ν ρ)
  | _,[] => []
  | s,c :: rest => (runModel files s c).2 :: outcomes files (runModel files s c).1 rest

def after (files : Text → Option (Code ν β ρ)) : Interpreter ν β ρ → List (Call β) →
    Interpreter ν β ρ
  | s,[] => s
  | s,c :: rest => after files (runModel files s c).1 rest

structure Serves (files : Text → Option (Code ν β ρ)) (c : Call β) (m : Text) (r : Request)
    (op : RunOp) (code : Code ν β ρ) : Prop where
  asked : request c.args = .ok r
  named : r.modelName = m
  does : runOp r.op = some op
  file : files (modelPathText m) = some code

def Names (c : Call β) (m : Text) : Prop := ∃ r, request c.args = .ok r ∧ r.modelName = m

def Supported (files : Text → Option (Code ν β ρ)) (c : Call β) : Prop :=
  ∃ m r op code, Serves files c m r op code

/- The slot: the model whose module is loaded, with its tfNN. -/
abbrev Slot (ν : Type) := Option (Text × Option ν)

def Slot.seenBy (slot : Slot ν) (m : Text) : Option ν :=
  match slot with
  | some (held,tfNN) => if held = m then tfNN else none
  | none => none

structure Loaded (files : Text → Option (Code ν β ρ)) (s : Interpreter ν β ρ) (m : Text)
    (tfNN : Option ν) : Prop where
  mod : s.loadedMod = some (modelPathText m)
  dir : s.loadedModDir = modelDirText m
  module : ∃ code, files (modelPathText m) = some code ∧
    s.modules (modelPathText m) = some ⟨code,tfNN⟩

def Holds (files : Text → Option (Code ν β ρ)) (s : Interpreter ν β ρ) : Slot ν → Prop
  | none => s.loadedMod = none
  | some (m,tfNN) => Loaded files s m tfNN

theorem betweenInj {first last m n : Text} (same : first ++ m ++ last = first ++ n ++ last) :
    m = n := by
  simpa using same

theorem modelDirInj {m n : Text} (same : modelDirText m = modelDirText n) : m = n :=
  betweenInj same

/- What the call's own module does when it meets a state. -/
def served (c : Call β) (m : Text) (r : Request) (op : RunOp) (code : Code ν β ρ)
    (seen : Option ν) : Outcome ν ρ :=
  let (left,result) := code.run op r.inArgs c.outside seen
  ⟨some (modelPathText m),seen,left,result⟩

theorem loadModelLoaded {files : Text → Option (Code ν β ρ)} {s : Interpreter ν β ρ} {slot : Slot ν}
    {m : Text} {code : Code ν β ρ} (holds : Holds files s slot)
    (file : files (modelPathText m) = some code) :
    Loaded files (loadModel files s m) m (slot.seenBy m) := by
  rcases slot with _ | ⟨held,tfNN⟩
  · have empty : s.loadedMod = none := holds
    simp only [loadModel,empty,true_or,if_true,file]
    exact ⟨rfl,rfl,code,file,by simp [loadSource,Slot.seenBy]⟩
  · have loaded : Loaded files s held tfNN := holds
    by_cases same : held = m
    · subst same
      have stays : loadModel files s held = s := by
        simp [loadModel,loaded.mod,loaded.dir]
      simpa [stays,Slot.seenBy] using loaded
    · have other : s.loadedModDir ≠ modelDirText m := by
        rw [loaded.dir]
        exact fun h => same (modelDirInj h)
      simp only [loadModel,ne_eq,other,not_false_eq_true,or_true,if_true,file]
      exact ⟨rfl,rfl,code,file,by simp [loadSource,Slot.seenBy,same]⟩

theorem runModelServes {files : Text → Option (Code ν β ρ)} {s : Interpreter ν β ρ} {slot : Slot ν}
    {c : Call β} {m : Text} {r : Request} {op : RunOp} {code : Code ν β ρ}
    (holds : Holds files s slot) (serves : Serves files c m r op code) :
    (runModel files s c).2 = served c m r op code (slot.seenBy m) ∧
      Holds files (runModel files s c).1
        (some (m,(served c m r op code (slot.seenBy m)).left)) := by
  have loaded := loadModelLoaded holds serves.file
  obtain ⟨held,file,module⟩ := loaded.module
  cases Option.some.inj (file.symm.trans serves.file)
  have ran : runModel files s c = runLoaded (loadModel files s m) r c.outside := by
    simp only [runModel,serves.asked,serves.named]
  rw [ran]
  simp only [runLoaded,serves.does,loaded.mod,Option.bind_some,module,Option.map_some]
  exact ⟨rfl,rfl,loaded.dir,code,file,by simp [served]⟩

theorem outcomesSameSeen {files : Text → Option (Code ν β ρ)} {s t : Interpreter ν β ρ}
    {slot other : Slot ν} (left : Holds files s slot) (right : Holds files t other)
    {calls : List (Call β)} (supported : ∀ c ∈ calls, Supported files c)
    (first : ∀ c m, calls.head? = some c → Names c m → slot.seenBy m = other.seenBy m) :
    outcomes files s calls = outcomes files t calls := by
  induction calls generalizing s t slot other with
  | nil => rfl
  | cons c rest ih =>
    obtain ⟨m,r,op,code,serves⟩ := supported c List.mem_cons_self
    obtain ⟨leftOut,leftHolds⟩ := runModelServes left serves
    obtain ⟨rightOut,rightHolds⟩ := runModelServes right serves
    have same := first c m rfl ⟨r,serves.asked,serves.named⟩
    rw [← same] at rightOut rightHolds
    have tail := ih leftHolds rightHolds (fun d member => supported d (List.mem_cons_of_mem _ member))
      (fun _ _ _ _ => rfl)
    rw [outcomes,outcomes,leftOut,rightOut,tail]

theorem outcomesAppend (files : Text → Option (Code ν β ρ)) (s : Interpreter ν β ρ)
    (first second : List (Call β)) : outcomes files s (first ++ second) =
      outcomes files s first ++ outcomes files (after files s first) second := by
  induction first generalizing s with
  | nil => rfl
  | cons c rest ih => rw [List.cons_append,outcomes,ih,outcomes,after,List.cons_append]

theorem outcomesLength (files : Text → Option (Code ν β ρ)) (s : Interpreter ν β ρ)
    (calls : List (Call β)) : (outcomes files s calls).length = calls.length := by
  induction calls generalizing s with
  | nil => rfl
  | cons c rest ih => rw [outcomes,List.length_cons,ih,List.length_cons]

theorem afterSnoc (files : Text → Option (Code ν β ρ)) (s : Interpreter ν β ρ)
    (calls : List (Call β)) (c : Call β) :
    after files s (calls ++ [c]) = (runModel files (after files s calls) c).1 := by
  induction calls generalizing s with
  | nil => rfl
  | cons d rest ih => rw [List.cons_append,after,ih,after]

/- The slot after a sequence of calls: the last model called, with the state it left. -/
def slotAfter (files : Text → Option (Code ν β ρ)) (calls : List (Call β)) : Slot ν → Prop
  | none => calls = []
  | some (m,tfNN) => ∃ c o, calls.getLast? = some c ∧ Names c m ∧
      (outcomes files .fresh calls).getLast? = some o ∧ o.left = tfNN

theorem afterHolds {files : Text → Option (Code ν β ρ)} {calls : List (Call β)}
    (supported : ∀ c ∈ calls, Supported files c) :
    ∃ slot, Holds files (after files .fresh calls) slot ∧ slotAfter files calls slot := by
  induction calls using List.reverseRecOn with
  | nil => exact ⟨none,rfl,rfl⟩
  | append_singleton calls c ih =>
    obtain ⟨slot,holds,_⟩ := ih (fun d member => supported d (List.mem_append_left _ member))
    obtain ⟨m,r,op,code,serves⟩ := supported c (by simp)
    obtain ⟨out,next⟩ := runModelServes holds serves
    refine ⟨some (m,_),by rw [afterSnoc]; exact next,c,_,by simp,⟨r,serves.asked,serves.named⟩,?_,rfl⟩
    rw [outcomesAppend,outcomes,outcomes,out]
    simp

/- The previous call, when it was for the same model, left the state this one sees. -/
def FollowsOn (calls : List (Call β)) (outs : List (Outcome ν ρ)) (m : Text) (seen : Option ν) : Prop :=
  (∀ c o, calls.getLast? = some c → outs.getLast? = some o → Names c m → seen = o.left) ∧
  ((∀ c, calls.getLast? = some c → ¬ Names c m) → seen = none)

theorem namesOne {c : Call β} {m n : Text} (first : Names c m) (second : Names c n) : m = n := by
  obtain ⟨r,asked,rfl⟩ := first
  obtain ⟨other,askedOther,rfl⟩ := second
  cases Except.ok.inj (asked.symm.trans askedOther)
  rfl

/- A call runs its own model's module, which goes on from the call before it when that
was for the same model and starts anew otherwise; so a series of calls for one model
behaves as it does in an interpreter of its own. -/
theorem seriesUndisturbed (files : Text → Option (Code ν β ρ)) (calls : List (Call β))
    (supported : ∀ c ∈ calls, Supported files c) :
    (∀ before c rest m, calls = before ++ c :: rest → Names c m →
      ∃ o, (outcomes files .fresh calls)[before.length]? = some o ∧
        o.module = some (modelPathText m) ∧
        FollowsOn before ((outcomes files .fresh calls).take before.length) m o.seen) ∧
    (∀ before series rest m, calls = before ++ (series ++ rest) → (∀ c ∈ series, Names c m) →
      (∀ c, before.getLast? = some c → ¬ Names c m) →
      ((outcomes files .fresh calls).drop before.length).take series.length =
        outcomes files .fresh series) := by
  constructor
  · rintro before c rest m rfl names
    obtain ⟨slot,holds,last⟩ :=
      afterHolds (fun d member => supported d (List.mem_append_left _ member))
    obtain ⟨n,r,op,code,serves⟩ := supported c (by simp)
    cases namesOne names ⟨r,serves.asked,serves.named⟩
    obtain ⟨out,_⟩ := runModelServes holds serves
    have outs : outcomes files .fresh (before ++ c :: rest) = outcomes files .fresh before ++
        served c m r op code (slot.seenBy m) ::
          outcomes files (runModel files (after files .fresh before) c).1 rest := by
      rw [outcomesAppend,outcomes,out]
    have length := outcomesLength files .fresh before
    refine ⟨served c m r op code (slot.seenBy m),?_,rfl,?_⟩
    · rw [outs,List.getElem?_append_right (by omega)]
      simp [length]
    rw [outs,List.take_append_of_le_length (by omega),List.take_of_length_le (by omega)]
    change FollowsOn before _ m (slot.seenBy m)
    rcases slot with _ | ⟨held,tfNN⟩
    · have empty : before = [] := last
      subst empty
      exact ⟨fun _ _ impossible => (by cases impossible),fun _ => rfl⟩
    · obtain ⟨d,o,atEnd,namesHeld,out,left⟩ := last
      constructor
      · intro e p lastCall lastOut namesSame
        cases Option.some.inj (atEnd.symm.trans lastCall)
        cases Option.some.inj (out.symm.trans lastOut)
        simp [Slot.seenBy,namesOne namesHeld namesSame,left]
      · intro others
        have different : held ≠ m := fun h => others d atEnd (h ▸ namesHeld)
        simp [Slot.seenBy,different]
  · rintro before series rest m rfl names others
    obtain ⟨slot,holds,last⟩ :=
      afterHolds (fun d member => supported d (List.mem_append_left _ member))
    have length := outcomesLength files .fresh before
    have series_ := outcomesLength files (after files .fresh before) series
    rw [outcomesAppend,outcomesAppend,List.drop_append_of_le_length (by omega),
      List.drop_of_length_le (by omega),List.nil_append,List.take_append_of_le_length (by omega),
      List.take_of_length_le (by omega)]
    have fresh : Holds files (.fresh : Interpreter ν β ρ) none := rfl
    refine outcomesSameSeen holds fresh (fun c member => supported c (by simp [member])) ?_
    intro c n head namesN
    cases namesOne namesN (names c (List.mem_of_mem_head? head))
    rcases slot with _ | ⟨held,tfNN⟩
    · rfl
    · obtain ⟨d,_,atEnd,namesHeld,_⟩ := last
      have different : held ≠ m := fun h => others d atEnd (h ▸ namesHeld)
      simp [Slot.seenBy,different]

/- The calls for m do what they would do if the calls for all others were removed. -/
def Undisturbed [DecidableEq ν] [DecidableEq ρ] (files : Text → Option (Code ν β ρ))
    (calls : List (Call β)) (m : Text) : Prop :=
  let ofModel (c : Call β) : Bool := match request c.args with
    | .ok r => r.modelName == m
    | .error _ => false
  ((calls.zip (outcomes files .fresh calls)).filter (fun p => ofModel p.1)).map Prod.snd =
    outcomes files .fresh (calls.filter ofModel)

def counter : Code Nat Unit Nat where
  params := 2
  init := fun _ _ => .ok 0
  train := fun _ _ n => (n + 1,.ok (n + 1))
  test := fun _ _ n => (n,.ok n)

def counterCall (m : String) : Call Unit :=
  ⟨[.int PI_TRAIN,.str "PyInterface/".toList,.str m.toList,.int 1,.int 1,.str "x".toList,
    .array ⟨.i,1,1,false,[]⟩,.str "y".toList,.array ⟨.i,1,2,false,[]⟩],()⟩

theorem counterSupported (m : String) : Supported (fun _ => some counter) (counterCall m) :=
  ⟨m.toList,⟨PI_TRAIN,m.toList,[.array ⟨.i,1,1,false,[]⟩,.array ⟨.i,1,2,false,[]⟩]⟩,.train,counter,
    rfl,rfl,rfl,rfl⟩

/- Two calls for a after one for b behave as in an interpreter of their own. -/
theorem seriesUndisturbedTwo :
    ((outcomes (fun _ => some counter) .fresh
      [counterCall "b",counterCall "a",counterCall "a"]).drop 1).take 2 =
      outcomes (fun _ => some counter) .fresh [counterCall "a",counterCall "a"] :=
  (seriesUndisturbed (fun _ => some counter) [counterCall "b",counterCall "a",counterCall "a"]
    (by simp [counterSupported])).2 [counterCall "b"] [counterCall "a",counterCall "a"] []
    "a".toList rfl
    (by
      intro c member
      have same : c = counterCall "a" := by simpa using member
      exact same ▸ ⟨_,rfl,rfl⟩)
    (by
      rintro c last ⟨r,asked,named⟩
      cases Option.some.inj last
      cases Except.ok.inj asked
      exact absurd named (by decide))

/- A call for b between two for a: the second finds no network. -/
theorem alternationForgets : ¬ Undisturbed (fun _ => some counter)
    [counterCall "a",counterCall "b",counterCall "a"] "a".toList := by
  unfold Undisturbed
  decide +kernel

end Autonomizer.RunModel
