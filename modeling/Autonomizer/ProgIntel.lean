import Mathlib
import Autonomizer.PyInterface

/-! PIContext in a production run: the calls a child of one training or validation
input makes, each with the file system operations it performs. -/
namespace Autonomizer.ProgIntel
open CPIO (Bytes)
open Data FileIO FileSystem Format PIInc Process

def contextOf (known : Option DataContext) (m : Memory) (tID : TypeID) (nmemb : Int)
    (doAlloc : Bool) : Except Stop (DataContext × Memory) :=
  match known with
  | some pDC => .ok (pDC,m)
  | none => DataContext.new m tID nmemb doAlloc

def load (ctx : PIContext) (name : Text) (tID : TypeID) (nmemb : Int) (data : Pointer)
    (doAlloc : Bool) : Except Stop PIContext := do
  let (pDC,m) ← contextOf (ctx.loadMap name) ctx.memory tID nmemb doAlloc
  let (pDC,m) ← pDC.setData m data
  return { ctx with loadMap := Function.update ctx.loadMap name (some pDC), memory := m }

/- The callback fills the context's block. -/
def loadCB (ctx : PIContext) (name : Text) (tID : TypeID) (nmemb : Int) (cb : Bytes) :
    Except Stop PIContext := do
  let (pDC,m) ← contextOf (ctx.loadMap name) ctx.memory tID nmemb true
  let m ← m.write pDC.data 0 cb
  return { ctx with loadMap := Function.update ctx.loadMap name (some pDC), memory := m }

/- The tokens strtok finds between underscores. -/
def tokens (name : Text) : List Text := (name.splitOn '_').filter (· ≠ [])

def combinedNmemb (ctx : PIContext) : List Text → Int → Except Stop Int
  | [],nmemb => .ok nmemb
  | part :: rest,nmemb =>
      match ctx.loadMap part with
      | none => .error (.assertion "Data should be loaded before combined")
      | some pDC =>
          if nmemb + pDC.nmemb < 2^31 then combinedNmemb ctx rest (nmemb + pDC.nmemb)
          else .error .undefined

/- The combined context, made on its first use; char buf[256] holds the name. -/
def combinedContext (ctx : PIContext) (name : Text) : Except Stop (DataContext × PIContext) :=
  match ctx.loadMap name with
  | some pDC => .ok (pDC,ctx)
  | none => do
    if 256 ≤ name.length then throw .undefined
    let nmemb ← combinedNmemb ctx (tokens name) 0
    let (pDC,m) ← DataContext.new ctx.memory .d nmemb true
    let pDC := { pDC with combinedLoad := tokens name }
    return (pDC,{ ctx with loadMap := Function.update ctx.loadMap name (some pDC), memory := m })

def combinable : TypeID → Bool
  | .c | .s | .i | .uc | .us | .ui | .f | .d => true
  | _ => false

def doubleBytes (x : Binary64.Fp) : Bytes :=
  (List.range 8).map (fun i => UInt8.ofNat (Binary64.encode64 x / 256^i))

/- Copy each part as doubles, one after another from pTrg on. -/
def combineParts (loadMap : Text → Option DataContext) (data : Pointer) :
    List Text → Nat → Memory → Except Stop Memory
  | [],_,m => .ok m
  | part :: rest,pTrg,m => do
      match loadMap part with
      | none => throw .null
      | some pLDC =>
        if combinable pLDC.tID then do
          let values ← pLDC.values m
          let m ← m.write data (8 * pTrg) (values.flatMap (fun v => doubleBytes v.toDouble))
          combineParts loadMap data rest (pTrg + pLDC.nmemb.toNat) m
        else throw (.assertion "Cannot combine this data type")

def combineLoad (ctx : PIContext) : List Text → Except Stop PIContext
  | [] => .ok ctx
  | name :: rest => do
      if '_' ∈ name then do
        let (pCDC,ctx) ← combinedContext ctx name
        if pCDC.combinedLoad.length ≤ 1 then
          throw (.assertion "Failed to combine multiple load data")
        let m ← combineParts ctx.loadMap pCDC.data pCDC.combinedLoad 0 ctx.memory
        combineLoad { ctx with memory := m } rest
      else combineLoad ctx rest

/- storeModelMap[name] = {{modelName,stg},loadNames} for each name. -/
def recordStores (ctx : PIContext) (modelName : Text) (stg : NNStg)
    (loadNames storeNames : List Text) : PIContext :=
  { ctx with storeModelMap := fun name =>
      if name ∈ storeNames then some ((modelName,stg),loadNames) else ctx.storeModelMap name }

def createDir (ctx : PIContext) (modelName : Text) (stg : NNStg) (loadNames : List Text) :
    Steps Unit :=
  match stg with
  | .one => prodCreateModelDir modelName
  | .ens => prodCreateModelDirs ctx modelName loadNames

def writeLoads (ctx : PIContext) (modelName : Text) (stg : NNStg) (loadNames : List Text)
    (dataDir : Text) (dataIdx : Nat) : Steps Unit :=
  match stg with
  | .one => prodWriteLoadData ctx modelName (loadNames.headD []) dataDir dataIdx
  | .ens => prodWriteLoadDatas ctx modelName loadNames dataDir dataIdx

/- Training data while itTrainArgs is not at its end, then validation data. -/
def dataPlace (ctx : PIContext) : Option (Text × Nat) :=
  if ctx.trainIt ≠ ctx.trainNum then some (piTrainDir,ctx.trainIt)
  else if ctx.validIt ≠ ctx.validNum then some (piValidDir,ctx.validIt)
  else none

/- nnInternal in a supervised production run. -/
def nn (ctx : PIContext) (modelName : Text) (stg : NNStg) (loadNames storeNames : List Text) :
    Steps PIContext := do
  require (loadNames ≠ []) "Neural network needs load data"
  require (storeNames ≠ []) "Neural network needs store data"
  let ctx ← lift (combineLoad ctx loadNames)
  createDir ctx modelName stg loadNames
  match dataPlace ctx with
  | some (dataDir,dataIdx) => writeLoads ctx modelName stg loadNames dataDir dataIdx
  | none => pure ()
  let ctx := recordStores ctx modelName stg loadNames storeNames
  if ctx.trainIt = 0 then PyInterface.prod ctx modelName loadNames storeNames
  pure ctx

def writeStores (ctx : PIContext) (modelName : Text) (stg : NNStg) (loadNames : List Text)
    (dataDir : Text) (dataIdx : Nat) (name : Text) : Steps Unit :=
  match stg with
  | .one => prodWriteStoreData ctx modelName dataDir dataIdx name
  | .ens => prodWriteStoreDatas ctx modelName loadNames dataDir dataIdx name

/- A store's context holds a copy of the data from here on. -/
def storeContext (ctx : PIContext) (name : Text) (tID : TypeID) (nmemb : Int) (data : Pointer) :
    Except Stop PIContext := do
  let (pDC,m) ← contextOf (ctx.storeMap name) ctx.memory tID nmemb true
  let (pDC,m) ← pDC.setData m data
  return { ctx with storeMap := Function.update ctx.storeMap name (some pDC), memory := m }

def store (ctx : PIContext) (name : Text) (tID : TypeID) (nmemb : Int) (data : Pointer) :
    Steps PIContext := do
  match ctx.storeModelMap name with
  | none => .stop (.assertion "Store data should exist in storeModelMap")
  | some ((modelName,stg),loadNames) => do
    let ctx ← lift (storeContext ctx name tID nmemb data)
    match dataPlace ctx with
    | some (dataDir,dataIdx) => writeStores ctx modelName stg loadNames dataDir dataIdx name
    | none => pure ()
    -- only the first child process
    if ctx.trainIt = 0 then prodWriteStoreInfo modelName name tID nmemb stg
    pure ctx

/- What a program does between its start and its end: calls, and writes to its own
memory in between. -/
inductive Call where
  | piLoad (name : Text) (tID : TypeID) (nmemb : Int) (data : Pointer) (doAlloc : Bool)
  | piLoadCB (name : Text) (tID : TypeID) (nmemb : Int) (cb : Bytes)
  | piNN (modelName : Text) (stg : NNStg) (loadNames storeNames : List Text)
  | piStore (name : Text) (tID : TypeID) (nmemb : Int) (data : Pointer)
  | poke (data : Pointer) (bytes : Bytes)

def poke (ctx : PIContext) (data : Pointer) (bytes : Bytes) : PIContext :=
  { ctx with memory := ⟨Function.update ctx.memory.blocks data (some bytes),
    max ctx.memory.fresh (data + 1)⟩ }

def call (ctx : PIContext) : Call → Steps PIContext
  | .piLoad name tID nmemb data doAlloc => lift (load ctx name tID nmemb data doAlloc)
  | .piLoadCB name tID nmemb cb => lift (loadCB ctx name tID nmemb cb)
  | .piNN modelName stg loadNames storeNames => nn ctx modelName stg loadNames storeNames
  | .piStore name tID nmemb data => store ctx name tID nmemb data
  | .poke data bytes => if data = 0 then .stop .undefined else pure (poke ctx data bytes)

def calls (ctx : PIContext) : List Call → Steps PIContext
  | [] => pure ctx
  | c :: rest => do
      let ctx ← call ctx c
      calls ctx rest

/- The context of child k of n training and v validation inputs, as fork copies it:
child k < n has training input k, and the others follow with the validation inputs. -/
def childContext (modPath : Text) (n v k : Nat) : PIContext where
  status := .sprod
  trainNum := n
  trainIt := min k n
  validNum := v
  validIt := k - n
  loadMap := fun _ => none
  storeMap := fun _ => none
  storeModelMap := fun _ => none
  memory := ⟨fun _ => none,1⟩
  modPath := modPath

/- A child process from fork to exit. -/
def child (ctx : PIContext) (script : List Call) : Steps Unit := do
  let _ ← calls ctx script
  pure ()

end Autonomizer.ProgIntel
