import Mathlib
import Autonomizer.Data
import Autonomizer.FileSystem
import Autonomizer.Process

/-! FileIO: the production side writes below .piDir one operation at a time; the
runtime side reads the store information back. A model name names an entry of
.piDir. -/
namespace Autonomizer.FileIO
open Data FileSystem Format PIInc Process

abbrev Steps := Prog Op Reply Stop

def piDir : Text := ".piDir".toList
def piTrainDir : Text := "trainDir".toList
def piValidDir : Text := "validDir".toList

def oneStore (modelName : Text) : Text := modelName ++ ".ONE.store".toList
def ensStore (modelName : Text) : Text := modelName ++ ".ENS.store".toList

def lift {α : Type} : Except Stop α → Steps α
  | .ok a => pure a
  | .error e => .stop e

def require (cond : Bool) (what : String) : Steps Unit :=
  if cond then pure () else .stop (.assertion what)

/- mkdir that takes EEXIST for success. -/
def mkdirShared (message : String) (path : Path) : Steps Unit := do
  match ← perform (.mkdir path) with
  | .ok | .eexist => pure ()
  | _ => .stop (.failed message path)

/- fopen(path,"w") and fclose at once. -/
def touch (path : Path) : Steps Unit := do
  match ← perform (.create path) with
  | .ok => pure ()
  | _ => .stop .null

def prodInit : Steps Unit := do
  match ← perform (.opens [piDir]) with
  | .ok => pure ()
  | _ => match ← perform (.mkdir [piDir]) with
    | .ok => pure ()
    | _ => .stop (.failed "Error<FileIO::prodInit>: Cannot create directory" [piDir])

def cannotCreate : String := "Error<FileIO::prodCreateModelDir>: Cannot create directory"

def createLoadDirs (ctx : PIContext) (modelName : Text) : List Text → Steps Unit
  | [] => pure ()
  | loadName :: rest => do
      require (ctx.loadMap loadName).isSome "Data context should exist"
      mkdirShared cannotCreate [piDir,modelName,loadName]
      createLoadDirs ctx modelName rest

/- prodCreateModelDir for an ensemble. -/
def prodCreateModelDirs (ctx : PIContext) (modelName : Text) (loadNames : List Text) : Steps Unit := do
  match ← perform (.opensDir [piDir,modelName]) with
  | .ok => pure ()
  | _ =>
    mkdirShared cannotCreate [piDir,modelName]
    createLoadDirs ctx modelName loadNames
    touch [piDir,modelName,ensStore modelName]

/- prodCreateModelDir for a single model. -/
def prodCreateModelDir (modelName : Text) : Steps Unit := do
  match ← perform (.opensDir [piDir,modelName]) with
  | .ok => pure ()
  | _ =>
    mkdirShared cannotCreate [piDir,modelName]
    touch [piDir,modelName,oneStore modelName]

def line (key : String) (value : Text) : Text := key.toList ++ value ++ ['\n']

def valueLines (values : List Scalar) : Text := values.flatMap (fun v => v.print ++ ['\n'])

/- The switch of writeLoadData. -/
def loadValues (pDC : DataContext) (m : Memory) : Except Stop (List Scalar) :=
  match getTypeSize pDC.tID with
  | .error _ => .error (.assertion "Unknown load data type")
  | .ok _ => pDC.values m

/- The switch of writeStoreData: three of its branches print element 0 twice. -/
def storeValues (pDC : DataContext) (m : Memory) : Except Stop (List Scalar) :=
  match pDC.tID with
  | .c | .s | .i | .l | .us | .ul | .d => pDC.values m
  | .uc | .ui | .f => do
      let first ← pDC.first m
      let values ← pDC.values m
      return first :: values
  | _ => .error (.assertion "Unknown store data type")

def loadText (dataName : Text) (nmemb : Int) (values : List Scalar) : Text :=
  line "NN-LOAD-DATA-NAME:" dataName ++ line "NN-LOAD-DATA-NMEMB:" (decimal nmemb) ++
    valueLines values

def storeText (dataName : Text) (nmemb : Int) (values : List Scalar) : Text :=
  line "NN-STORE-DATA-NAME:" dataName ++ line "NN-STORE-DATA-NMEMB:" (decimal nmemb) ++
    valueLines values

def writeLoadData (pDC : Option DataContext) (m : Memory) (dataName : Text) (pathName : Path) :
    Steps Unit := do
  match ← perform (.create pathName) with
  | .ok => match pDC with
    | none => .stop (.assertion "DataContext should exist")
    | some pDC => do
      require (pDC.data ≠ 0) "DataContext should contain data to write"
      let values ← lift (loadValues pDC m)
      let _ ← perform (.write pathName (loadText dataName pDC.nmemb values))
      pure ()
  | _ => .stop (.failed "Error: Cannot open file for writing load info:" pathName)

def writeStoreData (pDC : Option DataContext) (m : Memory) (dataName : Text) (pathName : Path) :
    Steps Unit := do
  match pDC with
  | none => .stop (.assertion "DataContext should exist")
  | some pDC => do
    let values ← lift (storeValues pDC m)
    match ← perform (.append pathName (storeText dataName pDC.nmemb values)) with
    | .ok => pure ()
    | _ => .stop (.failed "Error: Cannot open file for writing store info:" pathName)

def knownDataDir (dataDir : Text) : Steps Unit :=
  require (dataDir = piTrainDir ∨ dataDir = piValidDir)
    "dataDir == piTrainDir || dataDir == piValidDir"

/- The data directory and one load's file in it, for either kind of model. -/
def writeLoadFile (ctx : PIContext) (dir : Path) (loadName : Text) (dataIdx : Nat) : Steps Unit := do
  match ← perform (.opensDir dir) with
  | .ok => pure ()
  | _ => mkdirShared "Error<FileIO::prodWriteDataToFile>: Cannot create directory" dir
  writeLoadData (ctx.loadMap loadName) ctx.memory loadName (dir ++ [decimal dataIdx])

def writeLoadFiles (ctx : PIContext) (modelName dataDir : Text) (dataIdx : Nat) :
    List Text → Steps Unit
  | [] => pure ()
  | loadName :: rest => do
      writeLoadFile ctx [piDir,modelName,loadName,dataDir] loadName dataIdx
      writeLoadFiles ctx modelName dataDir dataIdx rest

/- prodWriteLoadData for an ensemble. -/
def prodWriteLoadDatas (ctx : PIContext) (modelName : Text) (loadNames : List Text)
    (dataDir : Text) (dataIdx : Nat) : Steps Unit := do
  knownDataDir dataDir
  writeLoadFiles ctx modelName dataDir dataIdx loadNames

/- prodWriteLoadData for a single model. -/
def prodWriteLoadData (ctx : PIContext) (modelName loadName dataDir : Text) (dataIdx : Nat) :
    Steps Unit := do
  knownDataDir dataDir
  writeLoadFile ctx [piDir,modelName,dataDir] loadName dataIdx

def writeStoreFile (ctx : PIContext) (dir : Path) (dataIdx : Nat) (storeName : Text) :
    Steps Unit := do
  match ← perform (.opensDir dir) with
  | .ok => pure ()
  | _ => .stop (.failed "Error: Cannot open file for writing target store data:" dir)
  writeStoreData (ctx.storeMap storeName) ctx.memory storeName (dir ++ [decimal dataIdx])

def writeStoreFiles (ctx : PIContext) (modelName dataDir : Text) (dataIdx : Nat)
    (storeName : Text) : List Text → Steps Unit
  | [] => pure ()
  | loadName :: rest => do
      writeStoreFile ctx [piDir,modelName,loadName,dataDir] dataIdx storeName
      writeStoreFiles ctx modelName dataDir dataIdx storeName rest

/- prodWriteStoreData for an ensemble. -/
def prodWriteStoreDatas (ctx : PIContext) (modelName : Text) (loadNames : List Text)
    (dataDir : Text) (dataIdx : Nat) (storeName : Text) : Steps Unit := do
  knownDataDir dataDir
  writeStoreFiles ctx modelName dataDir dataIdx storeName loadNames

/- prodWriteStoreData for a single model. -/
def prodWriteStoreData (ctx : PIContext) (modelName dataDir : Text) (dataIdx : Nat)
    (storeName : Text) : Steps Unit := do
  knownDataDir dataDir
  writeStoreFile ctx [piDir,modelName,dataDir] dataIdx storeName

def storePath (modelName : Text) : NNStg → Path
  | .one => [piDir,modelName,oneStore modelName]
  | .ens => [piDir,modelName,ensStore modelName]

def storeRecord (storeName : Text) (tID : TypeID) (nmemb : Int) : Text :=
  line "NN-STORE-DATA-NAME:" storeName ++ line "NN-STORE-DATA-TYPE:" (decimal tID.code) ++
    line "NN-STORE-DATA-NMEMB:" (decimal nmemb)

def prodWriteStoreInfo (modelName storeName : Text) (tID : TypeID) (nmemb : Int) (stg : NNStg) :
    Steps Unit := do
  let stPath := storePath modelName stg
  match ← perform (.opensDir [piDir,modelName]) with
  | .ok => pure ()
  | _ => .stop (.assertion "ifstream(dir)")
  match ← perform (.opens stPath) with
  | .ok => match ← perform (.append stPath (storeRecord storeName tID nmemb)) with
    | .ok => pure ()
    | _ => .stop .null
  | _ => do
    touch stPath
    let _ ← perform (.write stPath (storeRecord storeName tID nmemb))
    pure ()

end Autonomizer.FileIO
