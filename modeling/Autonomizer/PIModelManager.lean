import Mathlib
import Autonomizer.FileIO

/-! PIModelManager.py: the model file it generates from an argument tuple, and the call
it makes on that file at run time. A Python exception is a stop of its own; the text
written to a file reaches it when the file is closed. -/
namespace Autonomizer.PIModelManager
open Data FileIO FileSystem Format PIInc Process

/- The objects that cross the interface. An array is a view of a data context. -/
inductive PyObject where
  | int (n : Int)
  | str (s : Text)
  | array (pDC : DataContext)
  deriving DecidableEq, Repr

inductive PyError where
  | indexError
  | typeError
  | ioError (path : Path)
  | osError (path : Path)
  | systemExit
  deriving DecidableEq, Repr

abbrev PySteps := Prog Op Reply PyError

def raises {α : Type} : Except PyError α → PySteps α
  | .ok a => pure a
  | .error e => .stop e

def arg (args : List PyObject) (i : Nat) : Except PyError PyObject :=
  match args[i]? with
  | some o => .ok o
  | none => .error .indexError

/- '%s' of an argument; no array is printed. -/
def argStr (args : List PyObject) (i : Nat) : Except PyError Text := do
  match ← arg args i with
  | .str s => .ok s
  | .int n => .ok (decimal n)
  | .array _ => .error .typeError

/- '%d' of an argument. -/
def argInt (args : List PyObject) (i : Nat) : Except PyError Int := do
  match ← arg args i with
  | .int n => .ok n
  | _ => .error .typeError

/- args[idx + i] for i in xrange(count). -/
def argNames (args : List PyObject) (idx count : Nat) : Except PyError (List Text) :=
  (List.range count).mapM (fun i => argStr args (idx + i))

/- ', %s' for each name. -/
def commaEach (names : List Text) : Text := names.flatMap (fun name => ", ".toList ++ name)

/- '%s' for each name, with ', ' before all but the first. -/
def commaBetween (names : List Text) : Text := (", ".toList).intercalate names

def modelDirText (modelName : Text) : Text := ".piDir/".toList ++ modelName ++ "/".toList

def importText (interfaceDir modelDir modelPath : Text) : Text :=
  "import tensorflow as tf\n".toList ++
  "import sys\n".toList ++
  "sys.path.insert(0, '".toList ++ interfaceDir ++ "')\n\n".toList ++
  "import PINNHelper as nn\n\n".toList ++
  "#Model dir\n".toList ++
  "modelDir = '".toList ++ modelDir ++ "'\n\n".toList ++
  "#Model path\n".toList ++
  "modelPath = '".toList ++ modelPath ++ "'\n\n".toList

def layersText : Text :=
  "  l1 = nn.addLayer(tfNN.defIn, tfNN.inNmemb, 10, activation_function=tf.sigmoid)\n".toList ++
  "  nnOut = nn.addLayer(l1, 10, tfNN.outNmemb, activation_function=tf.sigmoid)\n".toList ++
  "  tfNN.setNNOut(nnOut)\n".toList

def singleHead (interfaceDir modelName : Text) : Text :=
  let modelDir := modelDirText modelName
  importText interfaceDir modelDir (modelDir ++ modelName ++ ".py".toList) ++
  "#Data path\n".toList ++
  "trainPath = '.piDir/".toList ++ modelName ++ "/trainDir/'\n".toList ++
  "validPath = '.piDir/".toList ++ modelName ++ "/validDir/'\n".toList ++
  "tfNN = None\n\n".toList ++
  "def init(op):\n".toList ++
  "  global modelDir\n".toList ++
  "  global modelPath\n".toList ++
  "  global trainPath\n".toList ++
  "  global validPath\n\n".toList ++
  "  tf.reset_default_graph()\n".toList ++
  "  tfNN = nn.TFNNSuper(op, modelDir, modelPath, trainPath, validPath)\n".toList ++
  "  # Begin NN model with 1 hidden layer which contains 10 neurons\n".toList

def setWidths (inNmemb outNmemb : Int) : Text :=
  "  tfNN.setInNmemb(".toList ++ decimal inNmemb ++ ")\n".toList ++
  "  tfNN.setOutNmemb(".toList ++ decimal outNmemb ++ ")\n".toList

def singleTail (loadNames storeNames : List Text) (input : Text) : Text :=
  layersText ++
  "  # End NN model\n".toList ++
  "  return tfNN\n\n".toList ++
  "def run(op".toList ++ commaEach loadNames ++ commaEach storeNames ++ "):\n".toList ++
  "  global tfNN\n\n".toList ++
  "  if tfNN == None:\n".toList ++
  "    tfNN = init(op)\n\n".toList ++
  "  if op == 'train':\n".toList ++
  "    tfNN.train()\n".toList ++
  "  else:\n".toList ++
  "    result = tfNN.test([".toList ++ input ++ "])\n\n".toList ++
  "    return result\n\n".toList ++
  "if __name__ == \"__main__\":\n".toList ++
  "  run('train'".toList ++ loadNames.flatMap (fun _ => ", None".toList) ++
    storeNames.flatMap (fun _ => ", None".toList) ++ ")\n".toList

/- What genModelTemplate writes for a single model. -/
def singleTemplate (args : List PyObject) : Except PyError Text := do
  let interfaceDir ← argStr args 1
  let modelName ← argStr args 2
  let loadDataNum := (← argInt args 3).toNat
  let storeDataNum ← argInt args 4
  let inNmemb ← argInt args (5 + loadDataNum)
  let loadNames ← argNames args 5 loadDataNum
  let storeNames ← argNames args (5 + loadDataNum * 2) storeDataNum.toNat
  let input ← argStr args 5
  return singleHead interfaceDir modelName ++ setWidths inNmemb storeDataNum ++
    singleTail loadNames storeNames input

/- What genRModelTemplate writes up to its functions of the names. -/
def reinfHead (interfaceDir modelName : Text) (inNmemb outNmemb : Int) : Text :=
  let modelDir := modelDirText modelName
  importText interfaceDir modelDir (modelDir ++ modelName ++ ".py".toList) ++
  "tf.reset_default_graph()\n".toList ++
  "tfNN = None\n\n".toList ++
  "inNmemb = ".toList ++ decimal inNmemb ++ "\n".toList ++
  "outNmemb = ".toList ++ decimal outNmemb ++ "\n".toList ++
  "def init():\n".toList ++
  "  global modelDir\n".toList ++
  "  # Begin NN model architecture\n".toList ++
  "  tfNN = nn.TFNNReinf(modelDir)\n".toList ++
  setWidths inNmemb outNmemb ++
  layersText ++
  "  # End NN model architecture\n".toList ++
  "  tfNN.init()\n\n".toList ++
  "  return tfNN\n\n".toList

def reinfTail (loadNames storeNames : List Text) : Text :=
  "def train(".toList ++ commaBetween loadNames ++ commaEach storeNames ++ "):\n".toList ++
  "  global tfNN\n".toList ++
  "  return result\n\n".toList ++
  "def test(".toList ++ commaBetween loadNames ++ commaEach storeNames ++ "):\n".toList ++
  "  global tfNN\n".toList ++
  "  return result\n\n".toList ++
  "def run(op".toList ++ commaEach loadNames ++ commaEach storeNames ++ "):\n".toList ++
  "  global tfNN\n".toList ++
  "  if tfNN == None:\n".toList ++
  "    tfNN = init()\n\n".toList ++
  "  if op == 'train':\n".toList ++
  "    result = train(".toList ++ commaBetween loadNames ++ commaEach storeNames ++ ")\n".toList ++
  "  else:\n".toList ++
  "    result = test(".toList ++ commaBetween loadNames ++ commaEach storeNames ++ ")\n".toList ++
  "  return result\n\n".toList

/- What genRModelTemplate writes. -/
def reinfTemplate (args : List PyObject) : Except PyError Text := do
  let interfaceDir ← argStr args 1
  let modelName ← argStr args 2
  let loadDataNum := (← argInt args 3).toNat
  let storeDataNum ← argInt args 4
  let inNmemb ← argInt args (5 + loadDataNum)
  let loadNames ← argNames args 5 loadDataNum
  let storeNames ← argNames args (5 + loadDataNum * 2) storeDataNum.toNat
  return reinfHead interfaceDir modelName inNmemb storeDataNum ++ reinfTail loadNames storeNames

/- What genModelTemplate writes for one load of an ensemble. -/
def ensembleText (interfaceDir modelName loadName : Text) : Text :=
  let modelDir := ".piDir/".toList ++ modelName ++ "/".toList ++ loadName ++ "/".toList
  importText interfaceDir modelDir (modelDir ++ loadName ++ ".py".toList) ++
  "#Data path\n".toList ++
  "trainPath = '.piDir/".toList ++ modelName ++ "/".toList ++ loadName ++ "/trainDir/'\n".toList ++
  "validPath = '.piDir/".toList ++ modelName ++ "/".toList ++ loadName ++ "/validDir/'\n\n".toList ++
  "def modelInit(operation):\n".toList ++
  "  global modelDir\n".toList ++
  "  global modelPath\n".toList ++
  "  global trainPath\n".toList ++
  "  global validPath\n\n".toList ++
  "  tf.reset_default_graph()\n".toList ++
  "  tfNN = nn.TFNNSuper(modelDir, modelPath, trainPath, validPath, testPath, operation)\n".toList ++
  "  # Begin NN model with 1 hidden layer which contains 10 neurons\n".toList ++
  layersText ++
  "  # End NN model\n".toList ++
  "  return tfNN\n\n".toList ++
  "if __name__ == \"__main__\":\n".toList ++
  "  tfNN = modelInit('training')\n".toList ++
  "  tfNN.train()\n".toList

/- open(path,"w"), the writes and close. -/
def writeModel (path : Path) (text : Except PyError Text) : PySteps Unit := do
  match ← perform (.create path) with
  | .ok => do
    let text ← raises text
    let _ ← perform (.write path text)
    pure ()
  | _ => .stop (.ioError path)

/- os.mkdir. -/
def mkdir (path : Path) : PySteps Unit := do
  match ← perform (.mkdir path) with
  | .ok => pure ()
  | _ => .stop (.osError path)

/- os.makedirs of a directory of a model: its parent first, whose EEXIST is taken for
success, and the parent's parent is .piDir. -/
def makedirs (modelName loadName : Text) : PySteps Unit := do
  match ← perform (.opens [piDir,modelName]) with
  | .ok => pure ()
  | _ => do
    match ← perform (.opens [piDir]) with
    | .ok => pure ()
    | _ => match ← perform (.mkdir [piDir]) with
      | .ok | .eexist => pure ()
      | _ => .stop (.osError [piDir])
    match ← perform (.mkdir [piDir,modelName]) with
    | .ok | .eexist => pure ()
    | _ => .stop (.osError [piDir,modelName])
  mkdir [piDir,modelName,loadName]

def genEnsemble (interfaceDir modelName : Text) : List Text → PySteps Unit
  | [] => pure ()
  | loadName :: rest => do
      match ← perform (.opensDir [piDir,modelName,loadName]) with
      | .ok => pure ()
      | _ => makedirs modelName loadName
      let modelPath := [piDir,modelName,loadName,loadName ++ ".py".toList]
      match ← perform (.isfile modelPath) with
      | .ok => pure ()
      | _ => writeModel modelPath (.ok (ensembleText interfaceDir modelName loadName))
      genEnsemble interfaceDir modelName rest

def genModelTemplate (args : List PyObject) : PySteps Unit := do
  let interfaceDir ← raises (argStr args 1)
  let modelName ← raises (argStr args 2)
  let loadDataNum := (← raises (argInt args 3)).toNat
  match ← perform (.opens [piDir,modelName,oneStore modelName]) with
  | .ok => do
    let modelPath := [piDir,modelName,modelName ++ ".py".toList]
    match ← perform (.isfile modelPath) with
    | .ok => pure ()
    | _ => writeModel modelPath (singleTemplate args)
  | _ => do
    let loadNames ← raises (argNames args 5 loadDataNum)
    genEnsemble interfaceDir modelName loadNames

def genRModelTemplate (args : List PyObject) : PySteps Unit := do
  let modelName ← raises (argStr args 2)
  let modelPath := [piDir,modelName,modelName ++ ".py".toList]
  match ← perform (.isfile modelPath) with
  | .ok => pure ()
  | _ => writeModel modelPath (reinfTemplate args)

end Autonomizer.PIModelManager
