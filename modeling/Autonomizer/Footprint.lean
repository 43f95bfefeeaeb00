import Mathlib
import Autonomizer.ProgIntel

/-! The paths each part of a production run touches. -/
namespace Autonomizer.Footprint
open Data FileIO FileSystem Format PIInc PIModelManager Process ProgIntel PyInterface

theorem onlyLift {α : Type} {good : Op → Prop} (x : Except Stop α) : Only good (lift x) := by
  cases x <;> trivial

theorem onlyRaises {α : Type} {good : Op → Prop} (x : Except PyError α) : Only good (raises x) := by
  cases x <;> trivial

theorem onlyAssert {good : Op → Prop} (cond : Bool) (what : String) :
    Only good (require cond what) := by
  unfold require
  split <;> trivial

section
variable {good : Op → Prop}

theorem onlyTested {ε α : Type} {op : Op} {f : Reply → Prog Op Reply ε α} (called : good op)
    (ok : Only good (f .ok)) (other : Only good (f .enoent))
    (same : f .eexist = f .enoent ∧ f .enotdir = f .enoent ∧ f .eisdir = f .enoent) :
    Only good (perform op >>= f) := by
  refine onlyBind ((onlyPerform _).mpr called) (fun r => ?_)
  cases r with
  | ok => exact ok
  | eexist => rw [same.1]; exact other
  | enoent => exact other
  | enotdir => rw [same.2.1]; exact other
  | eisdir => rw [same.2.2]; exact other

theorem onlyShared {ε α : Type} {op : Op} {f : Reply → Prog Op Reply ε α} (called : good op)
    (ok : Only good (f .ok)) (eexist : Only good (f .eexist)) (other : Only good (f .enoent))
    (same : f .enotdir = f .enoent ∧ f .eisdir = f .enoent) : Only good (perform op >>= f) := by
  refine onlyBind ((onlyPerform _).mpr called) (fun r => ?_)
  cases r with
  | ok => exact ok
  | eexist => exact eexist
  | enoent => exact other
  | enotdir => rw [same.1]; exact other
  | eisdir => rw [same.2]; exact other

theorem onlyMkdirShared {path : Path} (message : String) (ok : good (.mkdir path)) :
    Only good (mkdirShared message path) := onlyShared ok trivial trivial trivial ⟨rfl,rfl⟩

theorem onlyTouch {path : Path} (ok : good (.create path)) : Only good (touch path) :=
  onlyTested ok trivial trivial ⟨rfl,rfl,rfl⟩

theorem onlyCreateModelDir {m : Text} (test : good (.opensDir [piDir,m]))
    (dir : good (.mkdir [piDir,m])) (store : good (.create (storePath m .one))) :
    Only good (prodCreateModelDir m) := by
  have make := onlyBind (onlyMkdirShared cannotCreate dir) (fun _ => onlyTouch store)
  exact onlyTested test trivial make ⟨rfl,rfl,rfl⟩

theorem onlyWriteLoadData {path : Path} {pDC : Option DataContext} {m : Memory} {dataName : Text}
    (file : good (.create path)) (put : ∀ text, good (.write path text)) :
    Only good (writeLoadData pDC m dataName path) := by
  refine onlyTested file ?_ trivial ⟨rfl,rfl,rfl⟩
  cases pDC with
  | none => trivial
  | some pDC =>
    refine onlyBind (onlyAssert _ _) (fun _ => onlyBind (onlyLift _) (fun values => ?_))
    exact onlyBind ((onlyPerform _).mpr (put _)) (fun _ => trivial)

theorem onlyWriteLoadFile {ctx : PIContext} {dir : Path} {loadName : Text} {dataIdx : Nat}
    (test : good (.opensDir dir)) (mk : good (.mkdir dir))
    (file : good (.create (dir ++ [decimal dataIdx])))
    (put : ∀ text, good (.write (dir ++ [decimal dataIdx]) text)) :
    Only good (writeLoadFile ctx dir loadName dataIdx) := by
  refine onlyTested test (onlyWriteLoadData file put) ?_ ⟨rfl,rfl,rfl⟩
  exact onlyBind (onlyMkdirShared _ mk) (fun _ => onlyWriteLoadData file put)

theorem onlyWriteStoreData {path : Path} {pDC : Option DataContext} {m : Memory} {dataName : Text}
    (put : ∀ text, good (.append path text)) : Only good (writeStoreData pDC m dataName path) := by
  cases pDC with
  | none => trivial
  | some pDC =>
    refine onlyBind (onlyLift _) (fun values => ?_)
    exact onlyTested (put _) trivial trivial ⟨rfl,rfl,rfl⟩

theorem onlyWriteStoreFile {ctx : PIContext} {dir : Path} {storeName : Text} {dataIdx : Nat}
    (test : good (.opensDir dir)) (put : ∀ text, good (.append (dir ++ [decimal dataIdx]) text)) :
    Only good (writeStoreFile ctx dir dataIdx storeName) :=
  onlyTested test (onlyWriteStoreData put) trivial ⟨rfl,rfl,rfl⟩

theorem onlyStoreInfo {m name : Text} {tID : TypeID} {nmemb : Int} {stg : NNStg}
    (tests : good (.opensDir [piDir,m]) ∧ good (.opens (storePath m stg)))
    (file : good (.create (storePath m stg)))
    (added : good (.append (storePath m stg) (storeRecord name tID nmemb)))
    (put : good (.write (storePath m stg) (storeRecord name tID nmemb))) :
    Only good (prodWriteStoreInfo m name tID nmemb stg) := by
  have new : Only good (do
      touch (storePath m stg)
      let _ ← perform (.write (storePath m stg) (storeRecord name tID nmemb))
      pure ()) :=
    onlyBind (onlyTouch file) (fun _ => onlyBind ((onlyPerform _).mpr put) (fun _ => trivial))
  refine onlyTested tests.1 ?_ trivial ⟨rfl,rfl,rfl⟩
  refine onlyTested tests.2 ?_ new ⟨rfl,rfl,rfl⟩
  exact onlyTested added trivial trivial ⟨rfl,rfl,rfl⟩

theorem onlyWriteModel {path : Path} {text : Except PyError Text} (file : good (.create path))
    (put : ∀ text, good (.write path text)) : Only good (writeModel path text) := by
  refine onlyTested file ?_ trivial ⟨rfl,rfl,rfl⟩
  exact onlyBind (onlyRaises _) (fun _ => onlyBind ((onlyPerform _).mpr (put _)) (fun _ => trivial))

end

def templatePath (m : Text) : Path := [piDir,m,m ++ ".py".toList]

def loadTemplatePath (m l : Text) : Path := [piDir,m,l,l ++ ".py".toList]

/- What the Python side may touch for the loads of an ensemble. -/
def ensembleFoot (m : Text) : Footprint where
  mkdir path := path = [piDir] ∨ path = [piDir,m] ∨ ∃ l, path = [piDir,m,l]
  create path := ∃ l, path = loadTemplatePath m l
  put path := ∃ l, path = loadTemplatePath m l

/- What the Python side may touch for a model. -/
def pyFoot (m : Text) : Footprint where
  mkdir path := path = [piDir] ∨ path = [piDir,m] ∨ ∃ l, path = [piDir,m,l]
  create path := path = templatePath m ∨ ∃ l, path = loadTemplatePath m l
  put path := path = templatePath m ∨ ∃ l, path = loadTemplatePath m l

theorem ensembleAllowed {m : Text} {op : Op} (allowed : (ensembleFoot m).allows op) :
    (pyFoot m).allows op := by
  cases op with
  | mkdir path => exact allowed
  | create path => exact .inr allowed
  | write path text => exact .inr allowed
  | append path text => exact .inr allowed
  | _ => trivial

section
variable {good : Op → Prop} {m : Text}

theorem onlyMakedirs {l : Text} (tests : good (.opens [piDir,m]) ∧ good (.opens [piDir]))
    (top : good (.mkdir [piDir])) (model : good (.mkdir [piDir,m]))
    (leaf : good (.mkdir [piDir,m,l])) : Only good (makedirs m l) := by
  have last : Only good (mkdir [piDir,m,l]) :=
    onlyTested leaf trivial trivial ⟨rfl,rfl,rfl⟩
  refine onlyTested tests.1 last ?_ ⟨rfl,rfl,rfl⟩
  refine onlyTested tests.2 ?_ ?_ ⟨rfl,rfl,rfl⟩
  · exact onlyShared model last last trivial ⟨rfl,rfl⟩
  · refine onlyShared top ?_ ?_ trivial ⟨rfl,rfl⟩
    · exact onlyShared model last last trivial ⟨rfl,rfl⟩
    · exact onlyShared model last last trivial ⟨rfl,rfl⟩

theorem onlyGenEnsemble {interfaceDir : Text} {loads : List Text}
    (tests : good (.opens [piDir,m]) ∧ good (.opens [piDir]))
    (dirs : ∀ l ∈ loads, good (.opensDir [piDir,m,l]))
    (files : ∀ l ∈ loads, good (.isfile (loadTemplatePath m l))) (top : good (.mkdir [piDir]))
    (model : good (.mkdir [piDir,m])) (leaf : ∀ l ∈ loads, good (.mkdir [piDir,m,l]))
    (create : ∀ l ∈ loads, good (.create (loadTemplatePath m l)))
    (put : ∀ l ∈ loads, ∀ text, good (.write (loadTemplatePath m l) text)) :
    Only good (genEnsemble interfaceDir m loads) := by
  induction loads with
  | nil => trivial
  | cons l rest ih =>
    have here := (List.mem_cons_self : l ∈ l :: rest)
    have more := ih (fun l inside => dirs l (List.mem_cons_of_mem _ inside))
      (fun l inside => files l (List.mem_cons_of_mem _ inside))
      (fun l inside => leaf l (List.mem_cons_of_mem _ inside))
      (fun l inside => create l (List.mem_cons_of_mem _ inside))
      (fun l inside => put l (List.mem_cons_of_mem _ inside))
    have write : Only good
        (writeModel (loadTemplatePath m l) (.ok (ensembleText interfaceDir m l))) :=
      onlyWriteModel (create l here) (put l here)
    refine onlyTested (dirs l here) ?_ ?_ ⟨rfl,rfl,rfl⟩
    · exact onlyTested (files l here) more (onlyBind write (fun _ => more)) ⟨rfl,rfl,rfl⟩
    · refine onlyBind (onlyMakedirs tests top model (leaf l here)) (fun _ => ?_)
      exact onlyTested (files l here) more (onlyBind write (fun _ => more)) ⟨rfl,rfl,rfl⟩

end

theorem ensembleOnly (interfaceDir m : Text) (loads : List Text) :
    Only (ensembleFoot m).allows (genEnsemble interfaceDir m loads) :=
  onlyGenEnsemble ⟨trivial,trivial⟩ (fun _ _ => trivial) (fun _ _ => trivial) (.inl rfl)
    (.inr (.inl rfl)) (fun l _ => .inr (.inr ⟨l,rfl⟩)) (fun l _ => ⟨l,rfl⟩) (fun l _ _ => ⟨l,rfl⟩)

section
variable {good : Op → Prop} {m : Text}

theorem onlyGenModelTemplate {args : List PyObject} (model : argStr args 2 = .ok m)
    (tests : good (.opens (storePath m .one)) ∧ good (.isfile (templatePath m)))
    (file : ∀ text, Only good (writeModel (templatePath m) text))
    (ensemble : ∀ interfaceDir loads, Only good (genEnsemble interfaceDir m loads)) :
    Only good (genModelTemplate args) := by
  refine onlyBind (onlyRaises _) (fun interfaceDir => ?_)
  rw [model]
  change Only _ (raises (argInt args 3) >>= _)
  refine onlyBind (onlyRaises _) (fun loadDataNum => ?_)
  refine onlyTested tests.1 ?_ ?_ ⟨rfl,rfl,rfl⟩
  · exact onlyTested tests.2 trivial (file _) ⟨rfl,rfl,rfl⟩
  · exact onlyBind (onlyRaises _) (fun loads => ensemble interfaceDir loads)

theorem onlyGenRModelTemplate {args : List PyObject} (model : argStr args 2 = .ok m)
    (test : good (.isfile (templatePath m)))
    (file : ∀ text, Only good (writeModel (templatePath m) text)) :
    Only good (genRModelTemplate args) := by
  unfold genRModelTemplate
  rw [model]
  simp only [raises,Prog.pureBind]
  exact onlyTested test trivial (file _) ⟨rfl,rfl,rfl⟩

theorem onlyProd (ctx : PIContext) (loads stores : List Text)
    (tests : good (.opens (storePath m .one)) ∧ good (.isfile (templatePath m)))
    (file : ∀ text, Only good (writeModel (templatePath m) text))
    (ensemble : ∀ interfaceDir loads, Only good (genEnsemble interfaceDir m loads)) :
    Only good (prod ctx m loads stores) := by
  refine onlyBind (onlyAssert _ _) (fun _ => ?_)
  cases built : prodTuple ctx m loads stores with
  | error e => trivial
  | ok t =>
    obtain ⟨nmembs,_,filled,_⟩ := prodTupleArgs built
    have model : argStr (prodArgs ctx m loads stores nmembs) 2 = .ok m := rfl
    have python : Only good (runProd (prodArgs ctx m loads stores nmembs)) := by
      refine onlyBind (onlyRaises _) (fun op => ?_)
      split
      · exact onlyGenModelTemplate model tests file ensemble
      · split
        · exact onlyGenRModelTemplate model tests.2 file
        · trivial
    simp only [lift,Prog.pureBind,filled]
    exact onlyBind (onlyAttempt python) (fun _ => trivial)

end

theorem onlyPython (ctx : PIContext) (m : Text) (loads stores : List Text) :
    Only (pyFoot m).allows (prod ctx m loads stores) :=
  onlyProd ctx loads stores ⟨trivial,trivial⟩
    (fun _ => onlyWriteModel (.inl rfl) (fun _ => .inl rfl))
    (fun interfaceDir loads => onlyMono (ensembleOnly interfaceDir m loads)
      (fun _ ok => ensembleAllowed ok))

end Autonomizer.Footprint
