import Mathlib
import Autonomizer.Outcome
import Autonomizer.StoreFile

/-! The directory of a model while the children of a production run create it at the
same time: what a child may take for granted once its own creation has returned. -/
namespace Autonomizer.ModelDir
open Data FileIO FileSystem Footprint Format Outcome PIInc PIModelManager Process ProgIntel PyInterface
  StoreFile Trace

def loadDirs (m : Text) : NNStg → List Text → List Path
  | .one,_ => []
  | .ens,loads => loads.map (fun l => [piDir,m,l])

def modelDirs (m : Text) (stg : NNStg) (loads : List Text) : List Path :=
  [piDir,m] :: loadDirs m stg loads

/- All that prodCreateModelDir is to leave behind. -/
def Made (fs : FS) (m : Text) (stg : NNStg) (loads : List Text) : Prop :=
  (∀ path ∈ modelDirs m stg loads, fs path = some .dir) ∧ (fileText (fs (storePath m stg))).isSome

instance decideMade (fs : FS) (m : Text) (stg : NNStg) (loads : List Text) :
    Decidable (Made fs m stg loads) :=
  inferInstanceAs (Decidable (_ ∧ _))

/- The children of a production run at their network of the model, each with the context
it has come there with. -/
def batch (m : Text) (stg : NNStg) (loads stores : List Text) (ctxs : List PIContext) (k : Nat) :
    Steps Unit :=
  match ctxs[k]? with
  | some ctx => do
    let _ ← nn ctx m stg loads stores
    pure ()
  | none => pure ()

def Unfailed (e : Stop) : Prop := ∀ message path, e ≠ .failed message path

theorem unfailedNull : Unfailed .null := by
  intro message path same
  cases same

theorem unfailedAssertion (what : String) : Unfailed (.assertion what) := by
  intro message path same
  cases same

def Tame {α : Type} (r : Except Stop α) : Prop := ∀ e, r = .error e → Unfailed e

section
variable {α β : Type}

@[simp] theorem tameOk (a : α) : Tame (.ok a : Except Stop α) := nofun

@[simp] theorem tamePure (a : α) : Tame (pure a : Except Stop α) := nofun

@[simp] theorem tameNull : Tame (.error .null : Except Stop α) := by
  intro e same
  cases same
  exact unfailedNull

@[simp] theorem tameUndefined : Tame (.error .undefined : Except Stop α) := by
  intro e same
  cases same
  exact nofun

@[simp] theorem tameAssertion (what : String) : Tame (.error (.assertion what) : Except Stop α) := by
  intro e same
  cases same
  exact unfailedAssertion what

theorem tameBind {r : Except Stop α} {f : α → Except Stop β} (first : Tame r)
    (second : ∀ a, Tame (f a)) : Tame (r >>= f) := by
  cases r with
  | ok a => exact second a
  | error e => exact fun _ same => first _ (by cases same; rfl)

end

theorem typeSizeTame (tID : TypeID) : Tame (getTypeSize tID) := by
  cases tID <;> simp [getTypeSize]

theorem readTame (m : Memory) (p : Pointer) (size : Int) : Tame (m.read p size) := by
  unfold Memory.read
  split <;> [split; skip] <;> simp

theorem writeTame (m : Memory) (p : Pointer) (offset : Nat) (bytes : CPIO.Bytes) :
    Tame (m.write p offset bytes) := by
  unfold Memory.write
  split <;> [split; skip] <;> simp

theorem valuesTame (pDC : DataContext) (m : Memory) : Tame (pDC.values m) := by
  refine tameBind (typeSizeTame pDC.tID) (fun tSize => ?_)
  split
  · exact tamePure _
  · exact tameBind (readTame _ _ _) (fun _ => tamePure _)

theorem loadValuesTame (pDC : DataContext) (m : Memory) : Tame (loadValues pDC m) := by
  unfold loadValues
  split
  · exact tameAssertion _
  · exact valuesTame pDC m

theorem newTame (m : Memory) (tID : TypeID) (nmemb : Int) (doAlloc : Bool) :
    Tame (DataContext.new m tID nmemb doAlloc) := by
  unfold DataContext.new
  split
  · refine tameBind (typeSizeTame tID) (fun tSize => tameBind ?_ (fun size => tamePure _))
    unfold byteCount
    split <;> simp
  · exact tamePure _

theorem combinedNmembTame (ctx : PIContext) (parts : List Text) (nmemb : Int) :
    Tame (combinedNmemb ctx parts nmemb) := by
  induction parts generalizing nmemb with
  | nil => exact tameOk nmemb
  | cons part rest ih =>
    unfold combinedNmemb
    split
    · exact tameAssertion _
    · split
      · exact ih _
      · exact tameUndefined

theorem combinePartsTame (loadMap : Text → Option DataContext) (data : Pointer) (parts : List Text)
    (pTrg : Nat) (m : Memory) : Tame (combineParts loadMap data parts pTrg m) := by
  induction parts generalizing pTrg m with
  | nil => exact tameOk m
  | cons part rest ih =>
    unfold combineParts
    split
    · exact tameNull
    · split
      · refine tameBind (valuesTame _ m) (fun values => ?_)
        exact tameBind (writeTame m data _ _) (fun next => ih _ next)
      · exact tameAssertion _

theorem combinedContextTame (ctx : PIContext) (name : Text) : Tame (combinedContext ctx name) := by
  unfold combinedContext
  split
  · exact tameOk _
  · split
    · exact tameUndefined
    · refine tameBind (combinedNmembTame ctx _ 0) (fun nmemb => ?_)
      exact tameBind (newTame _ _ _ _) (fun _ => tamePure _)

theorem combineLoadTame (ctx : PIContext) (names : List Text) : Tame (combineLoad ctx names) := by
  induction names generalizing ctx with
  | nil => exact tameOk ctx
  | cons name rest ih =>
    unfold combineLoad
    split
    · refine tameBind (combinedContextTame ctx name) (fun found => ?_)
      dsimp only
      split
      · exact tameAssertion _
      · exact tameBind (combinePartsTame _ _ _ _ _) (fun m => ih _)
    · exact ih ctx

theorem prodTupleTame (ctx : PIContext) (m : Text) (loads stores : List Text) :
    Tame (prodTuple ctx m loads stores) := by
  have nmembs : Tame (loadNmembs ctx loads) := by
    unfold loadNmembs
    induction loads with
    | nil => exact tamePure _
    | cons l rest ih =>
      rw [List.mapM_cons]
      refine tameBind ?_ (fun nmemb => tameBind ih (fun more => tamePure _))
      split <;> simp
  exact tameBind nmembs (fun _ => tamePure _)

section
variable (m : Text) (stg : NNStg) (loads : List Text)

def DataDir (path : Path) : Prop :=
  ∃ dir ∈ modelDirs m stg loads, ∃ dataDir, (dataDir = piTrainDir ∨ dataDir = piValidDir) ∧
    path = dir ++ [dataDir]

def Dirs (path : Path) : Prop :=
  path = [piDir] ∨ path ∈ modelDirs m stg loads ∨ DataDir m stg loads path

def DataFile (path : Path) : Prop :=
  ∃ dir idx, DataDir m stg loads dir ∧ path = dir ++ [decimal idx]

def Files (path : Path) : Prop :=
  path = storePath m stg ∨ DataFile m stg loads path ∨ path = templatePath m ∨
    ∃ l ∈ loads, path = loadTemplatePath m l

def Shown (log : Log Op Reply) (path : Path) : Prop :=
  (.opensDir path,.ok) ∈ log ∨ (.mkdir path,.ok) ∈ log ∨ (.mkdir path,.eexist) ∈ log

/- The directory was there before, a reply has shown it, or it belongs to a model that
has been found finished. -/
def Found (log : Log Op Reply) (path : Path) : Prop :=
  path = [piDir] ∨ (Dirs m stg loads path ∧ Shown log path) ∨
    (path ∈ modelDirs m stg loads ∧ (.opensDir [piDir,m],.ok) ∈ log)

def Stored (log : Log Op Reply) : Prop :=
  (.create (storePath m stg),.ok) ∈ log ∨ (.opensDir [piDir,m],.ok) ∈ log

def Ready (log : Log Op Reply) : Prop :=
  (∀ path ∈ modelDirs m stg loads, Found m stg loads log path) ∧ Stored m stg log

/- A child makes only these entries, a file at the path of a directory only when it has
seen the directory, and looks for the single model's store file when the model is there.
It relies on directories and data files being made where it has seen what they lie in. -/
def rules : Contract Op Reply where
  calls log op := (∀ path, op = .mkdir path → Dirs m stg loads path) ∧
    (∀ path, op.file = some path → Files m stg loads path ∧
      (Dirs m stg loads path → Found m stg loads log path)) ∧
    (op = .opens (storePath m .one) → Ready m stg loads log)
  replies log op r :=
    (∀ path, op = .mkdir path → Found m stg loads log path.dropLast → r = .ok ∨ r = .eexist) ∧
    (∀ path, op = .create path → DataFile m stg loads path → Found m stg loads log path.dropLast →
      r = .ok) ∧
    (op = .opens (storePath m .one) → (r = .ok ↔ stg = .one))

/- What is known of the files in every state, whoever made them. -/
structure Places (fs : FS) : Prop where
  main : fs [piDir] = some .dir
  dirs : ∀ path, Dirs m stg loads path → fs path = none ∨ fs path = some .dir
  others : ∀ rest, ¬ Dirs m stg loads (piDir :: m :: rest) → fs (piDir :: m :: rest) ≠ some .dir
  untouched : ∀ rest, ¬ Dirs m stg loads (piDir :: m :: rest) →
    ¬ Files m stg loads (piDir :: m :: rest) → fs (piDir :: m :: rest) = none

structure Sees (fs : FS) (log : Log Op Reply) : Prop where
  dirs : ∀ path, Found m stg loads log path → fs path = some .dir
  store : Stored m stg log → (fileText (fs (storePath m stg))).isSome

end

section
variable {m : Text} {stg : NNStg} {loads : List Text} {log later : Log Op Reply} {path : Path} {fs : FS}

theorem shownMore (shown : Shown log path) (more : log ⊆ later) : Shown later path :=
  shown.imp (fun h => more h) (fun h => h.imp (fun h => more h) (fun h => more h))

theorem foundMore (found : Found m stg loads log path) (more : log ⊆ later) :
    Found m stg loads later path :=
  found.imp_right (fun h => h.imp (fun h => ⟨h.1,shownMore h.2 more⟩) (fun h => ⟨h.1,more h.2⟩))

theorem readyMore (ready : Ready m stg loads log) (more : log ⊆ later) : Ready m stg loads later :=
  ⟨fun path inside => foundMore (ready.1 path inside) more,
    ready.2.imp (fun h => more h) (fun h => more h)⟩

theorem loadDirInside {l : Text} (listed : l ∈ loads) : [piDir,m,l] ∈ modelDirs m .ens loads :=
  List.mem_cons_of_mem _ (List.mem_map.mpr ⟨l,listed,rfl⟩)

theorem modelDirsShape (inside : path ∈ modelDirs m stg loads) :
    path = [piDir,m] ∨ stg = .ens ∧ ∃ l ∈ loads, path = [piDir,m,l] := by
  rcases List.mem_cons.mp inside with rfl | inside
  · exact .inl rfl
  · cases stg with
    | one => cases inside
    | ens =>
      obtain ⟨l,listed,rfl⟩ := List.mem_map.mp inside
      exact .inr ⟨rfl,l,listed,rfl⟩

theorem dataDirShape (dir : DataDir m stg loads path) :
    ∃ dataDir, (dataDir = piTrainDir ∨ dataDir = piValidDir) ∧
      (path = [piDir,m,dataDir] ∨ ∃ l, path = [piDir,m,l,dataDir]) := by
  obtain ⟨dir,inside,dataDir,kind,rfl⟩ := dir
  refine ⟨dataDir,kind,?_⟩
  rcases modelDirsShape inside with rfl | ⟨-,l,-,rfl⟩
  · exact .inl rfl
  · exact .inr ⟨l,rfl⟩

theorem kindLast {dataDir : Text} (kind : dataDir = piTrainDir ∨ dataDir = piValidDir) :
    dataDir.getLast? = some 'r' := by
  rcases kind with rfl | rfl <;> rfl

theorem kindApart {dataDir base suffix : Text} (kind : dataDir = piTrainDir ∨ dataDir = piValidDir)
    {c : Char} (last : suffix.getLast? = some c) (other : c ≠ 'r') : base ++ suffix ≠ dataDir := by
  intro same
  have ends := kindLast kind
  rw [← same,List.getLast?_append,last] at ends
  exact other (Option.some.inj ends)

theorem numberApart {dataDir : Text} (kind : dataDir = piTrainDir ∨ dataDir = piValidDir) (idx : Int) :
    decimal idx ≠ dataDir := by
  intro same
  have inside : 'r' ∈ decimal idx := same ▸ List.mem_of_getLast? (kindLast kind)
  exact decimalAvoids ⟨by decide,by decide⟩ idx inside

theorem dataFileNoDir (file : DataFile m stg loads path) : ¬ Dirs m stg loads path := by
  obtain ⟨dir,idx,inside,rfl⟩ := file
  obtain ⟨kind,named,shape⟩ := dataDirShape inside
  intro dir
  rcases dir with main | model | data
  · rcases shape with rfl | ⟨l,rfl⟩ <;> simp at main
  · rcases modelDirsShape model with same | ⟨-,l,-,same⟩ <;> rcases shape with rfl | ⟨l,rfl⟩ <;>
      simp at same
  · obtain ⟨other,known,same⟩ := dataDirShape data
    rcases shape with rfl | ⟨l,rfl⟩ <;> rcases same with same | ⟨l',same⟩ <;>
      simp only [List.cons_append,List.nil_append,List.cons.injEq,List.cons_ne_nil,true_and,and_false,
        and_true] at same
    exact numberApart known idx same.2

theorem loadTemplateNoDir (l : Text) : ¬ Dirs m stg loads (loadTemplatePath m l) := by
  rintro (main | model | data)
  · simp [loadTemplatePath] at main
  · rcases modelDirsShape model with same | ⟨-,l,-,same⟩ <;> simp [loadTemplatePath] at same
  · obtain ⟨dataDir,kind,same | ⟨l',same⟩⟩ := dataDirShape data
    · simp [loadTemplatePath] at same
    · simp only [loadTemplatePath,List.cons.injEq,true_and,and_true] at same
      exact kindApart kind (rfl : (".py".toList).getLast? = _) (by decide) same.2

theorem namedInModel {base suffix : Text} {c : Char} (last : suffix.getLast? = some c) (other : c ≠ 'r')
    (dir : Dirs m stg loads [piDir,m,base ++ suffix]) :
    [piDir,m,base ++ suffix] ∈ modelDirs m stg loads := by
  rcases dir with main | model | data
  · simp at main
  · exact model
  · obtain ⟨dataDir,kind,same | ⟨l,same⟩⟩ := dataDirShape data
    · simp only [List.cons.injEq,true_and,and_true] at same
      exact absurd same (kindApart kind last other)
    · simp at same

theorem storeInModel (dir : Dirs m stg loads (storePath m stg)) :
    storePath m stg ∈ modelDirs m stg loads := by
  cases stg with
  | one => exact namedInModel (rfl : (".ONE.store".toList).getLast? = _) (by decide) dir
  | ens => exact namedInModel (rfl : (".ENS.store".toList).getLast? = _) (by decide) dir

theorem templateInModel (dir : Dirs m stg loads (templatePath m)) :
    templatePath m ∈ modelDirs m stg loads :=
  namedInModel (rfl : (".py".toList).getLast? = _) (by decide) dir

end

section
variable {m : Text} {stg : NNStg} {loads : List Text} {fs : FS} {log : Log Op Reply} {op : Op}

end

section
variable {m : Text} {stg : NNStg} {loads : List Text} {log : Log Op Reply} {path : Path}
  {ctx : PIContext}

theorem mkdirSharedRan {message : String} (ran : Ran (mkdirShared message path) log ()) :
    Shown log path := by
  obtain ⟨early,r,late,first,rest,rfl⟩ := ranBind.mp ran
  rw [ranPerform.mp first]
  cases r with
  | ok => exact .inr (.inl List.mem_cons_self)
  | eexist => exact .inr (.inr List.mem_cons_self)
  | _ => exact (ranStop.mp rest).elim

theorem touchRan (ran : Ran (touch path) log ()) : (.create path,.ok) ∈ log := by
  obtain ⟨early,r,late,first,rest,rfl⟩ := ranBind.mp ran
  rw [ranPerform.mp first]
  cases r with
  | ok => exact List.mem_cons_self
  | _ => exact (ranStop.mp rest).elim

theorem loadDirsRan {names : List Text} (ran : Ran (createLoadDirs ctx m names) log ()) :
    ∀ n ∈ names, Shown log [piDir,m,n] := by
  induction names generalizing log with
  | nil => exact nofun
  | cons n rest ih =>
    obtain ⟨_,_,_,-,named,rfl⟩ := ranBind.mp ran
    obtain ⟨_,_,_,made,others,rfl⟩ := ranBind.mp named
    intro x inside
    rcases List.mem_cons.mp inside with rfl | inside
    · exact shownMore (mkdirSharedRan made) (fun e h =>
        List.mem_append_right _ (List.mem_append_left _ h))
    · exact shownMore (ih others x inside) (fun e h =>
        List.mem_append_right _ (List.mem_append_right _ h))

theorem modelDirFound (shown : Shown log path) (inside : path ∈ modelDirs m stg loads) :
    Found m stg loads log path := .inr (.inl ⟨.inr (.inl inside),shown⟩)

theorem testedReady (tested : (.opensDir [piDir,m],.ok) ∈ log) : Ready m stg loads log :=
  ⟨fun _ inside => .inr (.inr ⟨inside,tested⟩),.inr tested⟩

theorem createDirRan (ran : Ran (createDir ctx m stg loads) log ()) : Ready m stg loads log := by
  cases stg with
  | one =>
    obtain ⟨early,r,late,first,rest,rfl⟩ := ranBind.mp ran
    rw [ranPerform.mp first]
    have make {own : Log Op Reply} (making : Ran (do
        mkdirShared cannotCreate [piDir,m]
        touch [piDir,m,oneStore m]) own ()) : Ready m .one loads own := by
      obtain ⟨_,_,_,dir,store,rfl⟩ := ranBind.mp making
      refine ⟨fun path inside => ?_,.inl (List.mem_append_right _ (touchRan store))⟩
      rcases modelDirsShape inside with rfl | ⟨none,-⟩
      · exact modelDirFound (shownMore (mkdirSharedRan dir) (List.subset_append_left _ _)) inside
      · cases none
    cases r with
    | ok => exact testedReady List.mem_cons_self
    | _ => exact readyMore (make rest) (List.subset_append_right _ _)
  | ens =>
    obtain ⟨early,r,late,first,rest,rfl⟩ := ranBind.mp ran
    rw [ranPerform.mp first]
    have make {own : Log Op Reply} (making : Ran (do
        mkdirShared cannotCreate [piDir,m]
        createLoadDirs ctx m loads
        touch [piDir,m,ensStore m]) own ()) : Ready m .ens loads own := by
      obtain ⟨_,_,_,dir,more,rfl⟩ := ranBind.mp making
      obtain ⟨_,_,_,dirs,store,rfl⟩ := ranBind.mp more
      refine ⟨fun path inside => modelDirFound ?_ inside,
        .inl (List.mem_append_right _ (List.mem_append_right _ (touchRan store)))⟩
      rcases modelDirsShape inside with rfl | ⟨-,l,listed,rfl⟩
      · exact shownMore (mkdirSharedRan dir) (List.subset_append_left _ _)
      · exact shownMore (loadDirsRan dirs l listed) (fun e h =>
          List.mem_append_right _ (List.mem_append_left _ h))
    cases r with
    | ok => exact testedReady List.mem_cons_self
    | _ => exact readyMore (make rest) (List.subset_append_right _ _)

theorem liftTame {α : Type} {c : Contract Op Reply} {x : Except Stop α} {Q : Log Op Reply → α → Prop}
    (tame : Tame x) (holds : ∀ a, x = .ok a → Q log a) :
    Meets c log (lift x) Q (fun _ e => Unfailed e) := by
  cases x with
  | ok a => exact holds a rfl
  | error e => exact tame e rfl

theorem requireTame {cond : Bool} {what : String} {c : Contract Op Reply}
    {Q : Log Op Reply → Unit → Prop} (holds : cond = true → Q log ()) :
    Meets c log (require cond what) Q (fun _ e => Unfailed e) := by
  unfold require
  split
  · exact holds (by assumption)
  · exact unfailedAssertion what

theorem lookCalls {op : Op} (quiet : op.target = none) (other : op ≠ .opens (storePath m .one)) :
    (rules m stg loads).calls log op := by
  refine ⟨fun path same => ?_,fun path file => ?_,fun same => absurd same other⟩
  · rw [same] at quiet
    cases quiet
  · rw [fileTarget file] at quiet
    cases quiet

theorem looksCalls (ready : Ready m stg loads log) :
    (rules m stg loads).calls log (.opens (storePath m .one)) := by
  refine ⟨fun p same => ?_,fun p file => ?_,fun _ => ready⟩
  · cases same
  · cases file

theorem mkdirCalls (dir : Dirs m stg loads path) : (rules m stg loads).calls log (.mkdir path) := by
  refine ⟨fun p same => Op.mkdir.inj same ▸ dir,fun p file => ?_,fun same => ?_⟩
  · cases file
  · cases same

theorem createCalls (file : Files m stg loads path)
    (seen : Dirs m stg loads path → Found m stg loads log path) :
    (rules m stg loads).calls log (.create path) := by
  refine ⟨fun p same => ?_,fun _ same => Option.some.inj same ▸ ⟨file,seen⟩,fun same => ?_⟩
  · cases same
  · cases same

theorem writeCalls {text : Text} (file : Files m stg loads path)
    (seen : Dirs m stg loads path → Found m stg loads log path) :
    (rules m stg loads).calls log (.write path text) := by
  refine ⟨fun p same => ?_,fun _ same => Option.some.inj same ▸ ⟨file,seen⟩,fun same => ?_⟩
  · cases same
  · cases same

theorem mkdirSharedMeets {message : String} (dir : Dirs m stg loads path)
    (parent : Found m stg loads log path.dropLast) :
    Meets (rules m stg loads) log (mkdirShared message path) (fun _ _ => True)
      (fun _ e => Unfailed e) := by
  simp only [mkdirShared,meetsBind,meetsPerform]
  refine ⟨mkdirCalls dir,fun r reply => ?_⟩
  rcases reply.1 path rfl parent with rfl | rfl <;> trivial

theorem touchMeets (file : Files m stg loads path)
    (seen : Dirs m stg loads path → Found m stg loads log path) :
    Meets (rules m stg loads) log (touch path) (fun _ _ => True) (fun _ e => Unfailed e) := by
  simp only [touch,meetsBind,meetsPerform]
  refine ⟨createCalls file seen,fun r _ => ?_⟩
  cases r with
  | ok => trivial
  | _ => exact unfailedNull

theorem loadDirsMeets {names : List Text} (listed : ∀ n ∈ names, n ∈ loads)
    (model : Found m .ens loads log [piDir,m]) :
    Meets (rules m .ens loads) log (createLoadDirs ctx m names) (fun _ _ => True)
      (fun _ e => Unfailed e) := by
  induction names generalizing log with
  | nil => trivial
  | cons n rest ih =>
    simp only [createLoadDirs,meetsBind]
    refine requireTame (fun _ => ?_)
    have inside : [piDir,m,n] ∈ modelDirs m .ens loads  :=
      loadDirInside (listed n List.mem_cons_self)
    refine meetsAfter (mkdirSharedMeets (.inr (.inl inside)) model) (fun own _ _ _ => ?_)
    exact ih (fun x more => listed x (List.mem_cons_of_mem _ more))
      (foundMore model (List.subset_append_left _ _))

theorem createDirMeets : Meets (rules m stg loads) log (createDir ctx m stg loads)
    (fun l _ => Ready m stg loads l) (fun _ e => Unfailed e) := by
  suffices meets : Meets (rules m stg loads) log (createDir ctx m stg loads) (fun _ _ => True)
      (fun _ e => Unfailed e) by
    refine meetsAfter meets (fun own _ ran _ => ?_)
    exact readyMore (createDirRan ran) (List.subset_append_right _ _)
  have model : [piDir,m] ∈ modelDirs m stg loads := List.mem_cons_self
  have begun (l : Log Op Reply) : Meets (rules m stg loads) l (mkdirShared cannotCreate [piDir,m])
      (fun l _ => Found m stg loads l [piDir,m]) (fun _ e => Unfailed e) := by
    refine meetsAfter (mkdirSharedMeets (.inr (.inl model)) (.inl rfl)) (fun own _ ran _ => ?_)
    exact modelDirFound (shownMore (mkdirSharedRan ran) (List.subset_append_right _ _)) model
  have ended {l : Log Op Reply} (all : ∀ path ∈ modelDirs m stg loads, Found m stg loads l path) :
      Meets (rules m stg loads) l (touch (storePath m stg)) (fun _ _ => True)
        (fun _ e => Unfailed e) :=
    touchMeets (.inl rfl) (fun dir => all _ (storeInModel dir))
  cases stg with
  | one =>
    simp only [createDir,prodCreateModelDir,meetsBind,meetsPerform]
    refine ⟨lookCalls rfl (by simp),fun r _ => ?_⟩
    have make (l : Log Op Reply) : Meets (rules m .one loads) l
        (mkdirShared cannotCreate [piDir,m]) (fun l _ => Meets (rules m .one loads) l
          (touch [piDir,m,oneStore m]) (fun _ _ => True) (fun _ e => Unfailed e))
        (fun _ e => Unfailed e) := by
      refine meetsReturns (begun l) (fun l _ found => ended (fun path inside => ?_))
      rcases modelDirsShape inside with rfl | ⟨none,-⟩
      · exact found
      · cases none
    cases r with
    | ok => trivial
    | _ => exact meetsBind.mpr (make _)
  | ens =>
    simp only [createDir,prodCreateModelDirs,meetsBind,meetsPerform]
    refine ⟨lookCalls rfl (by simp),fun r _ => ?_⟩
    have make (l : Log Op Reply) : Meets (rules m .ens loads) l (do
        mkdirShared cannotCreate [piDir,m]
        createLoadDirs ctx m loads
        touch [piDir,m,ensStore m]) (fun _ _ => True) (fun _ e => Unfailed e) := by
      simp only [meetsBind]
      refine meetsReturns (begun l) (fun l _ found => ?_)
      refine meetsAfter (loadDirsMeets (fun _ h => h) found) (fun own _ ran _ => ?_)
      refine ended (fun path inside => ?_)
      rcases modelDirsShape inside with rfl | ⟨-,n,listed,rfl⟩
      · exact foundMore found (List.subset_append_left _ _)
      · exact modelDirFound (shownMore (loadDirsRan ran n listed) (List.subset_append_right _ _)) inside
    cases r with
    | ok => trivial
    | _ => exact make _

theorem writeLoadDataMeets {pDC : Option DataContext} {memory : Memory} {name : Text}
    (file : DataFile m stg loads path) (parent : Found m stg loads log path.dropLast) :
    Meets (rules m stg loads) log (writeLoadData pDC memory name path) (fun _ _ => True)
      (fun _ e => Unfailed e) := by
  have allowed : Files m stg loads path := .inr (.inl file)
  have noDir {l : Log Op Reply} (dir : Dirs m stg loads path) : Found m stg loads l path :=
    absurd dir (dataFileNoDir file)
  simp only [writeLoadData,meetsBind,meetsPerform]
  refine ⟨createCalls allowed noDir,fun r reply => ?_⟩
  cases reply.2.1 path rfl file parent
  cases pDC with
  | none => exact unfailedAssertion _
  | some pDC =>
    simp only [meetsBind]
    refine requireTame (fun _ => liftTame (loadValuesTame pDC memory) (fun values _ => ?_))
    exact ⟨writeCalls allowed noDir,fun _ _ => trivial⟩

theorem writeLoadFileMeets {dir : Path} {name : Text} {idx : Nat} (data : DataDir m stg loads dir)
    (parent : Found m stg loads log dir.dropLast) :
    Meets (rules m stg loads) log (writeLoadFile ctx dir name idx) (fun _ _ => True)
      (fun _ e => Unfailed e) := by
  have written {l : Log Op Reply} (shown : Shown l dir) : Meets (rules m stg loads) l
      (writeLoadData (ctx.loadMap name) ctx.memory name (dir ++ [decimal idx])) (fun _ _ => True)
      (fun _ e => Unfailed e) := by
    refine writeLoadDataMeets ⟨dir,idx,data,rfl⟩ ?_
    rw [List.dropLast_concat]
    exact .inr (.inl ⟨.inr (.inr data),shown⟩)
  have made (l : Log Op Reply) (found : Found m stg loads l dir.dropLast) :
      Meets (rules m stg loads) l (do
        mkdirShared "Error<FileIO::prodWriteDataToFile>: Cannot create directory" dir
        writeLoadData (ctx.loadMap name) ctx.memory name (dir ++ [decimal idx])) (fun _ _ => True)
      (fun _ e => Unfailed e) := by
    simp only [meetsBind]
    refine meetsAfter (mkdirSharedMeets (.inr (.inr data)) found) (fun own _ ran _ => ?_)
    exact written (shownMore (mkdirSharedRan ran) (List.subset_append_right _ _))
  simp only [writeLoadFile,meetsBind,meetsPerform]
  refine ⟨lookCalls rfl (by simp),fun r _ => ?_⟩
  have more := foundMore parent (List.subset_append_left log [(.opensDir dir,r)])
  cases r with
  | ok => exact written (.inl (List.mem_append_right _ (List.mem_singleton_self _)))
  | _ => exact made _ more

theorem writeLoadFilesMeets {names : List Text} {dataDir : Text} {idx : Nat}
    (kind : dataDir = piTrainDir ∨ dataDir = piValidDir) (listed : ∀ n ∈ names, n ∈ loads)
    (ready : Ready m .ens loads log) :
    Meets (rules m .ens loads) log (writeLoadFiles ctx m dataDir idx names) (fun _ _ => True)
      (fun _ e => Unfailed e) := by
  induction names generalizing log with
  | nil => trivial
  | cons n rest ih =>
    have inside : [piDir,m,n] ∈ modelDirs m .ens loads  :=
      loadDirInside (listed n List.mem_cons_self)
    have data : DataDir m .ens loads [piDir,m,n,dataDir] := ⟨[piDir,m,n],inside,dataDir,kind,rfl⟩
    simp only [writeLoadFiles,meetsBind]
    refine meetsAfter (writeLoadFileMeets data (ready.1 _ inside)) (fun own _ _ _ => ?_)
    exact ih (fun x more => listed x (List.mem_cons_of_mem _ more))
      (readyMore ready (List.subset_append_left _ _))

theorem writeLoadsMeets {dataDir : Text} {idx : Nat} (ready : Ready m stg loads log) :
    Meets (rules m stg loads) log (writeLoads ctx m stg loads dataDir idx) (fun _ _ => True)
      (fun _ e => Unfailed e) := by
  cases stg with
  | one =>
    simp only [writeLoads,prodWriteLoadData,knownDataDir,meetsBind]
    refine requireTame (fun known => ?_)
    have inside : [piDir,m] ∈ modelDirs m .one loads := List.mem_cons_self
    exact writeLoadFileMeets ⟨[piDir,m],inside,dataDir,of_decide_eq_true known,rfl⟩ (ready.1 _ inside)
  | ens =>
    simp only [writeLoads,prodWriteLoadDatas,knownDataDir,meetsBind]
    exact requireTame (fun known =>
      writeLoadFilesMeets (of_decide_eq_true known) (fun _ h => h) ready)

end

section
variable {m : Text} {stg : NNStg} {loads : List Text} {log : Log Op Reply} {path : Path}
  {ctx : PIContext}

theorem raisesMeets {α : Type} {c : Contract Op Reply} {x : Except PyError α}
    {Q : Log Op Reply → α → Prop} (holds : ∀ a, x = .ok a → Q log a) :
    Meets c log (raises x) Q (fun _ _ => True) := by
  cases x with
  | ok a => exact holds a rfl
  | error e => trivial

theorem writeModelMeets {text : Except PyError Text} (file : Files m stg loads path)
    (seen : Dirs m stg loads path → Found m stg loads log path) :
    Meets (rules m stg loads) log (writeModel path text) (fun _ _ => True) (fun _ _ => True) := by
  simp only [writeModel,meetsBind,meetsPerform]
  refine ⟨createCalls file seen,fun r _ => ?_⟩
  have more := List.subset_append_left log [(Op.create path,r)]
  cases r with
  | ok =>
    simp only [meetsBind,meetsPerform]
    refine raisesMeets (fun text _ => ?_)
    exact ⟨writeCalls file (fun dir => foundMore (seen dir) more),fun _ _ => trivial⟩
  | _ => trivial

theorem templateMeets {text : Except PyError Text} (ready : Ready m stg loads log) :
    Meets (rules m stg loads) log (do
      match ← (perform (.isfile (templatePath m)) : PySteps Reply) with
      | .ok => pure ()
      | _ => writeModel (templatePath m) text) (fun _ _ => True) (fun _ _ => True) := by
  simp only [meetsBind,meetsPerform]
  refine ⟨lookCalls rfl (by simp),fun r _ => ?_⟩
  have later := readyMore ready (List.subset_append_left log [(Op.isfile (templatePath m),r)])
  cases r with
  | ok => trivial
  | _ => exact writeModelMeets (.inr (.inr (.inl rfl))) (fun dir => later.1 _ (templateInModel dir))

theorem genEnsembleMeets (interfaceDir : Text) :
    Meets (rules m .ens loads) log (genEnsemble interfaceDir m loads) (fun _ _ => True)
      (fun _ _ => True) := by
  have file {l : Text} (listed : l ∈ loads) : Files m .ens loads (loadTemplatePath m l) :=
    .inr (.inr (.inr ⟨l,listed,rfl⟩))
  have only : Only (fun op => ∀ log, (rules m .ens loads).calls log op)
      (genEnsemble interfaceDir m loads) := by
    refine onlyGenEnsemble ?_ ?_ ?_ ?_ ?_ ?_ ?_ ?_
    · exact ⟨fun _ => lookCalls rfl (by simp [storePath]),fun _ => lookCalls rfl (by simp [storePath])⟩
    · exact fun _ _ _ => lookCalls rfl (by simp)
    · exact fun _ _ _ => lookCalls rfl (by simp)
    · exact fun _ => mkdirCalls (.inl rfl)
    · exact fun _ => mkdirCalls (.inr (.inl List.mem_cons_self))
    · exact fun l listed _ => mkdirCalls (.inr (.inl (loadDirInside listed)))
    · exact fun l listed _ => createCalls (file listed) (fun dir => absurd dir (loadTemplateNoDir l))
    · exact fun l listed _ _ => writeCalls (file listed) (fun dir => absurd dir (loadTemplateNoDir l))
  exact meetsMono (onlySince only (fun log _ good => good log) log) (fun _ _ _ => trivial)
    (fun _ _ _ => trivial)

theorem genModelTemplateMeets {args : List PyObject} {modPath : Text} {stores : List Text}
    {nmemb : Int} (asked : Asked args modPath m loads stores nmemb) (ready : Ready m stg loads log) :
    Meets (rules m stg loads) log (genModelTemplate args) (fun _ _ => True) (fun _ _ => True) := by
  simp only [genModelTemplate,asked.dir,asked.model,asked.loadNum,raises,Prog.pureBind,meetsBind,
    meetsPerform,Int.toNat_natCast]
  refine ⟨looksCalls ready,fun r reply => ?_⟩
  have which := reply.2.2 rfl
  have later := readyMore ready (List.subset_append_left log [(Op.opens (storePath m .one),r)])
  have ensemble (single : stg ≠ .one) (log : Log Op Reply) : Meets (rules m stg loads) log (do
      let loadNames ← raises (argNames args 5 loads.length)
      genEnsemble modPath m loadNames) (fun _ _ => True) (fun _ _ => True) := by
    cases stg with
    | one => exact absurd rfl single
    | ens =>
      rw [asked.loadNames]
      exact genEnsembleMeets modPath
  cases r with
  | ok => exact templateMeets later
  | _ => exact ensemble (fun one => nomatch which.mpr one) _

theorem genRModelTemplateMeets {args : List PyObject} (model : argStr args 2 = .ok m)
    (ready : Ready m stg loads log) : Meets (rules m stg loads) log (genRModelTemplate args)
      (fun _ _ => True) (fun _ _ => True) := by
  unfold genRModelTemplate
  rw [model]
  exact templateMeets ready

theorem prodMeets {stores : List Text} (some_ : loads ≠ []) (ready : Ready m stg loads log) :
    Meets (rules m stg loads) log (prod ctx m loads stores) (fun _ _ => True)
      (fun _ e => Unfailed e) := by
  simp only [prod,meetsBind]
  refine requireTame (fun _ => liftTame (prodTupleTame ctx m loads stores) (fun t built => ?_))
  obtain ⟨nmembs,found,filled,-⟩ := prodTupleArgs built
  rw [filled]
  simp only [meetsBind,meetsAttempt]
  have same := nmembsLength found
  obtain ⟨load,rest,rfl⟩ := List.exists_cons_of_ne_nil some_
  obtain ⟨nmemb,sizes,rfl⟩ := List.exists_cons_of_length_eq_add_one same
  have asked : Asked (prodArgs ctx m (load :: rest) stores (nmemb :: sizes)) ctx.modPath m
      (load :: rest) stores nmemb := prodAsked ctx m load rest stores (Nat.succ.inj same)
  have generated : Meets (rules m stg (load :: rest)) log
      (runProd (prodArgs ctx m (load :: rest) stores (nmemb :: sizes))) (fun _ _ => True)
      (fun _ _ => True) := by
    refine meetsBind.mpr (raisesMeets (fun op _ => ?_))
    split
    · exact genModelTemplateMeets asked ready
    · split
      · exact genRModelTemplateMeets asked.model ready
      · trivial
  exact meetsMono generated (fun _ _ _ => trivial) (fun _ _ _ => trivial)

theorem nnMeets {stores : List Text} : Meets (rules m stg loads) log (nn ctx m stg loads stores)
    (fun _ _ => True) (fun _ e => Unfailed e) := by
  simp only [nn,meetsBind]
  refine requireTame (fun some_ => requireTame (fun _ => ?_))
  refine liftTame (combineLoadTame ctx loads) (fun next _ => ?_)
  refine meetsReturns createDirMeets (fun l _ ready => ?_)
  have python {l : Log Op Reply} (ready : Ready m stg loads l) : Meets (rules m stg loads) l (do
      let ctx := recordStores next m stg loads stores
      if ctx.trainIt = 0 then prod ctx m loads stores
      pure ctx) (fun _ _ => True) (fun _ e => Unfailed e) := by
    dsimp only
    split
    · exact meetsBind.mpr (prodMeets (of_decide_eq_true some_) ready)
    · trivial
  split
  · simp only [meetsBind]
    refine meetsAfter (writeLoadsMeets ready) (fun own _ _ _ => ?_)
    exact python (readyMore ready (List.subset_append_left _ _))
  · exact python ready

/- What is so in every state: the places, what each child has seen of them, and what a
look for the single model's store file has told. -/
structure Holds (m : Text) (stg : NNStg) (loads : List Text) (s : Children) : Prop where
  places : Places m stg loads s.shared
  sees : ∀ k, Sees m stg loads s.shared (s.past k)
  looked : ∀ k r, (.opens (storePath m .one),r) ∈ s.past k → (r = .ok ↔ stg = .one)

end

def outcome (t : Children) : Option Stop × Bool × Bool :=
  (match t.procs 0 with
    | .stop e => some e
    | _ => none,(t.procs 0).returned && (t.procs 1).returned,
    decide (Made t.shared ['m'] .ens [['x']]))

end Autonomizer.ModelDir
