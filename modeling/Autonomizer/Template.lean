import Mathlib
import Autonomizer.SingleModel

/-! The model file that the first child of a production run leaves for a single model,
and where that child makes the files of an ensemble instead. -/
namespace Autonomizer.Template
open Data FileIO FileSystem Footprint Format PIInc PIModelManager Process ProgIntel PyInterface
open SingleModel

/- A process has seen the directory of the model, or has made its store file. -/
def Saw (m : Text) (log : Log Op Reply) : Prop :=
  (.opensDir [piDir,m],.ok) ∈ log ∨ (.create (storePath m .one),.ok) ∈ log

/- Whoever makes the directory of the model goes on to make the store file. -/
def Settled (m : Text) (log : Log Op Reply) : Prop :=
  (∃ e ∈ log, e.1.target = some [piDir,m]) → (.create (storePath m .one),.ok) ∈ log

/- inOrder is the case that no other child makes a model half way: then the store file
is there once the directory is. -/
def rules (m : Text) (inOrder : Prop) : Contract Op Reply where
  calls _ _ := True
  replies log op r := inOrder → op = .opens (storePath m .one) → Saw m log → Settled m log → r = .ok

def Quiet (m : Text) (op : Op) : Prop :=
  op.target ≠ some [piDir,m] ∧ ∀ path, op.file = some path → ¬ (pyFoot m).writes path

def NoLoadFiles (m : Text) (log : Log Op Reply) : Prop :=
  ∀ e ∈ log, ∀ load, e.1.file ≠ some (loadTemplatePath m load)

section
variable {m text : Text} {inOrder : Prop} {log mid later : Log Op Reply}

theorem sinceMember {good : Op → Prop} (since : Since good log later) {e : Op × Reply}
    (inside : e ∈ later) : e ∈ log ∨ good e.1 := by
  obtain ⟨more,rfl,all⟩ := since
  rcases List.mem_append.mp inside with old | new
  · exact .inl old
  · exact .inr (all e new)

theorem sinceKept {good : Op → Prop} (since : Since good log later) {e : Op × Reply}
    (inside : e ∈ log) : e ∈ later := by
  obtain ⟨more,rfl,_⟩ := since
  exact List.mem_append_left _ inside

theorem settledSince {good : Op → Prop} (settled : Settled m log) (since : Since good log later)
    (other : ∀ op, good op → op.target ≠ some [piDir,m]) : Settled m later := by
  rintro ⟨e,inside,target⟩
  rcases sinceMember since inside with old | new
  · exact sinceKept since (settled ⟨e,old,target⟩)
  · exact absurd target (other _ new)

theorem noLoadFilesSince {good : Op → Prop} (none_ : NoLoadFiles m log)
    (since : Since good log later)
    (other : ∀ op, good op → ∀ load, op.file ≠ some (loadTemplatePath m load)) :
    NoLoadFiles m later := by
  intro e inside load
  rcases sinceMember since inside with old | new
  · exact none_ e old load
  · exact other _ new load

theorem quietLoads {op : Op} (quiet : Quiet m op) (load : Text) :
    op.file ≠ some (loadTemplatePath m load) :=
  fun file => quiet.2 _ file (.inl (.inr ⟨load,rfl⟩))

theorem quietTemplate {op : Op} (quiet : Quiet m op) : op.file ≠ some (templatePath m) :=
  fun file => quiet.2 _ file (.inl (.inl rfl))

theorem templateApart (m load : Text) : templatePath m ≠ loadTemplatePath m load := by
  simp [templatePath,loadTemplatePath]

/- What generating the model file with this text does: the single model's file whole or
not at all, or, where the store file was missing, files of an ensemble. -/
inductive Generated (m text : Text) (inOrder : Prop) (log later : Log Op Reply) : Prop where
  | single (since : Since (fun op => op.target ≠ some [piDir,m] ∧
      ∀ load, op.file ≠ some (loadTemplatePath m load)) log later)
      (whole : ∀ old, replay (templatePath m) old later = replay (templatePath m) old log ∨
        replay (templatePath m) old later = some text)
  | ensemble (missing : ¬ inOrder)
      (since : Since (fun op => op.file ≠ some (templatePath m)) log later)

theorem raisesMeets {α : Type} {c : Contract Op Reply} {x : Except PyError α}
    {Q : Log Op Reply → α → Prop} {E : Log Op Reply → PyError → Prop} {a : α} (known : x = .ok a)
    (holds : Q log a) : Meets c log (raises x) Q E := by
  subst known
  exact holds

theorem onlyRules {ε α : Type} {p : Prog Op Reply ε α} {good : Op → Prop} (only : Only good p)
    (log : Log Op Reply) : Meets (rules m inOrder) log p (fun l _ => Since good log l)
      (fun l _ => Since good log l) :=
  onlySince only (fun _ _ _ => trivial) log

theorem writeModelMeets (log : Log Op Reply) : Meets (rules m inOrder) log
    (writeModel (templatePath m) (.ok text))
    (fun l _ => ∀ old, replay (templatePath m) old l = some text)
    (fun l _ => ∀ old, replay (templatePath m) old l = replay (templatePath m) old log) := by
  simp only [writeModel,meetsBind,meetsPerform]
  refine ⟨trivial,fun r _ => ?_⟩
  have failed {r : Reply} (other : r ≠ .ok) (old : Option Text) :
      replay (templatePath m) old (log ++ [(.create (templatePath m),r)]) =
        replay (templatePath m) old log := by
    rw [replaySnoc]
    cases r with
    | ok => exact absurd rfl other
    | _ => rfl
  cases r with
  | ok =>
    simp only [raises,meetsBind,meetsPerform,meetsPure]
    refine ⟨trivial,fun r _ old => ?_⟩
    rw [replaySnoc,replaySnoc]
    cases r <;> simp [effect]
  | _ => exact failed (by simp)

/- Operations on the single model's file only. -/
def Single (m : Text) (op : Op) : Prop :=
  op.target ≠ some [piDir,m] ∧ ∀ load, op.file ≠ some (loadTemplatePath m load)

theorem singleTemplatePath {op : Op} (target : op.target = some (templatePath m)) : Single m op := by
  refine ⟨fun dir => ?_,fun load file => ?_⟩
  · rw [target] at dir
    simp [templatePath] at dir
  · have same := (fileTarget file).symm.trans target
    exact templateApart m load (Option.some.inj same).symm

theorem singleTest {op : Op} (none_ : op.target = none) : Single m op := by
  refine ⟨fun dir => ?_,fun load file => ?_⟩
  · rw [none_] at dir
    cases dir
  · cases none_.symm.trans (fileTarget file)

theorem ensembleApart {op : Op} (allowed : (ensembleFoot m).allows op) :
    op.file ≠ some (templatePath m) := by
  intro file
  have writes := writesFile allowed file
  rcases writes with ⟨load,same⟩ | ⟨load,same⟩ <;> exact templateApart m load same

theorem genMeets {args : List PyObject} {modPath : Text} {loads : List Text} {n : Int}
    (dir : argStr args 1 = .ok modPath) (model : argStr args 2 = .ok m)
    (num : argInt args 3 = .ok n) (names : argNames args 5 n.toNat = .ok loads)
    (whole : singleTemplate args = .ok text) (saw : Saw m log) (settled : inOrder → Settled m log) :
    Meets (rules m inOrder) log (genModelTemplate args) (fun l _ => Generated m text inOrder log l)
      (fun l _ => Generated m text inOrder log l) := by
  unfold genModelTemplate
  rw [dir,model,num]
  simp only [raises,Prog.pureBind,meetsBind,meetsPerform]
  refine ⟨trivial,fun r reply => ?_⟩
  have tested (r : Reply) : Since (Single m) log (log ++ [(.opens (storePath m .one),r)]) :=
    sinceCall (singleTest rfl) log r
  have quietTest (old : Option Text) (r : Reply) :
      replay (templatePath m) old (log ++ [(.opens (storePath m .one),r)]) =
        replay (templatePath m) old log := by
    rw [replaySnoc]
    rfl
  cases r with
  | ok =>
    simp only [meetsBind,meetsPerform]
    refine ⟨trivial,fun r _ => ?_⟩
    have again : Since (Single m) (log ++ [(.opens (storePath m .one),.ok)])
        (log ++ [(.opens (storePath m .one),.ok)] ++ [(.isfile (templatePath m),r)]) :=
      sinceCall (singleTest rfl) _ r
    have both := sinceTrans (tested .ok) again
    have quietBoth (old : Option Text) : replay (templatePath m) old
        (log ++ [(.opens (storePath m .one),.ok)] ++ [(.isfile (templatePath m),r)]) =
          replay (templatePath m) old log := by
      rw [replaySnoc,← quietTest old .ok]
      rfl
    have write : Meets (rules m inOrder)
        (log ++ [(.opens (storePath m .one),.ok)] ++ [(.isfile (templatePath m),r)])
        (writeModel (templatePath m) (singleTemplate args))
        (fun l _ => Generated m text inOrder log l) (fun l _ => Generated m text inOrder log l) := by
      rw [whole]
      have only : Only (Single m) (writeModel (templatePath m) (.ok text)) :=
        onlyWriteModel (singleTemplatePath rfl) (fun _ => singleTemplatePath rfl)
      refine meetsMono (meetsAnd (onlyRules only _) (writeModelMeets _)) ?_ ?_
      · exact fun l _ done => .single (sinceTrans both done.1) (fun old => .inr (done.2 old))
      · exact fun l _ failed => .single (sinceTrans both failed.1)
          (fun old => .inl ((failed.2 old).trans (quietBoth old)))
    cases r with
    | ok => exact .single both (fun old => .inl (quietBoth old))
    | _ => exact write
  | _ =>
    have missing : ¬ inOrder := fun here => by simpa using reply here rfl saw (settled here)
    rw [names]
    simp only [Prog.pureBind]
    have only : Only (fun op => op.file ≠ some (templatePath m)) (genEnsemble modPath m loads) :=
      onlyMono (ensembleOnly modPath m loads) (fun op allowed => ensembleApart allowed)
    have test (r : Reply) : Since (fun op => op.file ≠ some (templatePath m)) log
        (log ++ [(.opens (storePath m .one),r)]) := sinceCall (by simp [Op.file]) log r
    exact meetsMono (onlyRules only _) (fun l _ since => .ensemble missing (sinceTrans (test _) since))
      (fun l _ since => .ensemble missing (sinceTrans (test _) since))

def modelText (m modPath : Text) (loads stores : List Text) (nmemb : Int) : Text :=
  singleHead modPath m ++ setWidths nmemb stores.length ++ singleTail loads stores (loads.headD [])

theorem loadNmembsHead {ctx : PIContext} {load : Text} {loads : List Text} {nmembs : List Int}
    (found : loadNmembs ctx (load :: loads) = .ok nmembs) : ∃ pDC more,
      ctx.loadMap load = some pDC ∧ nmembs = pDC.nmemb :: more ∧ more.length = loads.length := by
  have length := nmembsLength found
  rw [loadNmembs,List.mapM_cons] at found
  cases known : ctx.loadMap load with
  | none => rw [known] at found; cases found
  | some pDC =>
    rw [known] at found
    simp only [bind,Except.bind] at found
    split at found
    · cases found
    · next more _ =>
      cases found
      exact ⟨pDC,more,rfl,rfl,Nat.succ.inj length⟩

theorem prodMeets {ctx : PIContext} {load : Text} {loads stores : List Text}
    (status : ctx.status = .sprod) (saw : Saw m log) (settled : inOrder → Settled m log) :
    Meets (rules m inOrder) log (PyInterface.prod ctx m (load :: loads) stores)
      (fun l _ => ∃ pDC, ctx.loadMap load = some pDC ∧
        Generated m (modelText m ctx.modPath (load :: loads) stores pDC.nmemb) inOrder log l)
      (fun _ _ => True) := by
  simp only [PyInterface.prod,meetsBind]
  refine requireMeets (fun _ => liftMeets (fun t built => ?_))
  obtain ⟨nmembs,found,filled,_⟩ := prodTupleArgs built
  obtain ⟨pDC,more,known,rfl,length⟩ := loadNmembsHead found
  rw [filled]
  let args := prodArgs ctx m (load :: loads) stores (pDC.nmemb :: more)
  have shape : singleTemplate args = .ok (modelText m ctx.modPath (load :: loads) stores pDC.nmemb) :=
    singleTemplateArgs ctx m load loads stores length
  have op : argInt args 0 = .ok (statusCode .sprod) := by rw [← status]; rfl
  have names : argNames args 5 (((load :: loads).length : Int).toNat) = .ok (load :: loads) := by
    rw [Int.toNat_natCast]
    exact argNamesAt (show args = [.int (statusCode ctx.status),.str ctx.modPath,.str m,
      .int (load :: loads).length,.int stores.length] ++ (load :: loads).map .str ++
      ((pDC.nmemb :: more).map .int ++ stores.map .str) by simp [args,prodArgs])
  simp only [meetsBind,meetsAttempt,runProd,meetsPure]
  refine raisesMeets op ?_
  rw [if_pos rfl]
  exact meetsMono (genMeets rfl rfl rfl names shape saw settled) (fun _ _ made => ⟨pDC,known,made⟩)
    (fun _ _ made => ⟨pDC,known,made⟩)

theorem createDirMeets (log : Log Op Reply) : Meets (rules m inOrder) log (prodCreateModelDir m)
    (fun l _ => Saw m l ∧ (Settled m log → Settled m l) ∧
      Since (fun op => ∀ path, op.file = some path → path = storePath m .one) log l)
    (fun _ _ => True) := by
  let good : Op → Prop := fun op => ∀ path, op.file = some path → path = storePath m .one
  have only : Only good (prodCreateModelDir m) :=
    onlyCreateModelDir (by simp [good,Op.file]) (by simp [good,Op.file])
      (fun path file => (Option.some.inj file).symm)
  have seen : Meets (rules m inOrder) log (prodCreateModelDir m)
      (fun l _ => Saw m l ∧ (Settled m log → Settled m l)) (fun _ _ => True) := by
    simp only [prodCreateModelDir,meetsBind,meetsPerform]
    refine ⟨trivial,fun r _ => ?_⟩
    have made (l : Log Op Reply) : Meets (rules m inOrder) l (touch [piDir,m,oneStore m])
        (fun l _ => Saw m l ∧ (Settled m log → Settled m l)) (fun _ _ => True) := by
      simp only [touch,meetsBind,meetsPerform]
      refine ⟨trivial,fun r _ => ?_⟩
      have last : (Op.create (storePath m .one),Reply.ok) ∈ l ++ [(.create (storePath m .one),.ok)] :=
        List.mem_append_right _ (List.mem_singleton_self _)
      cases r with
      | ok => exact ⟨.inr last,fun _ _ => last⟩
      | _ => trivial
    have make (l : Log Op Reply) : Meets (rules m inOrder) l (do
        mkdirShared cannotCreate [piDir,m]
        touch [piDir,m,oneStore m])
        (fun l _ => Saw m l ∧ (Settled m log → Settled m l)) (fun _ _ => True) := by
      simp only [mkdirShared,meetsBind,meetsPerform]
      refine ⟨trivial,fun r _ => ?_⟩
      cases r with
      | ok => exact made _
      | eexist => exact made _
      | _ => trivial
    cases r with
    | ok =>
      have test : Since (fun op => op.target = none) log (log ++ [(.opensDir [piDir,m],.ok)]) :=
        sinceCall (by rfl) log .ok
      exact ⟨.inl (List.mem_append_right _ (List.mem_singleton_self _)),fun settled =>
        settledSince settled test (fun op none_ => by simp [none_])⟩
    | _ => exact make _
  refine meetsMono (meetsAnd (onlyRules only log) seen) ?_ (fun _ _ _ => trivial)
  exact fun l _ done => ⟨done.2.1,done.2.2,done.1⟩

theorem quietTest {op : Op} (none_ : op.target = none) : Quiet m op :=
  ⟨by simp [none_],fun _ file => by simpa [none_] using fileTarget file⟩

theorem quietData (place : Text × Nat) {op : Op} (target : op.target = some (dataFile m place)) :
    Quiet m op := by
  refine ⟨fun dir => ?_,fun path file => ?_⟩
  · rw [target] at dir
    simp [dataFile] at dir
  · cases Option.some.inj ((fileTarget file).symm.trans target)
    exact pyFootData m

theorem quietStore {op : Op} (target : op.target = some (storePath m .one)) : Quiet m op := by
  refine ⟨fun dir => ?_,fun path file => ?_⟩
  · rw [target] at dir
    simp [storePath] at dir
  · cases Option.some.inj ((fileTarget file).symm.trans target)
    exact pyFootStore m

theorem quietDir (dir : Text) : Quiet m (.mkdir [piDir,m,dir]) :=
  ⟨by simp [Op.target],by simp [Op.file]⟩

theorem writeLoadsQuiet (ctx : PIContext) (loadName dataDir : Text) (dataIdx : Nat) :
    Only (Quiet m) (prodWriteLoadData ctx m loadName dataDir dataIdx) :=
  onlyBind (onlyAssert _ _) (fun _ => onlyWriteLoadFile (quietTest rfl) (quietDir _)
    (quietData (dataDir,dataIdx) rfl) (fun _ => quietData (dataDir,dataIdx) rfl))

theorem writeStoresQuiet (ctx : PIContext) (storeName dataDir : Text) (dataIdx : Nat) :
    Only (Quiet m) (prodWriteStoreData ctx m dataDir dataIdx storeName) :=
  onlyBind (onlyAssert _ _) (fun _ => onlyWriteStoreFile (quietTest rfl)
    (fun _ => quietData (dataDir,dataIdx) rfl))

theorem storeInfoQuiet (name : Text) (tID : TypeID) (nmemb : Int) :
    Only (Quiet m) (prodWriteStoreInfo m name tID nmemb .one) := by
  refine onlyBind ((onlyPerform _).mpr (quietTest rfl)) (fun r => ?_)
  cases r with
  | ok =>
    refine onlyBind ((onlyPerform _).mpr (quietTest rfl)) (fun r => ?_)
    have create : Only (Quiet m) (do
        touch (storePath m .one)
        let _ ← (perform (.write (storePath m .one) (storeRecord name tID nmemb)) : Steps Reply)
        pure ()) := by
      refine onlyBind (onlyTouch (quietStore rfl)) (fun _ => ?_)
      exact onlyBind ((onlyPerform _).mpr (quietStore rfl)) (fun _ => trivial)
    cases r with
    | ok =>
      refine onlyBind ((onlyPerform _).mpr (quietStore rfl)) (fun r => ?_)
      cases r <;> trivial
    | _ => exact create
  | _ => trivial

def NoModelFile (m : Text) (op : Op) : Prop := ∀ path, op.file = some path → ¬ (pyFoot m).writes path

/- The log of a network of the model: the first child generates at its end. -/
structure Networked (m modPath : Text) (zero inOrder : Prop) (ctx : PIContext)
    (loads stores : List Text) (log later : Log Op Reply) : Prop where
  settled : inOrder → Settled m later
  others : ¬ zero → Since (NoModelFile m) log later
  first : zero → ∃ mid ctx' pDC, combineLoad ctx loads = .ok ctx' ∧
    ctx'.loadMap (loads.headD []) = some pDC ∧ Since (NoModelFile m) log mid ∧
    Generated m (modelText m modPath loads stores pDC.nmemb) inOrder mid later

theorem generatedSettled (settled : Settled m log)
    (generated : Generated m text inOrder log later) (here : inOrder) : Settled m later := by
  cases generated with
  | single since whole => exact settledSince settled since (fun op single => single.1)
  | ensemble missing since => exact absurd here missing

theorem nnNetworked {place : Text × Nat} {zero : Prop} {modPath : Text} {ctx : PIContext}
    (inPlace : InPlace m place zero modPath ctx) (loads stores : List Text)
    (settled : inOrder → Settled m log) : Meets (rules m inOrder) log (nn ctx m .one loads stores)
      (fun l _ => Networked m modPath zero inOrder ctx loads stores log l) (fun _ _ => True) := by
  simp only [nn,meetsBind]
  refine requireMeets (fun some_ => requireMeets (fun _ => liftMeets (fun ctx' combined => ?_)))
  have here := framedInPlace (combineLoadFramed combined) inPlace
  refine meetsReturns (createDirMeets log) ?_
  rintro l _ ⟨saw,more,stores_⟩
  have dir : Since (NoModelFile m) log l := sinceMono stores_
    (fun op only path file => (only path file) ▸ pyFootStore m)
  simp only [here.place,writeLoads,meetsBind]
  refine meetsMono (onlyRules (writeLoadsQuiet _ _ _ _) l) ?_ (fun _ _ _ => trivial)
  intro l' _ quiet
  have wrote : Since (NoModelFile m) log l' :=
    sinceTrans dir (sinceMono quiet (fun op quiet => quiet.2))
  have settled' : inOrder → Settled m l' := fun order =>
    settledSince (more (settled order)) quiet (fun op quiet => quiet.1)
  have saw' : Saw m l' := saw.imp (sinceKept quiet) (sinceKept quiet)
  have recorded := recordedInPlace here loads stores
  split
  · next first =>
    obtain ⟨load,rest,rfl⟩ := List.exists_cons_of_ne_nil (of_decide_eq_true some_)
    rw [meetsBind]
    refine meetsReturns (prodMeets recorded.status saw' settled') ?_
    rintro l'' _ ⟨pDC,known,generated⟩
    rw [recorded.modPath] at generated
    exact ⟨fun order => generatedSettled (settled' order) generated order,
      fun other => absurd (recorded.first.mp first) other,
      fun _ => ⟨l',ctx',pDC,combined,known,wrote,generated⟩⟩
  · next later_ =>
    exact ⟨settled',fun _ => wrote,fun zero_ => absurd (recorded.first.mpr zero_) later_⟩

theorem storeQuiet {place : Text × Nat} {zero : Prop} {modPath : Text} {ctx : PIContext}
    (inPlace : InPlace m place zero modPath ctx) (name : Text) (tID : TypeID) (nmemb : Int)
    (data : Pointer) : Only (Quiet m) (store ctx name tID nmemb data) := by
  unfold store
  cases known : ctx.storeModelMap name with
  | none => trivial
  | some entry =>
    obtain ⟨⟨modelName,stg⟩,loads⟩ := entry
    cases inPlace.stores name _ known
    refine onlyBind (onlyLift _) (fun ctx' => ?_)
    have info : Only (Quiet m) (do
        if ctx'.trainIt = 0 then prodWriteStoreInfo m name tID nmemb .one
        pure ctx' : Steps PIContext) := by
      split
      · exact onlyBind (storeInfoQuiet name tID nmemb) (fun _ => trivial)
      · trivial
    cases dataPlace ctx' with
    | none => exact info
    | some place => exact onlyBind (writeStoresQuiet ctx' name place.1 place.2) (fun _ => info)

theorem callQuiet {place : Text × Nat} {zero : Prop} {modPath : Text} {ctx : PIContext}
    (inPlace : InPlace m place zero modPath ctx) {c : Call} (plain : isNN c = false) :
    Only (Quiet m) (call ctx c) := by
  cases c with
  | piLoad name tID nmemb data doAlloc => exact onlyLift _
  | piLoadCB name tID nmemb cb => exact onlyLift _
  | piNN modelName stg loads stores => cases plain
  | piStore name tID nmemb data => exact storeQuiet inPlace name tID nmemb data
  | poke data bytes =>
    simp only [call]
    split <;> trivial

/- What a child of the single model m relies on for its files and for the model file. -/
abbrev bothRules (m : Text) (place : Text × Nat) (zero inOrder : Prop) : Contract Op Reply :=
  (childRules m place zero False).both (rules m inOrder)

section
variable {place : Text × Nat} {zero : Prop} {modPath : Text}

theorem quietCalls {ctx : PIContext} (inPlace : InPlace m place zero modPath ctx)
    {script : List Call} (plain : ∀ c ∈ script, isNN c = false) (log : Log Op Reply) :
    Meets (bothRules m place zero inOrder) log (calls ctx script)
      (fun l next => Since (Quiet m) log l ∧ InPlace m place zero modPath next ∧
        ∃ pieces, effects ctx script = .ok (next,pieces)) (fun _ _ => True) := by
  induction script generalizing ctx log with
  | nil => exact ⟨sinceSelf log,inPlace,[],rfl⟩
  | cons c rest ih =>
    have noNN := plain c List.mem_cons_self
    have one : OneCall m c := fun modelName stg loads stores same => by
      rw [same] at noNN
      cases noNN
    simp only [calls,meetsBind]
    refine meetsMono (meetsBoth (callMeets inPlace one log)
      (onlyRules (callQuiet inPlace noNN) log)) ?_ (fun _ _ _ => trivial)
    rintro l next ⟨⟨pieces,done,after⟩,quiet⟩
    refine meetsMono (ih after.inPlace (fun d inside => plain d (List.mem_cons_of_mem c inside)) l) ?_
      (fun _ _ _ => trivial)
    rintro l' last ⟨later_,place_,more,rested⟩
    refine ⟨sinceTrans quiet later_,place_,pieces ++ more,?_⟩
    simp [effects,done,rested,bind,Except.bind,pure,Except.pure]

theorem callsAppend (ctx : PIContext) (first second : List Call) :
    calls ctx (first ++ second) = calls ctx first >>= fun next => calls next second := by
  induction first generalizing ctx with
  | nil => rfl
  | cons c rest ih =>
    have assoc : ∀ (p : Steps PIContext) (f g : PIContext → Steps PIContext),
        (p >>= f >>= g) = (p >>= fun a => f a >>= g) := by
      intro p f g
      induction p with
      | ret a => rfl
      | stop e => rfl
      | call op next more => exact congrArg (Prog.call op) (funext more)
    rw [List.cons_append,calls,calls,assoc]
    exact congrArg _ (funext ih)

def scripted (m : Text) (loads stores : List Text) (before after : List Call) : List Call :=
  before ++ .piNN m .one loads stores :: after

/- What the child of such a script leaves: where it generates the model file, and no
file of an ensemble beside it. -/
structure Leaves (m modPath : Text) (zero inOrder : Prop) (ctx : PIContext)
    (loads stores : List Text) (before : List Call) (log : Log Op Reply) : Prop where
  settled : inOrder → Settled m log
  others : ¬ zero → NoLoadFiles m log
  first : zero → ∃ ctx₁ pieces ctx₂ pDC, effects ctx before = .ok (ctx₁,pieces) ∧
    combineLoad ctx₁ loads = .ok ctx₂ ∧ ctx₂.loadMap (loads.headD []) = some pDC ∧
    (replay (templatePath m) none log = none ∨
      replay (templatePath m) none log = some (modelText m modPath loads stores pDC.nmemb)) ∧
    (inOrder ∨ replay (templatePath m) none log ≠ none → NoLoadFiles m log)

theorem scriptedLeaves {ctx : PIContext} (inPlace : InPlace m place zero modPath ctx)
    {loads stores : List Text} {before after : List Call} (plain : ∀ c ∈ before, isNN c = false)
    (rest : ∀ c ∈ after, isNN c = false) :
    Meets (bothRules m place zero inOrder) [] (calls ctx (scripted m loads stores before after))
      (fun l _ => Leaves m modPath zero inOrder ctx loads stores before l) (fun _ _ => True) := by
  rw [scripted,callsAppend,meetsBind]
  refine meetsMono (quietCalls inPlace plain []) ?_ (fun _ _ _ => trivial)
  rintro l₁ ctx₁ ⟨quiet₁,here,pieces,done⟩
  have settled₀ : Settled m [] := by
    rintro ⟨e,inside,_⟩
    exact absurd inside List.not_mem_nil
  have settled₁ : Settled m l₁ := settledSince settled₀ quiet₁ (fun op quiet => quiet.1)
  simp only [calls,meetsBind]
  have one : OneCall m (.piNN m .one loads stores) := by
    intro modelName stg loads stores same
    cases same
    exact ⟨rfl,rfl⟩
  refine meetsMono (meetsBoth (callMeets here one l₁) (nnNetworked here loads stores
    (fun _ => settled₁))) ?_ (fun _ _ _ => trivial)
  rintro l₂ ctx₂ ⟨⟨_,_,after₂⟩,networked⟩
  refine meetsMono (quietCalls after₂.inPlace rest l₂) ?_ (fun _ _ _ => trivial)
  rintro l₃ ctx₃ ⟨quiet₃,_,_,_⟩
  have begins : NoLoadFiles m l₁ :=
    noLoadFilesSince (fun e inside => absurd inside List.not_mem_nil) quiet₁ (fun op => quietLoads)
  have noFiles {op : Op} (none_ : NoModelFile m op) (load : Text) :
      op.file ≠ some (loadTemplatePath m load) := fun file => none_ _ file (.inl (.inr ⟨load,rfl⟩))
  refine ⟨fun order => settledSince (networked.settled order) quiet₃ (fun op quiet => quiet.1),
    fun other => ?_,fun zero_ => ?_⟩
  · exact noLoadFilesSince (noLoadFilesSince begins (networked.others other) (fun op => noFiles)) quiet₃
      (fun op => quietLoads)
  · obtain ⟨mid,ctx',pDC,combined,known,since,generated⟩ := networked.first zero_
    refine ⟨ctx₁,pieces,ctx',pDC,done,combined,known,?_⟩
    have noneYet : replay (templatePath m) none mid = none := by
      rw [sinceReplay since (fun op none_ file => none_ _ file (.inl (.inl rfl))),
        sinceReplay quiet₁ (fun op => quietTemplate)]
      rfl
    have clear := noLoadFilesSince begins since (fun op => noFiles)
    rw [sinceReplay quiet₃ (fun op => quietTemplate)]
    cases generated with
    | single made whole =>
      refine ⟨(whole none).imp (fun same => same.trans noneYet) id,fun _ => ?_⟩
      exact noLoadFilesSince (noLoadFilesSince clear made (fun op single => single.2)) quiet₃
        (fun op => quietLoads)
    | ensemble missing made =>
      have still : replay (templatePath m) none l₂ = none := by
        rw [sinceReplay made (fun op other => other),noneYet]
      exact ⟨.inl still,fun found => absurd (found.resolve_left missing) (not_not.mpr still)⟩

end

end

end Autonomizer.Template
