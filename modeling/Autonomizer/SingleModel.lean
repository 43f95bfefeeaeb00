import Mathlib
import Autonomizer.Footprint
import Autonomizer.Shared

/-! What one child of a production run does to the files of a single model, against
any other children: its data file, its part of the store file, the template. -/
namespace Autonomizer.SingleModel
open Data FileIO FileSystem Footprint Format PIInc PIModelManager Process ProgIntel PyInterface

def dataFile (m : Text) (place : Text × Nat) : Path := [piDir,m,place.1,decimal place.2]

/- zero is the first child, which alone calls Python and writes store information. -/
def childFoot (m : Text) (place : Text × Nat) (zero : Prop) : Footprint where
  mkdir path := path = [piDir] ∨ path = [piDir,m] ∨ ∃ l, path = [piDir,m,l]
  create path := path = storePath m .one ∨ path = dataFile m place ∨ (zero ∧ (pyFoot m).create path)
  put path := path = dataFile m place ∨ (zero ∧ (path = storePath m .one ∨ (pyFoot m).put path))

/- A child writes store information at the beginning of a file only when it has just
created it. What it relies on: a file it created is there, and alone is the case of a
child that nobody has gone before or beside. -/
def childRules (m : Text) (place : Text × Nat) (zero alone : Prop) : Contract Op Reply where
  calls log op := (childFoot m place zero).allows op ∧
    ∀ text, op = .write (storePath m .one) text → log.getLast? = some (.create (storePath m .one),.ok)
  replies log op r :=
    (op = .opens (storePath m .one) → (.create (storePath m .one),.ok) ∈ log → r = .ok) ∧
    (alone → op = .opensDir [piDir,m] → (∀ e ∈ log, e.1.target ≠ some [piDir,m]) → r ≠ .ok)

def Plain (m : Text) (place : Text × Nat) (zero : Prop) (op : Op) : Prop :=
  (childFoot m place zero).allows op ∧ ∀ text, op ≠ .write (storePath m .one) text

inductive Piece where
  | input (name : Text) (nmemb : Int) (values : List Scalar)
  | output (name : Text) (nmemb : Int) (values : List Scalar)

/- An input starts the file anew and an output is appended. -/
def Piece.onto (text : Option Text) : Piece → Option Text
  | .input name nmemb values => some (loadText name nmemb values)
  | .output name nmemb values => some (text.getD [] ++ storeText name nmemb values)

/- A call without its files: the context it leaves and what it adds to the data file. -/
def effectOf (ctx : PIContext) : Call → Except Stop (PIContext × List Piece)
  | .piLoad name tID nmemb data doAlloc => do return (← load ctx name tID nmemb data doAlloc,[])
  | .piLoadCB name tID nmemb cb => do return (← loadCB ctx name tID nmemb cb,[])
  | .piNN modelName stg loadNames storeNames => do
      let ctx ← combineLoad ctx loadNames
      match ctx.loadMap (loadNames.headD []) with
      | none => throw .null
      | some pDC => do
        let values ← loadValues pDC ctx.memory
        return (recordStores ctx modelName stg loadNames storeNames,
          [.input (loadNames.headD []) pDC.nmemb values])
  | .piStore name tID nmemb data => do
      let ctx ← storeContext ctx name tID nmemb data
      match ctx.storeMap name with
      | none => throw .null
      | some pDC => do
        let values ← storeValues pDC ctx.memory
        return (ctx,[.output name pDC.nmemb values])
  | .poke data bytes => if data = 0 then throw .undefined else return (poke ctx data bytes,[])

def effects (ctx : PIContext) : List Call → Except Stop (PIContext × List Piece)
  | [] => .ok (ctx,[])
  | c :: rest => do
      let (ctx,first) ← effectOf ctx c
      let (ctx,more) ← effects ctx rest
      return (ctx,first ++ more)

def recordOf : Call → List Text
  | .piStore name tID nmemb _ => [storeRecord name tID nmemb]
  | _ => []

def isNN : Call → Bool
  | .piNN .. => true
  | _ => false

def OneCall (m : Text) (c : Call) : Prop :=
  ∀ modelName stg loads stores, c = .piNN modelName stg loads stores → modelName = m ∧ stg = .one

def Framed (ctx next : PIContext) : Prop :=
  next = { ctx with loadMap := next.loadMap, storeMap := next.storeMap, memory := next.memory }

theorem framedTrans {a b c : PIContext} (first : Framed a b) (second : Framed b c) : Framed a c := by
  rw [Framed] at *
  rw [second,first]

theorem loadFramed {ctx next : PIContext} {name : Text} {tID : TypeID} {nmemb : Int}
    {data : Pointer} {doAlloc : Bool} (done : load ctx name tID nmemb data doAlloc = .ok next) :
    Framed ctx next := by
  simp only [load,bind,Except.bind] at done
  split at done <;> try contradiction
  split at done <;> try contradiction
  cases done
  rfl

theorem loadCBFramed {ctx next : PIContext} {name : Text} {tID : TypeID} {nmemb : Int}
    {cb : CPIO.Bytes} (done : loadCB ctx name tID nmemb cb = .ok next) : Framed ctx next := by
  simp only [loadCB,bind,Except.bind] at done
  split at done <;> try contradiction
  split at done <;> try contradiction
  cases done
  rfl

theorem storeContextFramed {ctx next : PIContext} {name : Text} {tID : TypeID} {nmemb : Int}
    {data : Pointer} (done : storeContext ctx name tID nmemb data = .ok next) : Framed ctx next := by
  simp only [storeContext,bind,Except.bind] at done
  split at done <;> try contradiction
  split at done <;> try contradiction
  cases done
  rfl

theorem combinedContextFramed {ctx next : PIContext} {name : Text} {pDC : DataContext}
    (done : combinedContext ctx name = .ok (pDC,next)) : Framed ctx next := by
  simp only [combinedContext,bind,Except.bind] at done
  split at done
  · cases done; rfl
  · split at done <;> try contradiction
    split at done <;> try contradiction
    split at done <;> try contradiction
    cases done
    rfl

theorem combineLoadFramed {ctx next : PIContext} {names : List Text}
    (done : combineLoad ctx names = .ok next) : Framed ctx next := by
  induction names generalizing ctx with
  | nil => cases done; rfl
  | cons name rest ih =>
    simp only [combineLoad,bind,Except.bind] at done
    split at done
    · split at done <;> try contradiction
      rename_i pair made
      split at done <;> try contradiction
      split at done <;> try contradiction
      rename_i m _
      have filled : Framed pair.2 { pair.2 with memory := m } := rfl
      exact framedTrans (combinedContextFramed made) (framedTrans filled (ih done))
    · exact ih done

/- A context of the child with this place, whose networks so far are the model m. -/
structure InPlace (m : Text) (place : Text × Nat) (zero : Prop) (modPath : Text)
    (ctx : PIContext) : Prop where
  place : dataPlace ctx = some place
  first : ctx.trainIt = 0 ↔ zero
  status : ctx.status = .sprod
  modPath : ctx.modPath = modPath
  stores : ∀ name entry, ctx.storeModelMap name = some entry → entry.1 = (m,.one)

section
variable {m : Text} {place : Text × Nat} {zero : Prop} {modPath : Text}

theorem framedInPlace {ctx next : PIContext} (framed : Framed ctx next)
    (inPlace : InPlace m place zero modPath ctx) : InPlace m place zero modPath next := by
  rw [framed]
  exact ⟨inPlace.place,inPlace.first,inPlace.status,inPlace.modPath,inPlace.stores⟩

theorem recordedInPlace {ctx : PIContext} (inPlace : InPlace m place zero modPath ctx)
    (loads stores : List Text) : InPlace m place zero modPath (recordStores ctx m .one loads stores) := by
  refine ⟨inPlace.place,inPlace.first,inPlace.status,inPlace.modPath,?_⟩
  intro name entry found
  simp only [recordStores] at found
  split at found
  · cases found; rfl
  · exact inPlace.stores name entry found

end

theorem dataFileDeep (m : Text) (place : Text × Nat) : storePath m .one ≠ dataFile m place := by
  simp [storePath,dataFile]

theorem pyFootFile {m : Text} {path : Path} (writes : (pyFoot m).writes path) :
    path = templatePath m ∨ ∃ l, path = loadTemplatePath m l := by
  rcases writes with h | h <;> exact h

theorem pyFootStore (m : Text) : ¬ (pyFoot m).writes (storePath m .one) := by
  intro writes
  rcases pyFootFile writes with same | ⟨l,same⟩
  · simp only [storePath,templatePath,oneStore,List.cons.injEq,true_and,and_true] at same
    exact absurd (List.append_cancel_left same) (by decide)
  · simp [storePath,loadTemplatePath] at same

theorem pyFootData (m : Text) {place : Text × Nat} : ¬ (pyFoot m).writes (dataFile m place) := by
  intro writes
  rcases pyFootFile writes with same | ⟨l,same⟩
  · simp [dataFile,templatePath] at same
  · simp only [dataFile,loadTemplatePath,List.cons.injEq,true_and,and_true] at same
    have dot : '.' ∈ decimal place.2 := by rw [same.2]; simp
    exact decimalAvoids ⟨by decide,by decide⟩ _ dot

def On (m : Text) (place : Text × Nat) (zero : Prop) (files : Path → Prop) (op : Op) : Prop :=
  Plain m place zero op ∧ ∀ path, op.file = some path → files path

theorem sinceReplay {good : Op → Prop} {log later : Log Op Reply} {path : Path}
    (since : Since good log later) (other : ∀ op, good op → op.file ≠ some path)
    (text : Option Text) : replay path text later = replay path text log := by
  obtain ⟨more,rfl,all⟩ := since
  rw [replayAppend,replayOther (fun e inside => other _ (all e inside))]

theorem sincePuts {good : Op → Prop} {log later : Log Op Reply} {path : Path}
    (since : Since good log later) (nothing : ∀ op r, good op → putText path (op,r) = []) :
    puts path later = puts path log := by
  obtain ⟨more,rfl,all⟩ := since
  have none : puts path more = [] :=
    List.flatMap_eq_nil_iff.mpr (fun e inside => nothing e.1 e.2 (all e inside))
  rw [putsAppend,none,List.append_nil]

section
variable {m : Text} {place : Text × Nat} {zero alone : Prop} {modPath : Text}
  {files : Path → Prop} {log later : Log Op Reply}

theorem onReplay {path : Path} (since : Since (On m place zero files) log later)
    (apart : ¬ files path) (text : Option Text) : replay path text later = replay path text log :=
  sinceReplay since (fun _ on file => apart (on.2 path file)) text

theorem onPuts {path : Path} (since : Since (On m place zero files) log later)
    (apart : ¬ files path) : puts path later = puts path log :=
  sincePuts since (fun _ r on => putOther (fun file => apart (on.2 path file)) r)

theorem plainCalls {op : Op} (plain : Plain m place zero op) (log : Log Op Reply) :
    (childRules m place zero alone).calls log op :=
  ⟨plain.1,fun text same => absurd same (plain.2 text)⟩

theorem onCalls {op : Op} (on : On m place zero files op) (log : Log Op Reply) :
    (childRules m place zero alone).calls log op := plainCalls on.1 log

theorem plainTest (path : Path) : Plain m place zero (.opensDir path) := ⟨trivial,by simp⟩

theorem plainOpens (path : Path) : Plain m place zero (.opens path) := ⟨trivial,by simp⟩

theorem plainModelDir : Plain m place zero (.mkdir [piDir,m]) := ⟨.inr (.inl rfl),by simp⟩

theorem plainStoreFile : Plain m place zero (.create (storePath m .one)) := ⟨.inl rfl,by simp⟩

theorem plainRecord (first : zero) (text : Text) :
    Plain m place zero (.append (storePath m .one) text) := ⟨.inr ⟨first,.inl rfl⟩,by simp⟩

theorem onSince {ε α : Type} {p : Prog Op Reply ε α} (only : Only (On m place zero files) p)
    (log : Log Op Reply) : Meets (childRules m place zero alone) log p
      (fun l _ => Since (On m place zero files) log l) (fun _ _ => True) :=
  meetsMono (onlySince only (fun log _ on => onCalls on log) log) (fun _ _ h => h)
    (fun _ _ _ => trivial)

def Creates (m : Text) (place : Text × Nat) (zero : Prop) (op : Op) : Prop :=
  On m place zero (· = storePath m .one) op ∧ ∀ path r, putText path (op,r) = []

theorem createDirOnly : Only (Creates m place zero) (prodCreateModelDir m) := by
  refine onlyCreateModelDir ?_ ?_ ?_
  · exact ⟨⟨plainTest _,by simp [Op.file]⟩,fun _ _ => rfl⟩
  · exact ⟨⟨plainModelDir,by simp [Op.file]⟩,fun _ _ => rfl⟩
  · exact ⟨⟨plainStoreFile,fun path file => (Option.some.inj file).symm⟩,fun _ _ => rfl⟩

theorem createDirMeets (log : Log Op Reply) : Meets (childRules m place zero alone) log
    (prodCreateModelDir m) (fun l _ => Since (Creates m place zero) log l ∧
      (alone → (∀ e ∈ log, e.1.target ≠ some [piDir,m]) → (.create (storePath m .one),.ok) ∈ l))
    (fun _ _ => True) := by
  have since := onlySince (c := childRules m place zero alone) createDirOnly
    (fun log _ creates => onCalls creates.1 log) log
  refine meetsMono (meetsAnd since (R := fun l _ =>
    alone → (∀ e ∈ log, e.1.target ≠ some [piDir,m]) → (.create (storePath m .one),.ok) ∈ l)
    (F := fun _ _ => True) ?_) (fun _ _ h => h) (fun _ _ _ => trivial)
  have made : ∀ l : Log Op Reply, Meets (childRules m place zero alone) l (do
      mkdirShared cannotCreate [piDir,m]
      touch [piDir,m,oneStore m]) (fun l _ => (.create (storePath m .one),.ok) ∈ l)
      (fun _ _ => True) := by
    intro l
    simp only [mkdirShared,touch,meetsBind,meetsPerform]
    refine ⟨plainCalls plainModelDir l,fun r _ => ?_⟩
    have created : ∀ l : Log Op Reply, Meets (childRules m place zero alone) l
        (touch [piDir,m,oneStore m]) (fun l _ => (.create (storePath m .one),.ok) ∈ l)
        (fun _ _ => True) := by
      intro l
      simp only [touch,meetsBind,meetsPerform]
      refine ⟨plainCalls plainStoreFile l,fun r _ => ?_⟩
      cases r with
      | ok => exact List.mem_append_right _ (List.mem_singleton_self _)
      | _ => trivial
    cases r with
    | ok => exact created _
    | eexist => exact created _
    | _ => trivial
  simp only [prodCreateModelDir,meetsBind,meetsPerform]
  refine ⟨plainCalls (plainTest _) log,fun r reply => ?_⟩
  cases r with
  | ok => exact fun first fresh => absurd rfl (reply.2 first rfl fresh)
  | _ => exact meetsReturns (made _) (fun _ _ h _ _ => h)

theorem knownMeets {dataDir : Text} {c : Contract Op Reply} {Q : Log Op Reply → Unit → Prop}
    (holds : Q log ()) : Meets c log (knownDataDir dataDir) Q (fun _ _ => True) := by
  unfold knownDataDir require
  split
  · exact holds
  · trivial

theorem liftMeets {α : Type} {c : Contract Op Reply} {x : Except Stop α}
    {Q : Log Op Reply → α → Prop} (holds : ∀ a, x = .ok a → Q log a) :
    Meets c log (lift x) Q (fun _ _ => True) := by
  cases x with
  | ok a => exact holds a rfl
  | error e => trivial

theorem requireMeets {cond : Bool} {what : String} {c : Contract Op Reply}
    {Q : Log Op Reply → Unit → Prop} (holds : cond = true → Q log ()) :
    Meets c log (require cond what) Q (fun _ _ => True) := by
  unfold require
  split
  · exact holds (by assumption)
  · trivial

theorem onOpensDir (path : Path) : On m place zero (· = dataFile m place) (.opensDir path) :=
  ⟨plainTest path,by simp [Op.file]⟩

theorem onDataDir : On m place zero (· = dataFile m place) (.mkdir [piDir,m,place.1]) :=
  ⟨⟨.inr (.inr ⟨place.1,rfl⟩),by simp⟩,by simp [Op.file]⟩

theorem onDataCreate : On m place zero (· = dataFile m place) (.create (dataFile m place)) :=
  ⟨⟨.inr (.inl rfl),by simp⟩,fun _ file => (Option.some.inj file).symm⟩

theorem onDataWrite (text : Text) :
    On m place zero (· = dataFile m place) (.write (dataFile m place) text) := by
  refine ⟨⟨.inl rfl,fun text same => ?_⟩,fun _ file => (Option.some.inj file).symm⟩
  exact dataFileDeep m place (Op.write.inj same).1.symm

theorem onDataAppend (text : Text) :
    On m place zero (· = dataFile m place) (.append (dataFile m place) text) :=
  ⟨⟨.inl rfl,by simp⟩,fun _ file => (Option.some.inj file).symm⟩

theorem writeLoadsMeets {ctx : PIContext} {loadName : Text} (log : Log Op Reply) :
    Meets (childRules m place zero alone) log (prodWriteLoadData ctx m loadName place.1 place.2)
      (fun l _ => Since (On m place zero (· = dataFile m place)) log l ∧
        ∃ pDC values, ctx.loadMap loadName = some pDC ∧ loadValues pDC ctx.memory = .ok values ∧
          ∀ text, replay (dataFile m place) text l = some (loadText loadName pDC.nmemb values))
      (fun _ _ => True) := by
  have only : Only (On m place zero (· = dataFile m place))
      (prodWriteLoadData ctx m loadName place.1 place.2) :=
    onlyBind (onlyAssert _ _) (fun _ =>
      onlyWriteLoadFile (onOpensDir _) onDataDir onDataCreate onDataWrite)
  have written : ∀ l : Log Op Reply, Meets (childRules m place zero alone) l
      (writeLoadData (ctx.loadMap loadName) ctx.memory loadName (dataFile m place))
      (fun l _ => ∃ pDC values, ctx.loadMap loadName = some pDC ∧
        loadValues pDC ctx.memory = .ok values ∧
        ∀ text, replay (dataFile m place) text l = some (loadText loadName pDC.nmemb values))
      (fun _ _ => True) := by
    intro l
    simp only [writeLoadData,meetsBind,meetsPerform]
    refine ⟨onCalls onDataCreate l,fun r _ => ?_⟩
    cases r with
    | ok =>
      cases found : ctx.loadMap loadName with
      | none => trivial
      | some pDC =>
        simp only [meetsBind]
        refine requireMeets (fun _ => liftMeets (fun values got => ?_))
        simp only [meetsPerform]
        refine ⟨onCalls (onDataWrite _) _,fun r _ => ⟨pDC,values,rfl,got,fun text => ?_⟩⟩
        rw [replaySnoc,replaySnoc]
        simp [effect]
    | _ => trivial
  refine meetsMono (meetsAnd (onSince only log) (R := fun l _ =>
    ∃ pDC values, ctx.loadMap loadName = some pDC ∧ loadValues pDC ctx.memory = .ok values ∧
      ∀ text, replay (dataFile m place) text l = some (loadText loadName pDC.nmemb values))
    (F := fun _ _ => True) ?_) (fun _ _ h => h) (fun _ _ _ => trivial)
  simp only [prodWriteLoadData,writeLoadFile,meetsBind]
  refine knownMeets ?_
  simp only [meetsPerform]
  refine ⟨plainCalls (plainTest _) log,fun r _ => ?_⟩
  cases r with
  | ok => exact written _
  | _ =>
    simp only [mkdirShared,meetsBind,meetsPerform]
    refine ⟨onCalls onDataDir _,fun r _ => ?_⟩
    cases r with
    | ok => exact written _
    | eexist => exact written _
    | _ => trivial

theorem writeStoresMeets {ctx : PIContext} {name : Text} (log : Log Op Reply) :
    Meets (childRules m place zero alone) log (prodWriteStoreData ctx m place.1 place.2 name)
      (fun l _ => Since (On m place zero (· = dataFile m place)) log l ∧
        ∃ pDC values, ctx.storeMap name = some pDC ∧ storeValues pDC ctx.memory = .ok values ∧
          ∀ text, replay (dataFile m place) text l =
            some ((replay (dataFile m place) text log).getD [] ++ storeText name pDC.nmemb values))
      (fun _ _ => True) := by
  have only : Only (On m place zero (· = dataFile m place))
      (prodWriteStoreData ctx m place.1 place.2 name) :=
    onlyBind (onlyAssert _ _) (fun _ => onlyWriteStoreFile (onOpensDir _) onDataAppend)
  refine meetsMono (meetsAnd (onSince only log) (R := fun l _ =>
    ∃ pDC values, ctx.storeMap name = some pDC ∧ storeValues pDC ctx.memory = .ok values ∧
      ∀ text, replay (dataFile m place) text l =
        some ((replay (dataFile m place) text log).getD [] ++ storeText name pDC.nmemb values))
    (F := fun _ _ => True) ?_) (fun _ _ h => h) (fun _ _ _ => trivial)
  simp only [prodWriteStoreData,writeStoreFile,meetsBind]
  refine knownMeets ?_
  simp only [meetsPerform]
  refine ⟨plainCalls (plainTest _) log,fun r _ => ?_⟩
  cases r with
  | ok =>
    cases found : ctx.storeMap name with
    | none => trivial
    | some pDC =>
      simp only [writeStoreData,meetsBind]
      refine liftMeets (fun values got => ?_)
      simp only [meetsPerform]
      refine ⟨onCalls (onDataAppend _) _,fun r _ => ?_⟩
      cases r with
      | ok =>
        refine ⟨pDC,values,rfl,got,fun text => ?_⟩
        have file : [piDir,m,place.1] ++ [decimal place.2] = dataFile m place := rfl
        rw [file,replaySnoc,replaySnoc]
        simp [effect]
      | _ => trivial
  | _ => trivial

theorem prodOnly (first : zero) {ctx : PIContext} (loads stores : List Text) :
    Only (On m place zero (pyFoot m).writes) (PyInterface.prod ctx m loads stores) := by
  refine onlyMono (onlyPython ctx m loads stores) (fun op allowed => ⟨⟨?_,?_⟩,?_⟩)
  · cases op with
    | mkdir path => exact allowed
    | create path => exact .inr (.inr ⟨first,allowed⟩)
    | write path text => exact .inr ⟨first,.inr allowed⟩
    | append path text => exact .inr ⟨first,.inr allowed⟩
    | _ => trivial
  · rintro text rfl
    exact pyFootStore m (.inr allowed)
  · exact fun path file => writesFile allowed file

theorem storeInfoMeets (first : zero) (name : Text) (tID : TypeID) (nmemb : Int)
    (log : Log Op Reply) : Meets (childRules m place zero alone) log
      (prodWriteStoreInfo m name tID nmemb .one)
      (fun l _ => Since (fun op => ∀ path, op.file = some path → path = storePath m .one) log l ∧
        puts (storePath m .one) l = puts (storePath m .one) log ++ [storeRecord name tID nmemb])
      (fun _ _ => True) := by
  let mine : Op → Prop := fun op => ∀ path, op.file = some path → path = storePath m .one
  have test (path : Path) (r : Reply) : Since mine log (log ++ [(.opensDir path,r)]) :=
    sinceCall (by simp [mine,Op.file]) log r
  have more {l : Log Op Reply} (op : Op) (r : Reply) (own : mine op) (since : Since mine log l) :
      Since mine log (l ++ [(op,r)]) := sinceTrans since (sinceCall own l r)
  have here (op : Op) (file : op.file = some (storePath m .one)) : mine op := by
    intro path other
    rw [file] at other
    exact (Option.some.inj other).symm
  simp only [prodWriteStoreInfo,meetsBind,meetsPerform]
  refine ⟨plainCalls (plainTest _) log,fun r _ => ?_⟩
  cases r with
  | ok =>
    simp only [meetsBind,meetsPerform]
    refine ⟨plainCalls (plainOpens _) _,fun r _ => ?_⟩
    have opened := more (.opens (storePath m .one)) r (by simp [mine,Op.file]) (test [piDir,m] .ok)
    cases r with
    | ok =>
      simp only [meetsBind,meetsPerform]
      refine ⟨plainCalls (plainRecord first _) _,fun r _ => ?_⟩
      cases r with
      | ok =>
        refine ⟨more _ _ (here _ rfl) opened,?_⟩
        simp [puts,putText]
      | _ => trivial
    | _ =>
      simp only [touch,meetsBind,meetsPerform]
      refine ⟨plainCalls plainStoreFile _,fun r _ => ?_⟩
      cases r with
      | ok =>
        simp only [meetsPure]
        refine ⟨⟨.inr ⟨first,.inl rfl⟩,fun _ _ => by simp⟩,fun r _ => ?_⟩
        refine ⟨more _ _ (here _ rfl) (more _ _ (here _ rfl) opened),?_⟩
        cases r <;> simp [puts,putText]
      | _ => trivial
  | _ => trivial

def OwnFile (m : Text) (place : Text × Nat) (op : Op) : Prop :=
  ∀ path, op.file = some path → path = dataFile m place ∨ path = storePath m .one

structure Done (m : Text) (place : Text × Nat) (zero : Prop) (modPath : Text)
    (log later : Log Op Reply) (next : PIContext) (pieces : List Piece) (script : List Call) :
    Prop where
  inPlace : InPlace m place zero modPath next
  data : ∀ text, replay (dataFile m place) text later =
    pieces.foldl Piece.onto (replay (dataFile m place) text log)
  store : zero → puts (storePath m .one) later =
    puts (storePath m .one) log ++ script.flatMap recordOf
  -- without a network there is no Python
  since : script.all (fun c => ¬ isNN c) → Since (OwnFile m place) log later

theorem pythonMeets {ctx : PIContext} (inPlace : InPlace m place zero modPath ctx)
    (loads stores : List Text) (log : Log Op Reply) :
    Meets (childRules m place zero alone) log (do
      if ctx.trainIt = 0 then PyInterface.prod ctx m loads stores
      pure ctx) (fun l next => Since (On m place zero (pyFoot m).writes) log l ∧ next = ctx)
      (fun _ _ => True) := by
  split
  · rename_i first
    rw [meetsBind]
    exact meetsReturns (onSince (prodOnly (inPlace.first.mp first) loads stores) log)
      (fun _ _ since => ⟨since,rfl⟩)
  · exact ⟨sinceSelf log,rfl⟩

theorem nnMeets {ctx : PIContext} (inPlace : InPlace m place zero modPath ctx)
    (loads stores : List Text) (log : Log Op Reply) :
    Meets (childRules m place zero alone) log (nn ctx m .one loads stores)
      (fun l next => ∃ pieces, effectOf ctx (.piNN m .one loads stores) = .ok (next,pieces) ∧
        Done m place zero modPath log l next pieces [.piNN m .one loads stores])
      (fun _ _ => True) := by
  simp only [nn,meetsBind]
  refine requireMeets (fun _ => requireMeets (fun _ => liftMeets (fun ctx' combined => ?_)))
  have here := framedInPlace (combineLoadFramed combined) inPlace
  refine meetsReturns (createDirMeets log) ?_
  rintro l - ⟨dir,-⟩
  simp only [here.place,writeLoads,meetsBind]
  refine meetsReturns (writeLoadsMeets l) ?_
  rintro l' - ⟨wrote,pDC,values,found,got,text⟩
  refine meetsReturns (pythonMeets (recordedInPlace here loads stores) loads stores l') ?_
  rintro l'' next ⟨python,rfl⟩
  refine ⟨[.input (loads.headD []) pDC.nmemb values],?_,recordedInPlace here loads stores,?_,?_,
    fun none => by simp [isNN] at none⟩
  · simp only [effectOf,combined,found,got,bind,Except.bind]
    rfl
  · intro old
    rw [onReplay python (pyFootData m),text]
    rfl
  · intro _
    rw [onPuts python (pyFootStore m),onPuts wrote (dataFileDeep m place),
      sincePuts dir (fun _ r creates => creates.2 _ r)]
    exact (List.append_nil _).symm

theorem storeMeets {ctx : PIContext} (inPlace : InPlace m place zero modPath ctx) (name : Text)
    (tID : TypeID) (nmemb : Int) (data : Pointer) (log : Log Op Reply) :
    Meets (childRules m place zero alone) log (store ctx name tID nmemb data)
      (fun l next => ∃ pieces, effectOf ctx (.piStore name tID nmemb data) = .ok (next,pieces) ∧
        Done m place zero modPath log l next pieces [.piStore name tID nmemb data])
      (fun _ _ => True) := by
  unfold store
  cases known : ctx.storeModelMap name with
  | none => trivial
  | some entry =>
    obtain ⟨⟨modelName,stg⟩,loads⟩ := entry
    cases inPlace.stores name _ known
    simp only [meetsBind]
    refine liftMeets (fun ctx' kept => ?_)
    have here := framedInPlace (storeContextFramed kept) inPlace
    simp only [here.place,writeStores,meetsBind]
    refine meetsReturns (writeStoresMeets log) ?_
    rintro l - ⟨wrote,pDC,values,found,got,text⟩
    have effect_ : effectOf ctx (.piStore name tID nmemb data) =
        .ok (ctx',[.output name pDC.nmemb values]) := by
      simp [effectOf,kept,found,got,bind,Except.bind,pure,Except.pure]
    have own : Since (OwnFile m place) log l :=
      sinceMono wrote (fun op on path file => .inl (on.2 path file))
    split
    · rename_i first
      rw [meetsBind]
      refine meetsReturns (storeInfoMeets (here.first.mp first) name tID nmemb l) ?_
      rintro l' - ⟨since,put⟩
      refine ⟨_,effect_,here,?_,?_,fun _ =>
        sinceTrans own (sinceMono since (fun op only path file => .inr (only path file)))⟩
      · intro old
        rw [sinceReplay since (fun op own file => dataFileDeep m place (own _ file).symm),text]
        rfl
      · intro _
        rw [put,onPuts wrote (dataFileDeep m place)]
        rfl
    · rename_i later
      exact ⟨_,effect_,here,text,fun first => absurd (here.first.mpr first) later,fun _ => own⟩

theorem callMeets {ctx : PIContext} (inPlace : InPlace m place zero modPath ctx) {c : Call}
    (one : OneCall m c) (log : Log Op Reply) :
    Meets (childRules m place zero alone) log (call ctx c)
      (fun l next => ∃ pieces, effectOf ctx c = .ok (next,pieces) ∧
        Done m place zero modPath log l next pieces [c]) (fun _ _ => True) := by
  have quiet {next : PIContext} {c : Call} (framed : Framed ctx next) (none : recordOf c = []) :
      Done m place zero modPath log log next [] [c] :=
    ⟨framedInPlace framed inPlace,fun _ => rfl,fun _ => by simp [none],
      fun _ => sinceSelf log⟩
  cases c with
  | piLoad name tID nmemb data doAlloc =>
    refine liftMeets (fun next done => ⟨[],?_,quiet (loadFramed done) rfl⟩)
    simp [effectOf,done,bind,Except.bind,pure,Except.pure]
  | piLoadCB name tID nmemb cb =>
    refine liftMeets (fun next done => ⟨[],?_,quiet (loadCBFramed done) rfl⟩)
    simp [effectOf,done,bind,Except.bind,pure,Except.pure]
  | piNN modelName stg loads stores =>
    obtain ⟨rfl,rfl⟩ := one modelName stg loads stores rfl
    exact nnMeets inPlace loads stores log
  | piStore name tID nmemb data => exact storeMeets inPlace name tID nmemb data log
  | poke data bytes =>
    simp only [call,effectOf]
    split
    · trivial
    · exact ⟨[],rfl,quiet rfl rfl⟩

theorem doneTrans {a b : PIContext} {l : Log Op Reply} {first more : List Piece}
    {script rest : List Call} (done : Done m place zero modPath log l a first script)
    (after : Done m place zero modPath l later b more rest) :
    Done m place zero modPath log later b (first ++ more) (script ++ rest) := by
  refine ⟨after.inPlace,?_,?_,?_⟩
  · intro text
    rw [after.data,done.data,List.foldl_append]
  · intro zero_
    rw [after.store zero_,done.store zero_,List.flatMap_append,List.append_assoc]
  · intro none
    rw [List.all_append,Bool.and_eq_true] at none
    exact sinceTrans (done.since none.1) (after.since none.2)

theorem callsMeets {ctx : PIContext} (inPlace : InPlace m place zero modPath ctx)
    {script : List Call} (one : ∀ c ∈ script, OneCall m c) (log : Log Op Reply) :
    Meets (childRules m place zero alone) log (calls ctx script)
      (fun l next => ∃ pieces, effects ctx script = .ok (next,pieces) ∧
        Done m place zero modPath log l next pieces script) (fun _ _ => True) := by
  induction script generalizing ctx log with
  | nil =>
    exact ⟨[],rfl,inPlace,fun _ => rfl,fun _ => (List.append_nil _).symm,
      fun _ => sinceSelf log⟩
  | cons c rest ih =>
    simp only [calls,meetsBind]
    refine meetsReturns (callMeets inPlace (one c List.mem_cons_self) log) ?_
    rintro l next ⟨first,effect_,done⟩
    refine meetsReturns (ih done.inPlace (fun d inside => one d (List.mem_cons_of_mem c inside)) l) ?_
    rintro l' last ⟨more,effects_,after⟩
    have done := doneTrans done after
    exact ⟨first ++ more,by simp [effects,effect_,effects_,bind,Except.bind,pure,Except.pure],done⟩

end

/- Where child k of n training inputs and some validation inputs writes its data. -/
def placeOf (n k : Nat) : Text × Nat := if k < n then (piTrainDir,k) else (piValidDir,k - n)

def production (modPath : Text) (n v : Nat) (scripts : Nat → List Call) (k : Nat) : Steps Unit :=
  if k < n + v then child (childContext modPath n v k) (scripts k) else pure ()

theorem childPlace (modPath : Text) {n v k : Nat} (below : k < n + v) :
    dataPlace (childContext modPath n v k) = some (placeOf n k) := by
  by_cases train : k < n
  · have here : k ≠ n := by omega
    have inside : min k n = k := by omega
    simp only [dataPlace,childContext,inside,if_pos here,placeOf,if_pos train]
  · have past : min k n = n := by omega
    have here : k - n ≠ v := by omega
    simp only [dataPlace,childContext,past,ne_eq,not_true_eq_false,if_false,if_pos here,placeOf,
      if_neg train]

theorem childInPlace (m modPath : Text) {n v k : Nat} (some_ : 1 ≤ n) (below : k < n + v) :
    InPlace m (placeOf n k) (k = 0) modPath (childContext modPath n v k) := by
  refine ⟨childPlace modPath below,?_,rfl,rfl,by simp [childContext]⟩
  simp only [childContext]
  omega

def Ended (m modPath : Text) (n v : Nat) (script : List Call) (k : Nat) (log : Log Op Reply) : Prop :=
  k < n + v → ∃ next pieces, effects (childContext modPath n v k) script = .ok (next,pieces) ∧
    Done m (placeOf n k) (k = 0) modPath [] log next pieces script

theorem childMeets {m modPath : Text} {n v : Nat} {scripts : Nat → List Call} (some_ : 1 ≤ n)
    {k : Nat} (one : k < n + v → ∀ c ∈ scripts k, OneCall m c) (alone : Prop) :
    Meets (childRules m (placeOf n k) (k = 0) alone) [] (production modPath n v scripts k)
      (fun l _ => Ended m modPath n v (scripts k) k l) (fun _ _ => True) := by
  unfold production
  split
  · rename_i below
    simp only [child,meetsBind]
    refine meetsReturns (callsMeets (childInPlace m modPath some_ below) (one below) []) ?_
    rintro l next ⟨pieces,effects_,done⟩ -
    exact ⟨next,pieces,effects_,done⟩
  · rename_i outside
    exact fun below => absurd below outside

theorem childReplies {m : Text} {place : Text × Nat} {zero alone : Prop} {fs : FS}
    {foot : Nat → Footprint} {s : Shared.Files Nat Stop} {k : Nat}
    (tracked : Shared.Tracked fs foot s) (absent : fs [piDir,m] = none)
    (others : alone → ∀ j, j ≠ k → s.past j = []) (op : Op) :
    (childRules m place zero alone).replies (s.past k) op (handle op s.shared).1 := by
  constructor
  · rintro rfl made
    obtain ⟨text,found⟩ := Option.isSome_iff_exists.mp (tracked.made k _ made)
    cases there : s.shared (storePath m .one) with
    | none => rw [there] at found; cases found
    | some node => simp [handle,there]
  · rintro first rfl untouched opened
    cases there : s.shared [piDir,m] with
    | none => simp [handle,there] at opened
    | some node =>
      rcases tracked.origin [piDir,m] (by rw [there]; rfl) with old | ⟨j,e,inside,target⟩
      · rw [absent] at old; cases old
      · by_cases mine : j = k
        · exact untouched e (mine ▸ inside) target
        · rw [others first j mine] at inside
          cases inside

end Autonomizer.SingleModel
