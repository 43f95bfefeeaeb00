import Mathlib
import Autonomizer.Beside

/-! A whole production run on what is left and alone: it returns in both, and each of its
data files is in the end the same file. -/
namespace Autonomizer.Rerun
open ModelDir (kindApart numberApart)
open LastWins (callFramed labelsAfter)
open Beside Data FileIO FileSystem Footprint Format Leftovers Outcome PIInc PIModelManager Process
open ProgIntel PyInterface SingleModel StoreInfo TwoStates

/- An operation at a path of the model. It makes a directory for a load or for data, no file
with the name of a data directory, and of the store files it empties one at most. -/
structure Within (m : Text) (rest : Path) (op : Op) : Prop where
  path : op.path = under m rest
  dir : op = .mkdir (under m rest) → rest.length ≤ 1 ∨ ∃ l d,
    rest = [l,d] ∧ (d = piTrainDir ∨ d = piValidDir)
  file : op.file ≠ none → ∃ top name, rest = top ++ [name] ∧ name ≠ piTrainDir ∧ name ≠ piValidDir
  store : ∀ s, op.file = some (storePath m s) → op = .create (storePath m s)

/- An operation on the model, or one on .piDir that leaves it as it is. -/
def Quiet (m : Text) (op : Op) : Prop :=
  (op.path = [piDir] ∧ op.file = none) ∨ ∃ rest, Within m rest op

/- One of prodWriteStoreInfo is allowed as well. -/
def Inside (m : Text) (op : Op) : Prop := Quiet m op ∨ ∃ s, op.file = some (storePath m s)

section
variable {m : Text} {stg : NNStg} {ctx : PIContext}

theorem quietTest {op : Op} {rest : Path} (path : op.path = under m rest) (test : op.target = none) :
    Quiet m op := by
  have noFile : op.file = none := by
    by_contra some_
    obtain ⟨path,file⟩ := Option.ne_none_iff_exists'.mp some_
    rw [fileTarget file] at test
    cases test
  refine .inr ⟨rest,path,?_,fun file => absurd noFile file,fun s file => ?_⟩
  · rintro rfl
    cases test
  · rw [noFile] at file
    cases file

theorem quietMkdir (m : Text) {rest : Path} (shape : rest.length ≤ 1 ∨ ∃ l d,
    rest = [l,d] ∧ (d = piTrainDir ∨ d = piValidDir)) : Quiet m (.mkdir (under m rest)) :=
  .inr ⟨rest,rfl,fun _ => shape,fun file => absurd rfl file,nofun⟩

theorem quietFile {op : Op} {name : Text} (top : Path) (file : op.file = some (under m (top ++ [name])))
    (plain : name ≠ piTrainDir ∧ name ≠ piValidDir) (other : top ≠ [] ∨ name.getLast? ≠ some 'e') :
    Quiet m op := by
  refine .inr ⟨_,targetPath (fileTarget file),?_,fun _ => ⟨top,name,rfl,plain⟩,fun s same => ?_⟩
  · intro made
    rw [made] at file
    cases file
  · obtain ⟨own,store,ends,_⟩ := storeUnder m s
    have equal := underInjective ((Option.some.inj (file.symm.trans same)).trans store)
    rcases other with deep | last
    · have long := List.length_pos_of_ne_nil deep
      have lengths := congrArg List.length equal
      simp only [List.length_append,List.length_singleton] at lengths
      omega
    · have names : name = own := by simpa using congrArg List.getLast? equal
      exact absurd (names ▸ ends) last

theorem plainName {suffix : Text} {c : Char} (last : suffix.getLast? = some c) (other : c ≠ 'r')
    (base : Text) : base ++ suffix ≠ piTrainDir ∧ base ++ suffix ≠ piValidDir :=
  ⟨kindApart (.inl rfl) last other,kindApart (.inr rfl) last other⟩

theorem plainPy (base : Text) : base ++ ".py".toList ≠ piTrainDir ∧ base ++ ".py".toList ≠ piValidDir :=
  plainName (by decide : ".py".toList.getLast? = some 'y') (by decide) base

theorem plainNumber (n : Int) : decimal n ≠ piTrainDir ∧ decimal n ≠ piValidDir :=
  ⟨numberApart (.inl rfl) n,numberApart (.inr rfl) n⟩

theorem insideStore (m : Text) (stg : NNStg) : ∃ name, storePath m stg = under m [name] ∧
    name ≠ piTrainDir ∧ name ≠ piValidDir := by
  cases stg with
  | one => exact ⟨oneStore m,rfl,plainName (by decide : ".ONE.store".toList.getLast? = some 'e') (by decide) m⟩
  | ens => exact ⟨ensStore m,rfl,plainName (by decide : ".ENS.store".toList.getLast? = some 'e') (by decide) m⟩

theorem quietTouch (m : Text) (stg : NNStg) : Quiet m (.create (storePath m stg)) := by
  obtain ⟨name,path,plain⟩ := insideStore m stg
  refine .inr ⟨[name],path,nofun,fun _ => ⟨[],name,rfl,plain⟩,fun s same => ?_⟩
  rw [Option.some.inj (same : some (storePath m stg) = some (storePath m s))]

theorem placeKnown {place : Text × Nat} (here : dataPlace ctx = some place) :
    place.1 = piTrainDir ∨ place.1 = piValidDir := by
  unfold dataPlace at here
  split at here
  · cases here
    exact .inl rfl
  · split at here
    · cases here
      exact .inr rfl
    · cases here

theorem quietLoadFile {sub : Path} (short : sub.length ≤ 1) {dataDir : Text}
    (named : dataDir = piTrainDir ∨ dataDir = piValidDir) (l : Text) (dataIdx : Nat) :
    Only (Quiet m) (writeLoadFile ctx (under m (sub ++ [dataDir])) l dataIdx) := by
  have path (text : Text) : under m (sub ++ [dataDir]) ++ [text] = under m (sub ++ [dataDir] ++ [text]) := rfl
  have shape : (sub ++ [dataDir]).length ≤ 1 ∨ ∃ l d, sub ++ [dataDir] = [l,d] ∧
      (d = piTrainDir ∨ d = piValidDir) := by
    cases sub with
    | nil => exact .inl le_rfl
    | cons l rest =>
      cases List.eq_nil_of_length_eq_zero (Nat.le_zero.mp (Nat.le_of_succ_le_succ short))
      exact .inr ⟨l,dataDir,rfl,named⟩
  refine onlyWriteLoadFile (quietTest rfl rfl) (quietMkdir m shape) ?_ (fun _ => ?_)
  · exact quietFile _ (congrArg some (path _)) (plainNumber _) (.inl (by simp))
  · exact quietFile _ (congrArg some (path _)) (plainNumber _) (.inl (by simp))

theorem quietStoreFile {sub : Path} (name dataDir : Text) (dataIdx : Nat) :
    Only (Quiet m) (writeStoreFile ctx (under m (sub ++ [dataDir])) dataIdx name) := by
  have path (text : Text) : under m (sub ++ [dataDir]) ++ [text] = under m (sub ++ [dataDir] ++ [text]) := rfl
  exact onlyWriteStoreFile (quietTest rfl rfl)
    (fun _ => quietFile _ (congrArg some (path _)) (plainNumber _) (.inl (by simp)))

theorem quietLoads (loads : List Text) {dataDir : Text} (named : dataDir = piTrainDir ∨ dataDir = piValidDir)
    (dataIdx : Nat) : Only (Quiet m) (writeLoads ctx m stg loads dataDir dataIdx) := by
  cases stg with
  | one =>
    have none_ : ([] : Path).length ≤ 1 := Nat.zero_le 1
    exact onlyBind (onlyAssert _ _) (fun _ => quietLoadFile none_ named (loads.headD []) dataIdx)
  | ens =>
    refine onlyBind (onlyAssert _ _) (fun _ => ?_)
    induction loads with
    | nil => trivial
    | cons l rest ih =>
      have one : ([l] : Path).length ≤ 1 := le_rfl
      exact onlyBind (quietLoadFile one named l dataIdx) (fun _ => ih)

theorem quietStores (loads : List Text) (name dataDir : Text) (dataIdx : Nat) :
    Only (Quiet m) (writeStores ctx m stg loads dataDir dataIdx name) := by
  cases stg with
  | one =>
    have file : Only (Quiet m) (writeStoreFile ctx (under m ([] ++ [dataDir])) dataIdx name) :=
      quietStoreFile name dataDir dataIdx
    exact onlyBind (onlyAssert _ _) (fun _ => file)
  | ens =>
    refine onlyBind (onlyAssert _ _) (fun _ => ?_)
    induction loads with
    | nil => trivial
    | cons l rest ih =>
      have file : Only (Quiet m) (writeStoreFile ctx (under m ([l] ++ [dataDir])) dataIdx name) :=
        quietStoreFile name dataDir dataIdx
      exact onlyBind file (fun _ => ih)

theorem quietCreateDir (loads : List Text) : Only (Quiet m) (createDir ctx m stg loads) := by
  have root : Quiet m (.mkdir (under m [])) := quietMkdir m (.inl (Nat.zero_le 1))
  have test : Quiet m (.opensDir (under m [])) := quietTest rfl rfl
  cases stg with
  | one => exact onlyCreateModelDir test root (quietTouch m .one)
  | ens =>
    have dirs : Only (Quiet m) (createLoadDirs ctx m loads) := by
      refine onlyMono (onlyCreateLoadDirs ctx m loads) ?_
      rintro op ⟨l,_,rfl⟩
      exact quietMkdir m (.inl le_rfl)
    have make := onlyBind (onlyMkdirShared cannotCreate root)
      (fun _ => onlyBind dirs (fun _ => onlyTouch (quietTouch m .ens)))
    exact onlyTested test trivial make ⟨rfl,rfl,rfl⟩

theorem quietProd (loads stores : List Text) : Only (Quiet m) (prod ctx m loads stores) := by
  have main (op : Op) (path : op.path = [piDir]) (quiet : op.file = none) : Quiet m op := .inl ⟨path,quiet⟩
  have template (op : Op) (file : op.file = some (templatePath m)) : Quiet m op :=
    quietFile [] file (plainPy m) (.inr (by rw [lastPy]; decide))
  have loadTemplate (l : Text) (op : Op) (file : op.file = some (loadTemplatePath m l)) : Quiet m op :=
    quietFile [l] file (plainPy l) (.inl (List.cons_ne_nil l []))
  have test {op : Op} (rest : Path) (path : op.path = under m rest) (quiet : op.target = none) :
      Quiet m op := quietTest path quiet
  have dir (rest : Path) (short : rest.length ≤ 1) : Quiet m (.mkdir (under m rest)) :=
    quietMkdir m (.inl short)
  refine onlyProd ctx loads stores ⟨test [oneStore m] rfl rfl,test [_] rfl rfl⟩
    (fun _ => onlyWriteModel (template _ rfl) (fun _ => template _ rfl)) (fun interfaceDir names => ?_)
  exact onlyGenEnsemble ⟨test [] rfl rfl,main _ rfl rfl⟩ (fun l _ => test [l] rfl rfl)
    (fun l _ => test [l,_] rfl rfl) (main _ rfl rfl) (dir [] (Nat.zero_le 1)) (fun l _ => dir [l] le_rfl)
    (fun l _ => loadTemplate l _ rfl) (fun l _ _ => loadTemplate l _ rfl)

theorem quietNN (loads stores : List Text) : Only (Quiet m) (nn ctx m stg loads stores) := by
  refine onlyBind (onlyAssert _ _) (fun _ => onlyBind (onlyAssert _ _) (fun _ => ?_))
  refine onlyBind (onlyLift _) (fun mid => onlyBind (quietCreateDir loads) (fun _ => ?_))
  have python : Only (Quiet m) (if (recordStores mid m stg loads stores).trainIt = 0 then
      prod (recordStores mid m stg loads stores) m loads stores >>= fun _ =>
        pure (recordStores mid m stg loads stores) else pure (recordStores mid m stg loads stores)) := by
    split
    · exact onlyBind (quietProd loads stores) (fun _ => trivial)
    · trivial
  cases here : dataPlace mid with
  | none => exact python
  | some place => exact onlyBind (quietLoads loads (placeKnown here) place.2) (fun _ => python)

theorem insideNN (loads stores : List Text) : Only (Inside m) (nn ctx m stg loads stores) :=
  onlyMono (quietNN loads stores) (fun _ quiet => .inl quiet)

theorem insideStored {name : Text} {loads : List Text}
    (entry : ctx.storeModelMap name = some ((m,stg),loads)) (tID : TypeID) (nmemb : Int) (data : Pointer) :
    Only (Inside m) (store ctx name tID nmemb data) := by
  unfold store
  rw [entry]
  refine onlyBind (onlyLift _) (fun mid => ?_)
  have info : Only (Inside m) (if mid.trainIt = 0 then
      prodWriteStoreInfo m name tID nmemb stg >>= fun _ => pure mid else pure mid) := by
    split
    · obtain ⟨rest,path,_⟩ := insideStore m stg
      have tests : Quiet m (.opensDir (under m [])) ∧ Quiet m (.opens (storePath m stg)) :=
        ⟨quietTest rfl rfl,quietTest path rfl⟩
      have file {op : Op} (file : op.file = some (storePath m stg)) : Inside m op := .inr ⟨stg,file⟩
      exact onlyBind (onlyStoreInfo ⟨.inl tests.1,.inl tests.2⟩ (file rfl) (file rfl) (file rfl))
        (fun _ => trivial)
    · trivial
  cases dataPlace mid with
  | none => exact info
  | some place =>
    exact onlyBind (onlyMono (quietStores loads name place.1 place.2) (fun _ quiet => .inl quiet)) (fun _ => info)

theorem insidePath {op : Op} (inside : Inside m op) : op.path = [piDir] ∨ ∃ rest, op.path = under m rest := by
  rcases inside with (⟨top,_⟩ | ⟨rest,within⟩) | ⟨s,file⟩
  · exact .inl top
  · exact .inr ⟨rest,within.path⟩
  · obtain ⟨name,path,_⟩ := insideStore m s
    exact .inr ⟨[name],(targetPath (fileTarget file)).trans path⟩

theorem insideModel {op : Op} (inside : Inside m op) {other : Text} {rest : Path}
    (path : op.path = under other rest) : other = m ∧
      (op = .mkdir (under m rest) → rest.length ≤ 1 ∨ ∃ l d,
        rest = [l,d] ∧ (d = piTrainDir ∨ d = piValidDir)) ∧
      (op.file ≠ none → ∃ top name, rest = top ++ [name] ∧ name ≠ piTrainDir ∧ name ≠ piValidDir) := by
  have model {own : Path} (same : under m own = under other rest) : other = m ∧ rest = own := by
    obtain ⟨rfl,rfl⟩ := List.cons.inj (List.cons.inj same).2
    exact ⟨rfl,rfl⟩
  rcases inside with (⟨top,_⟩ | ⟨own,within⟩) | ⟨s,file⟩
  · exact absurd (top.symm.trans path) (by simp [under])
  · obtain ⟨rfl,rfl⟩ := model (within.path.symm.trans path)
    exact ⟨rfl,within.dir,within.file⟩
  · obtain ⟨name,store,plain⟩ := insideStore m s
    obtain ⟨rfl,rfl⟩ := model ((store.symm.trans (targetPath (fileTarget file)).symm).trans path)
    refine ⟨rfl,?_,fun _ => ⟨[],name,rfl,plain⟩⟩
    rintro rfl
    cases file

theorem insideFrame {op : Op} (inside : Inside m op) {other : Text} (apart : other ≠ m) (fs : FS)
    (rest : Path) : (handle op fs).2 (under other rest) = fs (under other rest) :=
  handleFrame (fun target => apart (insideModel inside (targetPath target)).1) fs

theorem handleShaped {fs : FS} (shaped : Shaped fs) {op : Op} (inside : Inside m op) :
    Shaped (handle op fs).2 := by
  constructor
  · intro other rest dir
    rcases handleKinds op fs (under other rest) with same | ⟨made,_⟩ | ⟨_,_,text,file⟩
    · exact shaped.dir other rest (same ▸ dir)
    · obtain ⟨rfl,shape,_⟩ := insideModel inside (by rw [made]; rfl : op.path = under other rest)
      exact shape made
    · rw [file] at dir
      cases dir
  · intro other rest text file
    rcases handleKinds op fs (under other rest) with same | ⟨_,_,dir⟩ | ⟨touched,_⟩
    · exact shaped.file other rest text (same ▸ file)
    · rw [dir] at file
      cases file
    · refine (insideModel inside (targetPath (fileTarget touched))).2.2 ?_
      rw [touched]
      exact nofun

def Recorded (fs : FS) : Prop := ∀ m stg, ∃ records, contents fs (storePath m stg) = recordsText records

theorem recordedUpdate {fs : FS} (recorded : Recorded fs) (m : Text) (stg : NNStg)
    (records : List (Text × Info)) :
    Recorded (Function.update fs (storePath m stg) (some (.file (recordsText records)))) := by
  intro other s
  by_cases mine : storePath other s = storePath m stg
  · rw [mine,contentsFile (Function.update_self ..)]
    exact ⟨records,rfl⟩
  · rw [contentsApart mine]
    exact recorded other s

theorem quietRecorded {fs : FS} (recorded : Recorded fs) {op : Op} (quiet : Quiet m op) :
    Recorded (handle op fs).2 := by
  intro other s
  by_cases mine : op.file = some (storePath other s)
  · rcases quiet with ⟨_,noFile⟩ | ⟨rest,within⟩
    · rw [noFile] at mine
      cases mine
    · obtain ⟨name,store,_⟩ := insideStore other s
      have same := (within.path.symm.trans (targetPath (fileTarget mine))).trans store
      cases (List.cons.inj (List.cons.inj same).2).1
      have made := within.store s mine
      rw [contents,handleEffect,made]
      cases (handle (.create (storePath m s)) fs).1 with
      | ok => exact ⟨[],by simp [effect,recordsText]⟩
      | _ => exact recorded m s
  · rw [contents,handleFile mine]
    exact recorded other s

theorem refusedRecorded {fs : FS} (recorded : Recorded fs) {op : Op} {path : Path}
    (put : op = .create path ∨ ∃ text, op = .append path text) (refused : (handle op fs).1 ≠ .ok) :
    Recorded (handle op fs).2 := by
  intro other s
  rw [contents,handleEffect]
  rcases put with rfl | ⟨text,rfl⟩
  · cases reply : (handle (.create path) fs).1 with
    | ok => exact absurd reply refused
    | _ => exact recorded other s
  · cases reply : (handle (.append path text) fs).1 with
    | ok => exact absurd reply refused
    | _ => exact recorded other s

theorem storeInfoRecorded (m name : Text) (tID : TypeID) (nmemb : Int) (stg : NNStg) :
    Keeps handle Recorded (prodWriteStoreInfo m name tID nmemb stg) := by
  intro s recorded
  rw [prodWriteStoreInfo,execPerform,testSame rfl]
  cases (handle (.opensDir [piDir,m]) s).1 with
  | ok =>
    show Recorded (((perform (.opens (storePath m stg)) : Steps Reply) >>= _).exec handle s).2
    rw [execPerform,testSame rfl]
    cases (handle (.opens (storePath m stg)) s).1 with
    | ok =>
      show Recorded (((perform (.append (storePath m stg) (storeRecord name tID nmemb)) :
        Steps Reply) >>= _).exec handle s).2
      rw [execPerform]
      cases added : (handle (.append (storePath m stg) (storeRecord name tID nmemb)) s).1 with
      | ok =>
        show Recorded (handle (.append (storePath m stg) (storeRecord name tID nmemb)) s).2
        obtain ⟨records,same⟩ := recorded m stg
        rw [appendOk added,same]
        have more := recordedUpdate recorded m stg (records ++ [(name,(tID,nmemb))])
        rwa [recordsSnoc] at more
      | _ => exact refusedRecorded recorded (.inr ⟨_,rfl⟩) (by rw [added]; exact fun other => by cases other)
    | _ =>
      show Recorded ((touch (storePath m stg) >>= _).exec handle s).2
      cases made : (handle (.create (storePath m stg)) s).1 with
      | ok =>
        have opened : (touch (storePath m stg)).exec handle s =
            (.ok (),Function.update s (storePath m stg) (some (.file []))) := by
          rw [touch,execPerform,made,createOk made]
          rfl
        rw [execReturned opened,execPerform,writeNew]
        have one := recordedUpdate recorded m stg [(name,(tID,nmemb))]
        rwa [recordsText,List.flatMap_singleton] at one
      | _ =>
        have failed : (touch (storePath m stg)).exec handle s =
            (.error .null,(handle (.create (storePath m stg)) s).2) := by
          rw [touch,execPerform,made]
          rfl
        rw [execStopped failed]
        exact refusedRecorded recorded (.inl rfl) (by rw [made]; exact fun other => by cases other)
  | _ => exact recorded

theorem keepsLift {α : Type} {I : FS → Prop} (x : Except Stop α) : Keeps handle I (lift x) := by
  cases x with
  | ok a => exact keepsPure a
  | error e => exact keepsStop e

theorem keepsQuiet {α : Type} {p : Steps α} (only : Only (Quiet m) p) : Keeps handle Recorded p :=
  keepsOnly only (fun _ _ quiet recorded => quietRecorded recorded quiet)

theorem storeRecorded (ctx : PIContext) (name : Text) (tID : TypeID) (nmemb : Int) (data : Pointer) :
    Keeps handle Recorded (store ctx name tID nmemb data) := by
  unfold store
  split
  · exact keepsStop _
  · next m stg loads _ =>
    refine keepsBind (keepsLift _) (fun mid => ?_)
    have info : Keeps handle Recorded (if mid.trainIt = 0 then
        prodWriteStoreInfo m name tID nmemb stg >>= fun _ => pure mid else pure mid) := by
      split
      · exact keepsBind (storeInfoRecorded m name tID nmemb stg) (fun _ => keepsPure mid)
      · exact keepsPure mid
    cases dataPlace mid with
    | none => exact info
    | some place => exact keepsBind (keepsQuiet (quietStores loads name place.1 place.2)) (fun _ => info)

/- What every run keeps: .piDir, where its entries are, and what its store files hold. -/
structure Kept (fs : FS) : Prop where
  main : fs [piDir] = some .dir
  rooted : Rooted [piDir] fs
  shaped : Shaped fs
  recorded : Recorded fs

theorem insideKept {α : Type} {p : Steps α} (only : Only (Inside m) p)
    (recorded : Keeps handle Recorded p) : Keeps handle Kept p := by
  intro s kept
  have others := keepsOnly (I := fun fs => fs [piDir] = some .dir ∧ Rooted [piDir] fs ∧ Shaped fs) only
    (fun op fs inside there => ⟨(handleGrows op fs).dir _ there.1,handleRooted there.2.1 op,
      handleShaped there.2.2 inside⟩) s ⟨kept.main,kept.rooted,kept.shaped⟩
  exact ⟨others.1,others.2.1,others.2.2,recorded s kept.recorded⟩

theorem callKept (ctx : PIContext) (c : ProgIntel.Call) : Keeps handle Kept (ProgIntel.call ctx c) := by
  cases c with
  | piLoad name tID nmemb data doAlloc => exact keepsLift _
  | piLoadCB name tID nmemb cb => exact keepsLift _
  | piNN m stg loads stores =>
    exact insideKept (insideNN loads stores) (keepsQuiet (quietNN loads stores))
  | piStore name tID nmemb data =>
    cases entry : ctx.storeModelMap name with
    | none =>
      rw [ProgIntel.call,store,entry]
      exact keepsStop _
    | some labelled =>
      obtain ⟨⟨m,stg⟩,loads⟩ := labelled
      exact insideKept (insideStored entry tID nmemb data) (storeRecorded ctx name tID nmemb data)
  | poke data bytes =>
    rw [ProgIntel.call]
    split
    · exact keepsStop _
    · exact keepsPure _

theorem callsKept (ctx : PIContext) (script : List ProgIntel.Call) : Keeps handle Kept (calls ctx script) := by
  induction script generalizing ctx with
  | nil => exact keepsPure ctx
  | cons c rest ih => exact keepsBind (callKept ctx c) (fun next => ih next)

theorem runKept (r : Supervised) : Keeps handle Kept r.run := by
  have init : Only (Quiet []) prodInit := by
    refine onlyTested (.inl ⟨rfl,rfl⟩) trivial ?_ ⟨rfl,rfl,rfl⟩
    exact onlyTested (.inl ⟨rfl,rfl⟩) trivial trivial ⟨rfl,rfl,rfl⟩
  refine keepsBind (insideKept (onlyMono init (fun _ quiet => .inl quiet)) (keepsQuiet init)) (fun _ => ?_)
  induction r.order with
  | nil => exact keepsPure ()
  | cons k rest ih =>
    refine keepsBind ?_ (fun _ => ih)
    unfold production
    split
    · exact keepsBind (callsKept _ _) (fun _ => keepsPure ())
    · exact keepsPure ()

end

/- A model in the two runs: what is left of it, if anything, and what each run has made. -/
structure Twin (r : Supervised) (left : FS) (m : Text) (alone again : FS) : Prop where
  fresh : left (under m []) = none → ∀ rest, again (under m rest) = alone (under m rest)
  old : left (under m []) ≠ none → ∀ k stg loads, r.Uses k m stg loads →
    Core r left m alone again ∧ (alone (under m []) = some .dir → Made r m stg alone)
  other : (∀ k stg loads, ¬ r.Uses k m stg loads) →
    ∀ rest, again (under m rest) = left (under m rest) ∧ alone (under m rest) = none

structure Both (r : Supervised) (left alone again : FS) : Prop where
  ground : Ground left alone again
  each : ∀ m, Twin r left m alone again

structure Remains (r : Supervised) (left : FS) : Prop where
  kept : Kept left
  clean : Clean r left

section
variable {r : Supervised} {left alone again : FS} {m : Text} {stg : NNStg}

theorem Remains.base (remains : Remains r left) (some_ : left (under m []) ≠ none) {k : Nat}
    {loads : List Text} (uses : r.Uses k m stg loads) : Base r left m :=
  baseOf remains.kept.shaped some_ (remains.clean k m stg loads some_ uses)

theorem coreFrame (core : Core r left m alone again) {next after : FS}
    (first : ∀ rest, next (under m rest) = alone (under m rest))
    (second : ∀ rest, after (under m rest) = again (under m rest)) :
    Core r left m next after := by
  have stores (s : NNStg) : next (storePath m s) = alone (storePath m s) ∧
      after (storePath m s) = again (storePath m s) := by
    obtain ⟨name,path,_⟩ := insideStore m s
    rw [path]
    exact ⟨first [name],second [name]⟩
  have texts (s : NNStg) : contents next (storePath m s) = contents alone (storePath m s) ∧
      contents after (storePath m s) = contents again (storePath m s) := by
    simp only [contents,(stores s).1,(stores s).2,and_self]
  constructor
  · simpa only [second] using core.noFile
  · simpa only [second] using core.noDir
  · intro k s loads uses
    rw [(stores s).2]
    exact core.storeFile k s loads uses
  · simpa only [first,second] using core.data
  · intro s
    rw [(texts s).1,(texts s).2]
    exact core.store s
  · rw [(stores .one).1,(stores .one).2]
    exact core.present
  · obtain ⟨used,single,bare,unread⟩ := core.solo
    rw [← (stores .one).1] at used single bare unread
    rw [← (texts .ens).1] at unread
    exact ⟨used,single,by simpa only [first] using bare,unread⟩

theorem twinFrame (twin : Twin r left m alone again) {next after : FS}
    (first : ∀ rest, next (under m rest) = alone (under m rest))
    (second : ∀ rest, after (under m rest) = again (under m rest)) : Twin r left m next after where
  fresh none_ rest := by
    rw [first,second]
    exact twin.fresh none_ rest
  old some_ k stg loads uses := by
    obtain ⟨core,made⟩ := twin.old some_ k stg loads uses
    refine ⟨coreFrame core first second,fun there one single => ?_⟩
    rw [first] at there
    have same : next (storePath m .one) = alone (storePath m .one) := first [oneStore m]
    rw [same]
    exact made there one single
  other unused rest := by
    rw [first,second]
    exact twin.other unused rest

theorem dirKept {op : Op} {fs : FS} (dir : fs op.path = some .dir) : (handle op fs).2 = fs := by
  cases op <;> simp only [Op.path] at dir <;> simp [handle,dir]

theorem dirSame {op : Op} {fs other : FS} (here : fs op.path = some .dir)
    (there : other op.path = some .dir) : (handle op fs).1 = (handle op other).1 := by
  cases op <;> simp only [Op.path] at here there <;> simp [handle,here,there]

theorem freshStep (remains : Remains r left) (none_ : left (under m []) = none) {k : Nat}
    {loads : List Text} (uses : r.Uses k m stg loads) {op : Op} (inside : Inside m op)
    (both : Both r left alone again) : (handle op alone).1 = (handle op again).1 ∧
      Both r left (handle op alone).2 (handle op again).2 := by
  have ground := groundAgain (groundAlone both.ground op) op
  have top := both.ground.grows.dir _ remains.kept.main
  have frame {other : Text} (apart : other ≠ m) := insideFrame inside apart
  rcases insidePath inside with path | ⟨rest,path⟩
  · have here : alone op.path = some .dir := by rw [path]; exact both.ground.main
    have there : again op.path = some .dir := by rw [path]; exact top
    refine ⟨dirSame here there,?_⟩
    rw [dirKept here,dirKept there]
    exact both
  · have same := (both.each m).fresh none_
    have here : again op.path = alone op.path := by
      rw [path]
      exact same rest
    have parent : again op.path.dropLast = alone op.path.dropLast := by
      rw [path]
      cases rest with
      | nil => exact top.trans both.ground.main.symm
      | cons name rest => exact same (name :: rest).dropLast
    obtain ⟨reply,own⟩ := handleLocal here parent
    refine ⟨reply.symm,ground,fun other => ?_⟩
    by_cases mine : other = m
    · subst mine
      refine ⟨fun _ there => ?_,fun some_ => absurd none_ some_,fun unused => absurd uses (unused k stg loads)⟩
      by_cases equal : op.path = under other there
      · rw [← equal]
        exact own
      · have apart : op.target ≠ some (under other there) := fun target => equal (targetPath target)
        rw [handleFrame apart,handleFrame apart]
        exact same there
    · exact twinFrame (both.each other) (frame mine alone) (frame mine again)

def NetworkDone (r : Supervised) (left : FS) (k : Nat) (m : Text) (stg : NNStg) (loads : List Text)
    (alone again : FS) : Prop :=
  left (under m []) ≠ none →
    Made r m stg alone ∧ loads ≠ [] ∧ ∀ sub ∈ subs stg loads, DoneAt m (placeOf r.n k) sub alone again

def Seen (r : Supervised) (left : FS) (k : Nat) (script : List ProgIntel.Call) (alone again : FS) :
    Prop :=
  ∀ m stg loads stores, .piNN m stg loads stores ∈ script → NetworkDone r left k m stg loads alone again

theorem networkStays {k : Nat} {loads : List Text} {next after : FS}
    (done : NetworkDone r left k m stg loads alone again) (first : Grows alone next)
    (second : Grows again after) : NetworkDone r left k m stg loads next after := by
  intro some_
  obtain ⟨made,loaded,files⟩ := done some_
  exact ⟨fun one single => keptPresent first (made one single),loaded,
    fun sub inside => doneStays (files sub inside) first second⟩

theorem seenStays {k : Nat} {script : List ProgIntel.Call} {next after : FS}
    (seen : Seen r left k script alone again) (first : Grows alone next) (second : Grows again after) :
    Seen r left k script next after :=
  fun m stg loads stores inside => networkStays (seen m stg loads stores inside) first second

theorem seenFollows {α : Type} {R : FS → FS → Prop} {p : Steps α} {Q : α → FS → FS → Prop} {k : Nat}
    {script : List ProgIntel.Call} (follows : Follows handle R p Q)
    (before : ∀ s t, R s t → Seen r left k script s t) :
    Follows handle R p (fun a s t => Q a s t ∧ Seen r left k script s t) :=
  followsKeeping follows before (fun op s _ seen => seenStays seen (handleGrows op s) (growsRefl _))
    (fun op _ t seen => seenStays seen (growsRefl _) (handleGrows op t))

theorem othersFollow {α : Type} {R : FS → FS → Prop} {p : Steps α} {Q : α → FS → FS → Prop}
    (only : Only (Inside m) p) (follows : Follows handle R p Q) (before : ∀ s t, R s t → Both r left s t) :
    Follows handle R p (fun a s t => Q a s t ∧ ∀ other, other ≠ m → Twin r left other s t) := by
  refine followsApart only follows (fun s t related other _ => (before s t related).each other) ?_ ?_
  · exact fun op s t inside twins other apart => twinFrame (twins other apart)
      (insideFrame inside apart s) (fun _ => rfl)
  · exact fun op s t inside twins other apart => twinFrame (twins other apart)
      (fun _ => rfl) (insideFrame inside apart t)

theorem freshFollows {α : Type} {p : Steps α} {k : Nat} {loads : List Text} (remains : Remains r left)
    (uses : r.Uses k m stg loads) (none_ : left (under m []) = none) (only : Only (Inside m) p) :
    Follows handle (Both r left) p (fun _ => Both r left) :=
  followsSame only (fun _ _ _ inside both => freshStep remains none_ uses inside both)

theorem bothOld (some_ : left (under m []) ≠ none)
    (ready : Old r left m alone again ∧ Made r m stg alone) {k : Nat} {loads : List Text}
    (uses : r.Uses k m stg loads) (others : ∀ other, other ≠ m → Twin r left other alone again) :
    Both r left alone again := by
  refine ⟨ready.1.2,fun other => ?_⟩
  by_cases mine : other = m
  · subst mine
    refine ⟨fun none_ => absurd none_ some_,fun _ _ _ _ _ => ⟨ready.1.1,fun _ one single => ?_⟩,
      fun unused => absurd uses (unused k stg loads)⟩
    cases stg with
    | one => exact ready.2 rfl single
    | ens => exact absurd uses (single k loads)
  · exact others other mine

theorem nnBoth (remains : Remains r left) {k : Nat} {ctx : PIContext}
    {loads : List Text} (uses : r.Uses k m stg loads) (place : dataPlace ctx = some (placeOf r.n k))
    (stores : List Text) : Follows handle (Both r left) (nn ctx m stg loads stores)
      (fun _ s t => Both r left s t ∧ NetworkDone r left k m stg loads s t) := by
  by_cases none_ : left (under m []) = none
  · exact followsWeaken (freshFollows remains uses none_ (insideNN loads stores)) (fun _ _ both => both)
      (fun _ _ _ both => ⟨both,fun some_ => absurd none_ some_⟩)
  · have own := followsWeaken (nnFollows (remains.base none_ uses) uses place stores)
      (fun s t (both : Both r left s t) =>
        have twin := (both.each m).old none_ k stg loads uses
        ⟨⟨twin.1,both.ground⟩,twin.2⟩) (fun _ _ _ ready => ready)
    refine followsWeaken (othersFollow (insideNN loads stores) own (fun _ _ both => both))
      (fun _ _ both => both) ?_
    rintro next s t ⟨⟨old,made,done⟩,others⟩
    exact ⟨bothOld none_ ⟨old,made⟩ uses others,fun _ => ⟨made,done⟩⟩

theorem storeBoth (remains : Remains r left) {k : Nat} {ctx : PIContext}
    {loads : List Text} (uses : r.Uses k m stg loads) (place : dataPlace ctx = some (placeOf r.n k))
    {name : Text} (entry : ctx.storeModelMap name = some ((m,stg),loads)) (tID : TypeID) (nmemb : Int)
    (data : Pointer) : Follows handle
      (fun s t => Both r left s t ∧ NetworkDone r left k m stg loads s t)
      (store ctx name tID nmemb data) (fun _ => Both r left) := by
  have only := insideStored entry tID nmemb data
  by_cases none_ : left (under m []) = none
  · exact followsWeaken (freshFollows remains uses none_ only) (fun _ _ related => related.1)
      (fun _ _ _ both => both)
  · have own := followsWeaken (storeFollows (remains.base none_ uses) uses place entry tID nmemb data)
      (fun s t (related : Both r left s t ∧ NetworkDone r left k m stg loads s t) =>
        have twin := (related.1.each m).old none_ k stg loads uses
        ⟨⟨twin.1,related.1.ground⟩,related.2 none_⟩) (fun _ _ _ ready => ready)
    refine followsWeaken (othersFollow only own (fun _ _ related => related.1))
      (fun _ _ related => related) ?_
    rintro next s t ⟨⟨old,made,_⟩,others⟩
    exact bothOld none_ ⟨old,made⟩ uses others

/- The entries of storeModelMap are of networks that have been called. -/
def Linked (script : List ProgIntel.Call) (ctx : PIContext) : Prop :=
  ∀ name m stg loads, ctx.storeModelMap name = some ((m,stg),loads) →
    ∃ stores, .piNN m stg loads stores ∈ script

theorem callLinked {script : List ProgIntel.Call} {c : ProgIntel.Call} {ctx last : PIContext}
    {log : Log Op Reply} (linked : Linked script ctx) (ran : Ran (ProgIntel.call ctx c) log last) :
    dataPlace last = dataPlace ctx ∧ Linked (script ++ [c]) last := by
  obtain ⟨framed,same,rfl⟩ := callFramed ran
  have place : dataPlace framed = dataPlace ctx := by
    rw [same]
    rfl
  have here : Linked (script ++ [c]) framed := by
    intro name m stg loads entry
    rw [same] at entry
    obtain ⟨stores,inside⟩ := linked name m stg loads entry
    exact ⟨stores,List.mem_append_left _ inside⟩
  cases c with
  | piNN m stg loads stores =>
    refine ⟨place,fun name other stg' names entry => ?_⟩
    simp only [labelsAfter,recordStores] at entry
    split at entry
    · cases entry
      exact ⟨stores,List.mem_append_right _ (List.mem_singleton_self _)⟩
    · exact here name other stg' names entry
  | _ => exact ⟨place,here⟩

theorem liftBoth {α : Type} {R : FS → FS → Prop} (x : Except Stop α) :
    Follows handle R (lift x) (fun _ => R) := by
  cases x with
  | ok a => exact followsPure fun _ _ related => related
  | error e => exact followsStop _

theorem callBoth (remains : Remains r left) {k : Nat} {ctx : PIContext}
    {done : List ProgIntel.Call} {c : ProgIntel.Call} (below : k < r.n + r.v)
    (script : ∀ d ∈ done ++ [c], d ∈ r.scripts k) (place : dataPlace ctx = some (placeOf r.n k))
    (linked : Linked done ctx) : Follows handle
      (fun s t => Both r left s t ∧ Seen r left k done s t) (ProgIntel.call ctx c)
      (fun _ s t => Both r left s t ∧ Seen r left k (done ++ [c]) s t) := by
  have uses {m : Text} {stg : NNStg} {loads stores : List Text}
      (called : .piNN m stg loads stores ∈ done ++ [c]) : r.Uses k m stg loads :=
    ⟨below,stores,script _ called⟩
  have quiet {s t : FS} (other : ∀ m stg loads stores, c ≠ .piNN m stg loads stores)
      (seen : Seen r left k done s t) : Seen r left k (done ++ [c]) s t := by
    intro m stg loads stores inside
    rcases List.mem_append.mp inside with early | late
    · exact seen m stg loads stores early
    · exact absurd (List.mem_singleton.mp late).symm (other m stg loads stores)
  have lifted {α : Type} (x : Except Stop α) (other : ∀ m stg loads stores, c ≠ .piNN m stg loads stores) :
      Follows handle (fun s t => Both r left s t ∧ Seen r left k done s t) (lift x)
        (fun _ s t => Both r left s t ∧ Seen r left k (done ++ [c]) s t) :=
    followsWeaken (liftBoth x) (fun _ _ related => related)
      (fun _ _ _ related => ⟨related.1,quiet other related.2⟩)
  cases c with
  | piLoad name tID nmemb data doAlloc => exact lifted _ (fun _ _ _ _ other => by cases other)
  | piLoadCB name tID nmemb cb => exact lifted _ (fun _ _ _ _ other => by cases other)
  | piNN m stg loads stores =>
    have here := uses (List.mem_append_right done
      (List.mem_singleton_self (ProgIntel.Call.piNN m stg loads stores)))
    have network := followsWeaken (nnBoth remains here place stores)
      (fun s t (related : Both r left s t ∧ Seen r left k done s t) => related.1) (fun _ _ _ after => after)
    refine followsWeaken (seenFollows network (fun _ _ related => related.2)) (fun _ _ related => related) ?_
    rintro next s t ⟨⟨both,made⟩,seen⟩
    refine ⟨both,fun m' stg' loads' stores' inside => ?_⟩
    rcases List.mem_append.mp inside with early | late
    · exact seen m' stg' loads' stores' early
    · cases List.mem_singleton.mp late
      exact made
  | piStore name tID nmemb data =>
    show Follows handle _ (store ctx name tID nmemb data) _
    cases entry : ctx.storeModelMap name with
    | none =>
      unfold store
      rw [entry]
      exact followsStop _
    | some labelled =>
      obtain ⟨⟨m,stg⟩,loads⟩ := labelled
      obtain ⟨stores,called⟩ := linked name m stg loads entry
      have here := uses (List.mem_append_left _ called)
      have stored := followsWeaken (storeBoth remains here place entry tID nmemb data)
        (fun s t (related : Both r left s t ∧ Seen r left k done s t) =>
          ⟨related.1,related.2 m stg loads stores called⟩) (fun _ _ _ both => both)
      exact followsWeaken (seenFollows stored (fun _ _ related => related.2)) (fun _ _ related => related)
        (fun _ _ _ related => ⟨related.1,quiet (fun _ _ _ _ other => by cases other) related.2⟩)
  | poke data bytes =>
    rw [ProgIntel.call]
    split
    · exact followsStop _
    · exact followsPure fun _ _ related => ⟨related.1,quiet (fun _ _ _ _ other => by cases other) related.2⟩

theorem callsBoth (remains : Remains r left) {k : Nat} {ctx : PIContext}
    {done rest : List ProgIntel.Call} (below : k < r.n + r.v)
    (script : ∀ d ∈ done ++ rest, d ∈ r.scripts k) (place : dataPlace ctx = some (placeOf r.n k))
    (linked : Linked done ctx) : Follows handle
      (fun s t => Both r left s t ∧ Seen r left k done s t) (calls ctx rest)
      (fun _ s t => Both r left s t ∧ Seen r left k (done ++ rest) s t) := by
  induction rest generalizing ctx done with
  | nil =>
    rw [List.append_nil]
    exact followsPure fun _ _ related => related
  | cons c rest ih =>
    rw [List.append_cons] at script ⊢
    have one := followsReturned (callBoth remains below
      (fun d inside => script d (List.mem_append_left _ inside)) place linked)
      (fun _ _ ran => callLinked linked ran)
    refine followsBind one (fun next s t u s' related => ?_)
    obtain ⟨both,same,still⟩ := related
    exact ih script (same.trans place) still s t u s' both

def AllSeen (r : Supervised) (left : FS) (done : List Nat) (alone again : FS) : Prop :=
  ∀ k ∈ done, k < r.n + r.v → Seen r left k (r.scripts k) alone again

theorem productionBoth (remains : Remains r left) (k : Nat) :
    Follows handle (Both r left) (production r.modPath r.n r.v r.scripts k)
      (fun _ s t => Both r left s t ∧ (k < r.n + r.v → Seen r left k (r.scripts k) s t)) := by
  unfold production
  split
  · next below =>
    have linked : Linked [] (childContext r.modPath r.n r.v k) := nofun
    have whole := followsWeaken (callsBoth remains below (fun d inside => inside)
      (childPlace r.modPath below) linked)
      (fun s t (both : Both r left s t) => ⟨both,nofun⟩) (fun _ _ _ after => after)
    exact followsBind whole (fun _ => followsPure fun _ _ related => ⟨related.1,fun _ => related.2⟩)
  · next outside => exact followsPure fun _ _ both => ⟨both,fun below => absurd below outside⟩

theorem childrenBoth (remains : Remains r left) (done order : List Nat) :
    Follows handle (fun s t => Both r left s t ∧ AllSeen r left done s t) (r.children order)
      (fun _ s t => Both r left s t ∧ AllSeen r left (done ++ order) s t) := by
  induction order generalizing done with
  | nil =>
    rw [List.append_nil]
    exact followsPure fun _ _ related => related
  | cons k rest ih =>
    have one := followsWeaken (productionBoth remains k)
      (fun s t (related : Both r left s t ∧ AllSeen r left done s t) => related.1) (fun _ _ _ after => after)
    have kept := followsKeeping (P := AllSeen r left done) one (fun _ _ related => related.2)
      (fun op s t seen j inside below => seenStays (seen j inside below) (handleGrows op s) (growsRefl t))
      (fun op s t seen j inside below => seenStays (seen j inside below) (growsRefl s) (handleGrows op t))
    rw [List.append_cons]
    refine followsBind kept (fun _ => followsWeaken (ih (done ++ [k])) ?_ (fun _ _ _ after => after))
    rintro s t ⟨⟨both,own⟩,seen⟩
    refine ⟨both,fun j inside below => ?_⟩
    rcases List.mem_append.mp inside with early | late
    · exact seen j early below
    · cases List.mem_singleton.mp late
      exact own below

/- .piDir with nothing in it. -/
structure Empty (fs : FS) : Prop where
  main : fs [piDir] = some .dir
  below : ∀ rest, rest ≠ [] → fs (piDir :: rest) = none

theorem emptyRooted {fs : FS} (empty : Empty fs) : Rooted [piDir] fs := by
  rintro path name ⟨rest,rfl⟩ there
  have none_ := empty.below (rest ++ [name]) (by simp)
  rw [List.append_assoc] at there
  rw [show [piDir] ++ (rest ++ [name]) = piDir :: (rest ++ [name]) from rfl,none_] at there
  cases there

theorem startBoth {fs : FS} (empty : Empty fs) (remains : Remains r left) : Both r left fs left := by
  have none_ (m : Text) (rest : Path) : fs (under m rest) = none := empty.below (m :: rest) nofun
  refine ⟨⟨empty.main,emptyRooted empty,growsRefl left⟩,fun m => ?_⟩
  have stores (s : NNStg) : fs (storePath m s) = none := by
    obtain ⟨name,path,_⟩ := insideStore m s
    rw [path]
    exact none_ m [name]
  refine ⟨fun absent rest => ?_,fun some_ k stg loads uses => ⟨?_,fun dir => ?_⟩,fun _ rest => ⟨rfl,none_ m rest⟩⟩
  · rw [none_]
    cases rest with
    | nil => exact absent
    | cons name rest =>
      have noDir : left (under m []) ≠ some .dir := by
        rw [absent]
        exact nofun
      exact rootedNone remains.kept.rooted ⟨[m],rfl⟩ noDir (List.cons_ne_nil name rest)
  · have base := remains.base some_ uses
    have noText (s : NNStg) : fileText (fs (storePath m s)) = none := by
      rw [stores]
      rfl
    refine ⟨base.noFile,base.noDir,base.storeFile,fun rest _ => .inr ⟨?_,rfl⟩,fun s => ?_,fun there => .inl there,?_⟩
    · rw [none_]
      rfl
    · rw [contents,contents,noText,Option.getD_none,List.append_nil]
    · refine ⟨fun some_ => absurd (noText .one) some_,fun dir => ?_,fun empty => ?_,fun empty => ?_⟩
      · rw [stores] at dir
        cases dir
      · rw [noText] at empty
        cases empty
      · rw [noText] at empty
        cases empty
  · rw [none_] at dir
    cases dir

theorem runBoth {fs : FS} (empty : Empty fs) (remains : Remains r left)
    (completes : r.run.exec handle fs = (.ok (),alone)) :
    ∃ after, r.run.exec handle left = (.ok (),after) ∧ Both r left alone after ∧
      AllSeen r left r.order alone after := by
  have begins {fs : FS} (dir : fs [piDir] = some .dir) :
      r.run.exec handle fs = (r.children r.order).exec handle fs := by
    have init : prodInit.exec handle fs = (.ok (),fs) := by
      have reply : handle (.opens [piDir]) fs = (.ok,fs) := by simp [handle,dir]
      rw [prodInit,execPerform,reply]
      rfl
    exact execReturned init
  rw [begins empty.main] at completes
  rw [begins remains.kept.main]
  exact childrenBoth remains [] r.order fs left () alone
    ⟨startBoth empty remains,fun _ other => by cases other⟩ completes

theorem emptyKept {fs : FS} (empty : Empty fs) : Kept fs := by
  have none_ (m : Text) (rest : Path) : fs (under m rest) = none := empty.below (m :: rest) nofun
  refine ⟨empty.main,emptyRooted empty,⟨fun m rest dir => ?_,fun m rest text file => ?_⟩,fun m stg => ⟨[],?_⟩⟩
  · rw [none_] at dir
    cases dir
  · rw [none_] at file
    cases file
  · obtain ⟨name,path,_⟩ := insideStore m stg
    rw [path,contents,none_]
    rfl

theorem sameData (remains : Remains r left) (both : Both r left alone again)
    (seen : AllSeen r left r.order alone again) {rest : Path} (below : Below r m rest) :
    fileText (again (under m rest)) = fileText (alone (under m rest)) := by
  by_cases none_ : left (under m []) = none
  · rw [(both.each m).fresh none_]
  · obtain ⟨dir,more,⟨k,stg,loads,uses,sub⟩,some_,shape⟩ := id below
    have reusable := (remains.base none_ uses).toReusable
    rcases ((both.each m).old none_ k stg loads uses).1.data rest below with same | ⟨absent,same⟩
    · exact same
    · rw [same,absent]
      by_contra there
      have found := Option.ne_none_iff_isSome.mp there
      obtain ⟨j,stg',names,⟨inRange,stores,called⟩,sub',inside,rfl⟩ := reusable.data rest below found
      have listed : j ∈ r.order := r.whole.mem_iff.mpr (List.mem_range.mpr inRange)
      have file := ((seen j listed inRange m stg' names stores called none_).2.2 sub' inside).2
      rw [absent] at file
      cases file

end

end Autonomizer.Rerun
